import Fscq.FuseFile
import Fscq.MkfsDisk

/-!
# Runs of the file server

The requests that the server answers as one type.  Each of them is a sequence of calls of the file
system; `Fuse.Good` holds between two requests, in every state that a new file system gets into by
requests that do no harm (`Fuse.Request.Meets`).  The sizes of the files are then within their
blocks, which is what keeps the block numbers of reads and writes in range.
-/

namespace Fscq

open CrashProg

open Hslib (ByteString)

open BFILE (MemState)

open LogSt (Flushed)

open AFS (Ok Effect InTree inTree_iff)

namespace Fuse

/-! ### Requests -/

/-- What a request returns. -/
inductive Answer
  | done
  | handle (inum : ℕ)
  | bytes (bs : ByteString)
  | written (c : ℕ)

/-- The requests of a client.  Reads, writes and syncs are about an open file. -/
inductive Request
  | openFile (nameparts : List Sname) (trunc : Bool)
  | createFile (dirparts : List Sname) (filename : Sname)
  | create (dirparts : List Sname) (filename : Sname) (entrytype : EntryType)
  | createDir (dirparts : List Sname) (filename : Sname)
  | unlink (dirparts : List Sname) (filename : Sname)
  | read (inum byteCount offset : ℕ)
  | write (inum : ℕ) (bs : ByteString) (offset : ℕ)
  | setFileSize (nameparts : List Sname) (size : ℕ)
  | rename (srcparts : List Sname) (srcname : Sname) (dstparts : List Sname) (dstname : Sname)
  | syncFile (inum : ℕ) (syncType : SyncType)
  | syncDir

/-- The answer of a request that returns only an error number. -/
def ofPosix : Posix → Except Posix Answer
  | .eOK => .ok .done
  | e => .error e

theorem canAdd_of_cached {fsxp : FsXparams} {m : Mem} {ams ams' : MemState} {d : ℕ} {name : Sname}
    (hc : DIRTREE.Cached ams ams') :
    AFS.CanAdd fsxp m ams' d name ↔ AFS.CanAdd fsxp m ams d name := by
  rw [AFS.CanAdd, AFS.CanAdd, DIRTREE.CanLink.of_cached hc]
  obtain ⟨c, c', rfl⟩ := hc
  rfl

theorem errnoToPosix_ne (e : Errno) : errnoToPosix e ≠ .eOK := by
  cases e <;> exact Posix.noConfusion

def Request.prog (root : ℕ) : Request → FuseProg (Except Posix Answer)
  | .openFile nameparts trunc => do
    let r ← fscqOpen root nameparts trunc
    pure (r.map .handle)
  | .createFile dirparts filename => do
    let r ← fscqCreateFile root dirparts filename
    pure (r.map .handle)
  | .create dirparts filename entrytype => do
    let e ← fscqCreate root dirparts filename entrytype
    pure (ofPosix e)
  | .createDir dirparts filename => do
    let e ← fscqCreateDir root dirparts filename
    pure (ofPosix e)
  | .unlink dirparts filename => do
    let e ← fscqUnlink root dirparts filename
    pure (ofPosix e)
  | .read inum byteCount offset => do
    let r ← fscqRead inum byteCount offset
    pure (r.map .bytes)
  | .write inum bs offset => do
    let r ← fscqWrite inum bs offset
    pure (r.map .written)
  | .setFileSize nameparts size => do
    let e ← fscqSetFileSize root nameparts size
    pure (ofPosix e)
  | .rename srcparts srcname dstparts dstname => do
    let e ← fscqRename root srcparts srcname dstparts dstname
    pure (ofPosix e)
  | .syncFile inum syncType => do
    let e ← fscqSyncFile inum syncType
    pure (ofPosix e)
  | .syncDir => do
    let e ← fscqSyncDir
    pure (ofPosix e)

/-- A path names a file of the tree. -/
def Names (fsxp : FsXparams) (m : Mem) (nameparts : List Sname) (i : ℕ) (b : Bool) : Prop :=
  DIRTREE.walk fsxp m fsxp.rootInum true nameparts = .ok (i, b)

/-- A request does no harm: an open file is still in the tree, a new size is at most that of a block
and asks for as many blocks as the file has, and a new directory or socket can fail only because there
is no free inode. -/
def Request.Meets (fsxp : FsXparams) (s : FsState) : Request → Prop
  | .read inum _ _ => InTree fsxp s.2.disk.cur inum false
  | .write inum _ _ => InTree fsxp s.2.disk.cur inum false
  | .setFileSize nameparts size => ∀ i, Names fsxp s.2.disk.cur nameparts i false →
    size ≤ 4096 ∧ (BFILE.blocks fsxp s.2.disk.cur i).length = (size + 4095) / 4096
  | .createDir dirparts filename => ∀ d, Names fsxp s.2.disk.cur dirparts d true →
    AFS.CanAdd fsxp s.2.disk.cur s.1 d filename
  | .create dirparts filename .socket => ∀ d, Names fsxp s.2.disk.cur dirparts d true →
    AFS.CanAdd fsxp s.2.disk.cur s.1 d filename
  | _ => True

/-- The size of a file is within its blocks. -/
def Fits (f : BFILE.BFile) : Prop := size f ≤ 4096 * f.data.length

/-- A property that files have when they are made, and keep when they are written or emptied. -/
structure Lasting (P : BFILE.BFile → Prop) : Prop where
  fits {f : BFILE.BFile} (h : P f) : Fits f
  bfile0 : P DIRTREE.bfile0
  socket : P ⟨[], INODE.iattrUpd INODE.iattr0 (.uType 1)⟩
  written {f : BFILE.BFile} (h : P f) (bs : ByteString) (offset : ℕ)
    (hend : offset + bs.length < 2 ^ 64) : P (written f bs offset)
  emptied (f : BFILE.BFile) : P ⟨BFILE.resized f.data 0, INODE.iattrUpd f.attr (.uBytes 0)⟩

/-- What holds between two requests, if the files have a property. -/
structure Good (P : BFILE.BFile → Prop) (n : ℕ) (fsxp : FsXparams) (s : FsState) : Prop where
  ok : ∃ A K, Ok n fsxp A K s.2 s.1
  files : ∀ i f, files fsxp s.2.disk.cur i = some f → P f

/-! ### Requests on paths -/

section

variable {n : ℕ} {fsxp : FsXparams} {A : Finset ℕ} {K : ℕ → Bool} {L : LogSt} {ams : MemState}
  {C : LogSt → Prop}

variable [Platform] (h : Ok n fsxp A K L ams) (hx : fsxp.Ok n) (hC : C L)

include h hx hC

theorem wp_lookupRoot {names : List Sname} {Q : Res (ℕ × Bool) → FsState → Prop}
    (herr : ∀ e ams', (∀ i b, ¬ Names fsxp L.disk.cur names i b) → Ok n fsxp A K L ams' →
      Q (.error e) (ams', L))
    (hQ : ∀ i b ams', Ok n fsxp A K L ams' → DIRTREE.Cached ams ams' →
      Names fsxp L.disk.cur names i b → i ∈ A → K i = b → Q (.ok (i, b)) (ams', L)) :
    FuseProg.wp fsxp (.op (.lookup fsxp.rootInum names)) Q C (ams, L) := by
  apply wp_lookup h hx hC (h.tree.forest.root_mem (Multiset.mem_singleton_self _)) h.root
  rintro ams' (e | ⟨i, b⟩) he hc hr hmem
  · exact herr e ams' (fun i b hn => nomatch hr.trans hn) (he.ok h)
  · obtain ⟨hi, hKi⟩ := hmem i b rfl
    exact hQ i b ams' (he.ok h) hc hr.symm hi hKi

theorem wp_inDir {α : Type} {err : Posix → α} {dirparts : List Sname} {p : ℕ → FuseProg α}
    {Q : α → FsState → Prop} (herr : ∀ e ams',
      (∀ d, ¬ Names fsxp L.disk.cur dirparts d true) → Ok n fsxp A K L ams' → Q (err e) (ams', L))
    (hp : ∀ d ams', Ok n fsxp A K L ams' → DIRTREE.Cached ams ams' →
      Names fsxp L.disk.cur dirparts d true → d ∈ A → K d = true →
      FuseProg.wp fsxp (p d) Q C (ams', L)) :
    FuseProg.wp fsxp (inDir fsxp.rootInum err dirparts p) Q C (ams, L) := by
  apply wp_bind
  apply wp_lookupRoot h hx hC
  · exact fun e ams' hno h' => wp_pure (herr _ ams' (fun d => hno d true) h')
  · rintro d (_ | _) ams' h' hc hnames hd hKd
    · refine wp_pure (herr _ ams' (fun d' hn => ?_) h')
      cases hnames.symm.trans hn
    · exact hp d ams' h' hc hnames hd hKd

/-- Opening a file.  Truncation drops the blocks and then sets the size; if the blocks cannot be
dropped, the size is still set. -/
theorem wp_fscqOpen (hlog : 0 < fsxp.log.logLen) {nameparts : List Sname} {trunc : Bool}
    {Q : Except Posix ℕ → FsState → Prop}
    (hserver : isServerFile nameparts = true → Q (.ok 0) (ams, L))
    (herr : ∀ e ams', Ok n fsxp A K L ams' → Q (.error e) (ams', L))
    (hplain : ∀ i ams', trunc = false → Names fsxp L.disk.cur nameparts i false →
      Ok n fsxp A K L ams' → Q (.ok i) (ams', L))
    (hstep : ∀ L' ams', Flushed L L' → Ok n fsxp A K L' ams' → C L')
    (hdrop : ∀ i f L' ams', Names fsxp L.disk.cur nameparts i false →
      files fsxp L.disk.cur i = some f → Ok n fsxp A K L' ams' →
      (∃ t, Flushed (L.push t) L') →
      Sets fsxp L.disk.cur i ⟨BFILE.resized f.data 0, f.attr⟩ L'.disk.cur → C L')
    (hQ : ∀ i f data L₁ L' ams', trunc = true → Names fsxp L.disk.cur nameparts i false →
      files fsxp L.disk.cur i = some f →
      (Flushed L L₁ ∧ data = f.data ∧ fsxp.log.logLen < n - fsxp.nblocks ∨
        (∃ t, Flushed (L.push t) L₁) ∧ data = BFILE.resized f.data 0) →
      (∃ t, Flushed (L₁.push t) L') → Ok n fsxp A K L' ams' →
      Sets fsxp L.disk.cur i ⟨data, INODE.iattrUpd f.attr (.uBytes 0)⟩ L'.disk.cur →
      Q (.ok i) (ams', L')) :
    FuseProg.wp fsxp (fscqOpen fsxp.rootInum nameparts trunc) Q C (ams, L) := by
  by_cases hs : isServerFile nameparts = true
  · rw [fscqOpen, if_pos hs]
    exact wp_pure (hserver hs)
  rw [fscqOpen, if_neg hs]
  apply wp_bind
  apply wp_lookupRoot h hx hC
  · exact fun e ams' _ h' => wp_pure (herr _ ams' h')
  rintro i (_ | _) ams₁ h₁ - hnames hi hKi
  · have hf := files_of_mem h₁.tree h₁.root hi hKi
    cases trunc with
    | false => exact wp_pure (hplain i ams₁ rfl hnames h₁)
    | true =>
      have hset : ∀ k data L₁ ams₂, k (.ok ()) = pure (.ok i) → Ok n fsxp A K L₁ ams₂ → C L₁ →
          (Flushed L L₁ ∧ data = (BFILE.file fsxp L.disk.cur i).data ∧
              fsxp.log.logLen < n - fsxp.nblocks ∨
            (∃ t, Flushed (L.push t) L₁) ∧
              data = BFILE.resized (BFILE.file fsxp L.disk.cur i).data 0) →
          Sets fsxp L.disk.cur i ⟨data, (BFILE.file fsxp L.disk.cur i).attr⟩ L₁.disk.cur →
          FuseProg.wp fsxp (.op (.fileSetSz i 0) >>= k) Q C (ams₂, L₁) := by
        intro k data L₁ ams₂ hk h₂ hC₁ hcase hf₁
        apply wp_bind
        apply wp_fileSetSz h₂ hx hC₁ hf₁.self hlog
        intro ams' L' hl hf'
        rw [hk]
        exact wp_pure (hQ i _ data L₁ L' ams' rfl hnames hf hcase hl.log (hl.effect.ok h₂)
          (hf₁.trans hf'))
      apply wp_bind
      apply wp_fileTruncate h₁ hx hC hf
      · intro e L₁ hL _ hover
        have h₂ : Ok n fsxp A K L₁ ams₁ := (h₁.refl hL).ok h₁
        apply hset _ (BFILE.file fsxp L.disk.cur i).data L₁ ams₁ rfl h₂ (hstep L₁ ams₁ hL h₂)
          (.inl ⟨hL, rfl, hover rfl⟩)
        rw [hL.disk]
        exact .refl hf
      · intro ams₂ L₁ hl hf₁
        have h₂ := hl.effect.ok h₁
        exact hset _ _ L₁ ams₂ rfl h₂ (hdrop i _ L₁ ams₂ hnames hf h₂ hl.log hf₁)
          (.inr ⟨hl.log, rfl⟩) hf₁
  · exact wp_pure (herr _ ams₁ h₁)

/-- Setting the size of a file that has the blocks that `ftruncate` asks for. -/
theorem wp_fscqSetFileSize (hlog : 0 < fsxp.log.logLen) {nameparts : List Sname} {sz : ℕ}
    (hsame : ∀ i f, Names fsxp L.disk.cur nameparts i false → files fsxp L.disk.cur i = some f →
      (sz + valulen - 1) / valulen = f.data.length)
    {Q : Posix → FsState → Prop}
    (herr : ∀ e ams', e ≠ .eOK → (∀ i, ¬ Names fsxp L.disk.cur nameparts i false) →
      Ok n fsxp A K L ams' → Q e (ams', L))
    (hQ : ∀ i f ams' L', Names fsxp L.disk.cur nameparts i false →
      files fsxp L.disk.cur i = some f → (∃ t, Flushed (L.push t) L') → Ok n fsxp A K L' ams' →
      Sets fsxp L.disk.cur i ⟨f.data, INODE.iattrUpd f.attr (.uBytes (addr2w sz))⟩ L'.disk.cur →
      Q .eOK (ams', L')) :
    FuseProg.wp fsxp (fscqSetFileSize fsxp.rootInum nameparts sz) Q C (ams, L) := by
  apply wp_bind
  apply wp_lookupRoot h hx hC
  · exact fun e ams' hno h' => wp_pure (herr _ ams' (errnoToPosix_ne e) (fun i => hno i false) h')
  rintro i (_ | _) ams₁ h₁ - hnames hi hKi
  · have hf := files_of_mem h₁.tree h₁.root hi hKi
    apply wp_bind
    apply wp_ftruncate h₁ hx hC hf hlog
    · exact fun e L' hne => absurd (hsame i _ hnames hf) hne
    · exact fun hne => absurd (hsame i _ hnames hf) hne
    · exact fun ams' L' _ hl hf' => wp_pure (hQ i _ ams' L' hnames hf hl.log (hl.effect.ok h₁) hf')
  · refine wp_pure (herr _ ams₁ nofun (fun j hn => ?_) h₁)
    cases hnames.symm.trans hn

end

/-! ### Requests keep what holds between them -/

section

variable {n : ℕ} {fsxp : FsXparams} {A A' : Finset ℕ} {K K' : ℕ → Bool} {L L' : LogSt}
  {ams ams' : MemState} {P : BFILE.BFile → Prop}

theorem Good.of_disk (hg : Good P n fsxp (ams, L)) (h : Ok n fsxp A K L' ams')
    (hL : L'.disk.cur = L.disk.cur) : Good P n fsxp (ams', L') :=
  ⟨⟨A, K, h⟩, fun i f hf => hg.files i f (by rwa [← hL])⟩

theorem Good.subset (hg : Good P n fsxp (ams, L)) (h : Ok n fsxp A K L' ams')
    (hsub : ∀ i f, Fuse.files fsxp L'.disk.cur i = some f → Fuse.files fsxp L.disk.cur i = some f) :
    Good P n fsxp (ams', L') :=
  ⟨⟨A, K, h⟩, fun i f hf => hg.files i f (hsub i f hf)⟩

theorem Good.update (hg : Good P n fsxp (ams, L)) (h : Ok n fsxp A K L' ams') {i : ℕ}
    {f : BFILE.BFile} (hf : Fuse.files fsxp L'.disk.cur =
      Function.update (Fuse.files fsxp L.disk.cur) i (some f)) (hP : P f) :
    Good P n fsxp (ams', L') := by
  refine ⟨⟨A, K, h⟩, fun j f' hj => ?_⟩
  rw [hf] at hj
  rcases eq_or_ne j i with rfl | hne
  · rw [Function.update_self] at hj
    rwa [← Option.some.inj hj]
  · rw [Function.update_of_ne hne] at hj
    exact hg.files j f' hj

theorem Fits.of_size {f : BFILE.BFile} (h : size f = 0) : Fits f := by
  rw [Fits, h]
  exact Nat.zero_le _

/-- A size that has been set. -/
theorem size_setSize {f : BFILE.BFile} {sz : ℕ} (hsz : sz < 2 ^ 64) :
    size ⟨f.data, INODE.iattrUpd f.attr (.uBytes (addr2w sz))⟩ = sz :=
  (BitVec.toNat_ofNat ..).trans (Nat.mod_eq_of_lt hsz)

theorem lasting_fits : Lasting Fits where
  fits h := h
  bfile0 := .of_size (by decide +kernel)
  socket := .of_size (by decide +kernel)
  written h bs offset hend := by
    rw [Fits, size_written hend, length_written]
    exact length_roomFor_ge h _
  emptied f := .of_size rfl

variable [Platform] (hP : Lasting P) (h : Ok n fsxp A K L ams) (hx : fsxp.Ok n)
  (hlog : 512 ≤ fsxp.log.logLen) (hg : Good P n fsxp (ams, L))

include hP h hx hlog hg

omit hlog in
theorem wp_create_good {C : LogSt → Prop} (hC : C L) {d : ℕ} (hd : d ∈ A) (hKd : K d = true)
    {name : Sname} {Q : Res ℕ → FsState → Prop} (hQ : ∀ r s', Good P n fsxp s' → Q r s') :
    FuseProg.wp fsxp (.op (.create d name)) Q C (ams, L) := by
  apply wp_create h hx hC hd hKd
  · exact fun e L' hL _ => hQ _ _ (hg.of_disk ((h.refl hL).ok h) (congrArg ADisk.cur hL.disk))
  · intro ams' L' i A' K' hl _ hf _
    exact hQ _ _ (hg.update (hl.effect.ok h) hf hP.bfile0)

theorem wp_mksock_good {C : LogSt → Prop} (hC : C L) {d : ℕ} (hd : d ∈ A) (hKd : K d = true)
    {name : Sname} (hadd : AFS.CanAdd fsxp L.disk.cur ams d name) {Q : Res ℕ → FsState → Prop}
    (hQ : ∀ r s', Good P n fsxp s' → Q r s') :
    FuseProg.wp fsxp (.op (.mksock d name)) Q C (ams, L) := by
  apply wp_mksock h hx hC hd hKd
  · intro e ams' L' hfail
    obtain ⟨rfl, he⟩ := hfail (by omega) hadd
    exact hQ _ _ (hg.of_disk (he.ok h) rfl)
  · intro ams' L' i A' K' hl _ hf
    exact hQ _ _ (hg.update (hl.effect.ok h) hf hP.socket)

omit hP in
theorem wp_mkdir_good {C : LogSt → Prop} (hC : C L) {d : ℕ} (hd : d ∈ A) (hKd : K d = true)
    {name : Sname} (hadd : AFS.CanAdd fsxp L.disk.cur ams d name) {Q : Res ℕ → FsState → Prop}
    (hQ : ∀ r s', Good P n fsxp s' → Q r s') :
    FuseProg.wp fsxp (.op (.mkdir d name)) Q C (ams, L) := by
  apply wp_mkdir h hx hC hd hKd
  · intro e ams' L' hfail
    obtain ⟨rfl, he⟩ := hfail (by omega) hadd
    exact hQ _ _ (hg.of_disk (he.ok h) rfl)
  · intro ams' L' i A' K' hl hf
    exact hQ _ _ (hg.subset (hl.effect.ok h) fun j f hj => by rwa [← hf])

omit hlog in
theorem wp_readFile_good {C : LogSt → Prop} (hC : C L) {i : ℕ}
    (hi : InTree fsxp L.disk.cur i false) {byteCount offset : ℕ}
    {Q : Except Posix ByteString → FsState → Prop} (hQ : ∀ r s', Good P n fsxp s' → Q r s') :
    FuseProg.wp fsxp (fscqRead i byteCount offset) Q C (ams, L) := by
  obtain ⟨hi, hKi⟩ := (inTree_iff h.tree h.root).1 hi
  have hf := files_of_mem h.tree h.root hi hKi
  apply wp_fscqRead h hx hf (hP.fits (hg.files _ _ hf)) hC
  exact fun ams' h' => hQ _ _ (hg.of_disk h' rfl)

theorem wp_writeFile_good {i : ℕ} (hi : InTree fsxp L.disk.cur i false) {bs : ByteString}
    {offset : ℕ} {Q : Except Posix ℕ → FsState → Prop} (hQ : ∀ r s', Good P n fsxp s' → Q r s') :
    FuseProg.wp fsxp (fscqWrite i bs offset) Q (fun _ => True) (ams, L) := by
  obtain ⟨hi, hKi⟩ := (inTree_iff h.tree h.root).1 hi
  have hf := files_of_mem h.tree h.root hi hKi
  have hPf := hg.files _ _ hf
  apply wp_fscqWrite (J := fun _ _ => True) h hx (by omega) hf (hP.fits hPf) trivial
  · exact fun _ _ _ => trivial
  · exact fun _ _ _ _ _ => trivial
  · exact fun _ _ _ _ _ _ _ _ _ _ _ _ _ => trivial
  · exact fun e ams' L' hL h' _ => hQ _ _ (hg.of_disk h' (congrArg ADisk.cur hL.disk))
  · intro L₁ ams' L' hend _ _ h' hf'
    exact hQ _ _ (hg.update h' hf'.files (hP.written hPf bs offset hend))

/-- A request that does no harm keeps what holds between two requests, and its calls are valid. -/
theorem wp_request {q : Request} (hq : q.Meets fsxp (ams, L))
    (hroom : n - fsxp.nblocks ≤ fsxp.log.logLen)
    (hset : ∀ nameparts sz i f, q = .setFileSize nameparts sz →
      Names fsxp L.disk.cur nameparts i false → files fsxp L.disk.cur i = some f →
        P ⟨f.data, INODE.iattrUpd f.attr (.uBytes (addr2w sz))⟩) :
    FuseProg.wp fsxp (q.prog fsxp.rootInum) (fun _ s' => Good P n fsxp s') (fun _ => True) (ams, L) := by
  have hsame : ∀ {ams'}, Ok n fsxp A K L ams' → Good P n fsxp (ams', L) := fun h' => hg.of_disk h' rfl
  have hpure : ∀ {α β : Type} {p : FuseProg α} {k : α → β} {s : FsState},
      FuseProg.wp fsxp p (fun _ s' => Good P n fsxp s') (fun _ => True) s →
      FuseProg.wp fsxp (p >>= fun r => pure (k r)) (fun _ s' => Good P n fsxp s') (fun _ => True) s :=
    fun hp => wp_seq hp fun _ _ hs => wp_pure hs
  have hdir : ∀ {α : Type} {err : Posix → α} {dirparts : List Sname} {p : ℕ → FuseProg α},
      (∀ d ams', Ok n fsxp A K L ams' → DIRTREE.Cached ams ams' →
        Names fsxp L.disk.cur dirparts d true → d ∈ A → K d = true →
        FuseProg.wp fsxp (p d) (fun _ s' => Good P n fsxp s') (fun _ => True) (ams', L)) →
      FuseProg.wp fsxp (inDir fsxp.rootInum err dirparts p) (fun _ s' => Good P n fsxp s')
        (fun _ => True) (ams, L) := fun hp => wp_inDir h hx trivial (fun _ _ _ h' => hsame h') hp
  cases q with
  | openFile nameparts trunc =>
    apply hpure
    apply wp_fscqOpen h hx trivial (by omega)
    · exact fun _ => hg
    · exact fun e ams' h' => hsame h'
    · exact fun i ams' _ _ h' => hsame h'
    · exact fun _ _ _ _ => trivial
    · exact fun _ _ _ _ _ _ _ _ _ => trivial
    · rintro i f data L₁ L' ams' - - - hcase - h' hf'
      obtain ⟨-, -, hover⟩ | ⟨-, rfl⟩ := hcase
      · exact absurd hover (Nat.not_lt.2 hroom)
      · exact hg.update h' hf'.files (hP.emptied f)
  | createFile dirparts filename =>
    apply hpure
    rw [fscqCreateFile]
    split_ifs with hs
    · exact wp_pure hg
    · exact hdir fun d ams' h' _ _ hd hKd =>
        hpure (wp_create_good hP h' hx (hsame h') trivial hd hKd fun _ _ hs => hs)
  | create dirparts filename entrytype =>
    apply hpure
    apply hdir
    intro d ams' h' hc hn hd hKd
    cases entrytype with
    | regularFile => exact hpure (wp_create_good hP h' hx (hsame h') trivial hd hKd fun _ _ hs => hs)
    | socket =>
      apply hpure
      apply wp_mksock_good hP h' hx hlog (hsame h') trivial hd hKd _ fun _ _ hs => hs
      exact (canAdd_of_cached hc).2 (hq d hn)
    | other => exact hpure (wp_pure (hsame h'))
  | createDir dirparts filename =>
    apply hpure
    apply hdir
    intro d ams' h' hc hn hd hKd
    apply hpure
    apply wp_mkdir_good h' hx hlog (hsame h') trivial hd hKd _ fun _ _ hs => hs
    exact (canAdd_of_cached hc).2 (hq d hn)
  | unlink dirparts filename =>
    apply hpure
    apply hdir
    intro d ams' h' hc hn hd hKd
    apply hpure
    apply wp_delete h' hx trivial hd hKd
    · exact fun e L' hL => hg.of_disk ((h'.refl hL).ok h') (congrArg ADisk.cur hL.disk)
    · exact fun ams₂ L' A' hl hsub => hg.subset (hl.effect.ok h') hsub
  | read inum byteCount offset =>
    exact hpure (wp_readFile_good hP h hx hg trivial hq fun _ _ hs => hs)
  | write inum bs offset =>
    exact hpure (wp_writeFile_good hP h hx hlog hg hq fun _ _ hs => hs)
  | setFileSize nameparts sz =>
    apply hpure
    apply wp_fscqSetFileSize h hx trivial (by omega)
    · intro i f hn hf
      obtain ⟨hsz, hlen⟩ := hq i hn
      obtain ⟨-, rfl⟩ := files_eq_some.1 hf
      rw [BFILE.length_data, hlen, valulen_is]
      omega
    · exact fun e ams' _ _ h' => hsame h'
    · exact fun i f ams' L' hn hf _ h' hf' => hg.update h' hf'.files (hset _ _ _ _ rfl hn hf)
  | rename srcparts srcname dstparts dstname =>
    apply hpure
    apply wp_bind
    apply wp_rename (C := fun _ => True) h hx trivial (h.tree.forest.root_mem (Multiset.mem_singleton_self _)) h.root
    · exact fun e L' hL => wp_pure (hg.of_disk ((h.refl hL).ok h) (congrArg ADisk.cur hL.disk))
    · exact fun ams' L' A' hl hsub => wp_pure (hg.subset (hl.effect.ok h) hsub)
  | syncFile inum syncType =>
    apply hpure
    cases syncType with
    | dataSync =>
      apply wp_bind
      apply wp_fileSync (C := fun _ => True) h trivial
      exact fun al ams' he => wp_pure (hg.of_disk (he.ok h) (L.disk_dsyncVecs_cur al))
    | fullSync =>
      apply wp_bind
      apply wp_fileSync (C := fun _ => True) h trivial
      intro al ams' he
      apply wp_bind
      apply wp_treeSync (C := fun _ => True) trivial
      exact fun ams₂ he₂ =>
        wp_pure (hg.of_disk (he₂.ok (he.ok h)) (L.disk_dsyncVecs_cur al))
  | syncDir =>
    apply hpure
    apply wp_bind
    apply wp_treeSync (C := fun _ => True) trivial
    exact fun ams' he => wp_pure (hg.of_disk (he.ok h) rfl)

end

/-! ### Runs -/

/-- The states of the server, from a new file system on, after requests that `P` allows. -/
inductive Reach [Platform] (g : AFS.Geometry) (P : FsState → Request → Prop) : FsState → Prop
  | mkfs {d₀ : Mem} {L : LogSt} {ams : MemState}
      (h : LogProg.run g.fsxp.log (AFS.mkfs g.fsxp) (.ofDisk d₀) = (.ok ams, L)) : Reach g P (ams, L)
  | step {s s' : FsState} {q : Request} {r : Except Posix Answer} (h : Reach g P s) (hq : P s q)
      (hr : FuseProg.run g.fsxp (q.prog g.fsxp.rootInum) s = (r, s')) : Reach g P s'

section

variable [Platform] {g : AFS.Geometry} {P : FsState → Request → Prop} {F : BFILE.BFile → Prop}
  {s : FsState}

theorem Reach.logLen (h : Reach g P s) : 512 ≤ g.fsxp.log.logLen := by
  induction h with
  | mkfs h => exact g.le_logLen (AFS.new_of_mkfs h).log
  | step _ _ _ ih => exact ih

theorem Reach.room (h : Reach g P s) : g.dataSize - g.fsxp.nblocks ≤ g.fsxp.log.logLen := by
  induction h with
  | mkfs h => exact AFS.room_of_mkfs h
  | step _ _ _ ih => exact ih

/-- A new file system has no files. -/
theorem good_of_mkfs {d₀ : Mem} {L : LogSt} {ams : MemState}
    (h : LogProg.run g.fsxp.log (AFS.mkfs g.fsxp) (.ofDisk d₀) = (.ok ams, L)) :
    Good F g.dataSize g.fsxp (ams, L) := by
  have hok := (AFS.new_of_mkfs h).ok (n := g.dataSize)
  refine ⟨⟨_, _, hok⟩, fun i f hf => ?_⟩
  obtain ⟨hi, hKi, -⟩ := mem_of_files hok.tree hok.root hf
  rw [Finset.mem_singleton.1 hi, Function.update_self] at hKi
  cases hKi

/-- A property of files lasts if the sizes that are set keep it. -/
theorem reach_good (hF : Lasting F) (hmeets : ∀ s q, P s q → q.Meets g.fsxp s)
    (hset : ∀ s nameparts sz i f, P s (.setFileSize nameparts sz) →
      Names g.fsxp s.2.disk.cur nameparts i false → files g.fsxp s.2.disk.cur i = some f → F f →
        F ⟨f.data, INODE.iattrUpd f.attr (.uBytes (addr2w sz))⟩)
    (h : Reach g P s) : Good F g.dataSize g.fsxp s := by
  induction h with
  | mkfs h => exact good_of_mkfs h
  | @step s s' q r h hq hr ih =>
    obtain ⟨ams, L⟩ := s
    obtain ⟨A, K, hok⟩ := ih.ok
    have hwp := wp_request hF hok g.ok h.logLen ih (hmeets _ q hq) h.room (by
      rintro nameparts sz i f rfl hn hf
      exact hset (ams, L) nameparts sz i f hq hn hf (ih.files i f hf))
    have hrun := FuseProg.wp_run hwp
    rwa [hr] at hrun

theorem reach_fits (h : Reach g (fun s q => q.Meets g.fsxp s) s) : Good Fits g.dataSize g.fsxp s := by
  apply reach_good lasting_fits (fun _ _ hq => hq) _ h
  intro s nameparts sz i f hq hn hf _
  obtain ⟨hsz, hlen⟩ := hq i hn
  obtain ⟨-, rfl⟩ := files_eq_some.1 hf
  have hle : (addr2w sz).toNat ≤ sz := (BitVec.toNat_ofNat ..).trans_le (Nat.mod_le ..)
  rw [← BFILE.length_data] at hlen
  change (addr2w sz).toNat ≤ 4096 * (BFILE.file g.fsxp s.2.disk.cur i).data.length
  omega

/-- After any requests that do no harm, the size of every file is within its blocks, and reading or
writing it only uses blocks that it has. -/
theorem sizes_fit (h : Reach g (fun s q => q.Meets g.fsxp s) s) :
    (∀ i f, files g.fsxp s.2.disk.cur i = some f → size f ≤ 4096 * f.data.length) ∧
    ∀ i, InTree g.fsxp s.2.disk.cur i false →
      (∀ byteCount offset, ¬ Exec (FuseProg.sem g.fsxp) s (fscqRead i byteCount offset) .failed) ∧
      ∀ bs offset, ¬ Exec (FuseProg.sem g.fsxp) s (fscqWrite i bs offset) .failed := by
  have hgood := reach_fits h
  obtain ⟨A, K, hok⟩ := hgood.ok
  refine ⟨hgood.files, fun i hi => ⟨fun byteCount offset e => ?_, fun bs offset e => ?_⟩⟩
  · exact wp_readFile_good (C := fun _ => True) lasting_fits hok g.ok hgood trivial hi
      (fun _ _ hs => hs) _ e
  · exact wp_writeFile_good lasting_fits hok g.ok h.logLen hgood hi (fun _ _ hs => hs) _ e

end

end Fuse

namespace Sample

open Fuse

local instance fuseRunPlatform : Platform := platform

/-- A file with this name is in the root directory. -/
structure HasFile (i : ℕ) (f : BFILE.BFile) (s : FsState) : Prop where
  ok : ∃ A K, Ok geometry.dataSize geometry.fsxp A K s.2 s.1
  name : Names geometry.fsxp s.2.disk.cur [[97]] i false
  file : files geometry.fsxp s.2.disk.cur i = some f

theorem exists_run {α : Type} {p : FuseProg α} {Q : α → FsState → Prop} {s : FsState}
    (h : FuseProg.wp geometry.fsxp p Q (fun _ => True) s) :
    ∃ a s', FuseProg.run geometry.fsxp p s = (a, s') ∧ Q a s' :=
  ⟨_, _, rfl, FuseProg.wp_run h⟩

theorem wp_createFile_new {L : LogSt} {ams : MemState}
    (hnew : AFS.New geometry.fsxp geometry.fsxp.log L ams) :
    FuseProg.wp geometry.fsxp ((Request.createFile [] [97]).prog geometry.fsxp.rootInum)
      (fun r s => ∃ i, r = .ok (.handle i) ∧ HasFile i DIRTREE.bfile0 s ∧
        BFILE.freeOf geometry.fsxp s.2.disk.cur s.1.msAllocC (!s.1.msAlloc) ≠ 0)
      (fun _ => True) (ams, L) := by
  have hlen := geometry.le_logLen hnew.log
  have hin := four_le_ninodes
  have hfree := hnew.tree.freeList_ne_nil (by rw [Finset.card_singleton]; omega)
  have hvalid : SDIR.isValidSname [97] = true := by decide
  have hcan := hnew.canLink hvalid
  apply wp_bind
  rw [fscqCreateFile, if_neg (by decide)]
  apply wp_inDir (C := fun _ => True) (hnew.ok (n := geometry.dataSize)) geometry.ok trivial
  · exact fun e ams' hno _ => absurd rfl (hno geometry.fsxp.rootInum)
  intro d ams₁ h₁ hc hd hdA hKd
  obtain ⟨rfl, -⟩ := Prod.mk.inj (Except.ok.inj hd)
  obtain ⟨c, c', rfl⟩ := hc
  apply wp_bind
  apply wp_create (C := fun _ => True) h₁ geometry.ok trivial hdA hKd
  · intro e L' _ hlack
    exact absurd ((DIRTREE.CanLink.of_cached ⟨c, c', rfl⟩).2 hcan) (hlack (by omega) hfree)
  intro ams' L' i A' K' hl _ hf hp
  have hok' := hl.effect.ok h₁
  refine wp_pure (wp_pure ⟨i, rfl, ⟨⟨_, _, hok'⟩, ?_, ?_⟩, ?_⟩)
  · have hroot := hok'.tree.forest.root_mem (Multiset.mem_singleton_self _)
    have hmem := hp.mem_iff.2 List.mem_cons_self
    rw [Names, DIRTREE.walk, if_pos rfl,
      DIRTREE.find_dents (hok'.tree.dir _ hroot hok'.root) hmem]
    rfl
  · rw [hf, Function.update_self]
  · obtain ⟨S, hmv⟩ := hl.moves
    obtain ⟨a, ha⟩ := Multiset.exists_mem_of_ne_zero (hnew.room (!ams.msAlloc))
    have hmem := hmv.free a ha
    rw [hmv.msAlloc]
    exact fun h0 => Multiset.notMem_zero a (h0 ▸ hmem)

/-- A file has been created in a new file system, and there are blocks for it after the next sync. -/
theorem exists_created : ∃ ams L i s,
    LogProg.run geometry.fsxp.log (AFS.mkfs geometry.fsxp) (.ofDisk fun _ => 0) = (.ok ams, L) ∧
    FuseProg.run geometry.fsxp ((Request.createFile [] [97]).prog geometry.fsxp.rootInum) (ams, L) =
      (.ok (.handle i), s) ∧
    HasFile i DIRTREE.bfile0 s ∧
    BFILE.freeOf geometry.fsxp s.2.disk.cur s.1.msAllocC (!s.1.msAlloc) ≠ 0 := by
  obtain ⟨ams, L, hmk⟩ := exists_new fun _ => 0
  obtain ⟨_, s, hrun, i, rfl, hfile, hroom⟩ := exists_run (wp_createFile_new (AFS.new_of_mkfs hmk))
  exact ⟨ams, L, i, s, hmk, hrun, hfile, hroom⟩

section

variable {i : ℕ} {f : BFILE.BFile} {s : FsState} (h : HasFile i f s)

include h

theorem HasFile.of_sets {A : Finset ℕ} {K : ℕ → Bool} {f' : BFILE.BFile} {s' : FsState}
    (hok : Ok geometry.dataSize geometry.fsxp A K s'.2 s'.1)
    (hset : Sets geometry.fsxp s.2.disk.cur i f' s'.2.disk.cur) : HasFile i f' s' := by
  obtain ⟨A₀, K₀, h₀⟩ := h.ok
  refine ⟨⟨A, K, hok⟩, ?_, hset.self⟩
  rw [Names, walk_of_dirs h₀.tree h₀.root hset.dirs _
    (h₀.tree.forest.root_mem (Multiset.mem_singleton_self _)) h₀.root]
  exact h.name

theorem HasFile.synced : ∃ s',
    FuseProg.run geometry.fsxp (Request.syncDir.prog geometry.fsxp.rootInum) s = (.ok .done, s') ∧
    HasFile i f s' ∧ BFILE.freeOf geometry.fsxp s'.2.disk.cur s'.1.msAllocC s'.1.msAlloc =
      BFILE.freeOf geometry.fsxp s.2.disk.cur s.1.msAllocC (!s.1.msAlloc) := by
  obtain ⟨A, K, hok⟩ := h.ok
  have hok' : Ok geometry.dataSize geometry.fsxp A K s.2.flushall
      { s.1 with msAlloc := !s.1.msAlloc } := Effect.flushed.ok hok
  exact ⟨({ s.1 with msAlloc := !s.1.msAlloc }, s.2.flushall), rfl, ⟨⟨A, K, hok'⟩, h.name, h.file⟩, rfl⟩

/-- A first block is written. -/
theorem HasFile.written (bs : ByteString) (offset : ℕ) (hpos : 0 < bs.length)
    (hle : offset + bs.length ≤ 4096) (hf : f = DIRTREE.bfile0)
    (hroom : BFILE.freeOf geometry.fsxp s.2.disk.cur s.1.msAllocC s.1.msAlloc ≠ 0) :
    ∃ a s', FuseProg.run geometry.fsxp ((Request.write i bs offset).prog geometry.fsxp.rootInum) s =
      (.ok a, s') ∧ HasFile i (Fuse.written f bs offset) s' := by
  obtain ⟨ams, L⟩ := s
  obtain ⟨A, K, hok⟩ := h.ok
  have hlog := le_logLen_geometry
  have hlen : f.data.length = 0 := by rw [hf]; rfl
  have hsize : size f = 0 := by rw [hf]; decide +kernel
  have hwp : FuseProg.wp geometry.fsxp ((Request.write i bs offset).prog geometry.fsxp.rootInum)
      (fun r s' => ∃ a, r = .ok a ∧ HasFile i (Fuse.written f bs offset) s') (fun _ => True)
      (ams, L) := by
    apply wp_bind
    apply wp_fscqWrite (J := fun _ _ => True) (C := fun _ => True) hok geometry.ok (by omega) h.file
      (by omega) trivial
    · exact fun _ _ _ => trivial
    · exact fun _ _ _ _ _ => trivial
    · exact fun _ _ _ _ _ _ _ _ _ _ _ _ _ => trivial
    · intro e ams' L' _ _ hlack
      refine absurd ?_ (hlack (by omega) (by omega))
      obtain ⟨-, hfile⟩ := files_eq_some.1 h.file
      apply BFILE.canGrow_of_direct _ hroom
      rw [← BFILE.length_data, hfile, hlen]
      decide
    · exact fun L₁ ams' L' _ _ _ h' hset => wp_pure ⟨_, rfl, h.of_sets h' hset⟩
  obtain ⟨_, s', hrun, a, rfl, hfile⟩ := exists_run hwp
  exact ⟨a, s', hrun, hfile⟩

theorem HasFile.inTree : InTree geometry.fsxp s.2.disk.cur i false := (files_eq_some.1 h.file).1

theorem HasFile.meets_setFileSize {sz : ℕ} (hsz : sz ≤ 4096)
    (hlen : f.data.length = (sz + 4095) / 4096) :
    (Request.setFileSize [[97]] sz).Meets geometry.fsxp s := by
  intro i' hn
  obtain ⟨rfl, -⟩ := Prod.mk.inj (Except.ok.inj (hn.symm.trans h.name))
  rw [← BFILE.length_data, (files_eq_some.1 h.file).2]
  exact ⟨hsz, hlen⟩

/-- A size is set that asks for the blocks that the file has. -/
theorem HasFile.resized (sz : ℕ) (hlen : (sz + valulen - 1) / valulen = f.data.length) :
    ∃ s', FuseProg.run geometry.fsxp ((Request.setFileSize [[97]] sz).prog geometry.fsxp.rootInum) s =
      (.ok .done, s') ∧ HasFile i ⟨f.data, INODE.iattrUpd f.attr (.uBytes (addr2w sz))⟩ s' := by
  obtain ⟨ams, L⟩ := s
  obtain ⟨A, K, hok⟩ := h.ok
  have hlog := le_logLen_geometry
  have hwp : FuseProg.wp geometry.fsxp
      ((Request.setFileSize [[97]] sz).prog geometry.fsxp.rootInum) (fun r s' => r = .ok .done ∧
        HasFile i ⟨f.data, INODE.iattrUpd f.attr (.uBytes (addr2w sz))⟩ s') (fun _ => True)
      (ams, L) := by
    have hfound : ∀ i' f', Names geometry.fsxp L.disk.cur [[97]] i' false →
        files geometry.fsxp L.disk.cur i' = some f' → i' = i ∧ f' = f := by
      intro i' f' hn hf
      obtain ⟨rfl, -⟩ := Prod.mk.inj (Except.ok.inj (hn.symm.trans h.name))
      exact ⟨rfl, Option.some.inj (hf.symm.trans h.file)⟩
    apply wp_bind
    apply wp_fscqSetFileSize (C := fun _ => True) hok geometry.ok trivial (by omega)
    · intro i' f' hn hf
      obtain ⟨rfl, rfl⟩ := hfound i' f' hn hf
      exact hlen
    · exact fun e ams' _ hno _ => absurd h.name (hno i)
    · intro i' f' ams' L' hn hf _ h' hset
      obtain ⟨rfl, rfl⟩ := hfound i' f' hn hf
      exact wp_pure ⟨rfl, h.of_sets h' hset⟩
  obtain ⟨_, s', hrun, rfl, hfile⟩ := exists_run hwp
  exact ⟨s', hrun, hfile⟩

end

theorem length_written_first (bs : ByteString) (hpos : 0 < bs.length) (hle : bs.length ≤ 4096) :
    (Fuse.written DIRTREE.bfile0 bs 0).data.length = 1 := by
  have hsize : size DIRTREE.bfile0 = 0 := by decide +kernel
  rw [length_written, roomFor, if_pos (by omega), length_resized]
  omega

/-- A file is created, gets a byte, and then a size that asks for one block. -/
theorem exists_resized {sz : ℕ} (hsz : (sz + valulen - 1) / valulen = 1) : ∃ ams L i s₁ s₂ a s₃ s₄,
    LogProg.run geometry.fsxp.log (AFS.mkfs geometry.fsxp) (.ofDisk fun _ => 0) = (.ok ams, L) ∧
    FuseProg.run geometry.fsxp ((Request.createFile [] [97]).prog geometry.fsxp.rootInum) (ams, L) =
      (.ok (.handle i), s₁) ∧
    FuseProg.run geometry.fsxp (Request.syncDir.prog geometry.fsxp.rootInum) s₁ = (.ok .done, s₂) ∧
    FuseProg.run geometry.fsxp ((Request.write i [7] 0).prog geometry.fsxp.rootInum) s₂ = (.ok a, s₃) ∧
    FuseProg.run geometry.fsxp ((Request.setFileSize [[97]] sz).prog geometry.fsxp.rootInum) s₃ =
      (.ok .done, s₄) ∧
    HasFile i DIRTREE.bfile0 s₂ ∧ HasFile i (Fuse.written DIRTREE.bfile0 [7] 0) s₃ ∧
    HasFile i ⟨(Fuse.written DIRTREE.bfile0 [7] 0).data,
      INODE.iattrUpd (Fuse.written DIRTREE.bfile0 [7] 0).attr (.uBytes (addr2w sz))⟩ s₄ := by
  obtain ⟨ams, L, i, s₁, hmk, hrun₁, h₁, hroom⟩ := exists_created
  obtain ⟨s₂, hrun₂, h₂, hfree⟩ := h₁.synced
  obtain ⟨a, s₃, hrun₃, h₃⟩ := h₂.written [7] 0 (by decide) (by decide) rfl (by rwa [hfree])
  have hlen := length_written_first [7] (by decide) (by decide)
  obtain ⟨s₄, hrun₄, h₄⟩ := h₃.resized sz (by rw [hlen, hsz])
  exact ⟨ams, L, i, s₁, s₂, a, s₃, s₄, hmk, hrun₁, hrun₂, hrun₃, hrun₄, h₂, h₃, h₄⟩

/-- A byte is written to a new file, and the file gets a size of 100. -/
theorem sizes_fit_resized : ∃ ams L i s₁ s₂ a s₃ s f,
    Reach geometry (fun s q => q.Meets geometry.fsxp s) (ams, L) ∧
    FuseProg.run geometry.fsxp ((Request.createFile [] [97]).prog geometry.fsxp.rootInum) (ams, L) =
      (.ok (.handle i), s₁) ∧
    FuseProg.run geometry.fsxp (Request.syncDir.prog geometry.fsxp.rootInum) s₁ = (.ok .done, s₂) ∧
    FuseProg.run geometry.fsxp ((Request.write i [7] 0).prog geometry.fsxp.rootInum) s₂ = (.ok a, s₃) ∧
    FuseProg.run geometry.fsxp ((Request.setFileSize [[97]] 100).prog geometry.fsxp.rootInum) s₃ =
      (.ok .done, s) ∧
    files geometry.fsxp s.2.disk.cur i = some f ∧ size f = 100 ∧ f.data.length = 1 ∧
    Reach geometry (fun s q => q.Meets geometry.fsxp s) s ∧
    (∀ i f, files geometry.fsxp s.2.disk.cur i = some f → size f ≤ 4096 * f.data.length) ∧
    ∀ i, InTree geometry.fsxp s.2.disk.cur i false →
      (∀ byteCount offset,
        ¬ Exec (FuseProg.sem geometry.fsxp) s (fscqRead i byteCount offset) .failed) ∧
      ∀ bs offset, ¬ Exec (FuseProg.sem geometry.fsxp) s (fscqWrite i bs offset) .failed := by
  obtain ⟨ams, L, i, s₁, s₂, a, s₃, s₄, hmk, hrun₁, hrun₂, hrun₃, hrun₄, h₂, h₃, h₄⟩ :=
    exists_resized (by rw [valulen_is] : (100 + valulen - 1) / valulen = 1)
  have hlen := length_written_first [7] (by decide) (by decide)
  have h : Reach geometry (fun s q => q.Meets geometry.fsxp s) s₄ :=
    ((((Reach.mkfs hmk).step (q := .createFile [] [97]) trivial hrun₁).step (q := .syncDir) trivial
      hrun₂).step (q := .write i [7] 0) h₂.inTree hrun₃).step
      (h₃.meets_setFileSize (by decide) hlen) hrun₄
  exact ⟨ams, L, i, s₁, s₂, a, s₃, s₄, _, .mkfs hmk, hrun₁, hrun₂, hrun₃, hrun₄, h₄.file,
    size_setSize (by norm_num), hlen, h, sizes_fit h⟩

/-- A file with one block gets a size of 5000 bytes. -/
theorem size_beyond_blocks : ∃ s i f, Reach geometry (fun _ _ => True) s ∧
    files geometry.fsxp s.2.disk.cur i = some f ∧ f.data.length = 1 ∧ size f = 5000 := by
  obtain ⟨ams, L, i, s₁, s₂, a, s₃, s₄, hmk, hrun₁, hrun₂, hrun₃, hrun₄, -, -, h₄⟩ :=
    exists_resized (by rw [valulen_is] : (5000 + valulen - 1) / valulen = 1)
  have hlen := length_written_first [7] (by decide) (by decide)
  refine ⟨s₄, i, _, ?_, h₄.file, hlen, size_setSize (by norm_num)⟩
  exact ((((Reach.mkfs hmk).step trivial hrun₁).step trivial hrun₂).step trivial hrun₃).step trivial
    hrun₄

end Sample

end Fscq
