import Fscq.AsyncFSClient
import Fscq.FuseRun

/-!
# Crashes of the file server

The server is a client of the file system (`FsOp.client`): a request is several calls, and a crash in
the middle of it leaves what one between two of the calls leaves.
-/

namespace Fscq

open CrashProg

open BFILE (MemState)

open AFS (Moment Later Ok InTree inTree_iff)

namespace FsOp

variable {α : Type}

/-- Whether a call has succeeded. -/
def outcome : ∀ {α : Type}, FsOp α → α → Res Unit
  | _, .lookup _ _, r => r.map fun _ => ()
  | _, .fileGetSz _, _ => .ok ()
  | _, .readFblock _ _, _ => .ok ()
  | _, .fileTruncate _ _, r => r
  | _, .fileSetSz _ _, r => r
  | _, .ftruncate _ _, r => r
  | _, .updateFblock _ _ _, ok => if ok then .ok () else .error .ELOGOVERFLOW
  | _, .updateFblockD _ _ _, _ => .ok ()
  | _, .create _ _, r => r.map fun _ => ()
  | _, .mksock _ _, r => r.map fun _ => ()
  | _, .mkdir _ _, r => r.map fun _ => ()
  | _, .delete _ _, r => r
  | _, .rename _ _ _ _ _, r => r
  | _, .fileSync _, _ => .ok ()
  | _, .treeSync, _ => .ok ()

variable [Platform]

/-- The server as a client of the file system. -/
def client (fsxp : FsXparams) : AFS.Client fsxp FsOp where
  exec := exec fsxp
  call := toCall
  answer := outcome
  forgets o ams n xp := by
    cases o with
    | fileTruncate inum sz => exact forgets_id _
    | fileSetSz inum sz => exact forgets_id _
    | ftruncate inum sz => exact forgets_id _
    | delete dnum name => exact forgets_id _
    | rename dnum srcpath srcname dstpath dstname => exact forgets_id _
    | updateFblockD inum off v => exact forgets_bind fun _ => forgets_pure _
    | fileSync inum => exact forgets_bind fun _ => forgets_pure _
    | treeSync => exact forgets_bind fun _ => forgets_pure _
    | _ => exact forgets_map fun _ => rfl

/-- The call rolls back what it has done when it fails, and `B` allows it. -/
def Allowed (B : AFS.Call → Prop) (o : FsOp α) : Prop := (∀ r, o.toCall.Clean r) ∧ B o.toCall

end FsOp

namespace FuseProg

variable [Platform] {α : Type} {g : AFS.Geometry} {B : AFS.Call → Prop} {s : Moment}
  {Q : α → FsState → Prop} {C : LogSt → Prop}

/-- The server, if `B` allows its calls and `C` holds before each of them. -/
abbrev clientSem (g : AFS.Geometry) (B : AFS.Call → Prop) (C : LogSt → Prop) : Sem Moment FsOp :=
  (FsOp.client g.fsxp).sem fun c s => B c ∧ C s.log

theorem step_client {R : AFS.Call → Moment → Prop} {o : FsOp α} {s' : Moment} {v : α}
    (h : ((FsOp.client g.fsxp).sem R).step s o s' v) :
    (sem g.fsxp).step (s.ams, s.log) o (s'.ams, s'.log) v := by
  obtain ⟨rfl, rfl⟩ := h
  change apply g.fsxp o (s.ams, s.log) = _
  rw [AFS.Client.ams_after (u := FsOp.client g.fsxp), AFS.Client.log_after (u := FsOp.client g.fsxp)]
  rfl

/-- A program all of whose calls roll back what they have done when they fail. -/
theorem wp_client {p : FuseProg α} (hp : p.All (FsOp.Allowed B))
    (h : wp g.fsxp p Q C (s.ams, s.log)) :
    CrashProg.wp (clientSem g B C) p (fun v s' => Q v (s'.ams, s'.log)) (fun s' => C s'.log) s := by
  refine CrashProg.wp.map (T := (sem g.fsxp).check fun s => C s.2) (f := fun s : Moment => (s.ams, s.log))
    (P := FsOp.Allowed B) (fun _ _ _ _ => step_client) ?_ (fun _ => id) hp (h.check fun _ => trivial)
  rintro α o s ⟨hclean, hB⟩ hf
  by_cases hC : C s.log
  · exact .inl fun hv => hf ⟨.inl ⟨hv, hclean _⟩, hB, hC⟩
  · exact .inr hC

/-- A call that does no harm, and what comes after it. -/
theorem wp_bind_client {β : Type} {o : FsOp β} {k : β → FuseProg α} (hc : s.Harmless g o.toCall)
    (hB : B o.toCall) (h : wp g.fsxp (.op o >>= k) Q C (s.ams, s.log))
    (hk : ∀ v s', apply g.fsxp o (s.ams, s.log) = (v, s'.ams, s'.log) →
      wp g.fsxp (k v) Q C (s'.ams, s'.log) →
      CrashProg.wp (clientSem g B C) (k v) (fun v s' => Q v (s'.ams, s'.log))
        (fun s' => C s'.log) s') :
    CrashProg.wp (clientSem g B C) (.op o >>= k) (fun v s' => Q v (s'.ams, s'.log))
      (fun s' => C s'.log) s := by
  have hC : C s.log := h _ (.bindCrash (.crash _ trivial))
  have hstep := step_client (g := g) (R := fun _ _ => True) (o := o) (s := s) ⟨rfl, rfl⟩
  apply wp_bind
  apply AFS.Client.wp_op (u := FsOp.client g.fsxp) hC hc ⟨hB, hC⟩
  exact hk _ _ hstep (wp_of_bind h _ (.step hstep))

/-- A call that rolls back what it has done when it fails, and what comes after it. -/
theorem wp_clean_client {β : Type} {o : FsOp β} {k : β → FuseProg α} (hc : FsOp.Allowed B o)
    (h : wp g.fsxp (.op o >>= k) Q C (s.ams, s.log))
    (hk : ∀ v s', apply g.fsxp o (s.ams, s.log) = (v, s'.ams, s'.log) →
      wp g.fsxp (k v) Q C (s'.ams, s'.log) →
      CrashProg.wp (clientSem g B C) (k v) (fun v s' => Q v (s'.ams, s'.log))
        (fun s' => C s'.log) s') :
    CrashProg.wp (clientSem g B C) (.op o >>= k) (fun v s' => Q v (s'.ams, s'.log))
      (fun s' => C s'.log) s := by
  have hv : o.Valid g.fsxp s.log.disk.cur := by
    by_contra hv
    exact h _ (.bindFail (.fail hv))
  exact wp_bind_client (.inl ⟨hv, hc.1 _⟩) hc.2 h hk

theorem wp_pure_client {β : Type} {v : β} {k : β → FuseProg α}
    (h : wp g.fsxp (pure v >>= k) Q C (s.ams, s.log)) (hk : wp g.fsxp (k v) Q C (s.ams, s.log) →
      CrashProg.wp (clientSem g B C) (k v) (fun v s' => Q v (s'.ams, s'.log))
        (fun s' => C s'.log) s) :
    CrashProg.wp (clientSem g B C) (pure v >>= k) (fun v s' => Q v (s'.ams, s'.log))
      (fun s' => C s'.log) s :=
  wp_bind (wp_pure (hk (wp_of_bind h _ (.ret _ v))))

/-- What the program of the calls computes is what the calls compute. -/
theorem run_compile (fsxp : FsXparams) (p : FuseProg α) (s : FsState) :
    LogProg.run fsxp.log (compile (FsOp.exec fsxp) p s.1) s.2 =
      (((run fsxp p s).2.1, (run fsxp p s).1), (run fsxp p s).2.2) := by
  induction p generalizing s with
  | ret v => rfl
  | op o => rfl
  | bind p k ihp ihk =>
    change LogProg.run fsxp.log (compile (FsOp.exec fsxp) p s.1 >>= _) s.2 = _
    rw [LogProg.run_bind, ihp]
    exact ihk _ (run fsxp p s).2

end FuseProg

namespace Fuse

open LogSt (Flushed)

/-! ### The calls of the requests -/

section

variable {B : AFS.Call → Prop} {inum initLen : ℕ} {bs : Hslib.ByteString} {offset : ℕ}

theorem all_writePieces {doLog : Bool} (hread : ∀ off, B (.readFblock inum off))
    (hlog : ∀ off v, B (.updateFblock inum off v))
    (hdirect : doLog = false → ∀ off v, B (.updateFblockD inum off v))
    (l : List (BlockRange × Hslib.ByteString)) (r : WriteState) :
    (forEach (writePiece doLog inum initLen) l r).All (FsOp.Allowed B) := by
  refine all_forEach ?_ l r
  rintro ⟨r, piece⟩ (c | c)
  · refine ⟨?_, fun new => ?_⟩
    · exact all_ite trivial (all_ite ⟨trivial, fun _ => trivial⟩ ⟨⟨fun _ => trivial, hread _⟩,
        fun _ => ⟨trivial, fun _ => trivial⟩⟩)
    · cases doLog with
      | true => exact ⟨⟨fun _ => trivial, hlog _ _⟩, fun _ => trivial⟩
      | false => exact ⟨⟨fun _ => trivial, hdirect rfl _ _⟩, fun _ => trivial⟩
  · trivial

end

/-- The calls of the request roll back what they have done when they fail. -/
def Request.RollsBack : Request → Prop
  | .create _ _ .socket => False
  | .createDir _ _ => False
  | .setFileSize _ _ => False
  | _ => True

theorem Request.RollsBack.all {q : Request} (h : q.RollsBack) (root : ℕ) :
    (q.prog root).All (FsOp.Allowed fun _ => True) := by
  have hdir : ∀ {α : Type} {err : Posix → α} {dirparts : List Sname} {p : ℕ → FuseProg α},
      (∀ d, (p d).All (FsOp.Allowed fun _ => True)) →
      (inDir root err dirparts p).All (FsOp.Allowed fun _ => True) := by
    intro α err dirparts p hp
    refine ⟨⟨fun _ => trivial, trivial⟩, ?_⟩
    rintro (e | ⟨d, _ | _⟩)
    · trivial
    · trivial
    · exact hp d
  cases q with
  | openFile nameparts trunc =>
    refine ⟨all_ite trivial ⟨⟨fun _ => trivial, trivial⟩, ?_⟩, fun _ => trivial⟩
    rintro (e | ⟨i, _ | _⟩)
    · trivial
    · refine all_ite trivial (all_ite ⟨⟨fun _ => trivial, trivial⟩, fun _ =>
        ⟨⟨fun _ => trivial, trivial⟩, ?_⟩⟩ trivial)
      rintro (e | v) <;> trivial
    · trivial
  | createFile dirparts filename =>
    exact ⟨all_ite trivial (hdir fun d => ⟨⟨fun _ => trivial, trivial⟩, fun _ => trivial⟩),
      fun _ => trivial⟩
  | create dirparts filename entrytype =>
    cases entrytype with
    | regularFile =>
      exact ⟨hdir fun d => ⟨⟨fun _ => trivial, trivial⟩, fun _ => trivial⟩, fun _ => trivial⟩
    | socket => exact h.elim
    | other => exact ⟨hdir fun d => ⟨trivial, fun _ => trivial⟩, fun _ => trivial⟩
  | createDir dirparts filename => exact h.elim
  | unlink dirparts filename =>
    exact ⟨hdir fun d => ⟨⟨fun _ => trivial, trivial⟩, fun _ => trivial⟩, fun _ => trivial⟩
  | read inum byteCount offset =>
    refine ⟨⟨⟨fun _ => trivial, trivial⟩, fun _ => ⟨all_mapM' ?_ _, fun _ => trivial⟩⟩,
      fun _ => trivial⟩
    exact fun r => ⟨⟨fun _ => trivial, trivial⟩, fun _ => trivial⟩
  | write inum bs offset =>
    refine ⟨⟨⟨fun _ => trivial, trivial⟩, fun wlen => all_ite ⟨⟨fun _ => trivial, trivial⟩,
      fun _ => ⟨trivial, ?_⟩⟩ ⟨trivial, ?_⟩⟩, fun _ => trivial⟩
    -- the blocks are written in the same way, whether the file has grown or not
    all_goals
      rintro ⟨e | v, doLog⟩
      · trivial
      refine ⟨all_writePieces (fun _ => trivial) (fun _ _ => trivial) (fun _ _ _ => trivial) _ _, ?_⟩
      rintro (c | c)
      · refine all_ite ⟨⟨fun _ => trivial, trivial⟩, ?_⟩ ⟨trivial, ?_⟩
        all_goals rintro (e | v) <;> trivial
      · exact all_ite trivial trivial
  | setFileSize nameparts sz => exact h.elim
  | rename srcparts srcname dstparts dstname =>
    exact ⟨⟨⟨fun _ => trivial, trivial⟩, fun _ => trivial⟩, fun _ => trivial⟩
  | syncFile inum syncType =>
    cases syncType with
    | dataSync => exact ⟨⟨⟨fun _ => trivial, trivial⟩, fun _ => trivial⟩, fun _ => trivial⟩
    | fullSync =>
      exact ⟨⟨⟨fun _ => trivial, trivial⟩, fun _ => ⟨⟨fun _ => trivial, trivial⟩, fun _ => trivial⟩⟩,
        fun _ => trivial⟩
  | syncDir => exact ⟨⟨⟨fun _ => trivial, trivial⟩, fun _ => trivial⟩, fun _ => trivial⟩

/-! ### Sizes stay within the blocks in all calls of a request -/

/-- All files of the tree have the property. -/
def AllFiles (P : BFILE.BFile → Prop) (fsxp : FsXparams) (m : Mem) : Prop :=
  ∀ i f, files fsxp m i = some f → P f

/-- The sizes of the files are within their blocks. -/
def FitLog (fsxp : FsXparams) (L : LogSt) : Prop := AllFiles Fits fsxp L.disk.cur

/-- A file that is emptied when it is opened has no bytes. -/
def Request.EmptiesNone (fsxp : FsXparams) (s : FsState) : Request → Prop
  | .openFile nameparts true => ∀ i f, Names fsxp s.2.disk.cur nameparts i false →
    files fsxp s.2.disk.cur i = some f → size f = 0
  | _ => True

section

variable {n : ℕ} {fsxp : FsXparams} {A : Finset ℕ} {K : ℕ → Bool} {L L' : LogSt} {ams : MemState}
  {P : BFILE.BFile → Prop}

theorem AllFiles.sets {m m' : Mem} {i : ℕ} {f : BFILE.BFile} (h : AllFiles P fsxp m)
    (hs : Sets fsxp m i f m') (hf : P f) : AllFiles P fsxp m' := by
  intro j f' hj
  rw [hs.files] at hj
  rcases eq_or_ne j i with rfl | hne
  · rw [Function.update_self] at hj
    rwa [← Option.some.inj hj]
  · rw [Function.update_of_ne hne] at hj
    exact h j f' hj

variable [Platform] (h : Ok n fsxp A K L ams) (hx : fsxp.Ok n) (hlog : 512 ≤ fsxp.log.logLen)
  (hg : Good Fits n fsxp (ams, L))

include h hx hlog hg

theorem wp_writeFile_fits {i : ℕ} (hi : InTree fsxp L.disk.cur i false) {bs : Hslib.ByteString}
    {offset : ℕ} {Q : Except Posix ℕ → FsState → Prop}
    (hQ : ∀ r s', Good Fits n fsxp s' → Q r s') :
    FuseProg.wp fsxp (fscqWrite i bs offset) Q (FitLog fsxp) (ams, L) := by
  obtain ⟨hi, hKi⟩ := (inTree_iff h.tree h.root).1 hi
  have hf := files_of_mem h.tree h.root hi hKi
  have hfits := hg.files _ _ hf
  set f := BFILE.file fsxp L.disk.cur i with hfdef
  -- the size is only set at the end, when there are blocks for it
  apply wp_fscqWrite (J := fun L' data => Sets fsxp L.disk.cur i ⟨data, f.attr⟩ L'.disk.cur ∧
    size f ≤ 4096 * data.length) h hx (by omega) hf hfits hg.files
  · exact fun L' data ⟨hs, hle⟩ => AllFiles.sets hg.files hs hle
  · intro ams' L' _ _ hs
    have hroom := length_roomFor_ge hfits (offset + bs.length)
    exact ⟨hs, by omega⟩
  · intro L₁ ams₁ L' ams' data p _ ⟨_, hle⟩ _ _ _ _ hs
    exact ⟨hs, by rwa [length_putPiece]⟩
  · exact fun e ams' L' hL h' _ => hQ _ _ (hg.of_disk h' (congrArg ADisk.cur hL.disk))
  · intro L₁ ams' L' hend _ _ h' hs
    exact hQ _ _ (hg.update h' hs.files (lasting_fits.written hfits bs offset hend))

omit hlog in
theorem wp_openFile_fits {nameparts : List Sname} :
    FuseProg.wp fsxp (fscqOpen fsxp.rootInum nameparts false) (fun _ s' => Good Fits n fsxp s')
      (FitLog fsxp) (ams, L) := by
  by_cases hs : isServerFile nameparts = true
  · rw [fscqOpen, if_pos hs]
    exact wp_pure hg
  · rw [fscqOpen, if_neg hs]
    apply wp_bind
    apply wp_lookupRoot (C := FitLog fsxp) h hx hg.files
    · exact fun e ams' _ h' => wp_pure (hg.of_disk h' rfl)
    · rintro i (_ | _) ams' h' _ _ _ _ <;> exact wp_pure (hg.of_disk h' rfl)

/-- The same for all requests. -/
theorem wp_request_fits {q : Request} (hq : q.Meets fsxp (ams, L)) (he : q.EmptiesNone fsxp (ams, L))
    (hroom : n - fsxp.nblocks ≤ fsxp.log.logLen) :
    FuseProg.wp fsxp (q.prog fsxp.rootInum) (fun _ s' => Good Fits n fsxp s')
      (FitLog fsxp) (ams, L) := by
  have hC : FitLog fsxp L := hg.files
  have hsame : ∀ {ams'}, Ok n fsxp A K L ams' → Good Fits n fsxp (ams', L) :=
    fun h' => hg.of_disk h' rfl
  have hpure : ∀ {α β : Type} {p : FuseProg α} {k : α → β},
      FuseProg.wp fsxp p (fun _ s' => Good Fits n fsxp s') (FitLog fsxp)
        (ams, L) →
      FuseProg.wp fsxp (p >>= fun r => pure (k r)) (fun _ s' => Good Fits n fsxp s')
        (FitLog fsxp) (ams, L) :=
    fun hp => wp_seq hp fun _ _ hs => wp_pure hs
  -- one call in a directory
  have hdir : ∀ {α β : Type} {err : Posix → β} {dirparts : List Sname} {p : ℕ → FuseProg α}
      {k : α → β}, (∀ d ams', Ok n fsxp A K L ams' → DIRTREE.Cached ams ams' →
        Names fsxp L.disk.cur dirparts d true → d ∈ A → K d = true →
        FuseProg.wp fsxp (p d) (fun _ s' => Good Fits n fsxp s')
          (FitLog fsxp) (ams', L)) →
      FuseProg.wp fsxp (inDir fsxp.rootInum err dirparts fun d => p d >>= fun r => pure (k r))
        (fun _ s' => Good Fits n fsxp s') (FitLog fsxp) (ams, L) := by
    intro α β err dirparts p k hp
    refine wp_inDir h hx hC
      (fun _ _ _ h' => hsame h') fun d ams' h' hc hn hd hKd => ?_
    exact wp_seq (hp d ams' h' hc hn hd hKd) fun _ _ hs => wp_pure hs
  cases q with
  | openFile nameparts trunc =>
    apply hpure
    cases trunc with
    | false => exact wp_openFile_fits h hx hg
    | true =>
    apply wp_fscqOpen h hx hC (by omega)
    · exact fun _ => hg
    · exact fun e ams' h' => hsame h'
    · exact fun i ams' hfalse => nomatch hfalse
    · intro L' ams' hL _
      rwa [FitLog, hL.disk]
    · intro i f L' ams' hn hf _ _ hs
      refine AllFiles.sets hC hs ((he i f hn hf).trans_le (Nat.zero_le _))
    · rintro i f data L₁ L' ams' - - - hcase - h' hf'
      obtain ⟨-, -, hover⟩ | ⟨-, rfl⟩ := hcase
      · exact absurd hover (Nat.not_lt.2 hroom)
      · exact hg.update h' hf'.files (lasting_fits.emptied f)
  | createFile dirparts filename =>
    apply hpure
    rw [fscqCreateFile]
    split_ifs with hs
    · exact wp_pure hg
    · exact hdir fun d ams' h' _ _ hd hKd =>
        wp_create_good lasting_fits h' hx (hsame h') hC hd hKd fun _ _ hs => hs
  | create dirparts filename entrytype =>
    apply hpure
    cases entrytype with
    | regularFile =>
      exact hdir fun d ams' h' _ _ hd hKd =>
        wp_create_good lasting_fits h' hx (hsame h') hC hd hKd fun _ _ hs => hs
    | socket =>
      apply hdir
      intro d ams' h' hc hn hd hKd
      apply wp_mksock_good lasting_fits h' hx hlog (hsame h') hC hd hKd _ fun _ _ hs => hs
      exact (canAdd_of_cached hc).2 (hq d hn)
    | other =>
      exact hdir fun d ams' h' _ _ _ _ => wp_pure (hsame h')
  | createDir dirparts filename =>
    apply hpure
    apply hdir
    intro d ams' h' hc hn hd hKd
    apply wp_mkdir_good h' hx hlog (hsame h') hC hd hKd _ fun _ _ hs => hs
    exact (canAdd_of_cached hc).2 (hq d hn)
  | unlink dirparts filename =>
    apply hpure
    apply hdir
    intro d ams' h' hc hn hd hKd
    apply wp_delete h' hx hC hd hKd
    · exact fun e L' hL => hg.of_disk ((h'.refl hL).ok h') (congrArg ADisk.cur hL.disk)
    · exact fun ams₂ L' A' hl hsub => hg.subset (hl.effect.ok h') hsub
  | read inum byteCount offset =>
    exact hpure (wp_readFile_good lasting_fits h hx hg hC hq fun _ _ hs => hs)
  | write inum bs offset =>
    exact hpure (wp_writeFile_fits h hx hlog hg hq fun _ _ hs => hs)
  | setFileSize nameparts sz =>
    apply hpure
    apply wp_fscqSetFileSize h hx hC (by omega)
    · intro i f hn hf
      obtain ⟨hsz, hlen⟩ := hq i hn
      obtain ⟨-, rfl⟩ := files_eq_some.1 hf
      rw [BFILE.length_data, hlen, valulen_is]
      omega
    · exact fun e ams' _ _ h' => hsame h'
    · intro i f ams' L' hn hf _ h' hf'
      refine hg.update h' hf'.files ?_
      obtain ⟨hsz, hlen⟩ := hq i hn
      obtain ⟨-, rfl⟩ := files_eq_some.1 hf
      have hle : (addr2w sz).toNat ≤ sz := (BitVec.toNat_ofNat ..).trans_le (Nat.mod_le ..)
      dsimp only at hlen
      rw [← BFILE.length_data] at hlen
      change (addr2w sz).toNat ≤ 4096 * (BFILE.file fsxp L.disk.cur i).data.length
      omega
  | rename srcparts srcname dstparts dstname =>
    apply hpure
    apply wp_bind
    apply wp_rename h hx hC (h.tree.forest.root_mem (Multiset.mem_singleton_self _)) h.root
    · exact fun e L' hL => wp_pure (hg.of_disk ((h.refl hL).ok h) (congrArg ADisk.cur hL.disk))
    · exact fun ams' L' A' hl hsub => wp_pure (hg.subset (hl.effect.ok h) hsub)
  | syncFile inum syncType =>
    apply hpure
    cases syncType with
    | dataSync =>
      apply wp_bind
      apply wp_fileSync h hC
      exact fun al ams' he => wp_pure (hg.of_disk (he.ok h) (L.disk_dsyncVecs_cur al))
    | fullSync =>
      apply wp_bind
      apply wp_fileSync h hC
      intro al ams' he
      have hg' : Good Fits n fsxp (ams', L.dsyncVecs al) :=
        hg.of_disk (he.ok h) (L.disk_dsyncVecs_cur al)
      apply wp_bind
      apply wp_treeSync (C := FitLog fsxp) hg'.files
      exact fun ams₂ he₂ => wp_pure (hg'.of_disk (he₂.ok (he.ok h)) rfl)
  | syncDir =>
    apply hpure
    apply wp_bind
    apply wp_treeSync hC
    exact fun ams' he => wp_pure (hg.of_disk (he.ok h) rfl)

end

/-! ### The server as a client -/

section

variable [Platform] {g : AFS.Geometry} {s : Moment} {q : Request}

/-- Requests that return an error number, of the server as a client. -/
abbrev ClientGood (g : AFS.Geometry) (p : FuseProg Posix) (s : Moment) : Prop :=
  wp (FuseProg.clientSem g (fun _ => True) (FitLog g.fsxp)) (p >>= fun e => pure (ofPosix e))
    (fun _ s' => Good Fits g.dataSize g.fsxp (s'.ams, s'.log)) (fun s' => FitLog g.fsxp s'.log) s

/-- The path is looked up, and then there is one call. -/
theorem wp_lookup_client {A : Finset ℕ} {K : ℕ → Bool} (hok : Ok g.dataSize g.fsxp A K s.log s.ams)
    {names : List Sname} {k : Res (ℕ × Bool) → FuseProg Posix}
    (h : FuseProg.wp g.fsxp
      ((.op (.lookup g.fsxp.rootInum names) >>= k) >>= fun e => pure (ofPosix e))
      (fun _ s' => Good Fits g.dataSize g.fsxp s') (FitLog g.fsxp) (s.ams, s.log))
    (hk : ∀ d b s' Q, Names g.fsxp s.log.disk.cur names d b → s'.log = s.log →
      DIRTREE.Cached s.ams s'.ams → InTree g.fsxp s.log.disk.cur d b →
      FuseProg.wp g.fsxp (k (.ok (d, b))) Q (FitLog g.fsxp) (s'.ams, s'.log) →
      wp (FuseProg.clientSem g (fun _ => True) (FitLog g.fsxp)) (k (.ok (d, b)))
        (fun v s' => Q v (s'.ams, s'.log)) (fun s' => FitLog g.fsxp s'.log) s')
    (hkerr : ∀ e, (k (.error e)).All (FsOp.Allowed fun _ => True)) :
    ClientGood g (.op (.lookup g.fsxp.rootInum names) >>= k) s := by
  refine wp_seq (FuseProg.wp_bind_client (o := .lookup g.fsxp.rootInum names)
    (.inl ⟨InTree.root, trivial⟩) trivial (wp_of_bind h) ?_) fun v s' hv => FuseProg.wp_client trivial hv
  intro r s' hrun h'
  have hroot := hok.tree.forest.root_mem (Multiset.mem_singleton_self _)
  have hl : FuseProg.wp g.fsxp (.op (.lookup g.fsxp.rootInum names))
      (fun r s' => r = DIRTREE.walk g.fsxp s.log.disk.cur g.fsxp.rootInum true names ∧
        (∀ i b, r = .ok (i, b) → InTree g.fsxp s.log.disk.cur i b) ∧ s'.2 = s.log ∧
        DIRTREE.Cached s.ams s'.1) (fun _ => True) (s.ams, s.log) :=
    wp_lookup (C := fun _ => True) hok g.ok trivial hroot hok.root fun ams' r _ hc hr hmem =>
      ⟨hr, fun i b he => hok.inTree_iff.2 (hmem i b he), rfl, hc⟩
  have hrun : FuseProg.run g.fsxp (.op (.lookup g.fsxp.rootInum names)) (s.ams, s.log) = _ := hrun
  have hl := FuseProg.wp_run hl
  rw [hrun] at hl
  obtain ⟨hr, hmem, hlog, hc⟩ := hl
  rcases r with e | ⟨d, b⟩
  · exact FuseProg.wp_client (hkerr e) h'
  · exact hk d b s' _ hr.symm hlog hc (hmem d b rfl) h'

/-- The call adds an entry to a directory. -/
theorem wp_inDir_client {A : Finset ℕ} {K : ℕ → Bool} (hok : Ok g.dataSize g.fsxp A K s.log s.ams)
    {dirparts : List Sname} {filename : Sname} {o : ℕ → FsOp (Res ℕ)}
    (h : FuseProg.wp g.fsxp (inDir g.fsxp.rootInum id dirparts (fun d =>
      .op (o d) >>= fun r => pure (answer r)) >>= fun e => pure (ofPosix e))
      (fun _ s' => Good Fits g.dataSize g.fsxp s') (FitLog g.fsxp) (s.ams, s.log))
    (ho : ∀ d, (o d).toCall = .mkdir d filename ∨ (o d).toCall = .mksock d filename)
    (hq : ∀ d, Names g.fsxp s.log.disk.cur dirparts d true →
      AFS.CanAdd g.fsxp s.log.disk.cur s.ams d filename) :
    ClientGood g (inDir g.fsxp.rootInum id dirparts fun d =>
      .op (o d) >>= fun r => pure (answer r)) s := by
  refine wp_lookup_client hok h ?_ fun _ => trivial
  rintro d (_ | _) s' Q hn hlog hc hd h'
  · exact FuseProg.wp_client trivial h'
  · have hadd := (canAdd_of_cached hc).2 (hq d hn)
    have hc : s'.Harmless g (o d).toCall := by
      rw [← hlog] at hd hadd
      rcases ho d with ho | ho
      · rw [ho]
        exact .inr ⟨hd, hadd⟩
      · rw [ho]
        exact .inr ⟨hd, hadd⟩
    exact FuseProg.wp_bind_client hc trivial h' fun v s₂ _ h₂ => FuseProg.wp_client trivial h₂

/-- A request, if its calls do no harm. -/
theorem wp_request_client (hlog : 512 ≤ g.fsxp.log.logLen)
    (hroom : g.dataSize - g.fsxp.nblocks ≤ g.fsxp.log.logLen)
    (hg : Good Fits g.dataSize g.fsxp (s.ams, s.log)) (hq : q.Meets g.fsxp (s.ams, s.log))
    (he : q.EmptiesNone g.fsxp (s.ams, s.log)) :
    wp (FuseProg.clientSem g (fun _ => True) (FitLog g.fsxp)) (q.prog g.fsxp.rootInum)
      (fun _ s' => Good Fits g.dataSize g.fsxp (s'.ams, s'.log)) (fun s' => FitLog g.fsxp s'.log) s := by
  obtain ⟨A, K, hok⟩ := hg.ok
  have hwp := wp_request_fits hok g.ok hlog hg hq he hroom
  by_cases hr : q.RollsBack
  · exact FuseProg.wp_client (hr.all _) hwp
  cases q with
  | create dirparts filename entrytype =>
    cases entrytype with
    | socket => exact wp_inDir_client hok hwp (fun _ => .inr rfl) hq
    | regularFile => exact absurd trivial hr
    | other => exact absurd trivial hr
  | createDir dirparts filename => exact wp_inDir_client hok hwp (fun _ => .inl rfl) hq
  | setFileSize nameparts sz =>
    refine wp_lookup_client hok hwp ?_ fun _ => trivial
    rintro i (_ | _) s' Q hn hlog' _ hi h'
    · have hc : s'.Harmless g (.ftruncate i sz) := by
        obtain ⟨hsz, hlen⟩ := hq i hn
        rw [← hlog'] at hi hlen
        refine .inr ⟨hi, fun _ => ?_⟩
        rw [hlen, valulen_is]
        omega
      exact FuseProg.wp_bind_client (o := .ftruncate i sz) hc trivial h'
        fun v s₂ _ h₂ => FuseProg.wp_client trivial h₂
    · exact FuseProg.wp_client trivial h'
  | _ => exact absurd trivial hr

end

/-! ### Crashes -/

section

variable {P : BFILE.BFile → Prop} {fsxp : FsXparams} {m m' : Mem} {i : ℕ}

/-- A crash does not change the sizes of the files. -/
theorem allFiles_of_sameTree (h : AllFiles Fits fsxp m) (hs : AFS.SameTree fsxp m m') :
    AllFiles Fits fsxp m' := by
  intro i f hf
  obtain ⟨hi, rfl⟩ := files_eq_some.1 hf
  have hi' := (hs.inTree i false).1 hi
  have hfits := h i _ (files_eq_some.2 ⟨hi', rfl⟩)
  rw [Fits, size, BFILE.length_data] at hfits ⊢
  rwa [hs.attr i false hi', hs.blocks i false hi']

variable [Platform] {g : AFS.Geometry} {R : AFS.Call → Moment → Prop} {s s₀ : Moment} {d : Mem}
  {Φ : Mem → Prop}

/-- What holds between all calls holds of all disks since the last sync. -/
theorem forall_disks (hl : Later g R s₀ s) (hR : ∀ c s, R c s → Φ s.log.disk.cur)
    (h₀ : ∀ m ∈ s₀.disks, Φ m) (hs : Φ s.log.disk.cur) : ∀ m ∈ s.disks, Φ m := by
  induction hl with
  | refl => exact h₀
  | call hl hc hRc ih =>
    intro m hm
    rcases Moment.disks_after hm with rfl | hm
    · exact hs
    · exact ih (hR _ _ hRc) m hm

/-- The states of a server that may crash: it starts on a new file system, executes requests that `P`
allows, and is started again on one of the disks that a crash leaves. -/
inductive Serves (g : AFS.Geometry) (P : FsState → Request → Prop) : FsState → Prop
  | mkfs {d₀ : Mem} {L : LogSt} {ams : MemState}
      (h : LogProg.run g.fsxp.log (AFS.mkfs g.fsxp) (.ofDisk d₀) = (.ok ams, L)) : Serves g P (ams, L)
  | request {ams ams' : MemState} {L L' : LogSt} {q : Request} {r : Except Posix Answer}
      (h : Serves g P (ams, L)) (hq : P (ams, L) q)
      (hr : LogProg.run g.fsxp.log (compile (FsOp.exec g.fsxp) (q.prog g.fsxp.rootInum) ams) L =
        ((ams', r), L')) : Serves g P (ams', L')
  | crash {ams : MemState} {L M : LogSt} {q : Request} {d : Mem}
      (h : Serves g P (ams, L)) (hq : P (ams, L) q)
      (hM : Exec (LogProg.sem g.dataSize g.fsxp.log) L
        (compile (FsOp.exec g.fsxp) (q.prog g.fsxp.rootInum) ams) (.crashed M))
      (hd : d ∈ M.crashes g.fsxp.log) : Serves g P (BFILE.msEmpty, .ofDisk d)

theorem Serves.of_run {P : FsState → Request → Prop} {s s' : FsState} {q : Request}
    {r : Except Posix Answer} (h : Serves g P s) (hq : P s q)
    (hr : FuseProg.run g.fsxp (q.prog g.fsxp.rootInum) s = (r, s')) : Serves g P s' := by
  refine h.request hq (r := r) ?_
  rw [FuseProg.run_compile g.fsxp _ s, hr]

/-- The request does no harm. -/
def Request.Safe (fsxp : FsXparams) (s : FsState) (q : Request) : Prop :=
  q.Meets fsxp s ∧ q.EmptiesNone fsxp s

/-- What holds between two requests and of all disks that a crash can leave. -/
structure Serving (g : AFS.Geometry) (s : Moment) : Prop where
  lives : s.Lives g
  good : Good Fits g.dataSize g.fsxp (s.ams, s.log)
  disks : ∀ m ∈ s.disks, AllFiles Fits g.fsxp m
  log : 512 ≤ g.fsxp.log.logLen
  room : g.dataSize - g.fsxp.nblocks ≤ g.fsxp.log.logLen

theorem Serving.wp {q : Request} (h : Serving g s) (hq : q.Safe g.fsxp (s.ams, s.log)) :
    LogProg.wp g.dataSize g.fsxp.log (compile (FsOp.exec g.fsxp) (q.prog g.fsxp.rootInum) s.ams)
      (fun r L' => ∃ s', Serving g s' ∧ s'.ams = r.1 ∧ s'.log = L')
      (fun M => ∀ d ∈ M.crashes g.fsxp.log, Serving g (Moment.recovered d)) s.log := by
  have hreq := wp_request_client h.log h.room h.good hq.1 hq.2
  have hdisks : ∀ {s'}, Later g (fun _ s => True ∧ FitLog g.fsxp s.log) s s' → FitLog g.fsxp s'.log →
      ∀ m ∈ s'.disks, AllFiles Fits g.fsxp m :=
    fun hl hs' => forall_disks hl (fun _ _ hR => hR.2) h.disks hs'
  apply wp_mono (AFS.Client.wp_compile (u := FsOp.client g.fsxp) h.lives hreq)
  · rintro r L' ⟨s', hl, hams, hlog, hgood⟩
    exact ⟨s', ⟨hl.lives h.lives, hgood, hdisks hl hgood.files, h.log, h.room⟩, hams, hlog⟩
  · intro M hM d hd
    obtain ⟨s', hl, hs', hd⟩ := hM d hd
    have hfit : FitLog g.fsxp s'.log := hs'.elim id fun ⟨_, hgood⟩ => hgood.files
    have hlives := hl.lives h.lives
    obtain ⟨-, m, hm, hsame⟩ := hlives.sound.settled.crash g.ok hd
    have hall := allFiles_of_sameTree (hdisks hl hfit m hm) hsame
    have hrec := hlives.recovered hd
    refine ⟨hrec, ⟨hrec.ok, hall⟩, ?_, h.log, h.room⟩
    rintro _ rfl
    exact hall

theorem Serves.serving {s : FsState} (h : Serves g (Request.Safe g.fsxp) s) :
    ∃ s', Serving g s' ∧ (s'.ams, s'.log) = s := by
  induction h with
  | @mkfs d₀ L ams h =>
    have hgood : Good Fits g.dataSize g.fsxp (ams, L) := good_of_mkfs h
    refine ⟨⟨{L.disk.cur}, L, ams⟩, ⟨.mkfs h, hgood, ?_, ?_, ?_⟩, rfl⟩
    · rintro _ rfl
      exact hgood.files
    · exact g.le_logLen (AFS.new_of_mkfs h).log
    · exact AFS.room_of_mkfs h
  | request _ hq hr ih =>
    obtain ⟨s', hs', he⟩ := ih
    obtain ⟨rfl, rfl⟩ := Prod.mk.inj he
    have hrun := LogProg.wp_run (hs'.wp hq)
    rw [hr] at hrun
    obtain ⟨s₂, hs₂, rfl, rfl⟩ := hrun
    exact ⟨s₂, hs₂, rfl⟩
  | crash _ hq hM hd ih =>
    obtain ⟨s', hs', he⟩ := ih
    obtain ⟨rfl, rfl⟩ := Prod.mk.inj he
    exact ⟨_, hs'.wp hq _ hM _ hd, rfl⟩

/-- In the life of a server that is restarted after every crash, in the middle of a request or between
two of them, the size of every file stays within its blocks, and no request that does no harm
accesses a block outside of the data section. -/
theorem sizes_fit_after_crashes {s : FsState} (h : Serves g (Request.Safe g.fsxp) s) :
    (∀ i f, files g.fsxp s.2.disk.cur i = some f → size f ≤ 4096 * f.data.length) ∧
    ∀ q : Request, q.Safe g.fsxp s →
      ¬ Exec (LogProg.sem g.dataSize g.fsxp.log) s.2
        (compile (FsOp.exec g.fsxp) (q.prog g.fsxp.rootInum) s.1) .failed := by
  obtain ⟨s', hs', rfl⟩ := h.serving
  exact ⟨hs'.good.files, fun q hq e => hs'.wp hq _ e⟩

end

end Fuse

namespace Sample

open Fuse

local instance fuseCrashPlatform : Platform := platform

/-- A file that has been created. -/
theorem exists_serving : ∃ (s : Moment) (i : ℕ), Serving geometry s ∧
    files geometry.fsxp s.log.disk.cur i = some DIRTREE.bfile0 := by
  obtain ⟨ams, L, i, s, hmk, hrun, hfile, -⟩ := exists_created
  have hserves : Serves geometry (Request.Safe geometry.fsxp) s :=
    (Serves.mkfs hmk).of_run (q := .createFile [] [97]) ⟨trivial, trivial⟩ hrun
  obtain ⟨s', hs', rfl⟩ := hserves.serving
  exact ⟨s', i, hs', hfile.file⟩

/-- A machine creates a file in a new file system. -/
theorem on_disk_createFile : ∃ f ams, AFS.Life geometry {f} (.ofDisk f) ams ∧
    ∀ st', Exec diskSem (mounted f) (LogProg.compile geometry.fsxp.log
        (compile (FsOp.exec geometry.fsxp)
          ((Request.createFile [] [97]).prog geometry.fsxp.rootInum) ams)
        ⟨∅, ⟨∅, [], ⟨∅, BufCache.cache0 10⟩⟩⟩) (.crashed st') →
      ∀ st₀ out, Reboot st' st₀ →
        ExecRecover diskSem Reboot st₀ (LOG.recoverBoot 10 geometry.fsxp.log)
          (LOG.recoverBoot 10 geometry.fsxp.log) out →
        let Rec := fun ms' st'' => ∃ (s' : Moment) (d : Mem),
          Later geometry (fun _ s => True ∧ FitLog geometry.fsxp s.log) ⟨{f}, .ofDisk f, ams⟩ s' ∧
          FitLog geometry.fsxp s'.log ∧ d ∈ s'.log.crashes geometry.fsxp.log ∧
          LOG.LState geometry.fsxp.maxBlock geometry.fsxp.log (.ofDisk d) ms' st''
        out.Sat Rec Rec := by
  obtain ⟨ams, L, hmk⟩ := exists_new fun _ => 0
  obtain ⟨⟨T, L', ams'⟩, hs, he⟩ :=
    (Serves.mkfs hmk : Serves geometry (Request.Safe geometry.fsxp) (ams, L)).serving
  obtain ⟨rfl, rfl⟩ : ams' = ams ∧ L' = L := Prod.mk.inj he
  obtain ⟨f, rfl⟩ : ∃ f, L' = .ofDisk f := ⟨_, AFS.eq_ofDisk_of_mkfs hmk⟩
  have hlife : AFS.Life geometry {f} (.ofDisk f) ams' := .mkfs hmk
  have hreq := wp_request_client (s := ⟨{f}, .ofDisk f, ams'⟩) (q := .createFile [] [97]) hs.log
    hs.room hs.good trivial trivial
  have h := AFS.Client.on_disk (u := FsOp.client geometry.fsxp) 10 hlife hreq
    (fun _ _ hgood => hgood.files) (lstate_mounted _)
  exact ⟨_, ams', hlife, h.2.2⟩

/-- A byte is written to a new file and the file gets a size of 100; then the machine crashes during a
sync, and is started again. -/
theorem sizes_fit_after_crashes_resized : ∃ ams L i s₁ s₂ a s₃ s,
    Serves geometry (Request.Safe geometry.fsxp) (ams, L) ∧
    FuseProg.run geometry.fsxp ((Request.createFile [] [97]).prog geometry.fsxp.rootInum) (ams, L) =
      (.ok (.handle i), s₁) ∧
    FuseProg.run geometry.fsxp (Request.syncDir.prog geometry.fsxp.rootInum) s₁ = (.ok .done, s₂) ∧
    FuseProg.run geometry.fsxp ((Request.write i [7] 0).prog geometry.fsxp.rootInum) s₂ = (.ok a, s₃) ∧
    FuseProg.run geometry.fsxp ((Request.setFileSize [[97]] 100).prog geometry.fsxp.rootInum) s₃ =
      (.ok .done, s) ∧
    Serves geometry (Request.Safe geometry.fsxp) s ∧ (∃ d, d ∈ s.2.crashes geometry.fsxp.log) ∧
    ∀ d ∈ s.2.crashes geometry.fsxp.log,
      (∀ i f, files geometry.fsxp d i = some f → size f ≤ 4096 * f.data.length) ∧
      ∀ q : Request, q.Safe geometry.fsxp (BFILE.msEmpty, .ofDisk d) →
        ¬ Exec (LogProg.sem geometry.dataSize geometry.fsxp.log) (.ofDisk d)
          (compile (FsOp.exec geometry.fsxp) (q.prog geometry.fsxp.rootInum) BFILE.msEmpty)
            .failed := by
  obtain ⟨ams, L, i, s₁, s₂, a, s₃, s₄, hmk, hrun₁, hrun₂, hrun₃, hrun₄, h₂, h₃, -⟩ :=
    exists_resized (by rw [valulen_is] : (100 + valulen - 1) / valulen = 1)
  have hlen := length_written_first [7] (by decide) (by decide)
  have h : Serves geometry (Request.Safe geometry.fsxp) s₄ :=
    ((((Serves.mkfs hmk).of_run (q := .createFile [] [97]) ⟨trivial, trivial⟩ hrun₁).of_run
      (q := .syncDir) ⟨trivial, trivial⟩ hrun₂).of_run (q := .write i [7] 0) ⟨h₂.inTree, trivial⟩
      hrun₃).of_run ⟨h₃.meets_setFileSize (by decide) hlen, trivial⟩ hrun₄
  obtain ⟨s, hs, rfl⟩ := h.serving
  refine ⟨ams, L, i, s₁, s₂, a, s₃, _, .mkfs hmk, hrun₁, hrun₂, hrun₃, hrun₄, h, ?_, fun d hd => ?_⟩
  · exact ⟨_, LogSt.cur_mem_crashes (LogSt.latest_disk (AFS.Life.latest hs.lives)) geometry.fsxp.log⟩
  · have hcrash : Serves geometry (Request.Safe geometry.fsxp) (BFILE.msEmpty, .ofDisk d) :=
      h.crash (q := .syncDir) ⟨trivial, trivial⟩
        (.bindCrash (.bindCrash (.bindCrash (.bindCrash (.crash s.log trivial))))) hd
    exact sizes_fit_after_crashes hcrash

end Sample

end Fscq
