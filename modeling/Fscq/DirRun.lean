import Fscq.AsyncFSRun
import Fscq.Lib.FiniteMap

/-!
# Runs of directories

A directory stands for a finite map from names to inodes.  In every sequence of operations each of
them does to the map what its name says, whatever the hints are and whatever is in the cache.
-/

namespace Fscq

open CrashProg

open FiniteMap (Lists)

/-- The results of operations on a directory. -/
inductive DirOut (Name : Type)
  | done (r : Res Unit)
  | found (r : Option (ℕ × Bool))
  | listed (l : List (Name × ℕ × Bool))

/-! ## Directories in files -/

namespace DIR

/-- The operations of a directory. -/
inductive Op
  | link (name : Filename) (inum : ℕ) (isdir : Bool) (ix0 : ℕ)
  | unlink (name : Filename)
  | lookup (name : Filename)
  | readdir

abbrev Dmap := Filename → Option (ℕ × Bool)

namespace Op

/-- A name that is linked is not in the directory yet, and its inode number is one. -/
def Valid (dmap : Dmap) : Op → Prop
  | .link name inum _ _ => dmap name = none ∧ inum ≠ 0 ∧ inum < 2 ^ addrlen
  | _ => True

/-- An operation on the directory `dnum`. -/
def exec (fsxp : FsXparams) (dnum : ℕ) (o : Op) (ms : BFILE.MemState) :
    TxnProg (BFILE.MemState × DirOut Filename) :=
  match o with
  | .link name inum isdir ix0 => do
    let (ms, _, r) ← DIR.link fsxp.inode dnum fsxp.blockAlloc name inum isdir ix0 ms
    pure (ms, .done r)
  | .unlink name => do
    let (ms, _, r) ← DIR.unlink fsxp.inode dnum name ms
    pure (ms, .done r)
  | .lookup name => do
    let (ms, r) ← DIR.lookup fsxp.inode dnum name ms
    pure (ms, .found r)
  | .readdir => do
    let (ms, l) ← DIR.readdir fsxp.inode dnum ms
    pure (ms, .listed l)

/-- The map after an operation with a result. -/
def after (dmap : Dmap) : Op → DirOut Filename → Dmap
  | .link name inum isdir _, .done (.ok _) => Function.update dmap name (some (inum, isdir))
  | .unlink name, _ => Function.update dmap name none
  | _, _ => dmap

/-- The right results: linking fails only for want of room, unlinking only for want of the name. -/
def Answers (fsxp : FsXparams) (m : Mem) (ms : BFILE.MemState) (dnum : ℕ) (dmap : Dmap) :
    Op → DirOut Filename → Prop
  | .link .., r => HasRoom fsxp m ms dnum ∧ r = .done (.ok ()) ∨
      ¬ HasRoom fsxp m ms dnum ∧ r = .done (.error (BFILE.growErr fsxp m dnum))
  | .unlink name, r => (dmap name).isSome ∧ r = .done (.ok ()) ∨
      dmap name = none ∧ r = .done (.error .ENOENT)
  | .lookup name, r => r = .found (dmap name)
  | .readdir, r => ∃ l, r = .listed l ∧ Lists l dmap

/-- What an operation with a result does to the slots: a new entry goes to a free slot, or to a new
block if there is none, and the slot of a removed entry becomes free. -/
def Slots : Op → DirOut Filename → List Dent → List Dent → Prop
  | .link name inum isdir _, .done (.ok _), l, l' => Linked (mkDent name inum isdir) l l'
  | .unlink name, .done (.ok _), l, l' => Unlinked name l l'
  | _, _, l, l' => l' = l

/-- The operation with another hint. -/
def withHint (ix0 : ℕ) : Op → Op
  | .link name inum isdir _ => .link name inum isdir ix0
  | o => o

end Op

/-- The file is a directory with the entries of the map, each in one slot. -/
structure Rep (f : BFILE.BFile) (dmap : Dmap) : Prop where
  lists : Lists (dents f) dmap
  inums : ∀ name e, dmap name = some e → e.1 ≠ 0

/-- What a client of one directory gets into, with the map that its operations lead to. -/
inductive Reach (fsxp : FsXparams) (dnum : ℕ) : Mem → BFILE.MemState → Dmap → Prop
  | start {m : Mem} {ms : BFILE.MemState} {dmap : Dmap} (h : BFILE.Inv fsxp m ms)
      (hr : Rep (BFILE.file fsxp m dnum) dmap) : Reach fsxp dnum m ms dmap
  | step {m : Mem} {ms : BFILE.MemState} {dmap : Dmap} (h : Reach fsxp dnum m ms dmap) (o : Op)
      (ho : o.Valid dmap) :
      Reach fsxp dnum (Txn.run (o.exec fsxp dnum ms) m).2 (Txn.run (o.exec fsxp dnum ms) m).1.1
        (o.after dmap (Txn.run (o.exec fsxp dnum ms) m).1.2)

variable {n dnum : ℕ} {fsxp : FsXparams} {m m' : Mem} {ms ms' : BFILE.MemState} {dmap : Dmap}
  {f f' : BFILE.BFile} {name : Filename} {o : Op} {r : DirOut Filename}

theorem Rep.link (h : Rep f dmap) (hn : dmap name = none) {inum : ℕ} {isdir : Bool} (h0 : inum ≠ 0)
    (hlt : inum < 2 ^ addrlen) (hl : Linked (mkDent name inum isdir) (slots f) (slots f')) :
    Rep f' (Function.update dmap name (some (inum, isdir))) where
  lists := by
    apply h.lists.insert hn
    rw [← readent_mkDent hlt]
    exact hl.perm (isValid_mkDent name inum isdir)
  inums s e he := by
    rw [Function.update_apply] at he
    split_ifs at he
    · obtain rfl := Option.some.inj he
      exact h0
    · exact h.inums s e he

theorem Rep.unlink (h : Rep f dmap) (hu : Unlinked name (slots f) (slots f')) :
    Rep f' (Function.update dmap name none) where
  lists := by
    obtain ⟨e, hp⟩ := hu.perm
    exact h.lists.erase hp
  inums s e he := by
    rw [Function.update_apply] at he
    split_ifs at he
    exact h.inums s e he

/-- Removing a name that is not there changes nothing. -/
theorem Rep.unlink_none (h : Rep f dmap) (hn : dmap name = none) :
    Rep f (Function.update dmap name none) := by
  rwa [Function.update_eq_self_iff.2 hn.symm]

/-- What an operation with a result does. -/
structure Does (fsxp : FsXparams) (dnum : ℕ) (m : Mem) (ms : BFILE.MemState) (dmap : Dmap)
    (o : Op) (r : DirOut Filename) (m' : Mem) (ms' : BFILE.MemState) : Prop where
  inv : BFILE.Inv fsxp m' ms'
  answers : o.Answers fsxp m ms dnum dmap r
  rep : Rep (BFILE.file fsxp m' dnum) (o.after dmap r)
  slots : o.Slots r (slots (BFILE.file fsxp m dnum)) (slots (BFILE.file fsxp m' dnum))
  other : ∀ j < INODE.ninodes fsxp.inode, j ≠ dnum → BFILE.file fsxp m' j = BFILE.file fsxp m j

theorem Op.wp_exec (hx : fsxp.Ok n) (hi : dnum < INODE.ninodes fsxp.inode)
    (hinv : BFILE.Inv fsxp m ms) (hr : Rep (BFILE.file fsxp m dnum) dmap) (ho : o.Valid dmap) :
    Txn.wp n (o.exec fsxp dnum ms)
      (fun r m' => DIR.Does fsxp dnum m ms dmap o r.2 m' r.1) m := by
  cases o with
  | link name inum isdir ix0 =>
    obtain ⟨hn, h0, hlt⟩ := ho
    apply wp_bind
    apply wp_link hx hinv hi
    · intro hfull ms' m' ix hinv' hlk
      have hfile := fun j (hj : j < INODE.ninodes fsxp.inode) =>
        (hlk.file hx hinv hj).2.2.2
      apply wp_pure
      refine ⟨hinv', .inr ⟨hfull, rfl⟩, ?_, ?_, fun j hj _ => hfile j hj⟩
      · rw [hfile dnum hi]
        exact hr
      · rw [hfile dnum hi]
        rfl
    · intro hroom ms' m' ix hc hl
      exact wp_pure ⟨hc.inv, .inl ⟨hroom, rfl⟩, hr.link hn h0 hlt hl, hl,
        fun j hj hne => hc.step.file hinv hj hne⟩
  | unlink name =>
    apply wp_bind
    apply wp_unlink hx hinv hi
    · intro c hnot hinv'
      have hnone : dmap name = none := hr.lists.eq_none_iff_ne.2 hnot
      exact wp_pure ⟨hinv', .inr ⟨hnone, rfl⟩, hr.unlink_none hnone, rfl, fun _ _ _ => rfl⟩
    · intro ms' m' ix hc _ hu
      apply wp_pure
      refine ⟨hc.inv, .inl ⟨?_, rfl⟩, hr.unlink hu, hu, fun j hj hne => hc.step.file hinv hj hne⟩
      obtain ⟨e, hp⟩ := hu.perm
      have hmem := hp.mem_iff.2 List.mem_cons_self
      exact Option.isSome_iff_exists.2 ⟨e, (hr.lists.mem_iff name e).1 hmem⟩
  | lookup name =>
    apply wp_bind
    apply wp_lookup hx hinv hi
    intro c r hinv' hsome hnone
    apply wp_pure
    refine ⟨hinv', ?_, hr, rfl, fun _ _ _ => rfl⟩
    cases r with
    | none => rw [Op.Answers, hr.lists.eq_none_iff_ne.2 (hnone rfl)]
    | some e => rw [Op.Answers, (hr.lists.mem_iff name e).1 (hsome e rfl)]
  | readdir =>
    apply wp_bind
    apply wp_readdir hx hinv hi
    intro c hinv'
    exact wp_pure ⟨hinv', ⟨_, rfl, hr.lists⟩, hr, rfl, fun _ _ _ => rfl⟩

/-- The result does not depend on the hint. -/
theorem Op.Answers.withHint {r' : DirOut Filename} {ix0 : ℕ} (h : o.Answers fsxp m ms dnum dmap r)
    (h' : (o.withHint ix0).Answers fsxp m ms dnum dmap r') (hl : o.withHint ix0 ≠ o) : r' = r := by
  cases o with
  | link name inum isdir ix =>
    rcases h with ⟨hroom, rfl⟩ | ⟨hfull, rfl⟩ <;> rcases h' with ⟨hroom', rfl⟩ | ⟨hfull', rfl⟩
    · rfl
    · exact absurd hroom hfull'
    · exact absurd hroom' hfull
    · rfl
  | unlink name => exact absurd rfl hl
  | lookup name => exact absurd rfl hl
  | readdir => exact absurd rfl hl

/-- A directory refines a finite map.  In every state that a client reaches, the slots hold the
bindings of the map, each of them once, and every operation gives the right result and does to the
map and to the slots what it should; with another hint it gives the same result. -/
theorem dir_refines_map (hx : fsxp.Ok n) (hi : dnum < INODE.ninodes fsxp.inode)
    (h : Reach fsxp dnum m ms dmap) : Rep (BFILE.file fsxp m dnum) dmap ∧
      ∀ o : Op, o.Valid dmap →
        Txn.wp n (o.exec fsxp dnum ms)
          (fun r m' => DIR.Does fsxp dnum m ms dmap o r.2 m' r.1) m ∧
        ∀ ix0, (Txn.run ((o.withHint ix0).exec fsxp dnum ms) m).1.2 =
          (Txn.run (o.exec fsxp dnum ms) m).1.2 := by
  have hreach : BFILE.Inv fsxp m ms ∧ Rep (BFILE.file fsxp m dnum) dmap := by
    induction h with
    | start h hr => exact ⟨h, hr⟩
    | step _ o ho ih =>
      have hdoes := Txn.wp_run (o.wp_exec hx hi ih.1 ih.2 ho)
      exact ⟨hdoes.inv, hdoes.rep⟩
  obtain ⟨hinv, hr⟩ := hreach
  refine ⟨hr, fun o ho => ⟨o.wp_exec hx hi hinv hr ho, fun ix0 => ?_⟩⟩
  by_cases hl : o.withHint ix0 = o
  · rw [hl]
  · have ho' : (o.withHint ix0).Valid dmap := by
      cases o <;> exact ho
    exact (Txn.wp_run (o.wp_exec hx hi hinv hr ho)).answers.withHint
      (Txn.wp_run (Op.wp_exec hx hi hinv hr ho')).answers hl

end DIR

namespace Sample

local instance dirPlatform : Platform := platform

/-- In a new file system an entry is added to the root directory. -/
theorem dir_refines_map_root : ∃ ams m, ∀ ix0,
    Txn.wp geometry.dataSize ((DIR.Op.link 1 2 false ix0).exec geometry.fsxp geometry.fsxp.rootInum ams)
      (fun r m' => DIR.Does geometry.fsxp geometry.fsxp.rootInum m ams (fun _ => none)
        (.link 1 2 false ix0) r.2 m' r.1) m := by
  obtain ⟨ams, L, hmk⟩ := exists_new fun _ => 0
  have hnew := AFS.new_of_mkfs hmk
  have hroot := hnew.tree.lt (Finset.mem_singleton_self _)
  have hrep : DIR.Rep (BFILE.file geometry.fsxp L.disk.cur geometry.fsxp.rootInum)
      fun _ => none := by
    rw [hnew.root]
    exact ⟨FiniteMap.lists_nil, fun _ _ he => nomatch he⟩
  have hdir := DIR.dir_refines_map geometry.ok hroot (.start hnew.tree.inv hrep)
  exact ⟨ams, L.disk.cur, fun ix0 => (hdir.2 (.link 1 2 false ix0) ⟨rfl, by decide, by decide⟩).1⟩

end Sample

/-! ## Directories with cached entries -/

namespace CacheOneDir

/-- The operations on directories.  Cached entries may be dropped at any time, those of one directory
or all of them, and a directory may be deleted and its inode be used again. -/
inductive Op
  | link (dnum : ℕ) (name : Sname) (inum : ℕ) (isdir : Bool)
  | unlink (dnum : ℕ) (name : Sname)
  | lookup (dnum : ℕ) (name : Sname)
  | readdir (dnum : ℕ)
  | reset (dnum : ℕ)
  | drop (dnum : ℕ)
  | dropAll

/-- The entries of each directory. -/
abbrev Dmaps := ℕ → Sname → Option (ℕ × Bool)

namespace Op

/-- The operations are on the directories in `D`. -/
def Valid (D : Set ℕ) : Op → Prop
  | .link dnum _ inum _ => dnum ∈ D ∧ inum < 2 ^ addrlen
  | .unlink dnum _ => dnum ∈ D
  | .lookup dnum _ => dnum ∈ D
  | .readdir dnum => dnum ∈ D
  | .reset dnum => dnum ∈ D
  | _ => True

def exec (fsxp : FsXparams) (o : Op) (ms : BFILE.MemState) :
    TxnProg (BFILE.MemState × DirOut Sname) :=
  match o with
  | .link dnum name inum isdir => do
    let (ms, r) ← CacheOneDir.link fsxp.inode dnum fsxp.blockAlloc name inum isdir ms
    pure (ms, .done r)
  | .unlink dnum name => do
    let (ms, r) ← CacheOneDir.unlink fsxp.inode dnum name ms
    pure (ms, .done r)
  | .lookup dnum name => do
    let (ms, r) ← CacheOneDir.lookup fsxp.inode dnum name ms
    pure (ms, .found r)
  | .readdir dnum => do
    let (ms, l) ← CacheOneDir.readdir fsxp.inode dnum ms
    pure (ms, .listed l)
  | .reset dnum => do
    let ms ← BFILE.reset fsxp.inode dnum fsxp.blockAlloc ms
    pure (ms, .done (.ok ()))
  | .drop dnum => pure ({ ms with msCache := ms.msCache.erase dnum }, .done (.ok ()))
  | .dropAll => pure ({ ms with msCache := ∅ }, .done (.ok ()))

/-- The operation on the directory itself, without the cache. -/
def uncached (fsxp : FsXparams) (o : Op) (ms : BFILE.MemState) :
    TxnProg (BFILE.MemState × DirOut Sname) :=
  match o with
  | .link dnum name inum isdir => do
    let (ms, found) ← SDIR.lookup fsxp.inode dnum name ms
    match found with
    | some _ => pure (ms, .done (.error .EEXIST))
    | none => do
      let (ms, _, r) ← SDIR.link fsxp.inode dnum fsxp.blockAlloc name inum isdir 0 ms
      pure (ms, .done r)
  | .unlink dnum name => do
    let (ms, found) ← SDIR.lookup fsxp.inode dnum name ms
    match found with
    | none => pure (ms, .done (.error .ENOENT))
    | some _ => do
      let (ms, _, r) ← SDIR.unlink fsxp.inode dnum name ms
      pure (ms, .done r)
  | .lookup dnum name => do
    let (ms, r) ← SDIR.lookup fsxp.inode dnum name ms
    pure (ms, .found r)
  | .readdir dnum => do
    let (ms, l) ← SDIR.readdir fsxp.inode dnum ms
    pure (ms, .listed l)
  | _ => pure (ms, .done (.ok ()))

/-- The maps after an operation with a result. -/
def after (M : Dmaps) : Op → DirOut Sname → Dmaps
  | .link dnum name inum isdir, .done (.ok _) =>
    Function.update M dnum (Function.update (M dnum) name (some (inum, isdir)))
  | .unlink dnum name, _ => Function.update M dnum (Function.update (M dnum) name none)
  | .reset dnum, _ => Function.update M dnum fun _ => none
  | _, _ => M

/-- The right results: `EEXIST` and `ENOENT` say whether the name is there. -/
def Answers (fsxp : FsXparams) (m : Mem) (ms : BFILE.MemState) (M : Dmaps) :
    Op → DirOut Sname → Prop
  | .link dnum name _ _, r => (M dnum name).isSome ∧ r = .done (.error .EEXIST) ∨
      M dnum name = none ∧
        (SDIR.isValidSname name ∧ DIR.HasRoom fsxp m ms dnum ∧ r = .done (.ok ()) ∨
          ¬ (SDIR.isValidSname name ∧ DIR.HasRoom fsxp m ms dnum) ∧
            r = .done (.error (SDIR.linkErr fsxp m dnum name)))
  | .unlink dnum name, r => (M dnum name).isSome ∧ r = .done (.ok ()) ∨
      M dnum name = none ∧ r = .done (.error .ENOENT)
  | .lookup dnum name, r => r = .found (M dnum name)
  | .readdir dnum, r => r = .listed (SDIR.dents (BFILE.file fsxp m dnum))
  | _, r => r = .done (.ok ())

end Op

/-- The directories in `D` have the entries of the maps, on the disk and in the cache. -/
structure Refines (fsxp : FsXparams) (D : Set ℕ) (m : Mem) (ms : BFILE.MemState) (M : Dmaps) :
    Prop where
  inv : BFILE.Inv fsxp m ms
  lt : ∀ d ∈ D, d < INODE.ninodes fsxp.inode
  dir : ∀ d ∈ D, SDIR.DirOk (BFILE.file fsxp m d)
  lists : ∀ d ∈ D, Lists (SDIR.dents (BFILE.file fsxp m d)) (M d)
  cache : ∀ d ∈ D, ∀ dc, ms.msCache[d]? = some dc → ∀ name, dc.1[name]? = M d name

/-- What a client of the directories in `D` gets into, with the maps that its operations lead to. -/
inductive Reach (fsxp : FsXparams) (D : Set ℕ) : Mem → BFILE.MemState → Dmaps → Prop
  | start {m : Mem} {ms : BFILE.MemState} {M : Dmaps} (h : Refines fsxp D m ms M) :
      Reach fsxp D m ms M
  | step {m : Mem} {ms : BFILE.MemState} {M : Dmaps} (h : Reach fsxp D m ms M) (o : Op)
      (ho : o.Valid D) :
      Reach fsxp D (Txn.run (o.exec fsxp ms) m).2 (Txn.run (o.exec fsxp ms) m).1.1
        (o.after M (Txn.run (o.exec fsxp ms) m).1.2)

variable {n d : ℕ} {fsxp : FsXparams} {D : Set ℕ} {m m' : Mem} {ms ms' : BFILE.MemState} {M : Dmaps}
  {name : Sname} {o : Op} {r : DirOut Sname} {dmap : Sname → Option (ℕ × Bool)}

theorem Agrees.eq_of_lists {l : List SDIR.Readent} {dc : Dcache} (h : Agrees l dc)
    (hl : Lists l dmap) (name : Sname) : dc[name]? = dmap name := by
  apply Option.ext
  intro e
  rw [h name e, hl.mem_iff]

theorem Refines.ready (h : Refines fsxp D m ms M) (hd : d ∈ D) : Ready fsxp d m ms where
  inv := h.inv
  lt := h.lt d hd
  dir := h.dir d hd
  cache dc hdc name e := by rw [h.cache d hd dc hdc name, (h.lists d hd).mem_iff]

/-- Without cached entries the directories are the same. -/
theorem Refines.forget (h : Refines fsxp D m ms M) {mp : AddrMap (Dcache × ℕ)}
    (hc : ∀ (d : ℕ) (dc : Dcache × ℕ), mp[d]? = some dc → ms.msCache[d]? = some dc) :
    Refines fsxp D m { ms with msCache := mp } M :=
  ⟨⟨h.inv.icache, h.inv.len, h.inv.own⟩, h.lt, h.dir, h.lists,
    fun d hd dc hdc => h.cache d hd dc (hc d dc hdc)⟩

/-- One directory and its cached entries have changed. -/
theorem Refines.update (h : Refines fsxp D m ms M) (hinv : BFILE.Inv fsxp m' ms')
    (hfile : ∀ j ∈ D, j ≠ d → BFILE.file fsxp m' j = BFILE.file fsxp m j)
    (hother : ∀ j, j ≠ d → ms'.msCache[j]? = ms.msCache[j]?)
    (hdir : SDIR.DirOk (BFILE.file fsxp m' d))
    (hlists : Lists (SDIR.dents (BFILE.file fsxp m' d)) dmap)
    (hcache : ∀ dc, ms'.msCache[d]? = some dc → ∀ name, dc.1[name]? = dmap name) :
    Refines fsxp D m' ms' (Function.update M d dmap) where
  inv := hinv
  lt := h.lt
  dir j hj := by
    rcases eq_or_ne j d with rfl | hne
    · exact hdir
    · exact hfile j hj hne ▸ h.dir j hj
  lists j hj := by
    rcases eq_or_ne j d with rfl | hne
    · rwa [Function.update_self]
    · rw [Function.update_of_ne hne, hfile j hj hne]
      exact h.lists j hj
  cache j hj dc hdc := by
    rcases eq_or_ne j d with rfl | hne
    · rw [Function.update_self]
      exact hcache dc hdc
    · rw [Function.update_of_ne hne]
      rw [hother j hne] at hdc
      exact h.cache j hj dc hdc

theorem Refines.changed (h : Refines fsxp D m ms M) (hch : Changed fsxp d m ms m' ms')
    (hl : Lists (SDIR.dents (BFILE.file fsxp m' d)) dmap) :
    Refines fsxp D m' ms' (Function.update M d dmap) := by
  apply h.update hch.inv (fun j hj hne => hch.step.file h.inv (h.lt j hj) hne) hch.other hch.dir hl
  intro dc hdc name
  obtain ⟨dc', hdc', ha⟩ := hch.cache
  obtain rfl : dc' = dc := Option.some.inj (hdc'.symm.trans hdc)
  exact ha.eq_of_lists hl name

theorem Refines.read (h : Refines fsxp D m ms M) (hd : d ∈ D) (hch : Changed fsxp d m ms m ms') :
    Refines fsxp D m ms' M := by
  have hr := h.changed hch (h.lists d hd)
  rwa [Function.update_eq_self] at hr

theorem Refines.failed (hx : fsxp.Ok n) (h : Refines fsxp D m ms M) (hd : d ∈ D)
    (hf : Failed fsxp d m ms m' ms') : Refines fsxp D m' ms' M := by
  have hinv : BFILE.Inv fsxp m { ms with msCache := ms'.msCache } :=
    ⟨h.inv.icache, h.inv.len, h.inv.own⟩
  have hfile : ∀ j ∈ D, BFILE.file fsxp m' j = BFILE.file fsxp m j :=
    fun j hj => (hf.leaks.file hx hinv (h.lt j hj)).2.2.2
  have hl := h.lists d hd
  rw [← hfile d hd] at hl
  have hr := h.update hf.inv (fun j hj _ => hfile j hj) hf.other (hfile d hd ▸ h.dir d hd) hl (by
    intro dc hdc name
    obtain ⟨dc', hdc', ha⟩ := hf.cache
    obtain rfl : dc' = dc := Option.some.inj (hdc'.symm.trans hdc)
    exact ha.eq_of_lists (h.lists d hd) name)
  rwa [Function.update_eq_self] at hr

/-- An operation gives the right result, and the cached entries are right again. -/
theorem Op.wp_exec (hx : fsxp.Ok n) (h : Refines fsxp D m ms M) (ho : o.Valid D) :
    Txn.wp n (o.exec fsxp ms) (fun r m' => o.Answers fsxp m ms M r.2 ∧
      Refines fsxp D m' r.1 (o.after M r.2)) m := by
  cases o with
  | link d name inum isdir =>
    obtain ⟨hd, hlt⟩ := ho
    have hl := h.lists d hd
    apply wp_bind
    apply wp_link hx (h.ready hd) hlt
    · intro hcan ms' m' hf
      refine wp_pure ⟨?_, h.failed hx hd hf⟩
      rw [linkErr]
      split_ifs with hmem
      · obtain ⟨⟨s, e⟩, he, rfl⟩ := List.mem_map.1 hmem
        exact .inl ⟨Option.isSome_iff_exists.2 ⟨e, (hl.mem_iff s e).1 he⟩, rfl⟩
      · have hn : ∀ e ∈ SDIR.dents (BFILE.file fsxp m d), e.1 ≠ name :=
          fun e he heq => hmem (heq ▸ List.mem_map_of_mem he)
        exact .inr ⟨hl.eq_none_iff_ne.2 hn, .inr ⟨fun hv => hcan ⟨hv.1, hn, hv.2⟩, rfl⟩⟩
    · intro hcan ms' m' hch hp
      have hn := hl.eq_none_iff_ne.2 hcan.fresh
      exact wp_pure ⟨.inr ⟨hn, .inl ⟨hcan.valid, hcan.room, rfl⟩⟩, h.changed hch (hl.insert hn hp)⟩
  | unlink d name =>
    have hl := h.lists d ho
    apply wp_bind
    cases hM : M d name with
    | none =>
      apply wp_unlink_none hx (h.ready ho) (hl.eq_none_iff.1 hM)
      intro ms' hch _
      refine wp_pure ⟨.inr ⟨hM, rfl⟩, ?_⟩
      have hsame : Function.update (M d) name none = M d := Function.update_eq_self_iff.2 hM.symm
      rw [Op.after, hsame, Function.update_eq_self]
      exact h.read ho hch
    | some e =>
      apply wp_unlink hx (h.ready ho) ((hl.mem_iff name e).2 hM)
      intro ms' m' hch _ hp
      exact wp_pure ⟨.inl ⟨Option.isSome_iff_exists.2 ⟨e, hM⟩, rfl⟩, h.changed hch (hl.erase hp)⟩
  | lookup d name =>
    apply wp_bind
    apply wp_lookup hx (h.ready ho)
    intro ms' r hch _ hr
    refine wp_pure ⟨?_, h.read ho hch⟩
    have hres : r = M d name := by
      apply Option.ext
      intro e
      rw [hr e, (h.lists d ho).mem_iff]
    rw [Op.Answers, hres]
  | readdir d =>
    apply wp_bind
    apply wp_readdir hx (h.ready ho)
    intro c hinv
    exact wp_pure ⟨rfl, hinv, h.lt, h.dir, h.lists, h.cache⟩
  | reset d =>
    apply wp_bind
    apply BFILE.wp_reset hx h.inv (h.lt d ho)
    intro ms' m' hinv hst hmsc _ _ hfile
    have hget : ∀ j, ms'.msCache[j]? = if j = d then none else ms.msCache[j]? := by
      intro j
      rw [hmsc, Std.ExtTreeMap.getElem?_erase]
      rcases eq_or_ne j d with rfl | hne
      · simp
      · rw [if_neg (fun h => hne (compare_eq_iff_eq.1 h).symm), if_neg hne]
    have hdents : SDIR.dents (BFILE.file fsxp m' d) = [] := by
      rw [hfile]
      rfl
    refine wp_pure ⟨rfl, h.update hinv (fun j hj hne => hst.file h.inv (h.lt j hj) hne) ?_ ?_ ?_ ?_⟩
    · exact fun j hne => by rw [hget, if_neg hne]
    · rw [hfile]
      exact DIRTREE.dirOk_bfile0
    · rw [hdents]
      exact FiniteMap.lists_nil
    · intro dc hdc
      rw [hget, if_pos rfl] at hdc
      cases hdc
  | drop d =>
    refine wp_pure ⟨rfl, h.forget fun j dc hdc => ?_⟩
    rw [Std.ExtTreeMap.getElem?_erase] at hdc
    split_ifs at hdc
    exact hdc
  | dropAll =>
    refine wp_pure ⟨rfl, h.forget fun j dc hdc => ?_⟩
    rw [Std.ExtTreeMap.getElem?_empty] at hdc
    cases hdc

/-- So does the operation without the cache. -/
theorem Op.wp_uncached (hx : fsxp.Ok n) (h : Refines fsxp D m ms M) (ho : o.Valid D) :
    Txn.wp n (o.uncached fsxp ms) (fun r _ => o.Answers fsxp m ms M r.2) m := by
  cases o with
  | link d name inum isdir =>
    obtain ⟨hd, hlt⟩ := ho
    have hl := h.lists d hd
    apply wp_bind
    apply SDIR.wp_lookup hx h.inv (h.lt d hd) (h.dir d hd)
    intro c r hinv hsome hnone
    cases r with
    | some e =>
      exact wp_pure (.inl ⟨Option.isSome_iff_exists.2 ⟨e, (hl.mem_iff name e).1 (hsome e rfl)⟩, rfl⟩)
    | none =>
      have hn := hl.eq_none_iff_ne.2 (hnone rfl)
      apply wp_bind
      apply SDIR.wp_link hx hinv (h.lt d hd) (h.dir d hd) (hnone rfl) hlt
      · exact fun hcan ms' m' ix _ _ => wp_pure (.inr ⟨hn, .inr ⟨hcan, rfl⟩⟩)
      · exact fun hv hroom ms' m' ix _ _ _ => wp_pure (.inr ⟨hn, .inl ⟨hv, hroom, rfl⟩⟩)
  | unlink d name =>
    have hl := h.lists d ho
    apply wp_bind
    apply SDIR.wp_lookup hx h.inv (h.lt d ho) (h.dir d ho)
    intro c r hinv hsome hnone
    cases r with
    | none => exact wp_pure (.inr ⟨hl.eq_none_iff_ne.2 (hnone rfl), rfl⟩)
    | some e =>
      apply wp_bind
      apply SDIR.wp_unlink hx hinv (h.lt d ho) (h.dir d ho) (hsome e rfl)
      intro ms' m' ix _ _ _ _
      exact wp_pure (.inl ⟨Option.isSome_iff_exists.2 ⟨e, (hl.mem_iff name e).1 (hsome e rfl)⟩, rfl⟩)
  | lookup d name =>
    have hl := h.lists d ho
    apply wp_bind
    apply SDIR.wp_lookup hx h.inv (h.lt d ho) (h.dir d ho)
    intro c r _ hsome hnone
    apply wp_pure
    cases r with
    | none => rw [Op.Answers, hl.eq_none_iff_ne.2 (hnone rfl)]
    | some e => rw [Op.Answers, (hl.mem_iff name e).1 (hsome e rfl)]
  | readdir d =>
    apply wp_bind
    apply SDIR.wp_readdir hx h.inv (h.lt d ho)
    exact fun c _ => wp_pure rfl
  | reset d => exact wp_pure rfl
  | drop d => exact wp_pure rfl
  | dropAll => exact wp_pure rfl

/-- There is one right result. -/
theorem Op.Answers.eq {r' : DirOut Sname} (h : o.Answers fsxp m ms M r)
    (h' : o.Answers fsxp m ms M r') : r' = r := by
  cases o with
  | link d name inum isdir =>
    rcases h with ⟨hs, rfl⟩ | ⟨hn, h⟩ <;> rcases h' with ⟨hs', rfl⟩ | ⟨hn', h'⟩
    · rfl
    · rw [hn'] at hs
      cases hs
    · rw [hn] at hs'
      cases hs'
    · rcases h with ⟨hv, hroom, rfl⟩ | ⟨hcan, rfl⟩ <;>
        rcases h' with ⟨hv', hroom', rfl⟩ | ⟨hcan', rfl⟩
      · rfl
      · exact absurd ⟨hv, hroom⟩ hcan'
      · exact absurd ⟨hv', hroom'⟩ hcan
      · rfl
  | unlink d name =>
    rcases h with ⟨hs, rfl⟩ | ⟨hn, rfl⟩ <;> rcases h' with ⟨hs', rfl⟩ | ⟨hn', rfl⟩
    · rfl
    · rw [hn'] at hs
      cases hs
    · rw [hn] at hs'
      cases hs'
    · rfl
  | lookup d name => exact h'.trans h.symm
  | readdir d => exact h'.trans h.symm
  | reset d => exact h'.trans h.symm
  | drop d => exact h'.trans h.symm
  | dropAll => exact h'.trans h.symm

theorem linkErr_ne_eexist (fsxp : FsXparams) (m : Mem) (d : ℕ) (name : Sname) :
    SDIR.linkErr fsxp m d name ≠ .EEXIST := by
  rw [SDIR.linkErr, BFILE.growErr]
  split_ifs <;> decide

theorem Op.Answers.eexist_iff {inum : ℕ} {isdir : Bool}
    (h : (Op.link d name inum isdir).Answers fsxp m ms M r) :
    r = .done (.error .EEXIST) ↔ (M d name).isSome := by
  rcases h with ⟨hs, rfl⟩ | ⟨hn, ⟨-, -, rfl⟩ | ⟨-, rfl⟩⟩
  · simp [hs]
  · simp [hn]
  · simp [hn, linkErr_ne_eexist]

theorem Op.Answers.enoent_iff (h : (Op.unlink d name).Answers fsxp m ms M r) :
    r = .done (.error .ENOENT) ↔ M d name = none := by
  rcases h with ⟨hs, rfl⟩ | ⟨hn, rfl⟩
  · have hne : M d name ≠ none := Option.isSome_iff_ne_none.1 hs
    simp [hne]
  · simp [hn]

/-- The directory cache is coherent.  In every state that a client reaches, the cached entries of a
directory are those on the disk, if there are any.  Every operation gives the right result, the same
as without cached entries and the same as the operations on the directory itself. -/
theorem cache_coherent (hx : fsxp.Ok n) (h : Reach fsxp D m ms M) :
    Refines fsxp D m ms M ∧ ∀ o : Op, o.Valid D →
      Txn.wp n (o.exec fsxp ms) (fun r m' => o.Answers fsxp m ms M r.2 ∧
        Refines fsxp D m' r.1 (o.after M r.2)) m ∧
      (∀ d name inum isdir, o = .link d name inum isdir →
        ((Txn.run (o.exec fsxp ms) m).1.2 = .done (.error .EEXIST) ↔ (M d name).isSome)) ∧
      (∀ d name, o = .unlink d name →
        ((Txn.run (o.exec fsxp ms) m).1.2 = .done (.error .ENOENT) ↔ M d name = none)) ∧
      (Txn.run (o.exec fsxp { ms with msCache := ∅ }) m).1.2 = (Txn.run (o.exec fsxp ms) m).1.2 ∧
      (Txn.run (o.uncached fsxp ms) m).1.2 = (Txn.run (o.exec fsxp ms) m).1.2 := by
  have href : Refines fsxp D m ms M := by
    induction h with
    | start h => exact h
    | step _ o ho ih => exact (Txn.wp_run (o.wp_exec hx ih ho)).2
  refine ⟨href, fun o ho => ?_⟩
  have hans := (Txn.wp_run (o.wp_exec hx href ho)).1
  refine ⟨o.wp_exec hx href ho, ?_, ?_, ?_, ?_⟩
  · rintro d name inum isdir rfl
    exact hans.eexist_iff
  · rintro d name rfl
    exact hans.enoent_iff
  · have href' : Refines fsxp D m { ms with msCache := ∅ } M := by
      apply href.forget
      intro j dc hdc
      rw [Std.ExtTreeMap.getElem?_empty] at hdc
      cases hdc
    have hans' : o.Answers fsxp m { ms with msCache := ∅ } M _ :=
      (Txn.wp_run (o.wp_exec hx href' ho)).1
    have hsame : o.Answers fsxp m ms M (Txn.run (o.exec fsxp { ms with msCache := ∅ }) m).1.2 := by
      cases o <;> exact hans'
    exact hans.eq hsame
  · exact hans.eq (Txn.wp_run (o.wp_uncached hx href ho))

end CacheOneDir

namespace Sample

local instance dirCachePlatform : Platform := platform

/-- The root directory has an entry, on the disk and in the cache. -/
theorem exists_linked : ∃ m ms dc, CacheOneDir.Reach geometry.fsxp {geometry.fsxp.rootInum} m ms
    (Function.update (fun _ _ => none) geometry.fsxp.rootInum
      (Function.update (fun _ => none) [97] (some (2, false)))) ∧
    ms.msCache[geometry.fsxp.rootInum]? = some dc := by
  obtain ⟨ams, L, hmk⟩ := exists_new fun _ => 0
  have hnew := AFS.new_of_mkfs hmk
  have hroot := hnew.tree.lt (Finset.mem_singleton_self _)
  have hfile := hnew.root
  have href : CacheOneDir.Refines geometry.fsxp {geometry.fsxp.rootInum} L.disk.cur
      { ams with msCache := ∅ } fun _ _ => none := by
    refine ⟨⟨hnew.tree.inv.icache, hnew.tree.inv.len, hnew.tree.inv.own⟩, ?_, ?_, ?_, ?_⟩
    · rintro d rfl
      exact hroot
    · rintro d rfl
      rw [hfile]
      exact DIRTREE.dirOk_bfile0
    · rintro d rfl
      rw [hfile]
      exact FiniteMap.lists_nil
    · intro d _ dc hdc
      rw [Std.ExtTreeMap.getElem?_empty] at hdc
      cases hdc
  have hlen : (BFILE.blocks geometry.fsxp L.disk.cur geometry.fsxp.rootInum).length = 0 := by
    rw [← BFILE.length_data, hfile]
    rfl
  have hcan : CacheOneDir.CanLink geometry.fsxp L.disk.cur { ams with msCache := ∅ }
      geometry.fsxp.rootInum [97] := by
    refine ⟨rfl, fun e he => ?_, .inr (BFILE.canGrow_of_direct (by rw [hlen]; decide) (hnew.room _))⟩
    rw [hfile] at he
    exact absurd he List.not_mem_nil
  have hwp : Txn.wp geometry.dataSize
      ((CacheOneDir.Op.link geometry.fsxp.rootInum [97] 2 false).exec geometry.fsxp
        { ams with msCache := ∅ })
      (fun r _ => r.2 = .done (.ok ()) ∧ ∃ dc, r.1.msCache[geometry.fsxp.rootInum]? = some dc)
      L.disk.cur := by
    apply wp_bind
    apply CacheOneDir.wp_link geometry.ok (href.ready rfl) (by decide)
    · exact fun h => absurd hcan h
    · intro _ ms' m' hch _
      obtain ⟨dc, hdc, -⟩ := hch.cache
      exact wp_pure ⟨rfl, dc, hdc⟩
  have hrun := Txn.wp_run hwp
  have hreach := (CacheOneDir.Reach.start href).step
    (.link geometry.fsxp.rootInum [97] 2 false) ⟨rfl, by decide⟩
  generalize Txn.run _ L.disk.cur = x at hrun hreach
  obtain ⟨⟨ms, r⟩, m⟩ := x
  obtain ⟨rfl, dc, hdc⟩ := hrun
  exact ⟨m, ms, dc, hreach, hdc⟩

/-- The entry is found in the cache, is not added again and can be removed. -/
theorem cache_coherent_linked : ∃ m ms dc, ms.msCache[geometry.fsxp.rootInum]? = some dc ∧
    dc.1[([97] : Sname)]? = some (2, false) ∧
    (Txn.run ((CacheOneDir.Op.lookup geometry.fsxp.rootInum [97]).exec geometry.fsxp ms) m).1.2 =
      .found (some (2, false)) ∧
    (Txn.run ((CacheOneDir.Op.link geometry.fsxp.rootInum [97] 3 false).exec geometry.fsxp ms)
      m).1.2 = .done (.error .EEXIST) ∧
    Txn.wp geometry.dataSize
      ((CacheOneDir.Op.unlink geometry.fsxp.rootInum [97]).exec geometry.fsxp ms)
      (fun r m' => r.2 = .done (.ok ()) ∧
        CacheOneDir.Refines geometry.fsxp {geometry.fsxp.rootInum} m' r.1 fun _ _ => none) m := by
  obtain ⟨m, ms, dc, hreach, hdc⟩ := exists_linked
  obtain ⟨href, hop⟩ := CacheOneDir.cache_coherent geometry.ok hreach
  obtain ⟨hlook, -⟩ := hop (.lookup geometry.fsxp.rootInum [97]) rfl
  obtain ⟨-, hlink, -⟩ := hop (.link geometry.fsxp.rootInum [97] 3 false) ⟨rfl, by decide⟩
  obtain ⟨hunlink, -⟩ := hop (.unlink geometry.fsxp.rootInum [97]) rfl
  refine ⟨m, ms, dc, hdc, href.cache _ rfl dc hdc [97], (Txn.wp_run hlook).1,
    (hlink _ _ _ _ rfl).2 rfl, Txn.wp_post hunlink ?_⟩
  rintro r m' ⟨⟨-, hr⟩ | ⟨hn, -⟩, href'⟩
  · have hM : (CacheOneDir.Op.unlink geometry.fsxp.rootInum [97]).after
        (Function.update (fun _ _ => none) geometry.fsxp.rootInum
          (Function.update (fun _ => none) [97] (some (2, false)))) r.2 = fun _ _ => none := by
      rw [CacheOneDir.Op.after, Function.update_self, Function.update_idem, Function.update_idem,
        Function.update_eq_self_iff.2 rfl, Function.update_eq_self]
    exact ⟨hr, hM ▸ href'⟩
  · cases hn

end Sample

end Fscq
