import Fscq.DirTreeInv

/-!
# What the operations on the tree do

Looking up a path, adding an entry for a new inode, deleting an entry, and reading and writing the
files of the tree.
-/

namespace Fscq

open CrashProg

open Relation (ReflTransGen)

namespace DIRTREE

open BFILE (file)

variable {n d i : ℕ} {fsxp : FsXparams} {roots : Multiset ℕ} {A : Finset ℕ} {K : ℕ → Bool}
  {m m' : Mem} {ms ms' : BFILE.MemState} {name : Sname} {b : Bool}

theorem moves_of_changed (hK : K d = true) (hch : CacheOneDir.Changed fsxp d m ms m' ms') :
    BFILE.Moves fsxp (touched A K) m ms m' ms' :=
  hch.step.toMoves.mono (Set.singleton_subset_iff.2 (.inl hK))

/-- Only the caches of inodes and of directories are different. -/
def Cached (ms ms' : BFILE.MemState) : Prop :=
  ∃ c c', ms' = { ms with msICache := c, msCache := c' }

/-- The blocks of the files are untouched. -/
theorem Cached.step (h : Cached ms ms') (S : Set ℕ) (m : Mem) : BFILE.Step fsxp S m ms m ms' := by
  obtain ⟨c, c', rfl⟩ := h
  exact BFILE.Step.of_eq fsxp S m rfl rfl rfl rfl

theorem Cached.trans {ms'' : BFILE.MemState} (h : Cached ms ms') (h' : Cached ms' ms'') :
    Cached ms ms'' := by
  obtain ⟨c₁, c₁', rfl⟩ := h
  obtain ⟨c₂, c₂', rfl⟩ := h'
  exact ⟨c₂, c₂', rfl⟩

theorem wp_lookup (hx : fsxp.Ok n) (h : Inv fsxp roots A K m ms) (hd : d ∈ A) (hK : K d = true)
    {Q : BFILE.MemState × Option (ℕ × Bool) → Mem → Prop}
    (hQ : ∀ ms' r, Inv fsxp roots A K m ms' → BFILE.Moves fsxp (touched A K) m ms m ms' →
      Cached ms ms' → (∀ e, r = some e ↔ (name, e) ∈ SDIR.dents (file fsxp m d)) → Q (ms', r) m) :
    Txn.wp n (CacheOneDir.lookup fsxp.inode d name ms) Q m := by
  apply CacheOneDir.wp_lookup hx (h.ready hd hK)
  intro ms' r hch hms hr
  exact hQ ms' r (h.cached hd hK hch) (moves_of_changed hK hch) ⟨_, _, hms⟩ hr

/-- What a path leads to from a directory or file. -/
def walk (fsxp : FsXparams) (m : Mem) : ℕ → Bool → List Sname → Res (ℕ × Bool)
  | i, isdir, [] => .ok (i, isdir)
  | i, isdir, fn :: rest =>
    if isdir then
      match (SDIR.dents (file fsxp m i)).find? (fun de => de.1 = fn) with
      | some (_, j, b) => walk fsxp m j b rest
      | none => .error .ENOENT
    else .error .ENOTDIR

theorem find_dents {f : BFILE.BFile} (hd : SDIR.DirOk f) {e : ℕ × Bool}
    (he : (name, e) ∈ SDIR.dents f) :
    (SDIR.dents f).find? (fun de => de.1 = name) = some (name, e) := by
  let p : SDIR.Readent → Bool := fun de => de.1 = name
  obtain ⟨de, hde⟩ := Option.isSome_iff_exists.1
    (List.find?_isSome.2 ⟨_, he, decide_eq_true rfl⟩ : (List.find? p (SDIR.dents f)).isSome)
  have hname : de.1 = name := of_decide_eq_true (List.find?_some (p := p) hde)
  change List.find? p _ = _
  rw [hde, List.inj_on_of_nodup_map hd.nodup (List.mem_of_find?_eq_some hde) he hname]

theorem find_dents_none {f : BFILE.BFile} (h : ∀ e, (name, e) ∉ SDIR.dents f) :
    (SDIR.dents f).find? (fun de => de.1 = name) = none := by
  rw [List.find?_eq_none]
  rintro ⟨fn, e⟩ he hfn
  obtain rfl : fn = name := of_decide_eq_true hfn
  exact h e he

/-- A path leads from a directory to an inode below it. -/
theorem Inv.walk_mem (h : Inv fsxp roots A K m ms) {isdir : Bool} (path : List Sname) (hd : d ∈ A)
    (hK : K d = isdir) (hw : walk fsxp m d isdir path = .ok (i, b)) :
    i ∈ A ∧ K i = b ∧ ReflTransGen (Edge (children fsxp K m)) d i := by
  induction path generalizing d isdir with
  | nil =>
    cases hw
    exact ⟨hd, hK, .refl⟩
  | cons fn rest ih =>
    rw [walk] at hw
    split_ifs at hw with hdir
    rw [hdir] at hK
    split at hw
    next j b' hf =>
      have he := List.mem_of_find?_eq_some hf
      have hedge := edge_of_mem hK he
      obtain ⟨h₁, h₂, h₃⟩ := ih (h.forest.child_mem hd hedge) (h.flag d hd hK _ _ _ he).symm hw
      exact ⟨h₁, h₂, h₃.head hedge⟩
    next => cases hw

theorem wp_namei (hx : fsxp.Ok n) (h : Inv fsxp roots A K m ms) (hd : d ∈ A) (hK : K d = true)
    {fnlist : List Sname} {Q : BFILE.MemState × Res (ℕ × Bool) → Mem → Prop}
    (hQ : ∀ ms' r, Inv fsxp roots A K m ms' → BFILE.Moves fsxp (touched A K) m ms m ms' →
      Cached ms ms' → r = walk fsxp m d true fnlist →
      (∀ inum isdir, r = .ok (inum, isdir) → inum ∈ A ∧ K inum = isdir ∧
        ReflTransGen (Edge (children fsxp K m)) d inum) → Q (ms', r) m) :
    Txn.wp n (namei fsxp d fnlist ms) Q m := by
  let I : List Sname → BFILE.MemState × ℕ × Bool × Res Unit → Mem → Prop := fun rest r m' =>
    m' = m ∧ Inv fsxp roots A K m r.1 ∧ BFILE.Moves fsxp (touched A K) m ms m r.1 ∧
      Cached ms r.1 ∧ (∀ e, r.2.2.2 = .error e → walk fsxp m d true fnlist = .error e) ∧
      (r.2.2.2 = .ok () → walk fsxp m r.2.1 r.2.2.1 rest = walk fsxp m d true fnlist ∧
        r.2.1 ∈ A ∧ K r.2.1 = r.2.2.1)
  apply wp_seq (R := I [])
  · apply wp_forEach I
    · rintro fn rest ⟨ms₁, inum, isdir, valid⟩ m₁ ⟨rfl, hinv, hmv, hc, herr, hval⟩
      cases valid with
      | error e => exact wp_pure ⟨rfl, hinv, hmv, hc, herr, fun he => by cases he⟩
      | ok u =>
        obtain ⟨hw, hA, hKi⟩ := hval rfl
        dsimp only at hw hA hKi ⊢
        rw [walk] at hw
        split_ifs at hw ⊢ with hdir
        · rw [hdir] at hKi
          apply wp_bind
          apply wp_lookup hx hinv hA hKi
          intro ms₂ r hinv₂ hmv₂ hc₂ hr
          have hmv' := hmv.trans_self h.inv hmv₂
          cases r with
          | none =>
            have hnone := find_dents_none fun e he => Option.some_ne_none e ((hr e).2 he).symm
            rw [hnone] at hw
            refine wp_pure ⟨rfl, hinv₂, hmv', hc.trans hc₂, fun e he => ?_, fun he => by cases he⟩
            rw [← Except.error.inj he]
            exact hw.symm
          | some e =>
            have he := (hr e).1 rfl
            have hedge := edge_of_mem hKi he
            rw [find_dents (hinv.dir inum hA hKi) he] at hw
            refine wp_pure ⟨rfl, hinv₂, hmv', hc.trans hc₂, fun _ he => (nomatch he), fun _ => ⟨hw,
              hinv.forest.child_mem hA hedge, ?_⟩⟩
            exact (hinv.flag inum hA hKi _ _ _ he).symm
        · refine wp_pure ⟨rfl, hinv, hmv, hc, fun e he => ?_, fun he => by cases he⟩
          rw [← Except.error.inj he]
          exact hw.symm
    · exact ⟨rfl, h, (BFILE.Step.refl fsxp _ m ms).toMoves, ⟨_, _, rfl⟩, fun _ he => (nomatch he),
        fun _ => ⟨rfl, hd, hK⟩⟩
  · rintro ⟨ms₁, inum, isdir, valid⟩ m₁ ⟨rfl, hinv, hmv, hc, herr, hval⟩
    cases valid with
    | error e => exact wp_pure (hQ ms₁ _ hinv hmv hc (herr e rfl).symm fun _ _ he => nomatch he)
    | ok u =>
      apply wp_pure
      have hw : .ok (inum, isdir) = walk fsxp m₁ d true fnlist := (hval rfl).1
      apply hQ ms₁ _ hinv hmv hc hw
      intro i' d' he
      exact h.walk_mem fnlist hd hK (hw.symm.trans he)

/-- The entry of a new inode can be added after the inode has been allocated. -/
theorem canLink_ialloc (hx : fsxp.Ok n) (h : Inv fsxp roots A K m ms) (hd : d ∈ A)
    (hm : ∀ a ∉ IAlloc.bmp.region fsxp, m' a = m a) (c : BmapCacheType)
    (hcan : CacheOneDir.CanLink fsxp m ms d name) :
    CacheOneDir.CanLink fsxp m' { ms with msIAllocC := c } d name := by
  have hfile := (h.inv.ialloc hx.toParts hm c).2.file h.inv (h.lt hd) (Set.notMem_empty d)
  obtain ⟨hvalid, hfresh, hroom⟩ := hcan
  refine ⟨hvalid, by rwa [hfile], ?_⟩
  rw [DIR.HasRoom, hfile]
  exact hroom.imp_right (BFILE.canGrow_ialloc hx h.inv (h.lt hd) hm c)

theorem Inv.lt_of_mem_freeList (hx : fsxp.Ok n) (h : Inv fsxp roots A K m ms)
    (hi : i ∈ IAlloc.freeList m fsxp ms.msIAllocC) : i < IAlloc.nbits fsxp := by
  have hmem : i ∈ allInodes fsxp := by
    rw [← h.inodes]
    exact Multiset.mem_add.2 (.inl hi)
  rw [hx.inodes]
  exact (mem_allInodes.1 hmem).2

/-- A new file or directory, unless there is no free inode or the entry cannot be added.  No other
directory changes. -/
theorem wp_mknod_one (hx : fsxp.Ok n) (h : Inv fsxp roots A K m ms) (hd : d ∈ A) (hK : K d = true)
    {Q : BFILE.MemState × Res ℕ → Mem → Prop}
    (hQ₀ : IAlloc.freeList m fsxp ms.msIAllocC = [] →
      Q ({ ms with msIAllocC := some [] }, .error .ENOSPCINODE) m)
    (hQe : IAlloc.freeList m fsxp ms.msIAllocC ≠ [] → ¬ CacheOneDir.CanLink fsxp m ms d name →
      ∀ ms' m' e, Q (ms', .error e) m')
    (hQ : ∀ ms' m' i, i ∉ A → Inv fsxp roots (insert i A) (Function.update K i b) m' ms' →
      BFILE.Moves fsxp {d} m ms m' ms' →
      (SDIR.dents (file fsxp m' d)).Perm ((name, i, b) :: SDIR.dents (file fsxp m d)) →
      file fsxp m' i = bfile0 → Q (ms', .ok i) m') :
    Txn.wp n (mknod fsxp b d name ms) Q m := by
  apply wp_bind
  apply AllocSig.wp_alloc (BFILE.iallocFits hx.toParts) fun i => h.lt_of_mem_freeList hx
  · exact fun hl => wp_pure (hQ₀ hl)
  · intro i l hl hst
    generalize IAlloc.setBitMem m fsxp i AllocSig.inuse = m₁ at hst ⊢
    have hm : ∀ a ∉ IAlloc.bmp.region fsxp, m₁ a = m a :=
      fun a ha => hst.frame a ha (Set.notMem_empty a)
    have hiA : i ∉ A := fun hi => (h.mem_iff.1 hi).2.2 (hl ▸ List.mem_cons_self)
    have h₁ := h.add hx.toParts hl hm (hst.coh h.icoh) b
    obtain ⟨-, hmv⟩ := h.inv.ialloc hx.toParts hm (some l)
    have hdi : d ≠ i := fun e => hiA (e ▸ hd)
    have hd₁ : d ∈ insert i A := Finset.mem_insert_of_mem hd
    have hK₁ : Function.update K i b d = true := by rw [Function.update_of_ne hdi, hK]
    have hiA₁ : i ∈ insert i A := Finset.mem_insert_self i A
    have hfile := hmv.file h.inv (h.lt hd) (Set.notMem_empty d)
    apply wp_bind
    apply CacheOneDir.wp_link hx (h₁.ready hd₁ hK₁) ((h₁.lt hiA₁).trans_le hx.inums)
    · intro hlack ms' m' _
      apply wp_pure
      have hne : IAlloc.freeList m fsxp ms.msIAllocC ≠ [] := by
        rw [hl]
        exact List.cons_ne_nil i l
      exact hQe hne (fun hcan => hlack (canLink_ialloc hx h hd hm _ hcan)) ms' m' _
    · intro _ ms' m' hch hp
      apply wp_pure
      have hr : ∃ r ∈ roots,
          ReflTransGen (Edge (children fsxp (Function.update K i b) m₁)) r d := by
        obtain ⟨r, hr, hpath⟩ := h.forest.reach d hd
        refine ⟨r, hr, h.forest.reach_mono ?_ (h.forest.root_mem hr) hpath⟩
        intro v hv
        have hvi : v ≠ i := fun e => hiA (e ▸ hv)
        rw [children, children, Function.update_of_ne hvi,
          hmv.file h.inv (h.lt hv) (Set.notMem_empty v)]
        exact Multiset.Subset.refl _
      have h₂ := h₁.linked hd₁ hK₁ hr hch (Function.update_self i b K).symm hp
      have hmv₂ := (hmv.mono (Set.empty_subset {d})).trans_self h.inv hch.step.toMoves
      rw [hfile] at hp
      apply hQ ms' m' i hiA h₂ hmv₂ hp
      have hi := h₁.lt hiA₁
      rw [hch.step.file h₁.inv hi hdi.symm, hmv.file h.inv hi (Set.notMem_empty i)]
      exact h.free i hi hiA

theorem wp_mknod (hx : fsxp.Ok n) (h : Inv fsxp roots A K m ms) (hd : d ∈ A) (hK : K d = true)
    {Q : BFILE.MemState × Res ℕ → Mem → Prop}
    (hQ₀ : IAlloc.freeList m fsxp ms.msIAllocC = [] →
      Q ({ ms with msIAllocC := some [] }, .error .ENOSPCINODE) m)
    (hQe : IAlloc.freeList m fsxp ms.msIAllocC ≠ [] → ¬ CacheOneDir.CanLink fsxp m ms d name →
      ∀ ms' m' e, Q (ms', .error e) m')
    (hQ : ∀ ms' m' i, i ∉ A → Inv fsxp roots (insert i A) (Function.update K i b) m' ms' →
      BFILE.Moves fsxp (touched A K) m ms m' ms' →
      (SDIR.dents (file fsxp m' d)).Perm ((name, i, b) :: SDIR.dents (file fsxp m d)) →
      file fsxp m' i = bfile0 → Q (ms', .ok i) m') :
    Txn.wp n (mknod fsxp b d name ms) Q m :=
  wp_mknod_one hx h hd hK hQ₀ hQe fun ms' m' i hi h' hmv =>
    hQ ms' m' i hi h' (hmv.mono (Set.singleton_subset_iff.2 (.inl hK)))

/-- A directory can be used with another bitmap of inodes and another free list. -/
theorem ready_ialloc (hx : fsxp.Ok n) (h : CacheOneDir.Ready fsxp d m ms)
    (hm : ∀ a ∉ IAlloc.bmp.region fsxp, m' a = m a) (c : Option (List ℕ)) :
    CacheOneDir.Ready fsxp d m' { ms with msIAllocC := c } := by
  obtain ⟨hinv, hmv⟩ := h.inv.ialloc hx.toParts hm c
  have hfile := hmv.file h.inv h.lt (Set.notMem_empty d)
  exact ⟨hinv, h.lt, hfile ▸ h.dir, fun r hr => hfile ▸ h.cache r hr⟩

/-- A name that is not valid costs an inode: the free list is the one after the allocation, while the
directory can be used with the old disk. -/
theorem wp_mknod_invalid (hx : fsxp.Ok n) (h : Inv fsxp roots A K m ms) (hd : d ∈ A)
    (hK : K d = true) (hname : SDIR.isValidSname name = false) {l : List ℕ}
    (hl : IAlloc.freeList m fsxp ms.msIAllocC = i :: l)
    {Q : BFILE.MemState × Res ℕ → Mem → Prop}
    (hQ : ∀ ms' m', ms'.msIAllocC = some l → CacheOneDir.Ready fsxp d m ms' →
      Q (ms', .error .ENAMETOOLONG) m') :
    Txn.wp n (mknod fsxp b d name ms) Q m := by
  apply wp_bind
  apply AllocSig.wp_alloc (BFILE.iallocFits hx.toParts) fun i => h.lt_of_mem_freeList hx
  · intro hnil
    rw [hl] at hnil
    cases hnil
  · intro i' l' hl' hst
    obtain ⟨rfl, rfl⟩ := List.cons.inj (hl'.symm.trans hl)
    generalize IAlloc.setBitMem m fsxp i' AllocSig.inuse = m₁ at hst ⊢
    have hm : ∀ a ∉ IAlloc.bmp.region fsxp, m₁ a = m a :=
      fun a ha => hst.frame a ha (Set.notMem_empty a)
    have hiA : i' ∉ A := fun hi => (h.mem_iff.1 hi).2.2 (hl ▸ List.mem_cons_self)
    have h₁ := h.add hx.toParts hl hm (hst.coh h.icoh) b
    have hdi : d ≠ i' := fun e => hiA (e ▸ hd)
    have hK₁ : Function.update K i' b d = true := by rw [Function.update_of_ne hdi, hK]
    apply wp_bind
    apply CacheOneDir.wp_link_invalid hx (h₁.ready (Finset.mem_insert_of_mem hd) hK₁) hname
    intro ms' hr hms'
    have hold := ready_ialloc hx hr (fun a ha => (hm a ha).symm) ms'.msIAllocC
    apply wp_pure (hQ ms' m₁ _ hold)
    rw [hms']

theorem children_of_nil (h : SDIR.dents (file fsxp m i) = []) : children fsxp K m i = 0 := by
  rw [children, h]
  simp

/-- What the removal of an entry of `d` leaves: its inode is a root. -/
structure Unlinked (fsxp : FsXparams) (roots : Multiset ℕ) (A : Finset ℕ) (K : ℕ → Bool) (d : ℕ)
    (name : Sname) (i : ℕ) (b : Bool) (m : Mem) (ms : BFILE.MemState) (m' : Mem)
    (ms' : BFILE.MemState) : Prop where
  mem : (name, i, b) ∈ SDIR.dents (file fsxp m d)
  inv : Inv fsxp (i ::ₘ roots) A K m' ms'
  step : BFILE.Step fsxp {d} m ms m' ms'
  kept : BFILE.Kept fsxp d m ms m' ms'
  attr : (file fsxp m' d).attr = (file fsxp m d).attr
  perm : (SDIR.dents (file fsxp m d)).Perm ((name, i, b) :: SDIR.dents (file fsxp m' d))

theorem wp_unlink (hx : fsxp.Ok n) (h : Inv fsxp roots A K m ms) (hd : d ∈ A) (hK : K d = true)
    (he : (name, i, b) ∈ SDIR.dents (file fsxp m d)) {Q : BFILE.MemState × Res Unit → Mem → Prop}
    (hQ : ∀ ms' m', Unlinked fsxp roots A K d name i b m ms m' ms' → Q (ms', .ok ()) m') :
    Txn.wp n (CacheOneDir.unlink fsxp.inode d name ms) Q m := by
  apply CacheOneDir.wp_unlink hx (h.ready hd hK) he
  intro ms' m' hch hk hp
  exact hQ ms' m' ⟨he, h.unlinked hd hK hch hp, hch.step, hk, hch.attr, hp⟩

/-- What the deletion of an entry of `d` leaves: its inode and its blocks are free. -/
structure Deleted (fsxp : FsXparams) (K : ℕ → Bool) (d : ℕ) (name : Sname) (i : ℕ) (b : Bool)
    (m : Mem) (ms : BFILE.MemState) (m' : Mem) (ms' : BFILE.MemState) : Prop where
  mem : (name, i, b) ∈ SDIR.dents (file fsxp m d)
  leaf : children fsxp K m i = 0
  moves : BFILE.Moves fsxp {d, i} m ms m' ms'
  attr : (file fsxp m' d).attr = (file fsxp m d).attr
  length : (BFILE.blocks fsxp m' d).length = (BFILE.blocks fsxp m d).length
  perm : (SDIR.dents (file fsxp m d)).Perm ((name, i, b) :: SDIR.dents (file fsxp m' d))
  list : (IAlloc.freeList m' fsxp ms'.msIAllocC).Perm (i :: IAlloc.freeList m fsxp ms.msIAllocC)
  empty : file fsxp m' i = bfile0
  acc : BFILE.owned fsxp m' i + BFILE.freeOf fsxp m' ms'.msAllocC (!ms.msAlloc) =
    BFILE.owned fsxp m i + BFILE.freeOf fsxp m ms.msAllocC (!ms.msAlloc)
  side : BFILE.freeOf fsxp m' ms'.msAllocC ms.msAlloc = BFILE.freeOf fsxp m ms.msAllocC ms.msAlloc
  dirty : ms'.msDBlocks = BFILE.clearDirty i ms.msDBlocks
  cache : ms'.msCache[i]? = none

/-- An inode without an entry is given back with all its blocks. -/
theorem wp_resetFree (hx : fsxp.Ok n) (h : Inv fsxp roots A K m ms) (hd : d ∈ A) {m₁ : Mem}
    {ms₁ : BFILE.MemState} (hu : Unlinked fsxp roots A K d name i b m ms m₁ ms₁)
    (hdi : d ≠ i) (hleaf : children fsxp K m i = 0)
    {Q : BFILE.MemState × Res Unit → Mem → Prop}
    (hQ : ∀ ms' m', Inv fsxp roots (A.erase i) K m' ms' → Deleted fsxp K d name i b m ms m' ms' →
      Q (ms', .ok ()) m') :
    Txn.wp n (do
      let mscs ← BFILE.reset fsxp.inode i fsxp.blockAlloc ms₁
      let ialc ← IAlloc.free fsxp i mscs.msIAllocC
      pure ({ mscs with msIAllocC := ialc }, .ok ())) Q m₁ := by
  have h₁ := hu.inv
  have hiA : i ∈ A := h₁.forest.root_mem (Multiset.mem_cons_self i roots)
  have hilt := h.lt hiA
  have hview := hu.step.view h.inv hilt hdi.symm
  have hleaf₁ : children fsxp K m₁ i = 0 := by rw [children_congr hview.2.2.2, hleaf]
  have hms₁ := hu.step.msAlloc
  apply wp_bind
  apply BFILE.wp_reset hx h₁.inv hilt
  intro ms₂ m₂ hinv₂ hst₂ hmsc hdirty hsh hfile₂
  have hget : ∀ v, ms₂.msCache[v]? = if v = i then none else ms₁.msCache[v]? := by
    intro v
    rw [hmsc, Std.ExtTreeMap.getElem?_erase]
    rcases eq_or_ne v i with rfl | hne
    · simp
    · rw [if_neg (fun h => hne (compare_eq_iff_eq.1 h).symm), if_neg hne]
  have h₂ := h₁.stepped hiA hinv₂ hst₂ (fun v r hr => by
    rw [hget] at hr
    split_ifs at hr with hv
    exact ⟨hv, hr⟩) fun _ => ⟨hfile₂, hleaf₁⟩
  have hi := h₂.mem_iff.1 hiA
  apply wp_bind
  apply AllocSig.wp_free (BFILE.iallocFits hx.toParts) hi.1 (hx.inodes ▸ hi.2.1) hi.2.2
  intro c m₃ hst₃ hl
  have hm : ∀ a ∉ IAlloc.bmp.region fsxp, m₃ a = m₂ a :=
    fun a ha => hst₃.frame a ha (Set.notMem_empty a)
  have hcache : ms₂.msCache[i]? = none := by rw [hget, if_pos rfl]
  have h₃ := h₂.drop hx.toParts hfile₂ hcache hl hm (hst₃.coh h₂.icoh)
  obtain ⟨-, hmv₃⟩ := h₂.inv.ialloc hx.toParts hm c
  have hd₂ := hst₂.view h₁.inv (h.lt hd) hdi
  have hd₃ := hmv₃.view h₂.inv (h.lt hd) (Set.notMem_empty d)
  have hi₃ := hmv₃.view h₂.inv hilt (Set.notMem_empty i)
  have hfree₃ := BFILE.freeOf_ialloc hx.toParts hm ms₂.msAllocC
  have hlist : IAlloc.freeList m₂ fsxp ms₂.msIAllocC = IAlloc.freeList m fsxp ms.msIAllocC := by
    rw [hst₂.msIAlloc, hu.step.msIAlloc]
    exact AllocSig.freeList_congr fun a ha => (hst₂.ialloc a ha).trans (hu.step.ialloc a ha)
  apply wp_pure
  apply hQ _ m₃ h₃
  constructor
  case mem => exact hu.mem
  case leaf => exact hleaf
  case moves =>
    have hmv₁ := hu.step.toMoves.trans h.inv (hst₂.toMoves.trans h₁.inv hmv₃)
    apply hmv₁.mono
    rintro v (hv | hv | hv)
    · exact .inl hv
    · exact .inr hv
    · exact absurd hv (Set.notMem_empty v)
  case attr => rw [hd₃.2.2.2, hd₂.2.2.2, hu.attr]
  case length => rw [hd₃.2.1, hd₂.2.1, hu.kept.blocks]
  case perm =>
    rw [hd₃.2.2.2, hd₂.2.2.2]
    exact hu.perm
  case list =>
    rw [← hlist]
    exact hl
  case empty => rw [hi₃.2.2.2, hfile₂]; rfl
  case acc =>
    have hacc := hsh.acc
    rw [hms₁, hview.2.2.1, hu.kept.free] at hacc
    rw [hi₃.2.2.1, ← hacc, hfree₃]
  case side =>
    have hside := hsh.side
    rw [hms₁, hu.kept.free] at hside
    rw [← hside, hfree₃]
  case dirty =>
    change ms₂.msDBlocks = _
    rw [hdirty, hu.kept.msDBlocks]
  case cache => exact hcache

theorem Deleted.of_cached (hi : BFILE.Inv fsxp m ms) {ms₁ : BFILE.MemState} (hc : Cached ms ms₁)
    (h : Deleted fsxp K d name i b m ms₁ m' ms') : Deleted fsxp K d name i b m ms m' ms' := by
  have hmv := (hc.step {d, i} m).toMoves.trans_self hi h.moves
  obtain ⟨c, c', rfl⟩ := hc
  exact { h with moves := hmv }

theorem Deleted.touched (hK : K d = true) (h : Deleted fsxp K d name i b m ms m' ms') :
    BFILE.Moves fsxp (touched (A.erase i) K) m ms m' ms' := by
  apply h.moves.mono
  rintro v (rfl | rfl)
  · exact .inl hK
  · exact .inr (Finset.notMem_erase v A)

theorem Deleted.file_eq (hi : Inv fsxp roots A K m ms)
    (h : Deleted fsxp K d name i b m ms m' ms') {v : ℕ} (hv : v ∈ A.erase i) (hvd : v ≠ d) :
    file fsxp m' v = file fsxp m v := by
  obtain ⟨hvi, hvA⟩ := Finset.mem_erase.1 hv
  refine h.moves.file hi.inv (hi.lt hvA) ?_
  rintro (h | h)
  · exact hvd h
  · exact hvi h

/-- An entry is removed and its inode is given back. -/
theorem wp_delete (hx : fsxp.Ok n) (h : Inv fsxp roots A K m ms) (hd : d ∈ A) (hK : K d = true)
    {Q : BFILE.MemState × Res Unit → Mem → Prop}
    (hQ₀ : (∀ e, (name, e) ∉ SDIR.dents (file fsxp m d)) → ∀ ms' m', Q (ms', .error .ENOENT) m')
    (hQ₁ : ∀ i, (name, i, true) ∈ SDIR.dents (file fsxp m d) → SDIR.dents (file fsxp m i) ≠ [] →
      ∀ ms' m', Q (ms', .error .ENOTEMPTY) m')
    (hQ : ∀ ms' m' i b, Inv fsxp roots (A.erase i) K m' ms' →
      Deleted fsxp K d name i b m ms m' ms' → Q (ms', .ok ()) m') :
    Txn.wp n (delete fsxp d name ms) Q m := by
  apply wp_bind
  apply wp_lookup hx h hd hK
  intro ms₁ r h₁ _ hc₁ hr
  cases r with
  | none =>
    exact wp_pure (hQ₀ (fun e he => Option.some_ne_none e ((hr e).2 he).symm) _ _)
  | some e =>
    obtain ⟨i, b⟩ := e
    have he := (hr _).1 rfl
    have hedge := edge_of_mem hK he
    have hiA := h.forest.child_mem hd hedge
    have hdi : d ≠ i := by
      rintro rfl
      exact h.forest.acyclic hd (.single hedge)
    have hKi : K i = b := (h.flag d hd hK _ _ _ he).symm
    -- the entry is one of a file, or of a directory without entries
    apply wp_seq (R := fun r m₂ => m₂ = m ∧ Inv fsxp roots A K m r.1 ∧ Cached ms r.1 ∧
      (r.2 = true → children fsxp K m i = 0) ∧
      (r.2 = false → b = true ∧ SDIR.dents (file fsxp m i) ≠ []))
    · dsimp only
      split_ifs with hb
      · apply wp_bind
        apply CacheOneDir.wp_readdir hx (h₁.ready hiA (hKi.trans hb))
        intro c hinv'
        refine wp_pure ⟨rfl, { h₁ with inv := hinv' }, hc₁.trans ⟨c, _, rfl⟩, fun hnil => ?_,
          fun hnil => ⟨hb, fun heq => ?_⟩⟩
        · exact children_of_nil (List.isEmpty_iff.1 hnil)
        · rw [heq] at hnil
          cases hnil
      · refine wp_pure ⟨rfl, h₁, hc₁, fun _ => ?_, fun hne => by cases hne⟩
        rw [children, hKi, if_neg hb]
    · rintro ⟨ms₂, ok⟩ m₂ ⟨rfl, h₂, hc₂, hleaf, hne⟩
      dsimp only at h₂ hc₂ hleaf hne ⊢
      split_ifs with hok
      · apply wp_bind
        apply wp_unlink hx h₂ hd hK he
        intro ms₃ m₃ hu
        apply wp_resetFree hx h₂ hd hu hdi (hleaf hok)
        exact fun ms' m' hinv' hdel => hQ ms' m' i b hinv' (hdel.of_cached h.inv hc₂)
      · obtain ⟨rfl, hnil⟩ := hne (Bool.eq_false_iff.2 hok)
        exact wp_pure (hQ₁ i he hnil _ _)

/-! ### Files of the tree -/

/-- A file of the tree has been changed. -/
theorem Inv.written (h : Inv fsxp roots A K m ms) (hi : i ∈ A) (hK : K i = false)
    (hinv : BFILE.Inv fsxp m' ms') (hst : BFILE.Step fsxp {i} m ms m' ms')
    (hc : ms'.msCache = ms.msCache) : Inv fsxp roots A K m' ms' := by
  apply h.stepped hi hinv hst
  · intro d r hr
    rw [hc] at hr
    refine ⟨?_, hr⟩
    rintro rfl
    rw [(h.cache d r hr).2.1] at hK
    cases hK
  · intro hK'
    rw [hK'] at hK
    cases hK

section

variable (hx : fsxp.Ok n) (h : Inv fsxp roots A K m ms) (hi : i ∈ A)

include hx h hi

theorem wp_getattr {Q : BFILE.MemState × INODE.IAttr → Mem → Prop}
    (hQ : ∀ c, Inv fsxp roots A K m { ms with msICache := c } →
      Q ({ ms with msICache := c }, (file fsxp m i).attr) m) :
    Txn.wp n (getattr fsxp i ms) Q m :=
  BFILE.wp_getattrs hx h.inv (h.lt hi) fun c hc => hQ c { h with inv := hc }

theorem wp_read {Q : BFILE.MemState × Valu → Mem → Prop} {off : ℕ}
    (ho : off < (file fsxp m i).data.length)
    (hQ : ∀ c, Inv fsxp roots A K m { ms with msICache := c } →
      Q ({ ms with msICache := c }, (file fsxp m i).data.getD off 0) m) :
    Txn.wp n (read fsxp i off ms) Q m :=
  BFILE.wp_read hx h.inv (h.lt hi) ho fun c hc => hQ c { h with inv := hc }

theorem wp_readdir {Q : BFILE.MemState × List SDIR.Readent → Mem → Prop}
    (hQ : ∀ c, Inv fsxp roots A K m { ms with msICache := c } →
      Q ({ ms with msICache := c }, SDIR.dents (file fsxp m i)) m) :
    Txn.wp n (SDIR.readdir fsxp.inode i ms) Q m :=
  SDIR.wp_readdir hx h.inv (h.lt hi) fun c hc => hQ c { h with inv := hc }

variable (hK : K i = false)

include hK

theorem wp_setattr {Q : BFILE.MemState → Mem → Prop} {attr : INODE.IAttr}
    (hQ : ∀ ms' m', Inv fsxp roots A K m' ms' → BFILE.Moves fsxp {i} m ms m' ms' →
      file fsxp m' i = ⟨(file fsxp m i).data, attr⟩ → Q ms' m') :
    Txn.wp n (setattr fsxp i attr ms) Q m :=
  BFILE.wp_setattrs hx h.inv (h.lt hi) fun _ m' hinv hst hf =>
    hQ _ m' (h.written hi hK hinv hst rfl) hst.toMoves hf

theorem wp_updattr {Q : BFILE.MemState → Mem → Prop} {kv : INODE.IAttrUpdArg}
    (hQ : ∀ ms' m', Inv fsxp roots A K m' ms' → BFILE.Moves fsxp {i} m ms m' ms' →
      file fsxp m' i = ⟨(file fsxp m i).data, INODE.iattrUpd (file fsxp m i).attr kv⟩ → Q ms' m') :
    Txn.wp n (updattr fsxp i kv ms) Q m :=
  BFILE.wp_updattr hx h.inv (h.lt hi) fun _ m' hinv hst hf =>
    hQ _ m' (h.written hi hK hinv hst rfl) hst.toMoves hf

theorem wp_write {Q : BFILE.MemState → Mem → Prop} {off : ℕ} {v : Valu}
    (ho : off < (file fsxp m i).data.length)
    (hQ : ∀ ms' m', Inv fsxp roots A K m' ms' → BFILE.Moves fsxp {i} m ms m' ms' →
      file fsxp m' i = ⟨(file fsxp m i).data.set off v, (file fsxp m i).attr⟩ → Q ms' m') :
    Txn.wp n (write fsxp i off v ms) Q m :=
  BFILE.wp_write hx h.inv (h.lt hi) ho fun _ m' hinv hst _ hf =>
    hQ _ m' (h.written hi hK hinv hst rfl) hst.toMoves hf

theorem wp_truncate {Q : BFILE.MemState × Res Unit → Mem → Prop} {newsz : ℕ}
    (hQe : (BFILE.blocks fsxp m i).length < newsz →
      (newsz = (BFILE.blocks fsxp m i).length + 1 → ¬ BFILE.CanGrow fsxp m ms i) →
        ∀ ms' m' e, Q (ms', .error e) m')
    (hQ : ∀ ms' m', Inv fsxp roots A K m' ms' → BFILE.Moves fsxp {i} m ms m' ms' →
      file fsxp m' i = ⟨BFILE.resized (file fsxp m i).data newsz, (file fsxp m i).attr⟩ →
      Q (ms', .ok ()) m') :
    Txn.wp n (truncate fsxp i newsz ms) Q m :=
  BFILE.wp_truncate hx h.inv (h.lt hi)
    (fun hlt hlack ms' m' e _ => hQe hlt hlack ms' m' e) fun ms' m' hinv hst hc _ _ hf =>
      hQ ms' m' (h.written hi hK hinv hst hc) hst.toMoves hf

omit hK in
theorem wp_truncate_same {Q : BFILE.MemState × Res Unit → Mem → Prop}
    (hQ : ∀ c, Inv fsxp roots A K m { ms with msICache := c } →
      Q ({ ms with msICache := c }, .ok ()) m) :
    Txn.wp n (truncate fsxp i (BFILE.blocks fsxp m i).length ms) Q m :=
  BFILE.wp_truncate_same hx h.inv (h.lt hi) fun c hc => hQ c { h with inv := hc }

end

end DIRTREE

end Fscq
