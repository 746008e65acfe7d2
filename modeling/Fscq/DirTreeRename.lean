import Fscq.AsyncFSRebind
import Fscq.BFileTruncate
import Fscq.DirTreeRep

/-!
# Deleting and renaming on the tree

To delete is to take an entry out of the tree, and to rename is to take a subtree out and to put it
back elsewhere.  What is deleted becomes free as a whole.
-/

namespace Fscq

open CrashProg

open Relation (ReflTransGen TransGen)

open Dirtree (treeFile treeDir)

namespace DIRTREE

open BFILE (file)

variable {n d i j : ℕ} {fsxp : FsXparams} {roots : Multiset ℕ} {A : Finset ℕ} {K : ℕ → Bool}
  {m m' m'' : Mem} {ms ms' ms'' : BFILE.MemState} {name : Sname} {b : Bool} {tree t : Dirtree}
  {ents : List (Sname × Dirtree)} {path : List Sname} {e : Sname × Dirtree}

/-! ### Entries -/

section

variable (h : Inv fsxp roots A K m ms) (hr : Rep fsxp m (treeDir d ents))
  (hR : Rooted A K (treeDir d ents))

include h hr hR

/-- An entry on the disk is one of the tree. -/
theorem Inv.find_of_mem (hmem : (name, i, b) ∈ SDIR.dents (file fsxp m d)) :
    ∃ t, findDirlist name ents = some t ∧ t.inum = i ∧ t.isdir = b := by
  obtain ⟨⟨fn, t⟩, ht, heq⟩ := List.mem_map.1 (hr.perm_dents.mem_iff.2 hmem)
  cases heq
  exact ⟨t, ((h.lists hr hR).mem_iff fn t).1 ht, rfl, rfl⟩

theorem Inv.find_eq_none_iff :
    findDirlist name ents = none ↔ ∀ e, (name, e) ∉ SDIR.dents (file fsxp m d) := by
  constructor
  · rintro hn ⟨i, b⟩ hmem
    obtain ⟨t, ht, -⟩ := h.find_of_mem hr hR hmem
    rw [hn] at ht
    cases ht
  · intro hn
    cases hf : findDirlist name ents with
    | none => rfl
    | some t => exact absurd (hr.readentOf_mem (h.mem_ents hr hR hf)) (hn _)

/-- The entries that stay when a name is removed. -/
theorem Inv.mem_rest (he : e ∈ deleteFromList name ents) : e ∈ ents ∧ e.1 ≠ name := by
  cases hf : findDirlist name ents with
  | none =>
    rw [deleteFromList_of_none hf] at he
    refine ⟨he, ?_⟩
    rintro rfl
    exact (h.lists hr hR).eq_none_iff.1 hf e.2 he
  | some t =>
    have hp := perm_deleteFromList hf
    have hnd := (hp.map Prod.fst).nodup_iff.1 (h.nodup_ents hr hR)
    rw [List.map_cons, List.nodup_cons] at hnd
    refine ⟨hp.mem_iff.2 (List.mem_cons_of_mem _ he), ?_⟩
    rintro rfl
    exact hnd.1 (List.mem_map.2 ⟨e, he, rfl⟩)

/-- They are still on the disk when only the directory and the inode of the name have changed. -/
theorem Inv.rep_rest (hm : ∀ v ∈ A, v ≠ d →
      (∀ t, findDirlist name ents = some t → v ≠ t.inum) → file fsxp m' v = file fsxp m v)
    (he : e ∈ deleteFromList name ents) : Rep fsxp m' e.2 := by
  obtain ⟨he, hne⟩ := h.mem_rest hr hR he
  obtain ⟨hR', hedge⟩ := h.rooted_child hr hR he
  apply h.rep_congr (hr.child he) hR'
  intro v hv
  apply hm v (h.forest.reach_mem hR'.mem hv)
  · rintro rfl
    exact h.forest.acyclic hR.mem (.head' hedge hv)
  · rintro t ht rfl
    have ht := h.mem_ents hr hR ht
    obtain ⟨-, hedge'⟩ := h.rooted_child hr hR ht
    have heq := h.forest.child_unique hR.mem hedge hedge' hv .refl
    exact hne (h.ents_inj hr hR he ht heq)

/-- A directory that has lost an entry. -/
theorem Inv.rep_removed (hmem : (name, i, b) ∈ SDIR.dents (file fsxp m d))
    (hp : (SDIR.dents (file fsxp m d)).Perm ((name, i, b) :: SDIR.dents (file fsxp m' d)))
    (hm : ∀ v ∈ A, v ≠ d → v ≠ i → file fsxp m' v = file fsxp m v) :
    Rep fsxp m' (deleteFromDir name (treeDir d ents)) := by
  obtain ⟨t, ht, rfl, rfl⟩ := h.find_of_mem hr hR hmem
  refine .node ?_ fun e he => h.rep_rest hr hR (fun v hv hvd hvt => hm v hv hvd (hvt t ht)) he
  have hents := (perm_deleteFromList ht).map readentOf
  exact (List.Perm.cons_inv ((hents.symm.trans hr.perm_dents).trans hp))

end

section

variable (h : Inv fsxp roots A K m ms) (hr : Rep fsxp m tree) (hR : Rooted A K tree)

include h hr hR

/-- A path that leads to a directory on the disk leads to one in the tree. -/
theorem Inv.find_of_walk (hw : walk fsxp m tree.inum tree.isdir path = .ok (i, true)) :
    ∃ ents, findSubtree path tree = some (treeDir i ents) := by
  have hres := h.resolves hr hR path
  rw [hw] at hres
  cases hf : findSubtree path tree with
  | none =>
    have hname : findName path tree = none := by rw [findName_eq, hf]; rfl
    rcases hres.none hname with he | he <;> cases he
  | some sub =>
    have hname : findName path tree = some (sub.inum, sub.isdir) := by rw [findName_eq, hf]; rfl
    have he := hres.ok _ hname
    cases sub with
    | treeFile i f => cases he
    | treeDir i ents =>
      cases he
      exact ⟨ents, rfl⟩

/-- A tree that has lost an entry of one of its directories. -/
theorem Inv.rep_pruned (hf : findSubtree path tree = some (treeDir d ents))
    (hmem : (name, i, b) ∈ SDIR.dents (file fsxp m d))
    (hp : (SDIR.dents (file fsxp m d)).Perm ((name, i, b) :: SDIR.dents (file fsxp m' d)))
    (hm : ∀ v ∈ A, v ≠ d → v ≠ i → file fsxp m' v = file fsxp m v) :
    Rep fsxp m' (treePrune d ents path name tree) ∧
      (treePrune d ents path name tree).inum = tree.inum ∧
      (treePrune d ents path name tree).isdir = tree.isdir := by
  obtain ⟨hr', hR', -⟩ := h.subtree hr hR hf
  have hedge : Edge (children fsxp K m) d i := edge_of_mem hR'.kind hmem
  apply h.rep_update hr hR hf (h.rep_removed hr' hR' hmem hp hm) rfl rfl
  intro v hv hnot
  apply hm v (h.forest.reach_mem hR.mem hv)
  · rintro rfl
    exact hnot .refl
  · rintro rfl
    exact hnot (.single hedge)

end

/-- A tree that has got a subtree whose inode had no entry, in place of the entry with the name if
there was one. -/
theorem Inv.rep_grafted (h : Inv fsxp (i ::ₘ roots) A K m ms) (hr : Rep fsxp m tree)
    (hR : Rooted A K tree) (hroot : ∃ r ∈ roots, ReflTransGen (Edge (children fsxp K m)) r tree.inum)
    (hf : findSubtree path tree = some (treeDir d ents)) (ht : Rep fsxp m t) (hRt : Rooted A K t)
    (hi : t.inum = i)
    (hp : (SDIR.dents (file fsxp m' d)).Perm
      (readentOf (name, t) :: (deleteFromList name ents).map readentOf))
    (hm : ∀ v ∈ A, v ≠ d → (∀ s, findDirlist name ents = some s → v ≠ s.inum) →
      file fsxp m' v = file fsxp m v) :
    Rep fsxp m' (treeGraft d ents path name t tree) := by
  obtain ⟨hr', hR', hpath⟩ := h.subtree hr hR hf
  obtain ⟨r, hr₀, hroot⟩ := hroot
  have hsub : ∀ s, findDirlist name ents = some s → Edge (children fsxp K m) d s.inum :=
    fun s hs => (h.rooted_child hr' hR' (h.mem_ents hr' hR' hs)).2
  -- the subtree is not below the root of the tree
  have hnd := (Multiset.nodup_cons.1 (Multiset.nodup_add.1 h.forest.nodup).1).1
  have hout : ∀ v, ReflTransGen (Edge (children fsxp K m)) i v →
      ¬ ReflTransGen (Edge (children fsxp K m)) tree.inum v := by
    intro v hiv htv
    have heq := h.forest.root_unique (Multiset.mem_cons_self i roots)
      (Multiset.mem_cons_of_mem hr₀) hiv (hroot.trans htv)
    exact hnd (heq ▸ hr₀)
  have hperm := perm_addToList name t ents
  have hnode : Rep fsxp m' (treeDir d (addToList name t ents)) := by
    refine .node ((hperm.map readentOf).trans hp.symm) fun e he => ?_
    rcases List.mem_cons.1 (hperm.mem_iff.1 he) with rfl | he
    · apply h.rep_congr ht hRt
      intro v hv
      rw [hi] at hv
      apply hm v (h.forest.reach_mem (h.forest.root_mem (Multiset.mem_cons_self i roots)) hv)
      · rintro rfl
        exact hout _ hv hpath
      · rintro s hs rfl
        exact hout _ hv (hpath.tail (hsub s hs))
    · exact h.rep_rest hr' hR' hm he
  refine (h.rep_update hr hR hf hnode rfl rfl fun v hv hnot => ?_).1
  apply hm v (h.forest.reach_mem hR.mem hv)
  · rintro rfl
    exact hnot .refl
  · rintro s hs rfl
    exact hnot (.single (hsub s hs))

/-! ### Deleting -/

/-- The inode `i` has been given back, with all its blocks, and nothing else has changed but the
directory `d`. -/
structure Freed (fsxp : FsXparams) (d i : ℕ) (m : Mem) (ms : BFILE.MemState) (m' : Mem)
    (ms' : BFILE.MemState) : Prop where
  inode : (IAlloc.freeList m' fsxp ms'.msIAllocC).Perm (i :: IAlloc.freeList m fsxp ms.msIAllocC)
  empty : file fsxp m' i = bfile0
  blocks : BFILE.freeOf fsxp m' ms'.msAllocC (!ms.msAlloc) =
    BFILE.owned fsxp m i + BFILE.freeOf fsxp m ms.msAllocC (!ms.msAlloc)
  side : BFILE.freeOf fsxp m' ms'.msAllocC ms.msAlloc = BFILE.freeOf fsxp m ms.msAllocC ms.msAlloc
  dirty : ∀ v, BFILE.getDirty v ms'.msDBlocks = if v = i then ∅ else BFILE.getDirty v ms.msDBlocks
  cache : ms'.msCache[i]? = none
  other : ∀ v < INODE.ninodes fsxp.inode, v ≠ d → v ≠ i → file fsxp m' v = file fsxp m v

theorem Deleted.freed (h : Inv fsxp roots A K m ms) (ht : BFILE.Tight fsxp m) (hi : i ∈ A)
    (hinv : BFILE.Inv fsxp m' ms') (hdel : Deleted fsxp K d name i b m ms m' ms') :
    Freed fsxp d i m ms m' ms' where
  inode := hdel.list
  empty := hdel.empty
  blocks := by
    have hacc := hdel.acc
    rwa [hinv.owned_eq_zero (h.lt hi) (hdel.moves.tight ht i (h.lt hi))
      (congrArg BFILE.BFile.data hdel.empty), zero_add] at hacc
  side := hdel.side
  dirty v := by rw [hdel.dirty, BFILE.getDirty_clearDirty]
  cache := hdel.cache
  other v hv hvd hvi := hdel.moves.file h.inv hv fun hmem => hmem.elim hvd hvi

/-- An inode that has been free is empty when it is allocated. -/
theorem wp_mknod_empty (hx : fsxp.Ok n) (h : Inv fsxp roots A K m ms) (hd : d ∈ A)
    (hK : K d = true) : Txn.wp n (mknod fsxp b d name ms)
      (fun r m' => ∀ i, r.2 = .ok i → file fsxp m' i = bfile0) m := by
  apply wp_mknod hx h hd hK
  · exact fun _ i hi => nomatch hi
  · exact fun _ _ ms' m' e i hi => nomatch hi
  · rintro ms' m' i _ _ _ _ hfile _ ⟨⟩
    exact hfile

/-- A directory of the tree that is not empty. -/
theorem exists_cons_of_dents (hr : Rep fsxp m t) (hd : t.isdir = true)
    (hne : SDIR.dents (file fsxp m t.inum) ≠ []) : ∃ i e l, t = treeDir i (e :: l) := by
  cases t with
  | treeFile i f => cases hd
  | treeDir i ents =>
    cases ents with
    | nil => exact absurd hr.perm_dents.symm.eq_nil hne
    | cons e l => exact ⟨i, e, l, rfl⟩

theorem ne_cons_of_leaf (hr : Rep fsxp m t) (hR : Rooted A K t)
    (hleaf : children fsxp K m t.inum = 0) (i : ℕ) (e : Sname × Dirtree)
    (l : List (Sname × Dirtree)) : t ≠ treeDir i (e :: l) := by
  rintro rfl
  have hedge := edge_of_mem hR.kind (hr.readentOf_mem List.mem_cons_self)
  rw [Edge, hleaf] at hedge
  exact Multiset.notMem_zero _ hedge

/-! ### Renaming -/

/-- A subtree can be put in the directory at a path, which is `dnum` and has the entries `dents`: what
has the name there is a file or an empty directory, or there is room for one more entry. -/
structure Dest (dstpath : List Sname) (dstname : Sname) (tree : Dirtree) (dnum : ℕ)
    (dents : List (Sname × Dirtree)) (room : Prop) : Prop where
  found : findSubtree dstpath tree = some (treeDir dnum dents)
  empty : ∀ i e l, findDirlist dstname dents ≠ some (treeDir i (e :: l))
  valid : SDIR.isValidSname dstname
  room : findDirlist dstname dents = none → room

/-- The inode `i` and the blocks that it had have become free. -/
structure Dropped (fsxp : FsXparams) (i : ℕ) (m : Mem) (ms : BFILE.MemState) (m' : Mem)
    (ms' : BFILE.MemState) : Prop where
  inode : i ∈ IAlloc.freeList m' fsxp ms'.msIAllocC
  empty : file fsxp m' i = bfile0
  blocks : ∀ a ∈ BFILE.owned fsxp m i, a ∈ BFILE.freeOf fsxp m' ms'.msAllocC (!ms.msAlloc)

section

variable {dstpath : List Sname} {dstname : Sname} {r : BFILE.MemState × Res Unit} {dnum : ℕ}
  {dents : List (Sname × Dirtree)}
  (h : Inv fsxp (i ::ₘ roots) A K m ms) (hr : Rep fsxp m tree) (hR : Rooted A K tree)
  (hp : Placed fsxp roots A K tree.inum dstpath dstname i b m ms r m') (hdir : tree.isdir = true)

include h hr hR hp hdir

/-- The second half of a rename succeeds if the destination is good. -/
theorem Placed.ok_of_dest
    (hd : Dest dstpath dstname tree dnum dents (DIR.HasRoom fsxp m ms dnum)) : r.2 = .ok () := by
  have hw := h.walk_eq hr hR hd.found
  rw [hdir] at hw
  obtain ⟨hr', hR', -⟩ := h.subtree hr hR hd.found
  cases hp with
  | noDest ht => cases ht.symm.trans hw
  | destFile ht => cases ht.symm.trans hw
  | notEmpty ht hj hne =>
    cases ht.symm.trans hw
    obtain ⟨t, hf, rfl, htd⟩ := h.find_of_mem hr' hR' hj
    obtain ⟨i, e, l, rfl⟩ := exists_cons_of_dents (hr'.child (h.mem_ents hr' hR' hf)) htd hne
    exact absurd hf (hd.empty i e l)
  | noRoom ht hn hlack =>
    cases ht.symm.trans hw
    have hnone := (h.find_eq_none_iff hr' hR').2 hn
    refine absurd ⟨hd.valid, ?_, hd.room hnone⟩ hlack
    rintro ⟨fn, e⟩ he rfl
    exact hn e he
  | added => rfl
  | replaced => rfl

/-- When it succeeds, the destination is good. -/
theorem Placed.dest (hr₀ : r.2 = .ok ()) :
    ∃ dnum dents, Dest dstpath dstname tree dnum dents (DIR.HasRoom fsxp m ms dnum) := by
  cases hp with
  | noDest => cases hr₀
  | destFile => cases hr₀
  | notEmpty => cases hr₀
  | noRoom => cases hr₀
  | @added m' ms' ddst ht hn hcan hl =>
    have ht' : walk fsxp m tree.inum tree.isdir dstpath = .ok (ddst, true) := by rw [hdir, ht]
    obtain ⟨dents, hf⟩ := h.find_of_walk hr hR ht'
    obtain ⟨hr', hR', -⟩ := h.subtree hr hR hf
    have hnone := (h.find_eq_none_iff hr' hR').2 hn
    refine ⟨ddst, dents, hf, fun i e l he => ?_, hcan.valid, fun _ => hcan.room⟩
    rw [hnone] at he
    cases he
  | @replaced m' m₁ ms' ms₁ ddst j b' ht h₁ hdel hl =>
    have ht' : walk fsxp m tree.inum tree.isdir dstpath = .ok (ddst, true) := by rw [hdir, ht]
    obtain ⟨dents, hf⟩ := h.find_of_walk hr hR ht'
    obtain ⟨hr', hR', -⟩ := h.subtree hr hR hf
    obtain ⟨t, hft, rfl, -⟩ := h.find_of_mem hr' hR' hdel.mem
    have hmem := h.mem_ents hr' hR' hft
    refine ⟨ddst, dents, hf, fun i e l he => ?_, (h.dir ddst hR'.mem hR'.kind).valid_of_mem hdel.mem,
      fun hnone => ?_⟩
    · rw [hft] at he
      exact ne_cons_of_leaf (hr'.child hmem) (h.rooted_child hr' hR' hmem).1 hdel.leaf i e l
        (Option.some.inj he)
    · rw [hft] at hnone
      cases hnone

/-- Then the subtree is there, and what it has replaced is free. -/
theorem Placed.rep (ht : BFILE.Tight fsxp m)
    (hroot : ∃ r ∈ roots, ReflTransGen (Edge (children fsxp K m)) r tree.inum)
    (hrt : Rep fsxp m t) (hRt : Rooted A K t) (hti : t.inum = i) (htb : t.isdir = b)
    (hf : findSubtree dstpath tree = some (treeDir dnum dents)) (hr₀ : r.2 = .ok ()) :
    Rep fsxp m' (treeGraft dnum dents dstpath dstname t tree) ∧
      ∀ old, findDirlist dstname dents = some old → Dropped fsxp old.inum m ms m' r.1 := by
  have hw := h.walk_eq hr hR hf
  rw [hdir] at hw
  obtain ⟨hr', hR', -⟩ := h.subtree hr hR hf
  have hread : readentOf (dstname, t) = (dstname, i, b) := by rw [readentOf, hti, htb]
  cases hp with
  | noDest => cases hr₀
  | destFile => cases hr₀
  | notEmpty => cases hr₀
  | noRoom => cases hr₀
  | @added m' ms' ddst hs hn hcan hl =>
    cases hs.symm.trans hw
    have hnone := (h.find_eq_none_iff hr' hR').2 hn
    refine ⟨h.rep_grafted hr hR hroot hf hrt hRt hti ?_ ?_, fun old hold => ?_⟩
    · rw [hread, deleteFromList_of_none hnone]
      exact hl.perm.trans (hr'.perm_dents.symm.cons _)
    · exact fun v hv hvd _ => hl.step.file h.inv (h.lt hv) hvd
    · rw [hnone] at hold
      cases hold
  | @replaced m' m₁ ms' ms₁ ddst j b' hs h₁ hdel hl =>
    cases hs.symm.trans hw
    obtain ⟨old, hold, rfl, rfl⟩ := h.find_of_mem hr' hR' hdel.mem
    have hmem := h.mem_ents hr' hR' hold
    obtain ⟨hRo, hedge⟩ := h.rooted_child hr' hR' hmem
    have hlt := h.lt hRo.mem
    have hne : old.inum ≠ dnum := by
      intro heq
      rw [heq] at hedge
      exact h.forest.acyclic hR'.mem (.single hedge)
    refine ⟨h.rep_grafted hr hR hroot hf hrt hRt hti ?_ ?_, fun old' hold' => ?_⟩
    · rw [hread]
      have hperm : (SDIR.dents (file fsxp m dnum)).Perm
          (readentOf (dstname, old) :: SDIR.dents (file fsxp m₁ dnum)) := hdel.perm
      have hents := (perm_deleteFromList hold).map readentOf
      exact hl.perm.trans
        ((List.Perm.cons_inv ((hents.symm.trans hr'.perm_dents).trans hperm)).symm.cons _)
    · intro v hv hvd hvo
      rw [hl.step.file h₁.inv (h.lt hv) hvd]
      exact hdel.file_eq h (Finset.mem_erase.2 ⟨hvo old hold, hv⟩) hvd
    · obtain rfl : old = old' := Option.some.inj (hold.symm.trans hold')
      have hfreed := hdel.freed h ht hRo.mem h₁.inv
      constructor
      case inode =>
        change old.inum ∈ IAlloc.freeList m' fsxp ms'.msIAllocC
        rw [hl.step.msIAlloc, AllocSig.freeList_congr hl.step.ialloc]
        exact hfreed.inode.mem_iff.2 List.mem_cons_self
      case empty =>
        rw [hl.step.file h₁.inv hlt hne]
        exact hfreed.empty
      case blocks =>
        intro a ha
        have hfree := hl.step.free a
        rw [hdel.moves.msAlloc] at hfree
        apply hfree
        rw [hfreed.blocks]
        exact Multiset.mem_add.2 (.inl ha)

end

/-- The destination has room if the source was taken from it. -/
theorem Unlinked.hasRoom_iff (h : Inv fsxp roots A K m ms)
    (hu : Unlinked fsxp roots A K d name i b m ms m' ms') (hj : j ∈ A) :
    DIR.HasRoom fsxp m' ms' j ↔ j = d ∨ DIR.HasRoom fsxp m ms j := by
  rcases eq_or_ne j d with rfl | hne
  · refine iff_of_true (SDIR.hasRoom_of_perm hu.perm ?_) (.inl rfl)
    rw [BFILE.length_data, BFILE.length_data, hu.kept.blocks]
  · obtain ⟨hr, ha⟩ := hu.step.other j (h.lt hj) hne
    have hfree : BFILE.freeOf fsxp m' ms'.msAllocC ms'.msAlloc =
        BFILE.freeOf fsxp m ms.msAllocC ms.msAlloc := by
      rw [hu.kept.free, hu.step.msAlloc]
    rw [or_iff_right hne, DIR.HasRoom, DIR.HasRoom, hu.step.file h.inv (h.lt hj) hne,
      BFILE.canGrow_congr h.inv (h.lt hj) hr ha hfree]

theorem Unlinked.owned_eq (h : Inv fsxp roots A K m ms)
    (hu : Unlinked fsxp roots A K d name i b m ms m' ms') (hj : j ∈ A) :
    BFILE.owned fsxp m' j = BFILE.owned fsxp m j := by
  rcases eq_or_ne j d with rfl | hne
  · rw [BFILE.owned, BFILE.owned, hu.kept.nodes, hu.kept.blocks]
  · obtain ⟨hr, ha⟩ := hu.step.other j (h.lt hj) hne
    obtain ⟨hnodes, hblocks⟩ := BFILE.layout_congr (h.inv.len j (h.lt hj)) hr
      fun a hmem => ha a (Multiset.mem_add.2 (.inl hmem))
    rw [BFILE.owned, BFILE.owned, hnodes, hblocks]

/-- The subtree `t` has been taken out of the tree. -/
structure Taken (fsxp : FsXparams) (A : Finset ℕ) (K : ℕ → Bool) (srcpath : List Sname)
    (srcname : Sname) (tree : Dirtree) (d i : ℕ) (b : Bool) (m : Mem)
    (sents : List (Sname × Dirtree)) (t : Dirtree) : Prop where
  src : findSubtree srcpath tree = some (treeDir d sents)
  entry : findDirlist srcname sents = some t
  inum : t.inum = i
  isdir : t.isdir = b
  rooted : Rooted A K t
  rep : Rep fsxp m t
  rest : Rep fsxp m (treePrune d sents srcpath srcname tree)
  rootInum : (treePrune d sents srcpath srcname tree).inum = tree.inum
  rootKind : (treePrune d sents srcpath srcname tree).isdir = tree.isdir

theorem Taken.rootRooted {srcpath : List Sname} {srcname : Sname} {sents : List (Sname × Dirtree)}
    (ht : Taken fsxp A K srcpath srcname tree d i b m sents t) (hR : Rooted A K tree) :
    Rooted A K (treePrune d sents srcpath srcname tree) :=
  ⟨ht.rootInum.symm ▸ hR.mem, by rw [ht.rootInum, ht.rootKind, hR.kind]⟩

theorem Unlinked.taken {srcpath : List Sname} (h : Inv fsxp roots A K m ms) (hr : Rep fsxp m tree)
    (hR : Rooted A K tree) (hdir : tree.isdir = true)
    (hs : walk fsxp m tree.inum true srcpath = .ok (d, true))
    (hu : Unlinked fsxp roots A K d name i b m ms m' ms') :
    ∃ sents t, Taken fsxp A K srcpath name tree d i b m' sents t := by
  rw [← hdir] at hs
  obtain ⟨sents, hf⟩ := h.find_of_walk hr hR (hs.trans (by rw [hdir]))
  obtain ⟨hr', hR', -⟩ := h.subtree hr hR hf
  obtain ⟨t, ht, hinum, hisdir⟩ := h.find_of_mem hr' hR' hu.mem
  have hmem := h.mem_ents hr' hR' ht
  obtain ⟨hRt, hedge⟩ := h.rooted_child hr' hR' hmem
  have hfile : ∀ v ∈ A, v ≠ d → file fsxp m' v = file fsxp m v :=
    fun v hv hne => hu.step.file h.inv (h.lt hv) hne
  obtain ⟨hrest, hroot, hkind⟩ := h.rep_pruned hr hR hf hu.mem hu.perm fun v hv hne _ => hfile v hv hne
  refine ⟨sents, t, hf, ht, hinum, hisdir, hRt, ?_, hrest, hroot, hkind⟩
  apply h.rep_congr (hr'.child hmem) hRt
  intro v hv
  apply hfile v (h.forest.reach_mem hRt.mem hv)
  rintro rfl
  exact h.forest.acyclic hR'.mem (.head' hedge hv)

/-- A rename can be done: the source is there, and the destination is good once the source has been
taken out of the tree. -/
structure CanRename (fsxp : FsXparams) (m : Mem) (ms : BFILE.MemState) (srcpath : List Sname)
    (srcname : Sname) (dstpath : List Sname) (dstname : Sname) (tree : Dirtree) (snum : ℕ)
    (sents : List (Sname × Dirtree)) (subtree : Dirtree) (dnum : ℕ)
    (dents : List (Sname × Dirtree)) : Prop where
  src : findSubtree srcpath tree = some (treeDir snum sents)
  entry : findDirlist srcname sents = some subtree
  dest : Dest dstpath dstname (treePrune snum sents srcpath srcname tree) dnum dents
    (dnum = snum ∨ DIR.HasRoom fsxp m ms dnum)

section

variable {srcpath dstpath : List Sname} {srcname dstname : Sname}
  {r : BFILE.MemState × Res Unit}
  (h : Inv fsxp roots A K m ms) (hr : Rep fsxp m tree) (hR : Rooted A K tree)
  (hdir : tree.isdir = true)
  (hren : Renamed fsxp roots A K tree.inum srcpath srcname dstpath dstname m ms r m')

include h hr hR hdir hren

theorem Renamed.ok_iff : r.2 = .ok () ↔ ∃ snum sents subtree dnum dents,
    CanRename fsxp m ms srcpath srcname dstpath dstname tree snum sents subtree dnum dents := by
  constructor
  · intro hr₀
    cases hren with
    | noSource => cases hr₀
    | sourceFile => cases hr₀
    | noEntry => cases hr₀
    | @placed r m' m₁ ms₁ dsrc i b hs hu hp =>
      obtain ⟨sents, t, ht⟩ := hu.taken h hr hR hdir hs
      have hRp : Rooted A K (treePrune dsrc sents srcpath srcname tree) := ht.rootRooted hR
      rw [← ht.rootInum] at hp
      obtain ⟨dnum, dents, hd⟩ := hp.dest hu.inv ht.rest hRp (ht.rootKind.trans hdir) hr₀
      obtain ⟨-, hRd, -⟩ := hu.inv.subtree ht.rest hRp hd.found
      exact ⟨dsrc, sents, t, dnum, dents, ht.src, ht.entry,
        { hd with room := fun hn => (hu.hasRoom_iff h hRd.mem).1 (hd.room hn) }⟩
  · rintro ⟨snum, sents, subtree, dnum, dents, hc⟩
    have hw := h.walk_eq hr hR hc.src
    rw [hdir] at hw
    cases hren with
    | noSource hs => cases hs.symm.trans hw
    | sourceFile hs => cases hs.symm.trans hw
    | noEntry hs hn =>
      cases hs.symm.trans hw
      obtain ⟨hr', hR', -⟩ := h.subtree hr hR hc.src
      have hnone := (h.find_eq_none_iff hr' hR').2 hn
      rw [hc.entry] at hnone
      cases hnone
    | @placed r m' m₁ ms₁ dsrc i b hs hu hp =>
      cases hs.symm.trans hw
      obtain ⟨sents', t, ht⟩ := hu.taken h hr hR hdir hs
      cases ht.src.symm.trans hc.src
      have hRp : Rooted A K (treePrune snum sents srcpath srcname tree) := ht.rootRooted hR
      rw [← ht.rootInum] at hp
      obtain ⟨-, hRd, -⟩ := hu.inv.subtree ht.rest hRp hc.dest.found
      exact hp.ok_of_dest hu.inv ht.rest hRp (ht.rootKind.trans hdir)
        { hc.dest with room := fun hn => (hu.hasRoom_iff h hRd.mem).2 (hc.dest.room hn) }

theorem Renamed.rep (htight : BFILE.Tight fsxp m) {snum dnum : ℕ}
    {sents dents : List (Sname × Dirtree)} {subtree : Dirtree}
    (hc : CanRename fsxp m ms srcpath srcname dstpath dstname tree snum sents subtree dnum dents)
    (hr₀ : r.2 = .ok ()) :
    Rep fsxp m' (treeGraft dnum dents dstpath dstname subtree
      (treePrune snum sents srcpath srcname tree)) ∧
    ∀ old, findDirlist dstname dents = some old → Dropped fsxp old.inum m ms m' r.1 := by
  have hw := h.walk_eq hr hR hc.src
  rw [hdir] at hw
  cases hren with
  | noSource => cases hr₀
  | sourceFile => cases hr₀
  | noEntry => cases hr₀
  | @placed r m' m₁ ms₁ dsrc i b hs hu hp =>
    cases hs.symm.trans hw
    obtain ⟨sents', t, ht⟩ := hu.taken h hr hR hdir hs
    cases ht.src.symm.trans hc.src
    cases ht.entry.symm.trans hc.entry
    have hRp : Rooted A K (treePrune snum sents srcpath srcname tree) := ht.rootRooted hR
    obtain ⟨-, hRs, hpath⟩ := h.subtree hr hR hc.src
    have hroot := hu.reach h hR.mem hRs.kind hpath
    rw [← ht.rootInum] at hp hroot
    obtain ⟨hgraft, hdrop⟩ := hp.rep hu.inv ht.rest hRp (ht.rootKind.trans hdir)
      (hu.step.tight htight) hroot ht.rep ht.rooted ht.inum ht.isdir hc.dest.found hr₀
    refine ⟨hgraft, fun old hold => ?_⟩
    obtain ⟨hrd, hRd, -⟩ := hu.inv.subtree ht.rest hRp hc.dest.found
    obtain ⟨hRo, -⟩ := hu.inv.rooted_child hrd hRd (hu.inv.mem_ents hrd hRd hold)
    obtain ⟨hinode, hempty, hblocks⟩ := hdrop old hold
    rw [hu.owned_eq h hRo.mem, hu.step.msAlloc] at hblocks
    exact ⟨hinode, hempty, hblocks⟩

end

end DIRTREE

namespace AFS

open BFILE (MemState file)

open DIRTREE (Rep Rooted Freed Dropped CanRename)

variable [Platform] {n d : ℕ} {fsxp : FsXparams} {xp : LogXparams} {A : Finset ℕ} {K : ℕ → Bool}
  {L : LogSt} {ams : MemState} {tree : Dirtree} {path : List Sname} {ents : List (Sname × Dirtree)}

/-- Deleting an entry of the tree. -/
theorem delete_frees (hx : fsxp.Ok n) (h : Ok n fsxp A K L ams) (hr : Rep fsxp L.disk.cur tree)
    (hR : Rooted A K tree) (hf : findSubtree path tree = some (treeDir d ents)) (name : Sname) :
    LogProg.wp n xp (delete fsxp d name ams) (fun r L' =>
      (r.2 = .error .ENOENT ↔ findDirlist name ents = none) ∧
      (r.2 = .error .ENOTEMPTY ↔ ∃ i e l, findDirlist name ents = some (treeDir i (e :: l))) ∧
      (∀ e, r.2 = .error e → r.1 = ams ∧ L'.disk = L.disk ∧ (e = .ENOENT ∨ e = .ENOTEMPTY ∨
        e = .ELOGOVERFLOW ∧ xp.logLen < Txn.size (DIRTREE.delete fsxp d name ams) L.disk.cur)) ∧
      (r.2 = .ok () → ∃ t, findDirlist name ents = some t ∧
        Rep fsxp L'.disk.cur (treePrune d ents path name tree) ∧
        Freed fsxp d t.inum L.disk.cur ams L'.disk.cur r.1 ∧
        Ok n fsxp (A.erase t.inum) K L' r.1) ∧
      ∀ A₁ K₁ L₁ ams₁ b d₁ name₁, Ok n fsxp A₁ K₁ L₁ ams₁ → d₁ ∈ A₁ → K₁ d₁ = true →
        Txn.wp n (DIRTREE.mknod fsxp b d₁ name₁ ams₁)
          (fun r m => ∀ i, r.2 = .ok i → file fsxp m i = ⟨[], INODE.iattr0⟩) L₁.disk.cur)
      (crashIn fun _ _ => True) L := by
  obtain ⟨hr', hR', -⟩ := h.tree.subtree hr hR hf
  have hmknod : ∀ A₁ K₁ L₁ ams₁ b d₁ name₁, Ok n fsxp A₁ K₁ L₁ ams₁ → d₁ ∈ A₁ → K₁ d₁ = true →
      Txn.wp n (DIRTREE.mknod fsxp b d₁ name₁ ams₁)
        (fun r m => ∀ i, r.2 = .ok i → file fsxp m i = ⟨[], INODE.iattr0⟩) L₁.disk.cur :=
    fun A₁ K₁ L₁ ams₁ b d₁ name₁ h₁ hd hK => DIRTREE.wp_mknod_empty hx h₁.tree hd hK
  apply wp_transact_size h
  apply DIRTREE.wp_delete hx h.tree hR'.mem hR'.kind
  · intro hn ms' m'
    have hnone := (h.tree.find_eq_none_iff hr' hR').2 hn
    refine ⟨fun e he => ?_, fun v hv => nomatch hv⟩
    cases he
    refine ⟨⟨fun _ => hnone, fun _ => rfl⟩, ?_, ?_, fun he => (nomatch he), hmknod⟩
    · rw [hnone]
      exact ⟨fun he => (nomatch he), fun ⟨_, _, _, he⟩ => nomatch he⟩
    · rintro e ⟨⟩
      exact ⟨rfl, rfl, .inl rfl⟩
  · intro i hmem hne ms' m'
    obtain ⟨t, ht, rfl, hdir⟩ := h.tree.find_of_mem hr' hR' hmem
    have hrt := hr'.child (h.tree.mem_ents hr' hR' ht)
    obtain ⟨i, e, l, rfl⟩ := DIRTREE.exists_cons_of_dents hrt hdir hne
    refine ⟨fun e he => ?_, fun v hv => nomatch hv⟩
    cases he
    refine ⟨?_, ⟨fun _ => ⟨i, e, l, ht⟩, fun _ => rfl⟩, ?_, fun he => (nomatch he), hmknod⟩
    · rw [ht]
      exact ⟨fun he => (nomatch he), fun he => nomatch he⟩
    · rintro e ⟨⟩
      exact ⟨rfl, rfl, .inr (.inl rfl)⟩
  · intro ms' m' i b hinv hdel
    obtain ⟨t, ht, rfl, hdir⟩ := h.tree.find_of_mem hr' hR' hdel.mem
    obtain ⟨hRt, -⟩ := h.tree.rooted_child hr' hR' (h.tree.mem_ents hr' hR' ht)
    have hleaf := DIRTREE.ne_cons_of_leaf (hr'.child (h.tree.mem_ents hr' hR' ht)) hRt hdel.leaf
    -- the entry can be deleted, so that only the log may be too small
    have hsome : ∀ r : Res Unit, r ≠ .error .ENOENT → r ≠ .error .ENOTEMPTY →
        (r = .error .ENOENT ↔ findDirlist name ents = none) ∧
        (r = .error .ENOTEMPTY ↔ ∃ i e l, findDirlist name ents = some (treeDir i (e :: l))) := by
      intro r h₀ h₁
      rw [ht]
      refine ⟨⟨fun he => absurd he h₀, fun he => nomatch he⟩, fun he => absurd he h₁, ?_⟩
      rintro ⟨i, e, l, he⟩
      exact absurd (Option.some.inj he) (hleaf i e l)
    refine ⟨fun e he => (nomatch he), fun v _ => ⟨⟨_, _, _, .of_kind hinv hdel.moves, ?_⟩, ?_⟩⟩
    · intro _ L' hok hcur
      obtain ⟨h₀, h₁⟩ := hsome (.ok v) (fun he => nomatch he) (fun he => nomatch he)
      refine ⟨h₀, h₁, fun e he => (nomatch he), fun _ => ⟨t, ht, ?_, ?_, hok⟩, hmknod⟩
      · rw [hcur]
        refine (h.tree.rep_pruned hr hR hf hdel.mem hdel.perm fun v hv hvd hvi => ?_).1
        exact hdel.file_eq h.tree (Finset.mem_erase.2 ⟨hvi, hv⟩) hvd
      · rw [hcur]
        exact hdel.freed h.tree h.tight hRt.mem hinv.inv
    · intro hlt L' hL
      obtain ⟨h₀, h₁⟩ := hsome (.error .ELOGOVERFLOW) (fun he => nomatch he) (fun he => nomatch he)
      refine ⟨h₀, h₁, ?_, fun he => (nomatch he), hmknod⟩
      rintro e ⟨⟩
      exact ⟨rfl, hL, .inr (.inr ⟨rfl, hlt⟩)⟩

/-- A rename takes a subtree out of the tree and puts it back at the destination. -/
theorem rename_grafts (hx : fsxp.Ok n) (h : Ok n fsxp A K L ams) (hr : Rep fsxp L.disk.cur tree)
    (hR : Rooted A K tree) (hdir : tree.isdir = true) (srcpath dstpath : List Sname)
    (srcname dstname : Sname) :
    LogProg.wp n xp (rename fsxp tree.inum srcpath srcname dstpath dstname ams) (fun r L' =>
      (r.2 = .ok () ↔ (∃ snum sents subtree dnum dents, CanRename fsxp L.disk.cur ams srcpath srcname
          dstpath dstname tree snum sents subtree dnum dents) ∧
        Txn.size (DIRTREE.rename fsxp tree.inum srcpath srcname dstpath dstname ams) L.disk.cur ≤
          xp.logLen) ∧
      (∀ e, r.2 = .error e → r.1 = ams ∧ L'.disk = L.disk) ∧
      (r.2 = .ok () → ∀ snum sents subtree dnum dents, CanRename fsxp L.disk.cur ams srcpath srcname
          dstpath dstname tree snum sents subtree dnum dents →
        Rep fsxp L'.disk.cur (treeGraft dnum dents dstpath dstname subtree
          (treePrune snum sents srcpath srcname tree)) ∧
        ∀ old, findDirlist dstname dents = some old →
          Dropped fsxp old.inum L.disk.cur ams L'.disk.cur r.1) ∧
      (r.2 = .ok () → ∃ A', Ok n fsxp A' K L' r.1))
      (crashIn fun _ _ => True) L := by
  have hK : K tree.inum = true := hR.kind.trans hdir
  apply wp_transact_size h
  apply Txn.wp_post (DIRTREE.wp_rename hx h.tree hR.mem hK)
  rintro ⟨ms', r⟩ m' hren
  have hok := hren.ok_iff h.tree hr hR hdir
  constructor
  · rintro e rfl
    refine ⟨⟨fun he => (nomatch he), fun he => (nomatch hok.2 he.1)⟩, ?_, fun he => (nomatch he),
      fun he => nomatch he⟩
    exact fun _ _ => ⟨rfl, rfl⟩
  · rintro v rfl
    obtain ⟨A', -, hinv, hmv⟩ := hren.moves h.tree hR.mem hK rfl
    refine ⟨⟨A', K, _, .of_kind hinv hmv, fun hle L' hok' hcur => ?_⟩, fun hlt L' hL => ?_⟩
    · refine ⟨⟨fun _ => ⟨hok.1 rfl, hle⟩, fun _ => rfl⟩, fun e he => (nomatch he), ?_,
        fun _ => ⟨A', hok'⟩⟩
      intro _ snum sents subtree dnum dents hc
      rw [hcur]
      exact hren.rep h.tree hr hR hdir h.tight hc rfl
    · refine ⟨⟨fun he => (nomatch he), fun he => absurd he.2 (Nat.not_le.2 hlt)⟩, ?_,
        fun he => (nomatch he), fun he => nomatch he⟩
      exact fun _ _ => ⟨rfl, hL⟩

end AFS

namespace Sample

local instance renamePlatform : Platform := platform

open AFS DIRTREE

/-- A directory with a file. -/
theorem exists_entry : ∃ L ams A K d ents name t,
    Ok geometry.dataSize geometry.fsxp A K L ams ∧
    Rep geometry.fsxp (LogSt.disk L).cur (treeDir d ents) ∧ Rooted A K (treeDir d ents) ∧
    findDirlist name ents = some t ∧ t.isdir = false ∧ SDIR.isValidSname name := by
  obtain ⟨L, ams, i, -, hone, -⟩ := exists_file
  obtain ⟨K, hok, -⟩ := hone.ok
  have hin := hone.inTree
  cases hin with
  | @entry d i b name hd he =>
  obtain ⟨hd, hKd⟩ := (inTree_iff hok.tree hok.root).1 hd
  obtain ⟨tree, hr, hinum, hisdir⟩ := hok.tree.exists_rep hd
  have hR : Rooted _ K tree := ⟨hinum.symm ▸ hd, by rw [hinum, hisdir]⟩
  rw [hKd] at hisdir
  cases tree with
  | treeFile i f => cases hisdir
  | treeDir d ents =>
    cases hinum
    obtain ⟨t, ht, -, hfile⟩ := hok.tree.find_of_mem hr hR he
    exact ⟨L, ams, _, K, d, ents, name, t, hok, hr, hR, ht, hfile,
      (hok.tree.dir d hd hKd).valid_of_mem he⟩

/-- A file is deleted from its directory. -/
theorem delete_frees_file : ∃ L ams d name t,
    LogProg.wp geometry.dataSize geometry.fsxp.log (AFS.delete geometry.fsxp d name ams)
      (fun r L' => r.2 ≠ .error .ENOENT ∧ r.2 ≠ .error .ENOTEMPTY ∧ (r.2 = .ok () →
        Freed geometry.fsxp d t (LogSt.disk L).cur ams L'.disk.cur r.1))
      (crashIn fun _ _ => True) L := by
  obtain ⟨L, ams, A, K, d, ents, name, t, hok, hr, hR, ht, hfile, -⟩ := exists_entry
  refine ⟨L, ams, d, name, t.inum, ?_⟩
  have hroot : findSubtree [] (treeDir d ents) = some (treeDir d ents) := rfl
  apply wp_mono (delete_frees geometry.ok hok hr hR hroot name) _ fun _ => id
  rintro r L' ⟨hnone, hcons, -, hfreed, -⟩
  refine ⟨?_, ?_, ?_⟩
  · rw [Ne, hnone, ht]
    exact fun he => nomatch he
  · rw [Ne, hcons]
    rintro ⟨i, e, l, he⟩
    rw [ht] at he
    cases he
    cases hfile
  · intro hr₀
    obtain ⟨t', ht', -, hf, -⟩ := hfreed hr₀
    obtain rfl : t = t' := Option.some.inj (ht.symm.trans ht')
    exact hf

/-- A file can be renamed to itself, if the log has room for it. -/
theorem rename_grafts_file : ∃ L ams d ents name t,
    LogProg.wp geometry.dataSize geometry.fsxp.log
      (AFS.rename geometry.fsxp d [] name [] name ams)
      (fun r L' => (r.2 = .ok () ↔ Txn.size (DIRTREE.rename geometry.fsxp d [] name [] name ams)
          (LogSt.disk L).cur ≤ geometry.fsxp.log.logLen) ∧
        (r.2 = .ok () → Rep geometry.fsxp L'.disk.cur
          (treeDir d (addToList name t (deleteFromList name ents)))))
      (crashIn fun _ _ => True) L := by
  obtain ⟨L, ams, A, K, d, ents, name, t, hok, hr, hR, ht, hfile, hvalid⟩ := exists_entry
  refine ⟨L, ams, d, ents, name, t, ?_⟩
  have hnone : findDirlist name (deleteFromList name ents) = none := by
    cases hf : findDirlist name (deleteFromList name ents) with
    | none => rfl
    | some s =>
      have hmem := (perm_deleteFromList hf).mem_iff.2 List.mem_cons_self
      exact absurd rfl (hok.tree.mem_rest hr hR hmem).2
  have hdest : Dest [] name (treePrune d ents [] name (treeDir d ents)) d (deleteFromList name ents)
      (d = d ∨ DIR.HasRoom geometry.fsxp (LogSt.disk L).cur ams d) := by
    refine ⟨rfl, fun i e l he => ?_, hvalid, fun _ => .inl rfl⟩
    rw [hnone] at he
    cases he
  have hcan : CanRename geometry.fsxp L.disk.cur ams [] name [] name (treeDir d ents) d ents t d
      (deleteFromList name ents) := ⟨rfl, ht, hdest⟩
  apply wp_mono (rename_grafts geometry.ok hok hr hR rfl [] [] name name) _ fun _ => id
  rintro r L' ⟨hiff, -, hgraft, -⟩
  refine ⟨?_, fun hr₀ => (hgraft hr₀ d ents t d _ hcan).1⟩
  rw [hiff]
  exact and_iff_right ⟨d, ents, t, d, _, hcan⟩

end Sample

end Fscq
