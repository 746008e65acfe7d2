import Fscq.AsyncFSRun

/-!
# The tree that a disk has

What a disk says about the tree, whatever is cached: its directories and files, their attributes and
their blocks.  All of this is in the bitmaps, the inodes, the index blocks and the blocks of
directories (`AFS.metaBlocks`), so that disks which agree on these have the same tree.
-/

namespace Fscq

open CrashProg

open BFILE (MemState)

/-- With nothing cached, the free objects are those of the bitmap. -/
theorem AllocSig.freeList_none {XParams : Type} (S : AllocSig XParams) (m : Mem) (xp : XParams) :
    S.freeList m xp none = S.bmapFree m xp := rfl

namespace AFS

variable {n : ℕ} {fsxp : FsXparams} {A : Finset ℕ} {K : ℕ → Bool} {m m' m'' : Mem} {L : LogSt}
  {ams : MemState} {i a : ℕ} {b : Bool}

/-- The directories and files in use form a tree, each block is free or in one file, and no file has
index blocks that it does not need. -/
structure Tree (fsxp : FsXparams) (A : Finset ℕ) (K : ℕ → Bool) (m : Mem) : Prop where
  inv : DIRTREE.Inv fsxp {fsxp.rootInum} A K m BFILE.msEmpty
  root : K fsxp.rootInum = true
  total : BFILE.total fsxp m BFILE.msEmpty = BFILE.allBlocks fsxp
  tight : BFILE.Tight fsxp m

/-- What is cached does not matter. -/
theorem Ok.toTree (h : Ok n fsxp A K L ams) : Tree fsxp A K L.disk.cur := by
  have hfree : ∀ b, BFILE.freeOf fsxp L.disk.cur BFILE.msEmpty.msAllocC b =
      BFILE.freeOf fsxp L.disk.cur ams.msAllocC b := by
    intro b
    have hnone : BFILE.pickBalloc BFILE.msEmpty.msAllocC b = none := by cases b <;> rfl
    rw [BFILE.freeOf, BlockPtr.freeSet, hnone, AllocSig.freeList_none, BFILE.freeOf,
      BlockPtr.freeSet]
    exact Multiset.coe_eq_coe.2 (h.coh b).perm.symm
  have htotal : BFILE.total fsxp L.disk.cur BFILE.msEmpty = BFILE.allBlocks fsxp := by
    rw [← h.total, BFILE.total, hfree, hfree, BFILE.total]
  have hinodes : (IAlloc.freeList L.disk.cur fsxp none : Multiset ℕ) =
      IAlloc.freeList L.disk.cur fsxp ams.msIAllocC := by
    rw [AllocSig.freeList_none]
    exact Multiset.coe_eq_coe.2 h.tree.icoh.perm.symm
  refine ⟨?_, h.root, htotal, h.tight⟩
  constructor
  case inv => exact ⟨RASig.cacheOk_empty, h.tree.inv.len, htotal.le⟩
  case inodes => exact (congrArg (· + A.val) hinodes).trans h.tree.inodes
  case icoh =>
    intro l hl
    cases hl
  case dir => exact h.tree.dir
  case flag => exact h.tree.flag
  case cache =>
    intro d r hr
    simp [BFILE.msEmpty] at hr
  case free => exact h.tree.free
  case forest => exact h.tree.forest

/-- A machine that boots from a disk with a tree has nothing cached. -/
theorem Tree.ok (h : Tree fsxp A K m) : Ok n fsxp A K (.ofDisk m) BFILE.msEmpty where
  txn := rfl
  pend _ ht := absurd ht List.not_mem_nil
  tree := h.inv
  root := h.root
  total := h.total
  coh b l hl := by cases b <;> cases hl
  tight := h.tight
  dirty _ _ a _ _ := ADisk.syncedAt_synced m a

theorem Tree.inTree_iff (h : Tree fsxp A K m) : InTree fsxp m i b ↔ i ∈ A ∧ K i = b :=
  AFS.inTree_iff h.inv h.root

theorem Tree.lt (h : Tree fsxp A K m) (hi : InTree fsxp m i b) : i < INODE.ninodes fsxp.inode :=
  h.inv.lt (h.inTree_iff.1 hi).1

/-- An inode that is not in the tree has no blocks. -/
theorem Tree.inTree_of_mem (h : Tree fsxp A K m) (hi : i < INODE.ninodes fsxp.inode)
    (ha : a ∈ BFILE.blocks fsxp m i) : InTree fsxp m i (K i) := by
  refine h.inTree_iff.2 ⟨?_, rfl⟩
  by_contra hnot
  have hlen := BFILE.length_data fsxp m i
  rw [h.inv.free i hi hnot] at hlen
  rw [List.eq_nil_of_length_eq_zero hlen.symm] at ha
  exact List.not_mem_nil ha

/-! ### Disks that agree -/

/-- The blocks that the tree is in: the bitmaps and inodes, the index blocks, and the blocks of
directories. -/
def metaBlocks (n : ℕ) (fsxp : FsXparams) (m : Mem) : Set ℕ :=
  {a | fsxp.nblocks ≤ a ∧ a < n} ∪
    {a | ∃ j < INODE.ninodes fsxp.inode, a ∈ BFILE.nodes fsxp m j} ∪
    {a | ∃ j, InTree fsxp m j true ∧ a ∈ BFILE.blocks fsxp m j}

/-- The same directories with the same entries, and the same files with the same attributes and
blocks. -/
structure SameTree (fsxp : FsXparams) (m m' : Mem) : Prop where
  inTree : ∀ i b, InTree fsxp m' i b ↔ InTree fsxp m i b
  attr : ∀ i b, InTree fsxp m i b → (BFILE.file fsxp m' i).attr = (BFILE.file fsxp m i).attr
  blocks : ∀ i b, InTree fsxp m i b → BFILE.blocks fsxp m' i = BFILE.blocks fsxp m i
  dir : ∀ d, InTree fsxp m d true → BFILE.file fsxp m' d = BFILE.file fsxp m d

theorem SameTree.refl (fsxp : FsXparams) (m : Mem) : SameTree fsxp m m :=
  ⟨fun _ _ => .rfl, fun _ _ _ => rfl, fun _ _ _ => rfl, fun _ _ => rfl⟩

theorem SameTree.symm (h : SameTree fsxp m m') : SameTree fsxp m' m where
  inTree i b := (h.inTree i b).symm
  attr i b hi := (h.attr i b ((h.inTree i b).1 hi)).symm
  blocks i b hi := (h.blocks i b ((h.inTree i b).1 hi)).symm
  dir d hd := (h.dir d ((h.inTree d true).1 hd)).symm

theorem SameTree.trans (h : SameTree fsxp m m') (h' : SameTree fsxp m' m'') :
    SameTree fsxp m m'' where
  inTree i b := (h'.inTree i b).trans (h.inTree i b)
  attr i b hi := (h'.attr i b ((h.inTree i b).2 hi)).trans (h.attr i b hi)
  blocks i b hi := (h'.blocks i b ((h.inTree i b).2 hi)).trans (h.blocks i b hi)
  dir d hd := (h'.dir d ((h.inTree d true).2 hd)).trans (h.dir d hd)

/-- A path leads to the same inode. -/
theorem SameTree.walk (h : SameTree fsxp m m') {isdir : Bool} {d : ℕ} (hd : InTree fsxp m d isdir)
    (names : List Sname) : DIRTREE.walk fsxp m' d isdir names = DIRTREE.walk fsxp m d isdir names := by
  induction names generalizing d isdir with
  | nil => rfl
  | cons name names ih =>
    cases isdir with
    | false =>
      rw [DIRTREE.walk, if_neg (by decide), DIRTREE.walk, if_neg (by decide)]
    | true =>
      rw [DIRTREE.walk, if_pos rfl, DIRTREE.walk, if_pos rfl, h.dir d hd]
      cases hf : (SDIR.dents (BFILE.file fsxp m d)).find? (fun e => e.1 = name) with
      | none => rfl
      | some e =>
        obtain ⟨name', i, b⟩ := e
        exact ih (.entry hd (List.mem_of_find?_eq_some hf))

section

variable (hx : fsxp.Ok n) (h : Tree fsxp A K m) (hm : ∀ a ∈ metaBlocks n fsxp m, m' a = m a)

include hx hm

theorem irec_of_agree {j : ℕ} (hj : j < INODE.ninodes fsxp.inode) :
    INODE.irec fsxp.inode j m' = INODE.irec fsxp.inode j m := by
  apply INODE.irec_congr hj
  intro a ha
  have hlt := (BFILE.inodeFits hx.toParts).2.trans' (Nat.succ_le_of_lt ha.2)
  exact hm a (.inl (.inl ⟨(BFILE.mem_region_inode hx.toParts ha).1, hlt⟩))

include h

theorem layout_of_agree {j : ℕ} (hj : j < INODE.ninodes fsxp.inode) :
    BFILE.nodes fsxp m' j = BFILE.nodes fsxp m j ∧ BFILE.blocks fsxp m' j = BFILE.blocks fsxp m j :=
  BFILE.layout_congr (h.inv.inv.len j hj) (irec_of_agree hx hm hj)
    fun a ha => hm a (.inl (.inr ⟨j, hj, ha⟩))

/-- Directories, and files that are not in use, are the same. -/
theorem file_of_agree {j : ℕ} (hj : j < INODE.ninodes fsxp.inode) (hK : j ∈ A → K j = true) :
    BFILE.file fsxp m' j = BFILE.file fsxp m j := by
  rw [BFILE.file, (layout_of_agree hx h hm hj).2, INODE.attrs, irec_of_agree hx hm hj, BFILE.file]
  refine congrArg (BFILE.BFile.mk · _) (List.map_congr_left fun a ha => hm a (.inr ⟨j, ?_, ha⟩))
  have hin := h.inTree_of_mem hj ha
  rwa [hK (h.inTree_iff.1 hin).1] at hin

/-- A disk that agrees with the tree of another one has that tree. -/
theorem Tree.of_agree : Tree fsxp A K m' := by
  have hx' := hx.toParts
  have hregion : ∀ a, fsxp.nblocks ≤ a → a < n → m' a = m a :=
    fun a h₁ h₂ => hm a (.inl (.inl ⟨h₁, h₂⟩))
  have hfree : ∀ b, BFILE.freeOf fsxp m' BFILE.msEmpty.msAllocC b =
      BFILE.freeOf fsxp m BFILE.msEmpty.msAllocC b := by
    intro b
    apply BlockPtr.freeSet_congr
    intro a ha
    obtain ⟨h₁, h₂, -⟩ := BFILE.mem_region_bxpOf hx' ha
    have := hx'.data
    have := hx'.inode
    exact hregion a (by omega) h₂
  have hialloc : ∀ a ∈ IAlloc.bmp.region fsxp, m' a = m a := fun a ha =>
    hregion a (BFILE.not_mem_region_ialloc hx' ha).1 ((BFILE.iallocFits hx').2.trans' ha.2)
  have hlist : IAlloc.freeList m' fsxp none = IAlloc.freeList m fsxp none :=
    AllocSig.freeList_congr hialloc
  have howned : ∀ j ∈ Finset.range (INODE.ninodes fsxp.inode),
      BFILE.owned fsxp m' j = BFILE.owned fsxp m j := by
    intro j hj
    obtain ⟨h₁, h₂⟩ := layout_of_agree hx h hm (Finset.mem_range.1 hj)
    rw [BFILE.owned, h₁, h₂, BFILE.owned]
  have htotal : BFILE.total fsxp m' BFILE.msEmpty = BFILE.allBlocks fsxp := by
    rw [← h.total, BFILE.total, hfree, hfree, Finset.sum_congr rfl howned, BFILE.total]
  have hdir : ∀ d ∈ A, K d = true → BFILE.file fsxp m' d = BFILE.file fsxp m d :=
    fun d hd hK => file_of_agree hx h hm (h.inv.lt hd) fun _ => hK
  refine ⟨?_, h.root, htotal, fun j hj => ?_⟩
  · constructor
    case inv =>
      refine ⟨RASig.cacheOk_empty, fun j hj => ?_, htotal.le⟩
      rw [(layout_of_agree hx h hm hj).2]
      exact h.inv.inv.len j hj
    case inodes =>
      have hinodes := h.inv.inodes
      change (IAlloc.freeList m fsxp none : Multiset ℕ) + A.val = _ at hinodes
      rwa [← hlist] at hinodes
    case icoh =>
      intro l hl
      cases hl
    case dir =>
      intro d hd hK
      rw [hdir d hd hK]
      exact h.inv.dir d hd hK
    case flag =>
      intro d hd hK
      rw [hdir d hd hK]
      exact h.inv.flag d hd hK
    case cache =>
      intro d r hr
      simp [BFILE.msEmpty] at hr
    case free =>
      intro j hj hjA
      rw [file_of_agree hx h hm hj fun hA => absurd hA hjA]
      exact h.inv.free j hj hjA
    case forest =>
      apply h.inv.forest.congr
      intro d hd
      by_cases hK : K d = true
      · exact DIRTREE.children_congr (hdir d hd hK)
      · rw [DIRTREE.children, if_neg hK, DIRTREE.children, if_neg hK]
  · exact BFILE.tight_congr (irec_of_agree hx hm hj) (fun a ha => hm a (.inl (.inr ⟨j, hj, ha⟩)))
      (h.tight j hj)

theorem sameTree_of_agree : SameTree fsxp m m' := by
  have h' := h.of_agree hx hm
  constructor
  case inTree => exact fun i b => h'.inTree_iff.trans h.inTree_iff.symm
  case attr =>
    intro i b hi
    change INODE.attrs fsxp.inode i m' = INODE.attrs fsxp.inode i m
    rw [INODE.attrs, irec_of_agree hx hm (h.lt hi), INODE.attrs]
  case blocks => exact fun i b hi => (layout_of_agree hx h hm (h.lt hi)).2
  case dir =>
    exact fun d hd => file_of_agree hx h hm (h.lt hd) fun _ => (h.inTree_iff.1 hd).2

/-- They have the tree in the same blocks. -/
theorem metaBlocks_of_agree : metaBlocks n fsxp m' = metaBlocks n fsxp m := by
  have hs := sameTree_of_agree hx h hm
  have hn : ∀ a, (∃ j < INODE.ninodes fsxp.inode, a ∈ BFILE.nodes fsxp m' j) ↔
      ∃ j < INODE.ninodes fsxp.inode, a ∈ BFILE.nodes fsxp m j := by
    intro a
    refine exists_congr fun j => and_congr_right fun hj => ?_
    rw [(layout_of_agree hx h hm hj).1]
  have hd : ∀ a, (∃ j, InTree fsxp m' j true ∧ a ∈ BFILE.blocks fsxp m' j) ↔
      ∃ j, InTree fsxp m j true ∧ a ∈ BFILE.blocks fsxp m j := by
    intro a
    refine exists_congr fun j => ?_
    rw [hs.inTree]
    refine and_congr_right fun hj => ?_
    rw [hs.blocks j true hj]
  ext a
  exact or_congr (or_congr_right (hn a)) (hd a)

end

end AFS

end Fscq
