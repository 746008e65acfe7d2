import Fscq.BFileProof

/-!
# Growing a file

A file gets one more block: from the allocator in use, with the index blocks that are missing for it.
It cannot when it is too big or when that allocator has too few blocks.
-/

namespace Fscq

open CrashProg

namespace BFILE

open INODE (irecSig ninodes irec)

open BlockPtr (freeSet Good)

variable {n inum : ℕ} {fsxp : FsXparams} {m m' m'' : Mem} {ms ms' ms'' : MemState} {b : Bool}
  {S : Set ℕ}

theorem getDirty_insert (j i : ℕ) (d : AddrMap AddrSet) (t : AddrSet) :
    getDirty j (d.insert i t) = if j = i then t else getDirty j d := by
  rw [getDirty, Std.ExtTreeMap.getElem?_insert]
  rcases eq_or_ne j i with rfl | h
  · simp
  · rw [if_neg (by simpa using h.symm), if_neg h, getDirty]

theorem getDirty_putDirty (j i bn : ℕ) (d : AddrMap AddrSet) :
    getDirty j (putDirty i bn d) = if j = i then (getDirty i d).insert bn else getDirty j d :=
  getDirty_insert j i d _

theorem getDirty_clearDirty (j i : ℕ) (d : AddrMap AddrSet) :
    getDirty j (clearDirty i d) = if j = i then ∅ else getDirty j d := by
  rw [getDirty, clearDirty, Std.ExtTreeMap.getElem?_erase]
  rcases eq_or_ne j i with rfl | h
  · simp
  · rw [if_neg (by simpa using h.symm), if_neg h, getDirty]

/-- A block may be marked as dirty in addition. -/
theorem Step.putDirty {i a : ℕ} (h : Step fsxp S m ms m' ms') (ha : a ∈ blocks fsxp m' i) :
    Step fsxp S m ms m' { ms' with msDBlocks := putDirty i a ms'.msDBlocks } := by
  refine ⟨⟨h.other, h.msAlloc, h.giveData, h.giveNodes, h.free, ?_, h.total, h.coh, h.tight, ?_⟩,
    h.ialloc, h.msIAlloc⟩
  · intro j hj b hb hd
    apply h.dirty j hj b hb
    intro hmem
    apply hd
    rw [getDirty_putDirty]
    split_ifs with e
    · rw [e] at hmem
      exact Std.ExtTreeSet.mem_insert.2 (.inr hmem)
    · exact hmem
  · intro hk j hj b hb
    dsimp only at hb
    rw [getDirty_putDirty] at hb
    split_ifs at hb with e
    · rcases Std.ExtTreeSet.mem_insert.1 hb with hab | hb
      · rwa [← compare_eq_iff_eq.1 hab, e]
      · exact h.marked hk j hj b (e ▸ hb)
    · exact h.marked hk j hj b hb

theorem getDirty_removeDirtyVec (j i : ℕ) (l : List ℕ) (d : AddrMap AddrSet) :
    getDirty j (removeDirtyVec i l d) =
      if j = i then l.foldr (fun bn d => d.erase bn) (getDirty i d) else getDirty j d := by
  have hnil : l.foldr (fun bn (d : AddrSet) => d.erase bn) ∅ = ∅ := by
    induction l with
    | nil => rfl
    | cons a l ih =>
      rw [List.foldr_cons, ih]
      exact Std.ExtTreeSet.ext_mem fun x => by simp
  unfold removeDirtyVec
  split
  next h =>
    split_ifs with hj
    · rw [hj, getDirty, h, Option.getD_none, hnil]
    · rfl
  next t h =>
    rw [getDirty_insert]
    split_ifs with hj
    · rw [getDirty, h, Option.getD_some]
    · rfl

theorem mem_foldr_erase (l : List ℕ) (d : AddrSet) (a : ℕ) :
    a ∈ l.foldr (fun bn d => d.erase bn) d ↔ a ∈ d ∧ a ∉ l := by
  induction l with
  | nil => simp
  | cons b l ih =>
    rw [List.foldr_cons, Std.ExtTreeSet.mem_erase, ih, List.mem_cons]
    constructor
    · rintro ⟨h₁, h₂, h₃⟩
      refine ⟨h₂, ?_⟩
      rintro (rfl | h)
      · exact h₁ (by simp)
      · exact h₃ h
    · rintro ⟨h₁, h₂⟩
      refine ⟨fun h => h₂ (.inl ?_), h₁, fun h => h₂ (.inr h)⟩
      exact (compare_eq_iff_eq.1 h).symm

/-- A file has got blocks and index blocks from the allocator that is used for growing. -/
structure Grown (fsxp : FsXparams) (inum : ℕ) (m : Mem) (ms : MemState) (m' : Mem)
    (ms' : MemState) : Prop where
  blocks : blocks fsxp m inum <+: blocks fsxp m' inum
  nodes : nodes fsxp m inum ≤ nodes fsxp m' inum
  acc : owned fsxp m' inum + freeOf fsxp m' ms'.msAllocC ms.msAlloc =
    owned fsxp m inum + freeOf fsxp m ms.msAllocC ms.msAlloc
  side : freeOf fsxp m' ms'.msAllocC (!ms.msAlloc) = freeOf fsxp m ms.msAllocC (!ms.msAlloc)

theorem Grown.refl (fsxp : FsXparams) (inum : ℕ) (m : Mem) (ms : MemState) :
    Grown fsxp inum m ms m ms := ⟨List.prefix_rfl, le_rfl, rfl, rfl⟩

theorem Grown.trans (h : Grown fsxp inum m ms m' ms') (hms : ms'.msAlloc = ms.msAlloc)
    (h' : Grown fsxp inum m' ms' m'' ms'') : Grown fsxp inum m ms m'' ms'' := by
  have hacc := h'.acc
  have hside := h'.side
  rw [hms] at hacc hside
  exact ⟨h.blocks.trans h'.blocks, h.nodes.trans h'.nodes, hacc.trans h.acc, hside.trans h.side⟩

/-- A file has given blocks and index blocks to the other allocator. -/
structure Shrunk (fsxp : FsXparams) (inum : ℕ) (m : Mem) (ms : MemState) (m' : Mem)
    (ms' : MemState) : Prop where
  blocks : BFILE.blocks fsxp m' inum <+: BFILE.blocks fsxp m inum
  nodes : BFILE.nodes fsxp m' inum ≤ BFILE.nodes fsxp m inum
  acc : owned fsxp m' inum + freeOf fsxp m' ms'.msAllocC (!ms.msAlloc) =
    owned fsxp m inum + freeOf fsxp m ms.msAllocC (!ms.msAlloc)
  side : freeOf fsxp m' ms'.msAllocC ms.msAlloc = freeOf fsxp m ms.msAllocC ms.msAlloc

/-- What an attempt to grow leaves that fails: no file has changed, and all that is lost are free
blocks. -/
structure Leaks (fsxp : FsXparams) (m : Mem) (ms : MemState) (m' : Mem) (ms' : MemState) :
    Prop where
  frame : ∀ a ∉ BALLOCC.bmp.region (bxpOf fsxp ms.msAlloc), m' a = m a
  free : freeOf fsxp m' ms'.msAllocC ms.msAlloc ≤ freeOf fsxp m ms.msAllocC ms.msAlloc
  side : pickBalloc ms'.msAllocC (!ms.msAlloc) = pickBalloc ms.msAllocC (!ms.msAlloc)
  coh : Coherent fsxp m ms.msAllocC → Coherent fsxp m' ms'.msAllocC
  msAlloc : ms'.msAlloc = ms.msAlloc
  msIAllocC : ms'.msIAllocC = ms.msIAllocC
  msCache : ms'.msCache = ms.msCache
  msDBlocks : ms'.msDBlocks = ms.msDBlocks

/-- Writing bitmaps changes no file. -/
theorem view_of_bitmap (hx : fsxp.Ok n) (hinv : Inv fsxp m ms) (hi : inum < ninodes fsxp.inode)
    (h : ∀ a ∉ BALLOCC.bmp.region (bxpOf fsxp b), m' a = m a) :
    irec fsxp.inode inum m' = irec fsxp.inode inum m ∧ nodes fsxp m' inum = nodes fsxp m inum ∧
      blocks fsxp m' inum = blocks fsxp m inum := by
  have hrec : irec fsxp.inode inum m' = irec fsxp.inode inum m := by
    apply INODE.irec_congr hi
    intro a ha
    apply h
    exact fun hr => (layout hx.toParts b).disjoint a hr ha
  have hagree : ∀ a ∈ owned fsxp m inum, m' a = m a := by
    intro a ha
    exact h a ((hinv.good hx hi b).not_mem_region (ballocOk hx.toParts b) ha)
  obtain ⟨h₁, h₂, -, -⟩ := view_congr (hinv.len inum hi) hrec hagree
  exact ⟨hrec, h₁, h₂⟩

theorem missing_of_bitmap (hx : fsxp.Ok n) (hinv : Inv fsxp m ms)
    (hi : inum < ninodes fsxp.inode) (h : ∀ a ∉ BALLOCC.bmp.region (bxpOf fsxp b), m' a = m a)
    (hlen : (blocks fsxp m inum).length < INODE.nBlocks) :
    INODE.missing fsxp.inode inum m' = INODE.missing fsxp.inode inum m := by
  rw [INODE.missing, INODE.missing, (view_of_bitmap hx hinv hi h).1]
  apply BlockPtr.recMissing_congr
  · intro a ha
    exact h a ((hinv.good hx hi b).not_mem_region (ballocOk hx.toParts b) (Multiset.mem_add.2 (.inl ha)))
  · rw [blocks, INODE.length_blocks] at hlen
    exact hlen

theorem Leaks.withICache (fsxp : FsXparams) (m : Mem) (ms : MemState) (c : INODE.Cache) :
    Leaks fsxp m ms m { ms with msICache := c } :=
  ⟨fun _ _ => rfl, le_rfl, rfl, id, rfl, rfl, rfl, rfl⟩

theorem Leaks.of_withICache {c : INODE.Cache} (h : Leaks fsxp m { ms with msICache := c } m' ms') :
    Leaks fsxp m ms m' ms' :=
  ⟨h.frame, h.free, h.side, h.coh, h.msAlloc, h.msIAllocC, h.msCache, h.msDBlocks⟩

section

variable (hx : fsxp.Ok n) (hinv : Inv fsxp m ms) (h : Leaks fsxp m ms m' ms')

include hx hinv h

omit hinv in
theorem Leaks.freeOf_other :
    freeOf fsxp m' ms'.msAllocC (!ms.msAlloc) = freeOf fsxp m ms.msAllocC (!ms.msAlloc) := by
  rw [freeOf, h.side, BlockPtr.freeSet_congr fun a ha => h.frame a (not_mem_region_other hx.toParts ha),
    freeOf]

theorem Leaks.view (hi : inum < ninodes fsxp.inode) :
    irec fsxp.inode inum m' = irec fsxp.inode inum m ∧ ∀ a ∈ owned fsxp m inum, m' a = m a :=
  ⟨(view_of_bitmap hx hinv hi h.frame).1, fun a ha =>
    h.frame a ((hinv.good hx hi ms.msAlloc).not_mem_region (ballocOk hx.toParts _) ha)⟩

/-- The files are the same as before. -/
theorem Leaks.file (hi : inum < ninodes fsxp.inode) :
    nodes fsxp m' inum = nodes fsxp m inum ∧ blocks fsxp m' inum = blocks fsxp m inum ∧
      owned fsxp m' inum = owned fsxp m inum ∧ file fsxp m' inum = BFILE.file fsxp m inum := by
  obtain ⟨hr, ha⟩ := h.view hx hinv hi
  exact view_congr (hinv.len inum hi) hr ha

theorem Leaks.total_le : total fsxp m' ms' ≤ total fsxp m ms := by
  have hsum : ∑ i ∈ Finset.range (ninodes fsxp.inode), owned fsxp m' i =
      ∑ i ∈ Finset.range (ninodes fsxp.inode), owned fsxp m i :=
    Finset.sum_congr rfl fun i hi => (h.file hx hinv (Finset.mem_range.1 hi)).2.2.1
  have hother := h.freeOf_other hx
  have hfree := h.free
  rw [total, total, hsum]
  apply add_le_add_left
  cases hb : ms.msAlloc
  · rw [hb] at hother hfree
    have hother : freeOf fsxp m' ms'.msAllocC true = freeOf fsxp m ms.msAllocC true := hother
    rw [hother]
    exact add_le_add_right hfree _
  · rw [hb] at hother hfree
    have hother : freeOf fsxp m' ms'.msAllocC false = freeOf fsxp m ms.msAllocC false := hother
    rw [hother]
    exact add_le_add_left hfree _

theorem Leaks.inv (hc : irecSig.CacheOk m' fsxp.inode ms'.msICache) : Inv fsxp m' ms' where
  icache := hc
  len j hj := by
    rw [(h.file hx hinv hj).2.1]
    exact hinv.len j hj
  own := (h.total_le hx hinv).trans hinv.own

end

/-- The allocator that is used for growing has lost blocks. -/
theorem Leaks.of_balloc {c : BmapCacheType} (hx : fsxp.Ok n) (ic : INODE.Cache)
    (h : BlockPtr.Leaks (bxpOf fsxp ms.msAlloc) m (pickBalloc ms.msAllocC ms.msAlloc) m' c) :
    Leaks fsxp m ms m' { ms with
      msAllocC := updBalloc ms.msAllocC c ms.msAlloc
      msICache := ic } where
  frame a ha := h.step.frame a ha (Set.notMem_empty a)
  free := by
    rw [freeOf, pickBalloc_updBalloc]
    exact h.le
  side := pickBalloc_not_updBalloc _ _ _
  coh hc b := by
    rcases eq_or_ne b ms.msAlloc with rfl | hne
    · dsimp only
      rw [pickBalloc_updBalloc]
      exact h.step.coh (hc _)
    · obtain rfl : b = !ms.msAlloc := by
        cases b <;> cases hb : ms.msAlloc <;> simp_all
      dsimp only
      rw [pickBalloc_not_updBalloc]
      exact (hc _).congr fun a ha =>
        h.step.frame a (not_mem_region_other hx.toParts ha) (Set.notMem_empty a)
  msAlloc := rfl
  msIAllocC := rfl
  msCache := rfl
  msDBlocks := rfl

section

variable (hx : fsxp.Ok n) (hinv : Inv fsxp m ms) (hi : inum < ninodes fsxp.inode)

include hx hinv hi

/-- A block `bn` has been taken from the allocator, the inode has got it, and it has been
written. -/
theorem grow_edit {bn : ℕ} {l : List ℕ} {m₁ m₂ : Mem} {c₂ : BmapCacheType} {c : INODE.Cache}
    {v : Valu}
    (hfl : BALLOCC.freeList m (bxpOf fsxp ms.msAlloc) (pickBalloc ms.msAllocC ms.msAlloc) = bn :: l)
    (hst : BALLOCC.Step (bxpOf fsxp ms.msAlloc) ∅ m (pickBalloc ms.msAllocC ms.msAlloc) m₁ (some l))
    (hlen : (blocks fsxp m inum).length < INODE.nBlocks)
    (hc : irecSig.CacheOk m₂ fsxp.inode c)
    (hch : INODE.Changed fsxp.inode (bxpOf fsxp ms.msAlloc) inum m₁ (some l) m₂ c₂)
    (hnodes : nodes fsxp m₁ inum ≤ nodes fsxp m₂ inum)
    (hblocks : blocks fsxp m₂ inum = blocks fsxp m₁ inum ++ [bn])
    (hattrs : INODE.attrs fsxp.inode inum m₂ = INODE.attrs fsxp.inode inum m₁)
    (htight : INODE.Tight fsxp.inode inum m₁ → INODE.Tight fsxp.inode inum m₂)
    (hms : ms' = { ms with
      msAllocC := updBalloc ms.msAllocC c₂ ms.msAlloc
      msICache := c
      msDBlocks := putDirty inum bn ms.msDBlocks }) :
    Inv fsxp (Function.update m₂ bn v) ms' ∧ Step fsxp {inum} m ms (Function.update m₂ bn v) ms' ∧
      Grown fsxp inum m ms (Function.update m₂ bn v) ms' ∧
      file fsxp (Function.update m₂ bn v) inum =
        ⟨(file fsxp m inum).data ++ [v], (file fsxp m inum).attr⟩ := by
  set bxp := bxpOf fsxp ms.msAlloc with hbxp
  have hsame : ∀ a ∉ BALLOCC.bmp.region bxp, m₁ a = m a :=
    fun a ha => hst.frame a ha (Set.notMem_empty a)
  obtain ⟨hrec₁, hnodes₁, hblocks₁⟩ := view_of_bitmap hx hinv hi hsame
  -- the accounts of the blocks
  have hfree : freeOf fsxp m ms.msAllocC ms.msAlloc = bn ::ₘ (l : Multiset ℕ) := by
    rw [freeOf, freeSet, ← hbxp, hfl, Multiset.cons_coe]
  have hgood := hinv.good hx hi ms.msAlloc
  have hall : Good bxp m (pickBalloc ms.msAllocC ms.msAlloc) (owned fsxp m inum) := hgood
  have hmemF : bn ∈ freeOf fsxp m ms.msAllocC ms.msAlloc := by
    rw [hfree]
    exact Multiset.mem_cons_self _ _
  have hbn := hgood.valid bn (Multiset.mem_add.2 (.inr hmemF))
  rw [nbits_bxpOf hx.toParts] at hbn
  have hnd : (bn ::ₘ (owned fsxp m inum + (l : Multiset ℕ))).Nodup := by
    have := hgood.nodup
    change (owned fsxp m inum + freeOf fsxp m ms.msAllocC ms.msAlloc).Nodup at this
    rwa [hfree, Multiset.add_cons] at this
  have hacc₂ : nodes fsxp m₂ inum + freeSet m₂ bxp c₂ = nodes fsxp m inum + (l : Multiset ℕ) := by
    have := hch.acc
    rw [← hnodes₁]
    exact this
  have hbn₂ : bn ∉ nodes fsxp m₂ inum := by
    intro hmem
    apply (Multiset.nodup_cons.1 hnd).1
    have : bn ∈ nodes fsxp m inum + (l : Multiset ℕ) := by
      rw [← hacc₂]
      exact Multiset.mem_add.2 (.inl hmem)
    rw [owned, add_right_comm]
    exact Multiset.mem_add.2 (.inl this)
  have hbnreg : bn ∉ irecSig.region fsxp.inode := by
    intro hr
    have := (mem_region_inode hx.toParts hr).1
    omega
  have hbnmap : bn ∉ BALLOCC.bmp.region bxp :=
    BlockPtr.not_mem_region (ballocOk hx.toParts _) (by rw [nbits_bxpOf hx.toParts]; exact hbn.2)
  set m₃ := Function.update m₂ bn v with hm₃
  have hupd : ∀ a, a ≠ bn → m₃ a = m₂ a := fun a ha => Function.update_of_ne ha _ _
  have hrec₃ : ∀ j < ninodes fsxp.inode, irec fsxp.inode j m₃ = irec fsxp.inode j m₂ := by
    intro j hj
    apply INODE.irec_congr hj
    intro a ha
    apply hupd
    rintro rfl
    exact hbnreg ha
  have hnode₃ : ∀ a ∈ nodes fsxp m₂ inum, m₃ a = m₂ a := by
    intro a ha
    apply hupd
    rintro rfl
    exact hbn₂ ha
  have hnodes₃ : nodes fsxp m₃ inum = nodes fsxp m₂ inum := by
    simp only [nodes, INODE.nodes]
    rw [hrec₃ inum hi]
    exact BlockPtr.recNodes_congr hnode₃
  have hlen₂ : (blocks fsxp m₂ inum).length ≤ INODE.nBlocks := by
    rw [hblocks, hblocks₁, List.length_append, List.length_singleton]
    exact hlen
  have hblocks₃ : blocks fsxp m₃ inum = blocks fsxp m inum ++ [bn] := by
    have hl := hlen₂
    rw [blocks, INODE.length_blocks] at hl
    rw [← hblocks₁, ← hblocks]
    simp only [blocks, INODE.blocks]
    rw [hrec₃ inum hi]
    exact BlockPtr.recBlocks_congr hnode₃ hl
  -- the blocks that the inode layer may have written
  have hframe : ∀ a, a ∉ BALLOCC.bmp.region bxp → a ∉ irecSig.region fsxp.inode →
      a ∉ nodes fsxp m inum + freeOf fsxp m ms.msAllocC ms.msAlloc → m₃ a = m a := by
    intro a ha hr hF
    have hne : a ≠ bn := by
      rintro rfl
      exact hF (Multiset.mem_add.2 (.inr hmemF))
    rw [hupd a hne, hch.step.frame a ha, hsame a ha]
    rintro (h | h)
    · apply hF
      have h : a ∈ nodes fsxp m₁ inum + (l : Multiset ℕ) := h
      rw [hnodes₁] at h
      rw [hfree, Multiset.add_cons]
      exact Multiset.mem_cons_of_mem h
    · exact hr h
  have hedit : Edit fsxp ms.msAlloc inum m ms m₃ ms' := by
    subst hms
    refine ⟨?_, ?_, ?_, ?_, ?_, by simp, ?_, rfl, rfl, ?_, ?_⟩
    · intro a ha hr hF
      apply hframe a ha hr
      intro h
      apply hF
      rw [owned, add_right_comm]
      exact Multiset.mem_add.2 (.inl h)
    · intro j hj hne
      rw [hrec₃ j hj, hch.other j hj hne]
      exact (view_of_bitmap hx hinv hj hsame).1
    · apply hc.congr
      intro a ha
      apply hupd
      rintro rfl
      exact hbnreg ha
    · rw [hblocks₃, List.length_append, List.length_singleton]
      exact hlen
    · have hF₃ : freeOf fsxp m₃ (updBalloc ms.msAllocC c₂ ms.msAlloc) ms.msAlloc =
          freeSet m₂ bxp c₂ := by
        rw [freeOf, pickBalloc_updBalloc]
        apply BlockPtr.freeSet_congr
        intro a ha
        apply hupd
        rintro rfl
        exact hbnmap ha
      rw [hF₃, owned, hnodes₃, hblocks₃, hfree, owned, ← Multiset.coe_add, Multiset.coe_singleton,
        ← Multiset.singleton_add bn (l : Multiset ℕ)]
      calc nodes fsxp m₂ inum + (↑(blocks fsxp m inum) + {bn}) + freeSet m₂ bxp c₂
          = (nodes fsxp m₂ inum + freeSet m₂ bxp c₂) + ↑(blocks fsxp m inum) + {bn} := by abel
        _ = nodes fsxp m inum + ↑(blocks fsxp m inum) + ({bn} + (l : Multiset ℕ)) := by
          rw [hacc₂]
          abel
    · intro hco
      rw [pickBalloc_updBalloc]
      apply (hch.step.coh (hst.coh hco)).congr
      intro a ha
      apply hupd
      rintro rfl
      exact hbnmap ha
    · intro j hj
      rw [getDirty_putDirty, if_neg hj]
    · intro ht
      apply tight_congr (hrec₃ inum hi) hnode₃ (htight (tight_congr hrec₁ (fun a ha => ?_) ht))
      exact hsame a (hgood.not_mem_region (ballocOk hx.toParts _) (Multiset.mem_add.2 (.inl ha)))
  have hsub : nodes fsxp m inum ≤ nodes fsxp m₃ inum := by
    rw [hnodes₃, ← hnodes₁]
    exact hnodes
  refine ⟨hedit.inv hx hinv hi, ?_, ⟨⟨[bn], hblocks₃.symm⟩, hsub, hedit.acc,
    hedit.free_other hx hinv hi⟩, ?_⟩
  · apply hedit.step_of_le hx hinv hi rfl
    · intro a ha
      rw [hblocks₃]
      exact List.mem_append_left _ ha
    · exact hsub
    · intro a ha hd
      rw [hblocks₃, List.mem_append, List.mem_singleton] at ha
      rw [hms] at hd
      have hd : a ∉ getDirty inum (putDirty inum bn ms.msDBlocks) := hd
      rw [getDirty_putDirty, if_pos rfl, Std.ExtTreeSet.mem_insert] at hd
      have hne : a ≠ bn := by
        rintro rfl
        exact hd (.inl (by simp))
      exact ⟨ha.resolve_right hne, fun h => hd (.inr h)⟩
    · intro a ha
      rw [hms] at ha
      have ha : a ∈ getDirty inum (putDirty inum bn ms.msDBlocks) := ha
      rw [getDirty_putDirty, if_pos rfl, Std.ExtTreeSet.mem_insert] at ha
      rcases ha with hab | ha
      · rw [hblocks₃, ← compare_eq_iff_eq.1 hab]
        exact .inr (List.mem_append_right _ List.mem_cons_self)
      · exact .inl ha
  · have hdata : ∀ a ∈ blocks fsxp m inum, m₃ a = m a := by
      intro a ha
      have hlt := (hinv.mem_allBlocks_of_owned hi (Multiset.mem_add.2 (.inr ha))).2
      apply hframe a
      · exact hgood.not_mem_region (ballocOk hx.toParts _) (Multiset.mem_add.2 (.inr ha))
      · intro hr
        have := (mem_region_inode hx.toParts hr).1
        omega
      · have hnd' := hgood.nodup
        rw [owned, add_right_comm] at hnd'
        exact fun h => Multiset.disjoint_left.1 (Multiset.nodup_add.1 hnd').2.2 h ha
    have hattr : INODE.attrs fsxp.inode inum m₃ = INODE.attrs fsxp.inode inum m := by
      have h₁ : INODE.attrs fsxp.inode inum m₃ = INODE.attrs fsxp.inode inum m₂ := by
        rw [INODE.attrs, hrec₃ inum hi, INODE.attrs]
      have h₂ : INODE.attrs fsxp.inode inum m₁ = INODE.attrs fsxp.inode inum m := by
        rw [INODE.attrs, hrec₁, INODE.attrs]
      rw [h₁, hattrs, h₂]
    rw [file, hblocks₃, hattr, List.map_append, List.map_congr_left hdata, List.map_singleton, hm₃,
      Function.update_self, file]

theorem wp_grow {Q : MemState × Res Unit → Mem → Prop} {v : Valu}
    (hQe : ¬ CanGrow fsxp m ms inum → ∀ ms' m', Inv fsxp m' ms' → Leaks fsxp m ms m' ms' →
      ((blocks fsxp m inum).length < INODE.nBlocks → freeOf fsxp m' ms'.msAllocC ms.msAlloc = 0) →
      Q (ms', .error (growErr fsxp m inum)) m')
    (hQ : CanGrow fsxp m ms inum → ∀ ms' m', Inv fsxp m' ms' → Step fsxp {inum} m ms m' ms' →
      ms'.msCache = ms.msCache → Grown fsxp inum m ms m' ms' →
      file fsxp m' inum = ⟨(file fsxp m inum).data ++ [v], (file fsxp m inum).attr⟩ →
      Q (ms', .ok ()) m') :
    Txn.wp n (grow fsxp.inode inum fsxp.blockAlloc v ms) Q m := by
  have hgood := hinv.good hx hi ms.msAlloc
  have herr : (blocks fsxp m inum).length < INODE.nBlocks →
      growErr fsxp m inum = .ENOSPCBLOCK := fun h => if_pos h
  apply wp_bind
  apply INODE.wp_getlen (inodeFits hx.toParts) hi hinv.icache
  intro c hc
  dsimp only
  split_ifs with hlen
  · apply wp_bind
    apply AllocSig.wp_alloc (ballocOk hx.toParts ms.msAlloc).fits
    · exact fun bn hbn => (hgood.valid bn (Multiset.mem_add.2 (.inr hbn))).2
    · intro hfl
      have hlk := Leaks.of_balloc hx c (BlockPtr.leaks_alloc_none hfl)
      have hnone : freeOf fsxp m (updBalloc ms.msAllocC (some []) ms.msAlloc) ms.msAlloc = 0 := by
        rw [freeOf, pickBalloc_updBalloc]
        rfl
      rw [← herr hlen]
      refine wp_pure (hQe (fun h => ?_) _ _ (hlk.inv hx hinv hc) hlk fun _ => hnone)
      have h₂ := h.2
      rw [freeOf, freeSet, hfl] at h₂
      exact Nat.not_lt_zero _ h₂
    · intro bn l hfl hst
      have hbn := hgood.valid bn (Multiset.mem_add.2 (.inr (by
        rw [freeSet, hfl]
        exact List.mem_cons_self)))
      have hlt : bn < n := BlockPtr.lt_of_lt_nbits (ballocOk hx.toParts _) hbn.2
      have hsame : ∀ a ∉ BALLOCC.bmp.region (bxpOf fsxp ms.msAlloc),
          BALLOCC.setBitMem m (bxpOf fsxp ms.msAlloc) bn AllocSig.inuse a = m a :=
        fun a ha => hst.frame a ha (Set.notMem_empty a)
      obtain ⟨hrec₁, hnodes₁, hblocks₁⟩ := view_of_bitmap hx hinv hi hsame
      dsimp only
      apply wp_bind
      apply INODE.wp_grow (layout hx.toParts ms.msAlloc) hi
      · apply hc.congr
        intro a ha
        exact hsame a fun hr => (layout hx.toParts ms.msAlloc).disjoint a hr ha
      · exact (congrArg List.length hblocks₁).trans_lt hlen
      · -- the index blocks are still in use for the allocator
        change Good _ _ _ (nodes fsxp _ inum)
        rw [hnodes₁]
        have hnd := hinv.good_nodes hx hi ms.msAlloc
        have hle : nodes fsxp m inum + freeSet (BALLOCC.setBitMem m (bxpOf fsxp ms.msAlloc) bn
            AllocSig.inuse) (bxpOf fsxp ms.msAlloc) (some l) ≤
            nodes fsxp m inum + freeSet m (bxpOf fsxp ms.msAlloc)
              (pickBalloc ms.msAllocC ms.msAlloc) := by
          apply add_le_add_right
          rw [freeSet, freeSet, hfl]
          exact Multiset.le_cons_self _ _
        exact ⟨Multiset.nodup_of_le hle hnd.nodup,
          fun a ha => hnd.valid a (Multiset.mem_of_le hle ha)⟩
      · exact hbn.1
      · exact hlt.trans_le hx.words
      · intro hlack c' ms' m' hc' hlk' hnone
        have hlk := Leaks.of_balloc hx c' ((BlockPtr.leaks_alloc_some hfl hst).trans hlk')
        have hnone' : freeOf fsxp m' (updBalloc ms.msAllocC ms' ms.msAlloc) ms.msAlloc = 0 := by
          rw [freeOf, pickBalloc_updBalloc]
          exact hnone
        rw [← herr hlen]
        refine wp_pure (hQe (fun h => ?_) _ _ (hlk.inv hx hinv hc') hlk fun _ => hnone')
        have h₂ := h.2
        rw [freeOf, freeSet, hfl] at h₂
        have hmiss := missing_of_bitmap hx hinv hi hsame hlen
        rw [hmiss] at hlack
        exact Nat.not_lt.2 (Nat.le_of_lt_succ h₂) hlack
      · intro c₂ cms m₂ hc₂ hch hnodes hcard hblocks hattrs htight
        have hmiss := missing_of_bitmap hx hinv hi hsame hlen
        have hgrow : CanGrow fsxp m ms inum := by
          refine ⟨hlen, ?_⟩
          have hacc := congrArg Multiset.card hch.acc
          rw [Multiset.card_add, Multiset.card_add, hcard, hmiss] at hacc
          have hl : (freeSet (BALLOCC.setBitMem m (bxpOf fsxp ms.msAlloc) bn AllocSig.inuse)
            (bxpOf fsxp ms.msAlloc) (some l)).card = l.length := rfl
          rw [freeOf, freeSet, hfl, Multiset.coe_card, List.length_cons]
          omega
        dsimp only
        apply wp_bind
        apply Txn.wp_write hbn.1 hlt
        apply wp_pure
        obtain ⟨h₁, h₂, h₃, h₄⟩ := grow_edit (v := v) hx hinv hi hfl hst hlen hc₂ hch hnodes hblocks
          hattrs htight rfl
        exact hQ hgrow _ _ h₁ h₂ rfl h₃ h₄
  · have hbig : growErr fsxp m inum = .EFBIG := if_neg hlen
    rw [← hbig]
    exact wp_pure (hQe (fun h => hlen h.1) _ _ (hinv.withICache hc)
      (Leaks.withICache fsxp m ms c) fun h => absurd h hlen)

end

/-! ### Room for one more block -/

/-- A file of few blocks needs no index block, so that one free block is enough. -/
theorem canGrow_of_direct (hlen : (blocks fsxp m inum).length < INODE.nDirect)
    (hfree : freeOf fsxp m ms.msAllocC ms.msAlloc ≠ 0) : CanGrow fsxp m ms inum := by
  have hmiss : INODE.missing fsxp.inode inum m = 0 := by
    rw [blocks, INODE.length_blocks] at hlen
    rw [INODE.missing, BlockPtr.recMissing]
    exact if_pos hlen
  constructor
  · rw [INODE.nBlocks, BlockPtr.nBlocks_eq]
    exact hlen.trans_le (Nat.le_add_right _ _)
  · rw [hmiss]
    exact Multiset.card_pos.2 hfree

theorem card_owned_le (h : Inv fsxp m ms) (ht : Tight fsxp m) (hi : inum < ninodes fsxp.inode) :
    (owned fsxp m inum).card ≤ 4 * (blocks fsxp m inum).length := by
  have hnd := h.nodup_total
  rw [total_split fsxp m ms hi true, owned, add_assoc, add_assoc, Multiset.nodup_add] at hnd
  have hle : (nodes fsxp m inum).card ≤ 3 * (blocks fsxp m inum).length :=
    INODE.card_nodes_le (ht inum hi) hnd.1
  rw [owned, Multiset.card_add, Multiset.coe_card]
  omega

/-- Where no other file has blocks, a file can grow with one of the allocators, if there are enough
blocks for its index blocks. -/
theorem exists_canGrow (h : Inv fsxp m ms) (ht : Tight fsxp m) (hi : inum < ninodes fsxp.inode)
    (htotal : total fsxp m ms = allBlocks fsxp)
    (hother : ∀ j < ninodes fsxp.inode, j ≠ inum → owned fsxp m j = 0)
    (hlen : (blocks fsxp m inum).length < INODE.nBlocks)
    (hfit : 4 * (blocks fsxp m inum).length + 7 < fsxp.nblocks) :
    CanGrow fsxp m ms inum ∨ CanGrow fsxp m { ms with msAlloc := !ms.msAlloc } inum := by
  have hmiss := INODE.missing_le fsxp.inode inum m
  have hrest : ∑ j ∈ (Finset.range (ninodes fsxp.inode)).erase inum, owned fsxp m j = 0 :=
    Finset.sum_eq_zero fun j hj =>
      hother j (Finset.mem_range.1 (Finset.mem_of_mem_erase hj)) (Finset.ne_of_mem_erase hj)
  have hcard := congrArg Multiset.card htotal
  rw [total_split fsxp m ms hi ms.msAlloc, hrest, add_zero, Multiset.card_add, Multiset.card_add,
    allBlocks, Multiset.coe_card, List.length_range'] at hcard
  have howned := card_owned_le h ht hi
  unfold CanGrow
  dsimp only
  omega

/-- Writing the bitmap of the inodes changes no list of free blocks. -/
theorem freeOf_ialloc (hx : fsxp.Parts n) (h : ∀ a ∉ IAlloc.bmp.region fsxp, m' a = m a)
    (alc : BmapCacheType × BmapCacheType) (b : Bool) :
    freeOf fsxp m' alc b = freeOf fsxp m alc b := by
  rw [freeOf, freeSet, AllocSig.freeList_congr fun a ha =>
    h a fun hr => (not_mem_region_ialloc hx hr).2.2 b ha]
  rfl

/-- Whether a file can grow depends on its index blocks and on how many blocks are free. -/
theorem canGrow_congr (hinv : Inv fsxp m ms) (hi : inum < ninodes fsxp.inode)
    (hr : irec fsxp.inode inum m' = irec fsxp.inode inum m)
    (ha : ∀ a ∈ owned fsxp m inum, m' a = m a)
    (hfree : freeOf fsxp m' ms'.msAllocC ms'.msAlloc = freeOf fsxp m ms.msAllocC ms.msAlloc) :
    CanGrow fsxp m' ms' inum ↔ CanGrow fsxp m ms inum := by
  rw [CanGrow, CanGrow, (view_congr (hinv.len inum hi) hr ha).2.1, hfree]
  apply and_congr_right
  intro hlen
  have hmiss : INODE.missing fsxp.inode inum m' = INODE.missing fsxp.inode inum m := by
    rw [INODE.missing, INODE.missing, hr]
    apply BlockPtr.recMissing_congr
    · exact fun a h => ha a (Multiset.mem_add.2 (.inl h))
    · rw [blocks, INODE.length_blocks] at hlen
      exact hlen
  rw [hmiss]

/-- Nor does it matter for the growth of a file what the bitmap of the inodes is. -/
theorem canGrow_ialloc (hx : fsxp.Ok n) (hinv : Inv fsxp m ms) (hi : inum < ninodes fsxp.inode)
    (h : ∀ a ∉ IAlloc.bmp.region fsxp, m' a = m a) (c : BmapCacheType)
    (hgrow : CanGrow fsxp m ms inum) : CanGrow fsxp m' { ms with msIAllocC := c } inum := by
  have hown : ∀ a ∈ owned fsxp m inum, m' a = m a := by
    intro a ha
    have hlt := (hinv.mem_allBlocks_of_owned hi ha).2
    exact h a fun hr => Nat.not_le.2 hlt (not_mem_region_ialloc hx.toParts hr).1
  have hrec : irec fsxp.inode inum m' = irec fsxp.inode inum m :=
    INODE.irec_congr hi fun a ha => h a fun hr => (not_mem_region_ialloc hx.toParts hr).2.1 ha
  exact (canGrow_congr hinv hi hrec hown (freeOf_ialloc hx.toParts h _ _)).2 hgrow

/-- Writing the bitmap of the inodes changes no file. -/
theorem Inv.ialloc (hx : fsxp.Parts n) (hinv : Inv fsxp m ms)
    (h : ∀ a ∉ IAlloc.bmp.region fsxp, m' a = m a) (c : BmapCacheType) :
    Inv fsxp m' { ms with msIAllocC := c } ∧ Moves fsxp ∅ m ms m' { ms with msIAllocC := c } := by
  have hother : ∀ j < ninodes fsxp.inode,
      irec fsxp.inode j m' = irec fsxp.inode j m ∧ ∀ a ∈ owned fsxp m j, m' a = m a := by
    intro j hj
    constructor
    · apply INODE.irec_congr hj
      exact fun a ha => h a fun hr => (not_mem_region_ialloc hx hr).2.1 ha
    · intro a ha
      have hlt := (hinv.mem_allBlocks_of_owned hj ha).2
      exact h a fun hr => Nat.not_le.2 hlt (not_mem_region_ialloc hx hr).1
  have hview := fun j hj => view_congr (hinv.len j hj) (hother j hj).1 (hother j hj).2
  have hregion : ∀ b, ∀ a ∈ BALLOCC.bmp.region (bxpOf fsxp b), m' a = m a :=
    fun b a ha => h a fun hr => (not_mem_region_ialloc hx hr).2.2 b ha
  have hfree := freeOf_ialloc hx h ms.msAllocC
  have htotal : total fsxp m' { ms with msIAllocC := c } = total fsxp m ms := by
    rw [total, total, hfree, hfree]
    congr 1
    exact Finset.sum_congr rfl fun j hj => (hview j (Finset.mem_range.1 hj)).2.2.1
  constructor
  · constructor
    · apply hinv.icache.congr
      exact fun a ha => h a fun hr => (not_mem_region_ialloc hx hr).2.1 ha
    · intro j hj
      rw [(hview j hj).2.1]
      exact hinv.len j hj
    · exact htotal ▸ hinv.own
  · constructor
    case other => exact fun j hj _ => hother j hj
    case msAlloc => rfl
    case giveData =>
      intro j hj a ha
      rw [(hview j hj).2.1]
      exact .inl ha
    case giveNodes =>
      intro j hj a ha
      rw [(hview j hj).1]
      exact .inl ha
    case free =>
      intro a ha
      dsimp only
      rwa [hfree]
    case dirty =>
      intro j hj a ha hd
      rw [(hview j hj).2.1] at ha
      exact ⟨ha, hd⟩
    case total => exact htotal
    case tight =>
      exact fun ht j hj => tight_congr (hother j hj).1
        (fun a ha => (hother j hj).2 a (Multiset.mem_add.2 (.inl ha))) (ht j hj)
    case coh => exact fun hc b => (hc b).congr (hregion b)
    case marked =>
      intro hk j hj a ha
      rw [(hview j hj).2.1]
      exact hk j hj a ha

end BFILE

end Fscq
