import Fscq.BlockPtrTree

/-!
# Clearing block pointers

What clearing a range of the pointers of a tree does: the pointers outside of the range stay, and the
index blocks that have lost all their pointers are free.
-/

namespace Fscq

open CrashProg

namespace BlockPtr

open RadixTree (fleaf)

section

variable {n lvl : ℕ} {bxp : BallocXparams} {m m' m'' : Mem} {ms ms' ms'' : BmapCacheType}
  {P : ℕ → Prop}

/-! ### A block and what is below it -/

/-- The index blocks below an index block of a tree of height `lvl` with the given pointers. -/
def childNodes (m : Mem) : ℕ → List Waddr → Multiset ℕ
  | 0, _ => 0
  | lvl + 1, l => forestNodes m lvl l

/-- The pointers below an index block of a tree of height `lvl` with the given pointers. -/
def childLeaf (m : Mem) : ℕ → List Waddr → ℕ → ℕ
  | 0, l => ptrs l
  | lvl + 1, l => forestLeaf m lvl l

/-- The index blocks below such a block on the way to an offset. -/
def childPath (m : Mem) : ℕ → List Waddr → ℕ → List ℕ
  | 0, _, _ => []
  | lvl + 1, l, off =>
    treePath m lvl (ptrs l (off / nIndirect ^ (lvl + 1))) (off % nIndirect ^ (lvl + 1))

/-- The number of index blocks that are missing below such a block on the way to an offset. -/
def childMissing (m : Mem) : ℕ → List Waddr → ℕ → ℕ
  | 0, _, _ => 0
  | lvl + 1, l, off =>
    treeMissing m lvl (ptrs l (off / nIndirect ^ (lvl + 1))) (off % nIndirect ^ (lvl + 1))

theorem treePath_eq {root off : ℕ} (h0 : root ≠ 0) :
    treePath m lvl root off = root :: childPath m lvl (ents (m root)) off := by
  cases lvl with
  | zero => exact RadixTree.path_zero h0
  | succ lvl => exact RadixTree.path_succ h0

theorem treeMissing_eq {root off : ℕ} (h0 : root ≠ 0) :
    treeMissing m lvl root off = childMissing m lvl (ents (m root)) off := by
  cases lvl with
  | zero => exact if_neg h0
  | succ lvl => exact RadixTree.missing_succ h0

theorem childPath_replicate {off : ℕ} :
    childPath m lvl (List.replicate nIndirect 0) off = [] := by
  cases lvl with
  | zero => rfl
  | succ lvl => rw [childPath, ptrs_replicate, treePath, RadixTree.path_root_zero]

theorem childMissing_replicate {off : ℕ} :
    childMissing m lvl (List.replicate nIndirect 0) off = lvl := by
  cases lvl with
  | zero => rfl
  | succ lvl => rw [childMissing, ptrs_replicate, treeMissing, RadixTree.missing_root_zero]

theorem treeNodes_eq {root : ℕ} (h0 : root ≠ 0) :
    treeNodes m lvl root = root ::ₘ childNodes m lvl (ents (m root)) := by
  cases lvl with
  | zero => exact RadixTree.nodes_zero h0
  | succ lvl => exact RadixTree.nodes_succ h0

theorem treeLeaf_eq {root off : ℕ} (h0 : root ≠ 0) :
    treeLeaf m lvl root off = childLeaf m lvl (ents (m root)) off := by
  cases lvl with
  | zero => exact RadixTree.leaf_zero h0
  | succ lvl => exact RadixTree.leaf_succ h0

theorem childNodes_congr {l : List Waddr} (h : ∀ b ∈ childNodes m lvl l, m' b = m b) :
    childNodes m' lvl l = childNodes m lvl l := by
  cases lvl with
  | zero => rfl
  | succ lvl => exact RadixTree.fnodes_congr h

theorem childLeaf_congr {l : List Waddr} {off : ℕ} (h : ∀ b ∈ childNodes m lvl l, m' b = m b)
    (ho : off < nIndirect ^ (lvl + 1)) : childLeaf m' lvl l off = childLeaf m lvl l off := by
  cases lvl with
  | zero => rfl
  | succ lvl => exact RadixTree.fleaf_congr h ho

theorem childPath_congr {l : List Waddr} {off : ℕ} (h : ∀ b ∈ childNodes m lvl l, m' b = m b)
    (ho : off < nIndirect ^ (lvl + 1)) : childPath m' lvl l off = childPath m lvl l off := by
  cases lvl with
  | zero => rfl
  | succ lvl =>
    apply RadixTree.path_congr
    · exact fun b hb => h b (RadixTree.mem_fnodes.2 ⟨_, RadixTree.div_lt_of_lt_pow ho, hb⟩)
    · exact Nat.mod_lt _ (pow_pos nIndirect_pos _)

theorem childNodes_replicate : childNodes m lvl (List.replicate nIndirect 0) = 0 := by
  cases lvl with
  | zero => rfl
  | succ lvl => exact RadixTree.fnodes_zero fun i _ => ptrs_replicate _ i

theorem childLeaf_replicate {off : ℕ} (ho : off < nIndirect ^ (lvl + 1)) :
    childLeaf m lvl (List.replicate nIndirect 0) off = 0 := by
  cases lvl with
  | zero => exact ptrs_replicate _ off
  | succ lvl => exact RadixTree.fleaf_zero (fun i _ => ptrs_replicate _ i) ho

/-- Clearing pointers below a block, and then writing or freeing the block itself. -/
theorem wp_updateBlock {Q : BmapCacheType × ℕ → Mem → Prop} {root : ℕ} {new : List Waddr} (lvl : ℕ)
    (hx : bxp.Ok n) (h0 : root ≠ 0) (hnew : new.length = nIndirect)
    (hg : Good bxp m ms (treeNodes m lvl root))
    (h : Clears bxp (nIndirect ^ (lvl + 1)) P m ms (childNodes m lvl (ents (m root)))
      (childLeaf m lvl (ents (m root))) m' ms' (childNodes m' lvl new) (childLeaf m' lvl new))
    (hQ : ∀ ms'' m'' v, v < 2 ^ addrlen → Clears bxp (nIndirect ^ (lvl + 1)) P m ms
      (treeNodes m lvl root) (treeLeaf m lvl root) m'' ms'' (treeNodes m'' lvl v)
      (treeLeaf m'' lvl v) → Q (ms'', v) m'') :
    Txn.wp n (updateBlock bxp root (ents (m root)) new ms') Q m' := by
  have hN : treeNodes m lvl root = root ::ₘ childNodes m lvl (ents (m root)) := treeNodes_eq h0
  have hL : ∀ off, treeLeaf m lvl root off = childLeaf m lvl (ents (m root)) off :=
    fun off => treeLeaf_eq h0
  have hroot : root ∈ treeNodes m lvl root := RadixTree.root_mem_nodes h0
  have hroot' : root ∉ childNodes m lvl (ents (m root)) := by
    have hnd := (Multiset.nodup_add.1 hg.nodup).1
    rw [hN, Multiset.nodup_cons] at hnd
    exact hnd.1
  have hsub : {a | a ∈ childNodes m lvl (ents (m root))} ⊆ {a | a ∈ treeNodes m lvl root} := by
    intro b hb
    rw [Set.mem_ofPred_eq, hN]
    exact Multiset.mem_cons_of_mem hb
  have hacc : (root ::ₘ childNodes m' lvl new) + freeSet m' bxp ms' =
      treeNodes m lvl root + freeSet m bxp ms := by
    rw [hN, Multiset.cons_add, h.acc, Multiset.cons_add]
  have hg' : Good bxp m' ms' (root ::ₘ childNodes m' lvl new) := hg.congr hacc
  unfold updateBlock
  split_ifs with hz heq
  · -- all pointers are null
    subst hz
    rw [childNodes_replicate] at hacc hg'
    apply wp_bind
    apply wp_freeBlock hx hg'
    intro ms'' m'' hst hfree
    apply wp_pure
    apply hQ _ _ 0 (by positivity)
    constructor
    · exact (h.step.trans (hst.mono (Set.empty_subset _)) (Set.Subset.refl _)).mono hsub
    · exact fun _ _ _ => RadixTree.leaf_root_zero _ _ _
    · intro off ho hP
      rw [treeLeaf, RadixTree.leaf_root_zero, hL, ← h.kept off ho hP, childLeaf_replicate ho]
    · rw [treeNodes, RadixTree.nodes_root_zero, hfree, zero_add, ← hacc, Multiset.cons_zero,
        Multiset.singleton_add]
    · rw [treeNodes, RadixTree.nodes_root_zero]
      exact Multiset.zero_le _
  · -- the block does not change
    have hm : ents (m' root) = new := by
      rw [h.step.frame root (hg.not_mem_region hx hroot) hroot', heq]
    apply wp_pure
    apply hQ _ _ root ((lt_of_lt_of_le (hg.lt hx hroot) hx.words))
    constructor
    · exact h.step.mono hsub
    · intro off ho hP
      rw [treeLeaf_eq h0, hm]
      exact h.cleared off ho hP
    · intro off ho hP
      rw [treeLeaf_eq h0, hm, hL]
      exact h.kept off ho hP
    · rw [treeNodes_eq h0, hm]
      exact hacc
    · rw [treeNodes_eq h0, hm, hN]
      exact Multiset.cons_le_cons _ h.sub
  · -- the block is written
    apply wp_bind
    apply wp_indWrite h0 (hg.lt hx hroot) hnew
    apply wp_pure
    set m'' := Function.update m' root (packEnts new) with hm''
    have hentry : ents (m'' root) = new := by rw [hm'', Function.update_self, ents_packEnts hnew]
    have hagree : ∀ b ∈ childNodes m' lvl new, m'' b = m' b := by
      intro b hb
      apply Function.update_of_ne
      rintro rfl
      have hnd := (Multiset.nodup_add.1 hg'.nodup).1
      exact (Multiset.nodup_cons.1 hnd).1 hb
    have hreg : ∀ a ∈ BALLOCC.bmp.region bxp, m'' a = m' a := by
      intro a ha
      apply Function.update_of_ne
      rintro rfl
      exact hg.not_mem_region hx hroot ha
    apply hQ _ _ root ((lt_of_lt_of_le (hg.lt hx hroot) hx.words))
    constructor
    · constructor
      · intro a ha haW
        have hne : a ≠ root := by
          rintro rfl
          exact haW hroot
        rw [hm'', Function.update_of_ne hne]
        exact h.step.frame a ha fun hb => haW (hsub hb)
      · exact fun hc => (h.step.coh hc).congr hreg
    · intro off ho hP
      rw [treeLeaf_eq h0, hentry, childLeaf_congr hagree ho]
      exact h.cleared off ho hP
    · intro off ho hP
      rw [treeLeaf_eq h0, hentry, childLeaf_congr hagree ho, hL]
      exact h.kept off ho hP
    · rw [treeNodes_eq h0, hentry, childNodes_congr hagree, freeSet_congr hreg]
      exact hacc
    · rw [treeNodes_eq h0, hentry, childNodes_congr hagree, hN]
      exact Multiset.cons_le_cons _ h.sub

/-! ### Clearing a range of pointers -/

/-- An offset in a range inside one slot. -/
theorem slot_iff {K q o s e : ℕ} (hK : 0 < K) (he : e ≤ K) :
    (o / K = q ∧ s ≤ o % K ∧ o % K < e) ↔ (q * K + s ≤ o ∧ o < q * K + e) := by
  have hdiv := Nat.div_add_mod o K
  have hmod := Nat.mod_lt o hK
  constructor
  · rintro ⟨rfl, hs, hlt⟩
    rw [Nat.mul_comm (o / K) K]
    omega
  · rintro ⟨hs, hlt⟩
    have hq : o / K = q := by
      apply Nat.div_eq_of_lt_le
      · omega
      · rw [Nat.succ_mul]
        omega
    rw [hq, Nat.mul_comm K q] at hdiv
    exact ⟨hq, by omega, by omega⟩

/-- A slot in a range of slots. -/
theorem slots_iff {K q k off : ℕ} (hK : 0 < K) :
    (q ≤ off / K ∧ off / K < q + k) ↔ (q * K ≤ off ∧ off < (q + k) * K) := by
  rw [Nat.le_div_iff_mul_le hK, Nat.div_lt_iff_lt_mul hK]

theorem Good.slot {l : List Waddr} {q : ℕ} (hg : Good bxp m ms (forestNodes m lvl l))
    (hq : q < nIndirect) : Good bxp m ms (treeNodes m lvl (ptrs l q)) :=
  hg.mono (RadixTree.nodes_le_fnodes hq)

theorem Good.child {root : ℕ} (hg : Good bxp m ms (treeNodes m lvl root)) (h0 : root ≠ 0) :
    Good bxp m ms (childNodes m lvl (ents (m root))) :=
  hg.mono (by rw [treeNodes_eq h0]; exact Multiset.le_cons_self _ _)

/-- There is nothing to clear below a null pointer. -/
theorem Clears.refl_null {l : List Waddr} {q K : ℕ} {P : ℕ → Prop} (hr : ptrs l q = 0)
    (hP : ∀ off, P off → off / nIndirect ^ (lvl + 1) = q) :
    Clears bxp K P m ms (forestNodes m lvl l) (forestLeaf m lvl l) m ms (forestNodes m lvl l)
      (forestLeaf m lvl l) := by
  apply Clears.refl
  intro off _ hoff
  rw [forestLeaf, fleaf, hP off hoff, hr, RadixTree.leaf_root_zero]

/-- Clearing a range of the pointers of an index block at the bottom. -/
theorem clears_updRange {l : List Waddr} (start len : ℕ) :
    Clears bxp (nIndirect ^ (0 + 1)) (fun off => start ≤ off ∧ off < start + len) m ms
      (childNodes m 0 l) (childLeaf m 0 l) m ms (childNodes m 0 (updRange l start len 0))
      (childLeaf m 0 (updRange l start len 0)) where
  step := AllocSig.Step.refl _ _ _ _ _
  cleared off _ hP := by rw [childLeaf, ptrs_updRange, if_pos hP]
  kept off _ hP := by rw [childLeaf, ptrs_updRange, if_neg hP, childLeaf]
  acc := rfl
  sub := le_rfl

theorem wp_indclearFromAligned (hx : bxp.Ok n) (lvl : ℕ) :
    ∀ (l : List Waddr) (q len : ℕ) (m : Mem) (ms : BmapCacheType)
      (Q : BmapCacheType × List Waddr → Mem → Prop),
    l.length = nIndirect → len < nIndirect ^ (lvl + 1) → (len ≠ 0 → q < nIndirect) →
    Good bxp m ms (forestNodes m lvl l) →
    (∀ ms' m' l', l'.length = nIndirect → Clears bxp (nIndirect ^ (lvl + 2))
      (fun off => q * nIndirect ^ (lvl + 1) ≤ off ∧ off < q * nIndirect ^ (lvl + 1) + len)
      m ms (forestNodes m lvl l) (forestLeaf m lvl l) m' ms' (forestNodes m' lvl l')
      (forestLeaf m' lvl l') → Q (ms', l') m') →
    Txn.wp n (indclearFromAligned bxp lvl l (q * nIndirect ^ (lvl + 1)) len ms) Q m := by
  induction lvl with
  | zero =>
    intro l q len m ms Q hl hlen hq hg hQ
    have hK : 0 < nIndirect ^ (0 + 1) := pow_pos nIndirect_pos _
    have hdiv : q * nIndirect ^ (0 + 1) / nIndirect ^ 1 = q := Nat.mul_div_cancel _ hK
    unfold indclearFromAligned
    simp only [hdiv]
    split_ifs with h0 hr
    · apply wp_pure
      apply hQ _ _ _ hl
      apply Clears.refl
      intro off _ hP
      omega
    · apply wp_pure
      apply hQ _ _ _ hl
      apply Clears.refl_null hr
      exact fun off hP => ((slot_iff (s := 0) hK hlen.le).2 (by simpa using hP)).1
    · apply wp_bind
      have hgs := hg.slot (hq h0)
      apply wp_indRead (hgs.lt hx (RadixTree.root_mem_nodes hr))
      apply wp_bind
      apply wp_updateBlock 0 hx hr (by simp) hgs (clears_updRange 0 len)
      intro ms' m' v hv hc
      apply wp_pure
      apply hQ _ _ _ (by simpa using hl)
      apply (hc.slot hx hl (hq h0) hv hg).congr
      intro off _
      simpa using slot_iff (q := q) (s := 0) (o := off) hK hlen.le
  | succ lvl ih =>
    intro l q len m ms Q hl hlen hq hg hQ
    have hK : 0 < nIndirect ^ (lvl + 1 + 1) := pow_pos nIndirect_pos _
    have hK' : 0 < nIndirect ^ (lvl + 1) := pow_pos nIndirect_pos _
    have hdiv : q * nIndirect ^ (lvl + 1 + 1) / nIndirect ^ (lvl + 2) = q :=
      Nat.mul_div_cancel _ hK
    unfold indclearFromAligned
    simp only [hdiv]
    split_ifs with h0 hr
    · apply wp_pure
      apply hQ _ _ _ hl
      apply Clears.refl
      intro off _ hP
      omega
    · apply wp_pure
      apply hQ _ _ _ hl
      apply Clears.refl_null hr
      exact fun off hP => ((slot_iff (s := 0) hK hlen.le).2 (by simpa using hP)).1
    · apply wp_bind
      have hgs := hg.slot (hq h0)
      apply wp_indRead (hgs.lt hx (RadixTree.root_mem_nodes hr))
      apply wp_bind
      have hgc : Good bxp m ms (forestNodes m lvl (ents (m (ptrs l q)))) := hgs.child hr
      apply wp_indclearAligned hx (length_ents _) hgc
      intro ms₁ m₁ hc₁
      rw [Nat.zero_div, Nat.mul_div_cancel _ hK'] at hc₁
      apply wp_bind
      have hdm := Nat.div_add_mod len (nIndirect ^ (lvl + 1))
      rw [Nat.mul_comm] at hdm
      apply ih _ _ _ _ _ _ (by simp) (Nat.mod_lt _ hK') _ (hc₁.good hgc)
      · intro ms₂ m₂ l₂ hl₂ hc₂
        apply wp_bind
        have hP : ∀ off < nIndirect ^ (lvl + 2),
            ((0 ≤ off / nIndirect ^ (lvl + 1) ∧
                off / nIndirect ^ (lvl + 1) < 0 + len / nIndirect ^ (lvl + 1)) ∨
              (len / nIndirect ^ (lvl + 1) * nIndirect ^ (lvl + 1) ≤ off ∧
                off < len / nIndirect ^ (lvl + 1) * nIndirect ^ (lvl + 1) +
                  len % nIndirect ^ (lvl + 1))) ↔ 0 ≤ off ∧ off < len := by
          intro off _
          rw [slots_iff hK', hdm, Nat.zero_add, Nat.zero_mul]
          generalize len % nIndirect ^ (lvl + 1) = r at hdm
          omega
        apply wp_updateBlock (lvl + 1) hx hr hl₂ hgs ((hc₁.trans hc₂).congr hP)
        intro ms₃ m₃ v hv hc
        apply wp_pure
        apply hQ _ _ _ (by simpa using hl)
        apply (hc.slot hx hl (hq h0) hv hg).congr
        intro off _
        simpa using slot_iff (q := q) (s := 0) (o := off) hK hlen.le
      · intro hne
        apply Nat.div_lt_of_lt_mul
        rw [← pow_succ]
        exact hlen

theorem roundup_of_mod {a K : ℕ} (hK : 0 < K) (h : a % K ≠ 0) :
    divup a K = a / K + 1 ∧ roundup a K = a / K * K + K := by
  have hdiv : divup a K = a / K + 1 := by
    have hdm := Nat.div_add_mod a K
    have hlt := Nat.mod_lt a hK
    have e : a + K - 1 = (a % K - 1) + K * (a / K + 1) := by
      rw [Nat.mul_add, Nat.mul_one]
      generalize a % K = r at *
      generalize K * (a / K) = p at *
      omega
    rw [divup, e, Nat.add_mul_div_left _ _ hK]
    rw [Nat.div_eq_of_lt (by omega), Nat.zero_add]
  exact ⟨hdiv, by rw [roundup, hdiv, Nat.succ_mul]⟩

theorem roundup_of_mod_eq {a K : ℕ} (hK : 0 < K) (h : a % K = 0) :
    divup a K = a / K ∧ roundup a K = a := by
  have e : a = a / K * K := by
    have := Nat.div_add_mod a K
    rw [h, Nat.mul_comm] at this
    omega
  have hdiv : divup a K = a / K := by
    conv_lhs => rw [e]
    exact divup_mul hK
  exact ⟨hdiv, by rw [roundup, hdiv, ← e]⟩

theorem wp_indclearToAligned (hx : bxp.Ok n) (lvl : ℕ) :
    ∀ (l : List Waddr) (start : ℕ) (m : Mem) (ms : BmapCacheType)
      (Q : BmapCacheType × List Waddr → Mem → Prop),
    l.length = nIndirect → start < nIndirect ^ (lvl + 2) →
    Good bxp m ms (forestNodes m lvl l) →
    (∀ ms' m' l', l'.length = nIndirect → Clears bxp (nIndirect ^ (lvl + 2))
      (fun off => start ≤ off ∧ off < roundup start (nIndirect ^ (lvl + 1)))
      m ms (forestNodes m lvl l) (forestLeaf m lvl l) m' ms' (forestNodes m' lvl l')
      (forestLeaf m' lvl l') → Q (ms', l') m') →
    Txn.wp n (indclearToAligned bxp lvl l start ms) Q m := by
  -- the pointers from `start` on in its slot
  have hslot : ∀ {K start off : ℕ}, 0 < K → start % K ≠ 0 →
      ((off / K = start / K ∧ start % K ≤ off % K ∧ off % K < K) ↔
        start ≤ off ∧ off < roundup start K) := by
    intro K start off hK h
    rw [slot_iff hK le_rfl, (roundup_of_mod hK h).2, Nat.mul_comm (start / K) K,
      Nat.div_add_mod]
  induction lvl with
  | zero =>
    intro l start m ms Q hl hstart hg hQ
    have hK : 0 < nIndirect ^ (0 + 1) := pow_pos nIndirect_pos _
    have hq : start / nIndirect ^ (0 + 1) < nIndirect := RadixTree.div_lt_of_lt_pow hstart
    unfold indclearToAligned
    dsimp only
    split_ifs with h0 hr
    · apply wp_pure
      apply hQ _ _ _ hl
      apply Clears.refl
      intro off _ hP
      rw [(roundup_of_mod_eq hK h0).2] at hP
      omega
    · apply wp_pure
      apply hQ _ _ _ hl
      apply Clears.refl_null hr
      exact fun off hP => ((hslot hK h0).2 hP).1
    · apply wp_bind
      have hgs := hg.slot hq
      apply wp_indRead (hgs.lt hx (RadixTree.root_mem_nodes hr))
      apply wp_bind
      apply wp_updateBlock 0 hx hr (by simp) hgs
        (clears_updRange (start % nIndirect) (nIndirect - start % nIndirect))
      intro ms' m' v hv hc
      apply wp_pure
      apply hQ _ _ _ (by simpa using hl)
      apply (hc.slot hx hl hq hv hg).congr
      intro off _
      rw [← hslot hK h0, zero_add, pow_one]
      have := Nat.mod_lt start nIndirect_pos
      rw [Nat.add_sub_cancel' this.le]
  | succ lvl ih =>
    intro l start m ms Q hl hstart hg hQ
    have hK : 0 < nIndirect ^ (lvl + 1 + 1) := pow_pos nIndirect_pos _
    have hK' : 0 < nIndirect ^ (lvl + 1) := pow_pos nIndirect_pos _
    have hq : start / nIndirect ^ (lvl + 2) < nIndirect := RadixTree.div_lt_of_lt_pow hstart
    unfold indclearToAligned
    dsimp only
    split_ifs with h0 hr
    · apply wp_pure
      apply hQ _ _ _ hl
      apply Clears.refl
      intro off _ hP
      rw [(roundup_of_mod_eq hK h0).2] at hP
      omega
    · apply wp_pure
      apply hQ _ _ _ hl
      apply Clears.refl_null hr
      exact fun off hP => ((hslot hK h0).2 hP).1
    · apply wp_bind
      have hgs := hg.slot hq
      apply wp_indRead (hgs.lt hx (RadixTree.root_mem_nodes hr))
      apply wp_bind
      have hgc := hgs.child hr
      have hs' : start % nIndirect ^ (lvl + 2) < nIndirect ^ (lvl + 2) := Nat.mod_lt _ hK
      apply ih _ _ _ _ _ (length_ents _) hs' hgc
      intro ms₁ m₁ l₁ hl₁ hc₁
      apply wp_bind
      apply wp_indclearAligned hx hl₁ (hc₁.good hgc)
      intro ms₂ m₂ hc₂
      generalize hs : start % nIndirect ^ (lvl + 2) = s at hs' hc₁ hc₂ ⊢
      have hround : roundup s (nIndirect ^ (lvl + 1)) =
          divup s (nIndirect ^ (lvl + 1)) * nIndirect ^ (lvl + 1) := rfl
      have hle : divup s (nIndirect ^ (lvl + 1)) ≤ nIndirect := by
        rw [divup_le_iff hK', Nat.mul_comm, ← pow_succ]
        exact hs'.le
      have e₁ : roundup s (nIndirect ^ (lvl + 1)) / nIndirect ^ (lvl + 1) =
          divup s (nIndirect ^ (lvl + 1)) := by rw [hround, Nat.mul_div_cancel _ hK']
      have e₂ : (nIndirect ^ (lvl + 2) - roundup s (nIndirect ^ (lvl + 1))) / nIndirect ^ (lvl + 1) =
          nIndirect - divup s (nIndirect ^ (lvl + 1)) := by
        rw [hround, pow_succ, Nat.mul_comm (nIndirect ^ (lvl + 1)) nIndirect, ← Nat.sub_mul,
          Nat.mul_div_cancel _ hK']
      rw [e₁, e₂] at hc₂
      apply wp_bind
      have hP : ∀ off < nIndirect ^ (lvl + 2),
          ((s ≤ off ∧ off < roundup s (nIndirect ^ (lvl + 1))) ∨
            (divup s (nIndirect ^ (lvl + 1)) ≤ off / nIndirect ^ (lvl + 1) ∧
              off / nIndirect ^ (lvl + 1) < divup s (nIndirect ^ (lvl + 1)) +
                (nIndirect - divup s (nIndirect ^ (lvl + 1))))) ↔
          s ≤ off ∧ off < nIndirect ^ (lvl + 2) := by
        intro off ho
        have hsle : s ≤ roundup s (nIndirect ^ (lvl + 1)) := le_divup_mul hK'
        have e : nIndirect ^ (lvl + 1 + 1) = nIndirect ^ (lvl + 2) := rfl
        rw [slots_iff hK', ← hround, Nat.add_sub_cancel' hle, Nat.mul_comm nIndirect, ← pow_succ]
        omega
      apply wp_updateBlock (lvl + 1) hx hr (by simpa using hl₁) hgs
        ((hc₁.trans hc₂).congr hP)
      intro ms₃ m₃ v hv hc
      apply wp_pure
      apply hQ _ _ _ (by simpa using hl)
      apply (hc.slot hx hl hq hv hg).congr
      intro off _
      rw [← hslot hK h0, ← hs]

theorem wp_indclearMultipleBlocks {Q : BmapCacheType × List Waddr → Mem → Prop} {l : List Waddr}
    {start len : ℕ} (hx : bxp.Ok n) (hl : l.length = nIndirect)
    (hsize : start + len ≤ nIndirect ^ (lvl + 2))
    (hlen : nIndirect ^ (lvl + 1) - start % nIndirect ^ (lvl + 1) < len)
    (hg : Good bxp m ms (forestNodes m lvl l))
    (hQ : ∀ ms' m' l', l'.length = nIndirect → Clears bxp (nIndirect ^ (lvl + 2))
      (fun off => start ≤ off ∧ off < start + len) m ms (forestNodes m lvl l) (forestLeaf m lvl l)
      m' ms' (forestNodes m' lvl l') (forestLeaf m' lvl l') → Q (ms', l') m') :
    Txn.wp n (indclearMultipleBlocks bxp lvl l start len ms) Q m := by
  have hK : 0 < nIndirect ^ (lvl + 1) := pow_pos nIndirect_pos _
  have hmod := Nat.mod_lt start hK
  have hround : start ≤ roundup start (nIndirect ^ (lvl + 1)) := le_divup_mul hK
  have hround' : roundup start (nIndirect ^ (lvl + 1)) ≤ start + len := by
    by_cases h : start % nIndirect ^ (lvl + 1) = 0
    · rw [(roundup_of_mod_eq hK h).2]
      omega
    · rw [(roundup_of_mod hK h).2]
      have := Nat.div_add_mod start (nIndirect ^ (lvl + 1))
      rw [Nat.mul_comm] at this
      generalize start % nIndirect ^ (lvl + 1) = r at *
      omega
  set r := roundup start (nIndirect ^ (lvl + 1)) with hr
  set len' := len - (r - start) with hlen'
  have hrq : r = divup start (nIndirect ^ (lvl + 1)) * nIndirect ^ (lvl + 1) := rfl
  have hstart' : start + (r - start) = r := by omega
  have hdiv : r / nIndirect ^ (lvl + 1) = divup start (nIndirect ^ (lvl + 1)) := by
    rw [hrq, Nat.mul_div_cancel _ hK]
  have hdm := Nat.div_add_mod len' (nIndirect ^ (lvl + 1))
  rw [Nat.mul_comm] at hdm
  have hs'' : r + len' / nIndirect ^ (lvl + 1) * nIndirect ^ (lvl + 1) =
      (divup start (nIndirect ^ (lvl + 1)) + len' / nIndirect ^ (lvl + 1)) *
        nIndirect ^ (lvl + 1) := by rw [hrq, Nat.add_mul]
  unfold indclearMultipleBlocks
  apply wp_bind
  apply wp_indclearToAligned hx lvl _ _ _ _ _ hl (by omega) hg
  intro ms₁ m₁ l₁ hl₁ hc₁
  apply wp_bind
  simp only [← hr, hstart', ← hlen', hs'']
  apply wp_indclearAligned hx hl₁ (hc₁.good hg)
  intro ms₂ m₂ hc₂
  rw [Nat.mul_div_cancel _ hK, hdiv] at hc₂
  rw [hdiv]
  apply wp_indclearFromAligned hx lvl _ _ _ _ _ _ (by simpa using hl₁) (Nat.mod_lt _ hK) _
    (hc₂.good (hc₁.good hg))
  · intro ms₃ m₃ l₃ hl₃ hc₃
    apply hQ _ _ _ hl₃
    apply ((hc₁.trans hc₂).trans hc₃).congr
    intro off _
    rw [slots_iff hK, ← hs'', ← hrq]
    generalize len' % nIndirect ^ (lvl + 1) = t at *
    omega
  · intro hne
    have hpow : nIndirect ^ (lvl + 2) = nIndirect * nIndirect ^ (lvl + 1) := by
      rw [pow_succ, Nat.mul_comm]
    rw [hpow] at hsize
    apply Nat.lt_of_mul_lt_mul_right (a := nIndirect ^ (lvl + 1))
    rw [← hs'']
    have hpos : 0 < len' % nIndirect ^ (lvl + 1) := Nat.pos_of_ne_zero hne
    generalize len' % nIndirect ^ (lvl + 1) = t at *
    omega

/-- Clearing a range of the pointers of a tree. -/
theorem wp_indclear (hx : bxp.Ok n) (lvl : ℕ) :
    ∀ (root start len : ℕ) (m : Mem) (ms : BmapCacheType) (Q : BmapCacheType × ℕ → Mem → Prop),
    root < 2 ^ addrlen → start + len ≤ nIndirect ^ (lvl + 1) →
    Good bxp m ms (treeNodes m lvl root) →
    (∀ ms' m' v, v < 2 ^ addrlen → Clears bxp (nIndirect ^ (lvl + 1))
      (fun off => start ≤ off ∧ off < start + len) m ms (treeNodes m lvl root)
      (treeLeaf m lvl root) m' ms' (treeNodes m' lvl v) (treeLeaf m' lvl v) → Q (ms', v) m') →
    Txn.wp n (indclear bxp lvl root start len ms) Q m := by
  induction lvl with
  | zero =>
    intro root start len m ms Q hroot hsize hg hQ
    unfold indclear
    split_ifs with h0 hlen
    · apply wp_pure
      apply hQ _ _ _ (by positivity)
      rw [h0]
      exact Clears.refl fun _ _ _ => RadixTree.leaf_root_zero _ _ _
    · apply wp_pure
      apply hQ _ _ _ hroot
      apply Clears.refl
      intro off _ hP
      omega
    · apply wp_bind
      apply wp_indRead (hg.lt hx (RadixTree.root_mem_nodes h0))
      apply wp_updateBlock 0 hx h0 (by simp) hg (clears_updRange start len)
      exact fun ms' m' v hv hc => hQ ms' m' v hv hc
  | succ lvl ih =>
    intro root start len m ms Q hroot hsize hg hQ
    have hK : 0 < nIndirect ^ (lvl + 1) := pow_pos nIndirect_pos _
    have hread : ∀ h0 : root ≠ 0, ∀ {R : List Waddr → Mem → Prop}, R (ents (m root)) m →
        Txn.wp n (IndRec.read root) R m := fun h0 R hR =>
      wp_indRead (hg.lt hx (RadixTree.root_mem_nodes h0)) hR
    unfold indclear
    dsimp only
    split_ifs with h0 hlen hin
    · apply wp_pure
      apply hQ _ _ _ (by positivity)
      rw [h0]
      exact Clears.refl fun _ _ _ => RadixTree.leaf_root_zero _ _ _
    · apply wp_pure
      apply hQ _ _ _ hroot
      apply Clears.refl
      intro off _ hP
      omega
    · -- the range lies inside one slot
      have hgc : Good bxp m ms (forestNodes m lvl (ents (m root))) := hg.child h0
      have hq : start / nIndirect ^ (lvl + 1) < nIndirect := by
        apply RadixTree.div_lt_of_lt_pow
        exact lt_of_lt_of_le (by omega) hsize
      have hmod := Nat.mod_lt start hK
      have hend : start % nIndirect ^ (lvl + 1) + len ≤ nIndirect ^ (lvl + 1) := by
        generalize start % nIndirect ^ (lvl + 1) = r at *
        omega
      apply wp_bind
      apply hread h0
      apply wp_bind
      apply wp_bind
      apply ih _ _ _ _ _ _ (ptrs_lt _ _) hend (hgc.slot hq)
      intro ms₁ m₁ v hv hc
      apply wp_pure
      have hP : ∀ off, (off / nIndirect ^ (lvl + 1) = start / nIndirect ^ (lvl + 1) ∧
          start % nIndirect ^ (lvl + 1) ≤ off % nIndirect ^ (lvl + 1) ∧
          off % nIndirect ^ (lvl + 1) < start % nIndirect ^ (lvl + 1) + len) ↔
          start ≤ off ∧ off < start + len := by
        intro off
        rw [slot_iff hK hend, ← Nat.add_assoc, Nat.mul_comm (start / nIndirect ^ (lvl + 1)),
          Nat.div_add_mod]
      have hc' := (hc.slot hx (length_ents _) hq hv hgc).congr fun off _ => hP off
      apply wp_updateBlock (lvl + 1) hx h0 (by simp) hg hc'
      exact fun ms' m' v hv hc => hQ ms' m' v hv hc
    · have hgc : Good bxp m ms (forestNodes m lvl (ents (m root))) := hg.child h0
      apply wp_bind
      apply hread h0
      apply wp_bind
      apply wp_indclearMultipleBlocks hx (length_ents _) hsize (Nat.not_le.1 hin) hgc
      intro ms₁ m₁ l₁ hl₁ hc
      apply wp_updateBlock (lvl + 1) hx h0 hl₁ hg hc
      exact fun ms' m' v hv hc => hQ ms' m' v hv hc

end

end BlockPtr

end Fscq
