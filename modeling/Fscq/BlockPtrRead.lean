import Fscq.Inode

/-!
# Reading the pointers of an inode

A record represents a list of pointers: its direct pointers and the pointers of its three trees,
one after the other, up to the length of the file.  Looking up one pointer, reading all of them and
reading a range of them give the elements of that list, wherever the boundaries between the direct
pointers and the trees lie.
-/

namespace Fscq

open CrashProg

namespace BlockPtr

variable {IRec IAttr : Type} (B : BlockPtrSig IRec IAttr)

/-- The words of the three trees, one after the other. -/
def treesWords (m : Mem) (r : ℕ → ℕ) : List Waddr :=
  treeWords m 0 (r 0) ++ treeWords m 1 (r 1) ++ treeWords m 2 (r 2)

/-- All pointers of a record in order, also those past the end. -/
def recWords (m : Mem) (ir : IRec) : List Waddr := B.irBlocks ir ++ treesWords m (roots B ir)

/-- The record represents a list of pointers.  The pointers past the end are null, and the index
blocks are different blocks of the allocator. -/
structure Rep (bxp : BallocXparams) (m : Mem) (ir : IRec) (l : List Waddr) : Prop where
  len : l.length = B.irLen ir
  bound : l.length ≤ nBlocks B
  direct : (B.irBlocks ir).length = B.nDirect
  valid : ∀ b ∈ recNodes B m ir, b < BALLOCC.nbits bxp
  nodup : (recNodes B m ir).Nodup
  firstn : l = (recWords B m ir).take l.length
  past : ∀ w ∈ (recWords B m ir).drop l.length, w = 0

section

variable {B} {n : ℕ} {bxp : BallocXparams} {m : Mem} {ir : IRec} {l : List Waddr}
  {lvl root off start len : ℕ} {r : ℕ → ℕ}

@[simp] theorem length_treesWords (m : Mem) (r : ℕ → ℕ) :
    (treesWords m r).length = treesSize := by
  simp [treesWords, length_treeWords, treesSize, Nat.add_assoc]

theorem length_recWords (hd : (B.irBlocks ir).length = B.nDirect) :
    (recWords B m ir).length = nBlocks B := by
  rw [recWords, List.length_append, hd, length_treesWords, nBlocks_eq]

theorem ptrs_recWords (hd : (B.irBlocks ir).length = B.nDirect) (ho : off < nBlocks B) :
    ptrs (recWords B m ir) off = ptr B m ir off := by
  rw [recWords, ptrs_append, hd, ptr]
  split_ifs with h
  · rfl
  · exact ptrs_trees m (roots B ir) (sub_lt_treesSize ho h)

theorem ptrs_take (l : List Waddr) {k i : ℕ} (h : i < k) : ptrs (l.take k) i = ptrs l i := by
  rw [ptrs, ptrs, List.getD_eq_getElem?_getD, List.getD_eq_getElem?_getD,
    List.getElem?_take_of_lt h]

/-! ### Ranges -/

theorem treeWords_root_zero (m : Mem) (lvl : ℕ) :
    treeWords m lvl 0 = List.replicate (nIndirect ^ (lvl + 1)) 0 := by
  cases lvl <;> simp [treeWords]

theorem treeWords_zero (h0 : root ≠ 0) : treeWords m 0 root = ents (m root) := by
  simp [treeWords, h0]

theorem treeWords_succ (h0 : root ≠ 0) : treeWords m (lvl + 1) root =
    (ents (m root)).flatMap fun w => treeWords m lvl w.toNat := by
  simp [treeWords, h0]

/-- The pointers of the trees in a list of slots. -/
def slotWords (m : Mem) (lvl : ℕ) (l : List Waddr) : List Waddr :=
  l.flatMap fun w => treeWords m lvl w.toNat

theorem drop_slotWords {l : List Waddr} (h : start < l.length * nIndirect ^ (lvl + 1)) :
    (slotWords m lvl l).drop start =
      (treeWords m lvl (ptrs l (start / nIndirect ^ (lvl + 1)))).drop
          (start % nIndirect ^ (lvl + 1)) ++
        slotWords m lvl (l.drop (start / nIndirect ^ (lvl + 1) + 1)) :=
  drop_flatMap_const (pow_pos nIndirect_pos _) 0 l start (fun _ _ => length_treeWords _ _ _) h

theorem take_slotWords {l : List Waddr} (h : len ≤ l.length * nIndirect ^ (lvl + 1)) :
    (slotWords m lvl l).take len =
      slotWords m lvl (l.take (len / nIndirect ^ (lvl + 1))) ++
        (treeWords m lvl (ptrs l (len / nIndirect ^ (lvl + 1)))).take
          (len % nIndirect ^ (lvl + 1)) :=
  take_flatMap_const (pow_pos nIndirect_pos _) 0 l len (fun _ _ => length_treeWords _ _ _) h

theorem wp_indreadAligned {l : List Waddr} {Q : List Waddr → Mem → Prop}
    (hv : ∀ w ∈ l, ∀ b ∈ treeNodes m lvl w.toNat, b < n) (hQ : Q (slotWords m lvl l) m) :
    Txn.wp n (indreadAligned lvl l) Q m :=
  wp_readTrees (fun w hw Q hQ => wp_indread lvl w.toNat Q (hv w hw) hQ) hQ

/-- The slot of an offset exists or is null. -/
theorem valid_slot {l : List Waddr} (hv : ∀ w ∈ l, ∀ b ∈ treeNodes m lvl w.toNat, b < n) (i : ℕ) :
    ∀ b ∈ treeNodes m lvl (ptrs l i), b < n := by
  intro b hb
  rcases Nat.lt_or_ge i l.length with h | h
  · rw [ptrs, List.getD_eq_getElem _ _ h] at hb
    exact hv _ (List.getElem_mem h) b hb
  · have hz : ptrs l i = 0 := by
      rw [ptrs, List.getD_eq_default _ _ h]
      rfl
    rw [hz, treeNodes, RadixTree.nodes_root_zero] at hb
    exact absurd hb (Multiset.notMem_zero b)

theorem wp_indreadToAligned (lvl : ℕ) : ∀ (root start : ℕ) (Q : List Waddr → Mem → Prop),
    start < nIndirect ^ (lvl + 1) → (∀ b ∈ treeNodes m lvl root, b < n) →
    Q ((treeWords m lvl root).drop start) m → Txn.wp n (indreadToAligned lvl root start) Q m := by
  induction lvl with
  | zero =>
    intro root start Q _ hv hQ
    unfold indreadToAligned
    split_ifs with h0
    · apply wp_pure
      rwa [h0, treeWords_root_zero, List.drop_replicate] at hQ
    · apply wp_bind
      apply wp_indRead (hv _ (RadixTree.root_mem_nodes h0))
      apply wp_pure
      rwa [treeWords_zero h0] at hQ
  | succ lvl ih =>
    intro root start Q hs hv hQ
    have hK : 0 < nIndirect ^ (lvl + 1) := pow_pos nIndirect_pos _
    unfold indreadToAligned
    split_ifs with h0
    · apply wp_pure
      rwa [h0, treeWords_root_zero, List.drop_replicate] at hQ
    · have hw : ∀ w ∈ ents (m root), ∀ b ∈ treeNodes m lvl w.toNat, b < n :=
        fun w hw b hb => hv b (mem_treeNodes_entry h0 hw hb)
      have hs' : start < (ents (m root)).length * nIndirect ^ (lvl + 1) := by
        rwa [length_ents, ← pow_succ']
      apply wp_bind
      apply wp_indRead (hv _ (RadixTree.root_mem_nodes h0))
      apply wp_bind
      apply wp_indreadAligned fun w h => hw w (List.mem_of_mem_drop h)
      apply wp_bind
      apply ih _ _ _ (Nat.mod_lt _ hK) (valid_slot hw _)
      apply wp_pure
      rw [treeWords_succ h0] at hQ
      have e := drop_slotWords (m := m) hs'
      rw [slotWords] at e
      rwa [e] at hQ

theorem wp_indreadFromAligned (lvl : ℕ) : ∀ (root len : ℕ) (Q : List Waddr → Mem → Prop),
    len ≤ nIndirect ^ (lvl + 1) → (∀ b ∈ treeNodes m lvl root, b < n) →
    Q ((treeWords m lvl root).take len) m → Txn.wp n (indreadFromAligned lvl root len) Q m := by
  induction lvl with
  | zero =>
    intro root len Q hl hv hQ
    unfold indreadFromAligned
    split_ifs with h0
    · apply wp_pure
      rwa [h0, treeWords_root_zero, List.take_replicate, Nat.min_eq_left hl] at hQ
    · apply wp_bind
      apply wp_indRead (hv _ (RadixTree.root_mem_nodes h0))
      apply wp_pure
      rwa [treeWords_zero h0] at hQ
  | succ lvl ih =>
    intro root len Q hl hv hQ
    have hK : 0 < nIndirect ^ (lvl + 1) := pow_pos nIndirect_pos _
    unfold indreadFromAligned
    split_ifs with h0
    · apply wp_pure
      rwa [h0, treeWords_root_zero, List.take_replicate, Nat.min_eq_left hl] at hQ
    · have hw : ∀ w ∈ ents (m root), ∀ b ∈ treeNodes m lvl w.toNat, b < n :=
        fun w hw b hb => hv b (mem_treeNodes_entry h0 hw hb)
      have hl' : len ≤ (ents (m root)).length * nIndirect ^ (lvl + 1) := by
        rwa [length_ents, ← pow_succ']
      have e := take_slotWords (m := m) hl'
      rw [treeWords_succ h0] at hQ
      change Q ((slotWords m lvl (ents (m root))).take len) m at hQ
      rw [e] at hQ
      apply wp_bind
      apply wp_indRead (hv _ (RadixTree.root_mem_nodes h0))
      apply wp_bind
      apply wp_indreadAligned fun w h => hw w (List.mem_of_mem_take h)
      dsimp only
      split_ifs with hm
      · apply wp_pure
        rwa [hm, List.take_zero, List.append_nil] at hQ
      · apply wp_bind
        apply ih _ _ _ (Nat.mod_lt _ hK).le (valid_slot hw _)
        exact wp_pure hQ

/-- A range that goes beyond the tree it begins in. -/
theorem wp_indreadMultipleBlocks {l : List Waddr} {Q : List Waddr → Mem → Prop}
    (hv : ∀ w ∈ l, ∀ b ∈ treeNodes m lvl w.toNat, b < n)
    (hlen : nIndirect ^ (lvl + 1) - start % nIndirect ^ (lvl + 1) < len)
    (hsize : start + len ≤ l.length * nIndirect ^ (lvl + 1))
    (hQ : Q (((slotWords m lvl l).drop start).take len) m) :
    Txn.wp n (indreadMultipleBlocks lvl l start len) Q m := by
  have hK : 0 < nIndirect ^ (lvl + 1) := pow_pos nIndirect_pos _
  rw [drop_slotWords (by omega)] at hQ
  unfold indreadMultipleBlocks
  dsimp only
  set K := nIndirect ^ (lvl + 1) with hKdef
  have hdm := Nat.div_add_mod start K
  have hmod := Nat.mod_lt start hK
  set q := start / K
  set s := start % K
  set len' := len - (K - s) with hlen'
  -- the next slot begins where the first one ends
  have hnext : start + (K - s) = (q + 1) * K := by
    rw [Nat.add_mul, Nat.one_mul, Nat.mul_comm q K]
    omega
  have hlast : (q + 1) * K + len' / K * K = (q + 1 + len' / K) * K := by rw [← Nat.add_mul]
  have hrest : len' ≤ (l.drop (q + 1)).length * K := by
    rw [List.length_drop, Nat.sub_mul]
    omega
  have hfirst : ((treeWords m lvl (ptrs l q)).drop s).length = K - s := by
    rw [List.length_drop, length_treeWords]
  have hptr : ptrs (l.drop (q + 1)) (len' / K) = ptrs l (q + 1 + len' / K) := by
    rw [ptrs, ptrs, List.getD_eq_getElem?_getD, List.getD_eq_getElem?_getD, List.getElem?_drop]
  rw [List.take_append, List.take_of_length_le (by omega), hfirst, ← hlen',
    take_slotWords hrest, hptr] at hQ
  rw [hnext, hlast, Nat.mul_div_cancel _ hK, Nat.mul_div_cancel _ hK]
  apply wp_bind
  apply wp_indreadToAligned lvl _ _ _ hmod (valid_slot hv q)
  apply wp_bind
  apply wp_indreadAligned fun w h => hv w (List.mem_of_mem_drop (List.mem_of_mem_take h))
  apply wp_bind
  apply wp_indreadFromAligned lvl _ _ _ (Nat.mod_lt _ hK).le (valid_slot hv _)
  exact wp_pure hQ

theorem wp_indreadRange (lvl : ℕ) : ∀ (root start len : ℕ) (Q : List Waddr → Mem → Prop),
    start + len ≤ nIndirect ^ (lvl + 1) → (∀ b ∈ treeNodes m lvl root, b < n) →
    Q (((treeWords m lvl root).drop start).take len) m →
    Txn.wp n (indreadRange lvl root start len) Q m := by
  -- the cases that are the same at all levels
  have hend : ∀ {lvl root start len : ℕ} {Q : List Waddr → Mem → Prop}, len ≠ 0 →
      start + len = nIndirect * nIndirect ^ lvl → (∀ b ∈ treeNodes m lvl root, b < n) →
      Q (((treeWords m lvl root).drop start).take len) m →
      Txn.wp n (indreadToAligned lvl root start) Q m := by
    intro lvl root start len Q h0 he hv hQ
    rw [← pow_succ'] at he
    apply wp_indreadToAligned lvl _ _ _ (by omega) hv
    rwa [List.take_of_length_le] at hQ
    rw [List.length_drop, length_treeWords]
    omega
  have hnull : ∀ {lvl start len : ℕ}, start + len ≤ nIndirect ^ (lvl + 1) →
      ((treeWords m lvl 0).drop start).take len = List.replicate len 0 := by
    intro lvl start len h
    rw [treeWords_root_zero, List.drop_replicate, List.take_replicate, Nat.min_eq_left (by omega)]
  induction lvl with
  | zero =>
    intro root start len Q hsize hv hQ
    unfold indreadRange
    dsimp only
    split_ifs with hl he h0
    · apply wp_pure
      rwa [hl, List.take_zero] at hQ
    · exact hend hl he hv hQ
    · apply wp_pure
      rwa [h0, hnull hsize] at hQ
    · apply wp_bind
      apply wp_indRead (hv _ (RadixTree.root_mem_nodes h0))
      apply wp_pure
      rwa [treeWords_zero h0] at hQ
  | succ lvl ih =>
    intro root start len Q hsize hv hQ
    have hK : 0 < nIndirect ^ (lvl + 1) := pow_pos nIndirect_pos _
    unfold indreadRange
    dsimp only
    split_ifs with hl he h0 hin
    · apply wp_pure
      rwa [hl, List.take_zero] at hQ
    · exact hend hl he hv hQ
    · apply wp_pure
      rwa [h0, hnull hsize] at hQ
    all_goals
      have hw : ∀ w ∈ ents (m root), ∀ b ∈ treeNodes m lvl w.toNat, b < n :=
        fun w hw b hb => hv b (mem_treeNodes_entry h0 hw hb)
      have hsize' : start + len ≤ (ents (m root)).length * nIndirect ^ (lvl + 1) := by
        rwa [length_ents, ← pow_succ']
      rw [treeWords_succ h0] at hQ
      change Q (((slotWords m lvl (ents (m root))).drop start).take len) m at hQ
      apply wp_bind
      apply wp_indRead (hv _ (RadixTree.root_mem_nodes h0))
    · -- the range lies inside one slot
      have hmod := Nat.mod_lt start hK
      apply ih _ _ _ _ (by omega) (valid_slot hw _)
      rwa [drop_slotWords (by omega), List.take_append_of_le_length] at hQ
      rwa [List.length_drop, length_treeWords]
    · exact wp_indreadMultipleBlocks hw (Nat.not_le.1 hin) hsize' hQ

/-- The part of a range that lies in the tree of one level. -/
theorem wp_indreadRangeHelper {Q : List Waddr → Mem → Prop}
    (hv : ∀ b ∈ treeNodes m lvl root, b < n)
    (hQ : Q (((treeWords m lvl root).drop (start - levelStart lvl)).take
      (len - (levelStart lvl - start))) m) :
    Txn.wp n (indreadRangeHelper lvl root start len) Q m := by
  have hl : (treeWords m lvl root).length = nIndirect ^ (lvl + 1) := length_treeWords m lvl root
  unfold indreadRangeHelper
  dsimp only
  split_ifs with h₁ h₂
  · apply wp_indreadRange lvl _ _ _ _ (by omega) hv
    rcases Nat.le_total (len - (levelStart lvl - start))
      (nIndirect ^ (lvl + 1) - (start - levelStart lvl)) with h | h
    · rwa [Nat.min_eq_left h]
    · rw [List.take_of_length_le (by rw [List.length_drop]; omega)] at hQ
      rwa [Nat.min_eq_right h, List.take_of_length_le (by rw [List.length_drop]; omega)]
  · apply wp_pure
    rwa [List.drop_eq_nil_of_le (by omega), List.take_nil] at hQ
  · apply wp_pure
    rwa [show len - (levelStart lvl - start) = 0 by omega, List.take_zero] at hQ

/-- A range of a list in two parts. -/
theorem take_drop_append {α : Type} (l l' : List α) (start len : ℕ) :
    ((l ++ l').drop start).take len =
      (l.drop start).take len ++ (l'.drop (start - l.length)).take (len - (l.length - start)) := by
  rw [List.drop_append, List.take_append, List.length_drop]

theorem wp_ptrReadRange {Q : List Waddr → Mem → Prop} (hd : (B.irBlocks ir).length = B.nDirect)
    (hv : ∀ b ∈ recNodes B m ir, b < n)
    (hQ : Q (((recWords B m ir).drop start).take len) m) :
    Txn.wp n (readRange B ir start len) Q m := by
  have hroot : ∀ lvl < 3, ∀ b ∈ treeNodes m lvl (roots B ir lvl), b < n :=
    fun lvl hl b hb => hv b (mem_treesNodes.2 ⟨lvl, hl, hb⟩)
  have h₁ : (treeWords m 0 (roots B ir 0)).length = levelStart 1 := by
    rw [length_treeWords, levelStart_one, Nat.zero_add, pow_one]
  have h₂ : (treeWords m 0 (roots B ir 0) ++ treeWords m 1 (roots B ir 1)).length =
      levelStart 2 := by
    rw [List.length_append, h₁, length_treeWords, levelStart_one, levelStart_two]
  rw [recWords, take_drop_append, hd, treesWords, take_drop_append, h₂, take_drop_append, h₁,
    ← List.append_assoc, ← List.append_assoc] at hQ
  unfold readRange
  dsimp only
  apply wp_bind
  apply wp_indreadRangeHelper (hroot 0 (by decide))
  rw [levelStart_zero, Nat.zero_sub, Nat.sub_zero, Nat.sub_zero]
  apply wp_bind
  apply wp_indreadRangeHelper (hroot 1 (by decide))
  apply wp_bind
  apply wp_indreadRangeHelper (hroot 2 (by decide))
  exact wp_pure hQ

namespace Rep

theorem blocks_lt (hx : bxp.Ok n) (h : Rep B bxp m ir l) : ∀ b ∈ recNodes B m ir, b < n :=
  fun b hb => lt_of_lt_nbits hx (h.valid b hb)

/-- The elements of the list are the pointers of the record. -/
theorem ptrs_eq (h : Rep B bxp m ir l) (ho : off < l.length) : ptrs l off = ptr B m ir off := by
  rw [h.firstn, ptrs_take _ ho, ptrs_recWords h.direct (ho.trans_le h.bound)]

theorem map_toNat (h : Rep B bxp m ir l) : l.map BitVec.toNat = recBlocks B m ir := by
  have hl : l.take (B.irLen ir) = l := List.take_of_length_le h.len.le
  rw [recBlocks, ← map_toNat_take h.len.ge fun i hi => h.ptrs_eq (hi.trans_eq h.len.symm), hl]

/-- Lookup and reading.  A record that represents a list gives its elements one by one, and the
whole list. -/
theorem get_read (hx : bxp.Ok n) (h : Rep B bxp m ir l) :
    (∀ off < l.length, Txn.wp n (get B ir off) (fun w m' => w = l.getD off 0 ∧ m' = m) m) ∧
      Txn.wp n (read B ir) (fun r m' => r = l ∧ m' = m) m := by
  constructor
  · intro off ho
    apply wp_ptrGet (ho.trans_le h.bound) (h.blocks_lt hx)
    intro w hw
    refine ⟨BitVec.eq_of_toNat_eq ?_, rfl⟩
    rw [hw, ← h.ptrs_eq ho, ptrs]
  · apply wp_ptrRead (h.len ▸ h.bound) h.direct (h.blocks_lt hx)
    intro r hr
    refine ⟨?_, rfl⟩
    rw [← h.map_toNat] at hr
    exact List.map_injective_iff.2 (fun _ _ => BitVec.eq_of_toNat_eq) hr

/-- Range reads.  Every range of the list is read, from the direct pointers and the trees that it
lies in. -/
theorem readRange_eq (hx : bxp.Ok n) (h : Rep B bxp m ir l) (hr : start + len ≤ l.length) :
    Txn.wp n (readRange B ir start len) (fun r m' => r = (l.drop start).take len ∧ m' = m) m := by
  apply wp_ptrReadRange h.direct (h.blocks_lt hx)
  refine ⟨?_, rfl⟩
  conv_rhs => rw [h.firstn]
  rw [List.drop_take, List.take_take, Nat.min_eq_left (by omega)]

end Rep

end

end BlockPtr

namespace Sample

open BlockPtr

/-- A file of eight blocks. -/
def irec : INODE.IRec := INODE.mkIRec 8 INODE.iattr0 1 0 0 [2, 3, 4, 5, 6, 7, 8]

/-- Its index block, with the last pointer. -/
def indexMem : Mem :=
  Function.update (fun _ => 0) 1 (packEnts (9 :: List.replicate (nIndirect - 1) 0))

/-- A bitmap behind the blocks it is for. -/
def highBalloc : BallocXparams := ⟨32768, 1⟩

theorem highBalloc_ok : highBalloc.Ok 32769 where
  fits := ⟨by decide, by decide⟩
  above := by
    rw [AllocSig.nbits, valulen_is]
    decide
  words := by decide

theorem length_index : (9 :: List.replicate (nIndirect - 1) 0 : List Waddr).length = nIndirect := by
  rw [List.length_cons, List.length_replicate, Nat.sub_add_cancel nIndirect_pos]

theorem treesWords_irec : treesWords indexMem (roots INODE.bptrSig irec) =
    9 :: List.replicate (nIndirect - 1) 0 ++ List.replicate (nIndirect ^ 2) 0 ++
      List.replicate (nIndirect ^ 3) 0 := by
  have h₀ : treeWords indexMem 0 1 = 9 :: List.replicate (nIndirect - 1) 0 := by
    rw [treeWords_zero (by decide), indexMem, Function.update_self, ents_packEnts length_index]
  have h₁ := treeWords_root_zero indexMem 1
  have h₂ := treeWords_root_zero indexMem 2
  change treeWords indexMem 0 1 ++ treeWords indexMem 1 0 ++ treeWords indexMem 2 0 = _
  rw [h₀, h₁, h₂]

theorem recNodes_irec : recNodes INODE.bptrSig indexMem irec = {1} := by
  change ∑ lvl ∈ Finset.range 3, treeNodes indexMem lvl (roots INODE.bptrSig irec lvl) = {1}
  simp only [Finset.sum_range_succ, Finset.range_zero, Finset.sum_empty]
  change 0 + treeNodes indexMem 0 1 + treeNodes indexMem 1 0 + treeNodes indexMem 2 0 = {1}
  rw [treeNodes, treeNodes, treeNodes, RadixTree.nodes_zero (by decide),
    RadixTree.nodes_root_zero, RadixTree.nodes_root_zero, zero_add, add_zero, add_zero]

theorem rep_irec : Rep INODE.bptrSig highBalloc indexMem irec [2, 3, 4, 5, 6, 7, 8, 9] where
  len := rfl
  bound := by
    rw [nBlocks_eq, treesSize, nIndirect_is]
    decide
  direct := rfl
  valid b hb := by
    rw [recNodes_irec, Multiset.mem_singleton] at hb
    rw [hb, AllocSig.nbits, valulen_is]
    decide
  nodup := by
    rw [recNodes_irec]
    exact Multiset.nodup_singleton 1
  firstn := by
    rw [recWords, treesWords_irec]
    rfl
  past := by
    intro w hw
    rw [recWords, treesWords_irec] at hw
    change w ∈ List.replicate (nIndirect - 1) 0 ++ List.replicate (nIndirect ^ 2) 0 ++
      List.replicate (nIndirect ^ 3) 0 at hw
    simp only [List.mem_append, List.mem_replicate] at hw
    tauto

/-- The last pointer is in the index block. -/
theorem get_read_irec :
    (∀ off < 8, Txn.wp 32769 (get INODE.bptrSig irec off)
      (fun w m' => w = [2, 3, 4, 5, 6, 7, 8, 9].getD off 0 ∧ m' = indexMem) indexMem) ∧
    Txn.wp 32769 (read INODE.bptrSig irec)
      (fun r m' => r = [2, 3, 4, 5, 6, 7, 8, 9] ∧ m' = indexMem) indexMem :=
  Rep.get_read highBalloc_ok rep_irec

/-- A range over the boundary between the direct pointers and the index block. -/
theorem readRange_irec : Txn.wp 32769 (readRange INODE.bptrSig irec 6 2)
    (fun r m' => r = [8, 9] ∧ m' = indexMem) indexMem :=
  Rep.readRange_eq highBalloc_ok rep_irec (by decide)

end Sample

end Fscq
