import Fscq.BlockPtrPut

/-!
# Reading block pointers

Reading one pointer of a tree or all of them.
-/

namespace Fscq

open CrashProg

namespace BlockPtr

open RadixTree (fleaf)

section

variable {n lvl : ℕ} {m m' : Mem}

theorem wp_indget (lvl : ℕ) : ∀ (root off : ℕ) (Q : Waddr → Mem → Prop),
    off < nIndirect ^ (lvl + 1) → (∀ b ∈ treeNodes m lvl root, b < n) →
    (∀ w : Waddr, w.toNat = treeLeaf m lvl root off → Q w m) →
    Txn.wp n (indget lvl root off) Q m := by
  induction lvl with
  | zero =>
    intro root off Q ho hv hQ
    unfold indget
    split_ifs with h0
    · apply wp_pure
      apply hQ
      rw [h0, treeLeaf, RadixTree.leaf_root_zero]
      rfl
    · have ho' : off < nIndirect := by simpa using ho
      rw [pow_zero, Nat.div_one]
      apply wp_indGet h0 (hv _ (RadixTree.root_mem_nodes h0)) ho'
      apply hQ
      rw [treeLeaf, RadixTree.leaf_zero h0]
      rfl
  | succ lvl ih =>
    intro root off Q ho hv hQ
    have hK : 0 < nIndirect ^ (lvl + 1) := pow_pos nIndirect_pos _
    have hq : off / nIndirect ^ (lvl + 1) < nIndirect := RadixTree.div_lt_of_lt_pow ho
    unfold indget
    split_ifs with h0
    · apply wp_pure
      apply hQ
      rw [h0, treeLeaf, RadixTree.leaf_root_zero]
      rfl
    · apply wp_bind
      apply wp_indGet h0 (hv _ (RadixTree.root_mem_nodes h0)) hq
      apply ih _ _ _ (Nat.mod_lt _ hK)
      · exact fun b hb => hv b (RadixTree.mem_nodes_slot h0 hq hb)
      · intro w hw
        apply hQ
        rw [hw, treeLeaf, treeLeaf, RadixTree.leaf_succ h0]
        rfl

theorem length_flatMap_const {α β : Type} {f : α → List β} {k : ℕ} :
    ∀ l : List α, (∀ x ∈ l, (f x).length = k) → (l.flatMap f).length = l.length * k := by
  intro l h
  induction l with
  | nil => simp
  | cons x l ih =>
    rw [List.flatMap_cons, List.length_append, h x List.mem_cons_self,
      ih fun y hy => h y (List.mem_cons_of_mem _ hy), List.length_cons]
    ring

/-- The pointers of a tree in order, as words. -/
def treeWords (m : Mem) : ℕ → ℕ → List Waddr
  | 0, root => if root = 0 then List.replicate (nIndirect ^ 1) 0 else ents (m root)
  | lvl + 1, root =>
    if root = 0 then List.replicate (nIndirect ^ (lvl + 2)) 0
    else (ents (m root)).flatMap fun w => treeWords m lvl w.toNat

theorem length_treeWords (m : Mem) (lvl root : ℕ) :
    (treeWords m lvl root).length = nIndirect ^ (lvl + 1) := by
  induction lvl generalizing root with
  | zero =>
    unfold treeWords
    split_ifs <;> simp
  | succ lvl ih =>
    unfold treeWords
    split_ifs
    · simp
    · rw [length_flatMap_const _ fun w _ => ih w.toNat, length_ents, pow_succ' nIndirect (lvl + 1)]

theorem getD_flatMap_const {α β : Type} {f : α → List β} {k : ℕ} (hk : 0 < k) (d : β) (e : α) :
    ∀ (l : List α) (i : ℕ), (∀ x ∈ l, (f x).length = k) → i < l.length * k →
      (l.flatMap f).getD i d = (f (l.getD (i / k) e)).getD (i % k) d := by
  intro l
  induction l with
  | nil =>
    intro i _ hi
    simp at hi
  | cons x l ih =>
    intro i h hi
    have hx : (f x).length = k := h x List.mem_cons_self
    rw [List.flatMap_cons]
    rcases Nat.lt_or_ge i k with hik | hik
    · rw [List.getD_append _ _ _ _ (hx.symm ▸ hik), Nat.div_eq_of_lt hik, Nat.mod_eq_of_lt hik]
      rfl
    · have hi' : i - k < l.length * k := by
        rw [List.length_cons, Nat.add_mul, Nat.one_mul] at hi
        omega
      rw [List.getD_append_right _ _ _ _ (hx.symm ▸ hik), hx,
        ih (i - k) (fun y hy => h y (List.mem_cons_of_mem _ hy)) hi', Nat.mod_eq_sub_mod hik,
        Nat.div_eq_sub_div hk hik]
      rfl

/-- The rest of a concatenation of lists of one length begins inside one of them. -/
theorem drop_flatMap_const {α β : Type} {f : α → List β} {k : ℕ} (hk : 0 < k) (e : α) :
    ∀ (l : List α) (i : ℕ), (∀ x ∈ l, (f x).length = k) → i < l.length * k →
      (l.flatMap f).drop i = (f (l.getD (i / k) e)).drop (i % k) ++ (l.drop (i / k + 1)).flatMap f := by
  intro l
  induction l with
  | nil =>
    intro i _ hi
    simp at hi
  | cons x l ih =>
    intro i h hi
    have hx : (f x).length = k := h x List.mem_cons_self
    rw [List.flatMap_cons]
    rcases Nat.lt_or_ge i k with hik | hik
    · rw [List.drop_append_of_le_length (by omega), Nat.div_eq_of_lt hik, Nat.mod_eq_of_lt hik]
      rfl
    · have hi' : i - k < l.length * k := by
        rw [List.length_cons, Nat.add_mul, Nat.one_mul] at hi
        omega
      rw [List.drop_append, List.drop_eq_nil_of_le (by omega), List.nil_append, hx,
        ih (i - k) (fun y hy => h y (List.mem_cons_of_mem _ hy)) hi', Nat.mod_eq_sub_mod hik,
        Nat.div_eq_sub_div hk hik]
      rfl

/-- The beginning of a concatenation of lists of one length ends inside one of them. -/
theorem take_flatMap_const {α β : Type} {f : α → List β} {k : ℕ} (hk : 0 < k) (e : α) :
    ∀ (l : List α) (i : ℕ), (∀ x ∈ l, (f x).length = k) → i ≤ l.length * k →
      (l.flatMap f).take i = (l.take (i / k)).flatMap f ++ (f (l.getD (i / k) e)).take (i % k) := by
  intro l
  induction l with
  | nil =>
    intro i _ hi
    obtain rfl : i = 0 := by simpa using hi
    simp
  | cons x l ih =>
    intro i h hi
    have hx : (f x).length = k := h x List.mem_cons_self
    rw [List.flatMap_cons]
    rcases Nat.lt_or_ge i k with hik | hik
    · rw [List.take_append_of_le_length (by omega), Nat.div_eq_of_lt hik, Nat.mod_eq_of_lt hik]
      rfl
    · have hi' : i - k ≤ l.length * k := by
        rw [List.length_cons, Nat.add_mul, Nat.one_mul] at hi
        omega
      rw [List.take_append, List.take_of_length_le (by omega), hx,
        ih (i - k) (fun y hy => h y (List.mem_cons_of_mem _ hy)) hi', Nat.mod_eq_sub_mod hik,
        Nat.div_eq_sub_div hk hik, List.take_succ_cons, List.flatMap_cons, List.append_assoc]
      rfl

theorem ptrs_treeWords (m : Mem) (lvl : ℕ) : ∀ {root off : ℕ}, off < nIndirect ^ (lvl + 1) →
    ptrs (treeWords m lvl root) off = treeLeaf m lvl root off := by
  induction lvl with
  | zero =>
    intro root off _
    unfold treeWords
    split_ifs with h0
    · rw [h0, treeLeaf, RadixTree.leaf_root_zero, ptrs_replicate]
    · rw [treeLeaf, RadixTree.leaf_zero h0]
      rfl
  | succ lvl ih =>
    intro root off ho
    have hK : 0 < nIndirect ^ (lvl + 1) := pow_pos nIndirect_pos _
    unfold treeWords
    split_ifs with h0
    · rw [h0, treeLeaf, RadixTree.leaf_root_zero, ptrs_replicate]
    · have ho' : off < (ents (m root)).length * nIndirect ^ (lvl + 1) := by
        rwa [length_ents, ← pow_succ']
      rw [treeLeaf, RadixTree.leaf_succ h0, ptrs,
        getD_flatMap_const hK 0 0 _ _ (fun w _ => length_treeWords m lvl w.toNat) ho', fleaf]
      exact ih (Nat.mod_lt _ hK)

/-- Reading the trees of a list of slots, given how one tree is read. -/
theorem wp_readTrees {l : List Waddr} {Q : List Waddr → Mem → Prop}
    (hone : ∀ w ∈ l, ∀ Q : List Waddr → Mem → Prop, Q (treeWords m lvl w.toNat) m →
      Txn.wp n (indread lvl w.toNat) Q m)
    (hQ : Q (l.flatMap fun w => treeWords m lvl w.toNat) m) :
    Txn.wp n (indreadAligned lvl l) Q m := by
  -- the loop runs over the reversed list and puts each part in front of the result
  apply Txn.wp_post (Q := fun r m' => m' = m ∧ ∃ d, l.reverse = d ++ [] ∧
    r = d.reverse.flatMap fun w => treeWords m lvl w.toNat)
  · apply wp_forEach (fun (rest r : List Waddr) m' => m' = m ∧
      ∃ d, l.reverse = d ++ rest ∧ r = d.reverse.flatMap fun w => treeWords m lvl w.toNat)
    · rintro w rest r m' ⟨rfl, d, hd, rfl⟩
      apply wp_bind
      apply hone w
      · rw [← List.mem_reverse, hd]
        exact List.mem_append_right _ List.mem_cons_self
      · apply wp_pure
        refine ⟨rfl, d ++ [w], ?_, ?_⟩
        · rw [hd, List.append_assoc, List.singleton_append]
        · rw [List.reverse_append, List.reverse_singleton, List.singleton_append,
            List.flatMap_cons]
    · exact ⟨rfl, [], rfl, rfl⟩
  · rintro r m' ⟨rfl, d, hd, rfl⟩
    rw [List.append_nil] at hd
    rwa [← hd, List.reverse_reverse]

/-- The index blocks of a subtree are index blocks of the tree. -/
theorem mem_treeNodes_entry {root b : ℕ} {w : Waddr} (h0 : root ≠ 0) (hw : w ∈ ents (m root))
    (hb : b ∈ treeNodes m lvl w.toNat) : b ∈ treeNodes m (lvl + 1) root := by
  obtain ⟨i, hi, rfl⟩ := List.getElem_of_mem hw
  apply RadixTree.mem_nodes_slot (i := i) h0 (by simpa using hi)
  rwa [ent, ptrs, List.getD_eq_getElem _ _ hi]

theorem wp_indread (lvl : ℕ) : ∀ (root : ℕ) (Q : List Waddr → Mem → Prop),
    (∀ b ∈ treeNodes m lvl root, b < n) → Q (treeWords m lvl root) m →
    Txn.wp n (indread lvl root) Q m := by
  induction lvl with
  | zero =>
    intro root Q hv hQ
    unfold treeWords at hQ
    unfold indread
    split_ifs with h0
    · apply wp_pure
      rwa [if_pos h0] at hQ
    · apply wp_indRead (hv _ (RadixTree.root_mem_nodes h0))
      rwa [if_neg h0] at hQ
  | succ lvl ih =>
    intro root Q hv hQ
    unfold treeWords at hQ
    unfold indread
    split_ifs with h0
    · apply wp_pure
      rwa [if_pos h0] at hQ
    · rw [if_neg h0] at hQ
      apply wp_bind
      apply wp_indRead (hv _ (RadixTree.root_mem_nodes h0))
      apply wp_readTrees _ hQ
      exact fun w hw Q hQ => ih _ _ (fun b hb => hv b (mem_treeNodes_entry h0 hw hb)) hQ

end

end BlockPtr

end Fscq
