import Mathlib.Algebra.BigOperators.Group.Finset.Basic
import Mathlib.Algebra.Order.BigOperators.Group.Multiset
import Mathlib.Tactic

/-!
# Radix trees of pointers

A memory maps addresses to blocks, and a block holds `K` pointers, read by `ent`.  A root address
and a height describe a tree of blocks: the blocks at the bottom hold the pointers of the tree, the
others hold the addresses of their subtrees, and the address zero stands for a subtree whose
pointers are all zero.  `leaf` is the pointer at an offset, `path` are the blocks on the way to it and
`nodes` are the blocks that make up the tree.  A forest is a function from slots to roots of trees of
the same height.
-/

namespace RadixTree

variable {V : Type*} (ent : V → ℕ → ℕ) (K : ℕ)

/-- The pointer at an offset of a tree.  A tree of height `lvl` has `K ^ (lvl + 1)` pointers. -/
def leaf (m : ℕ → V) : ℕ → ℕ → ℕ → ℕ
  | 0, root, off => if root = 0 then 0 else ent (m root) off
  | lvl + 1, root, off => if root = 0 then 0 else
      leaf m lvl (ent (m root) (off / K ^ (lvl + 1))) (off % K ^ (lvl + 1))

/-- The blocks of a tree. -/
def nodes (m : ℕ → V) : ℕ → ℕ → Multiset ℕ
  | 0, root => if root = 0 then 0 else {root}
  | lvl + 1, root => if root = 0 then 0 else
      root ::ₘ ∑ i ∈ Finset.range K, nodes m lvl (ent (m root) i)

/-- The number of blocks that are missing on the way to an offset of a tree. -/
def missing (m : ℕ → V) : ℕ → ℕ → ℕ → ℕ
  | 0, root, _ => if root = 0 then 1 else 0
  | lvl + 1, root, off => if root = 0 then lvl + 2 else
      missing m lvl (ent (m root) (off / K ^ (lvl + 1))) (off % K ^ (lvl + 1))

/-- The blocks on the way to an offset of a tree. -/
def path (m : ℕ → V) : ℕ → ℕ → ℕ → List ℕ
  | 0, root, _ => if root = 0 then [] else [root]
  | lvl + 1, root, off => if root = 0 then [] else
      root :: path m lvl (ent (m root) (off / K ^ (lvl + 1))) (off % K ^ (lvl + 1))

/-- The pointer at an offset of a forest. -/
def fleaf (m : ℕ → V) (lvl : ℕ) (f : ℕ → ℕ) (off : ℕ) : ℕ :=
  leaf ent K m lvl (f (off / K ^ (lvl + 1))) (off % K ^ (lvl + 1))

/-- The blocks of a forest. -/
def fnodes (m : ℕ → V) (lvl : ℕ) (f : ℕ → ℕ) : Multiset ℕ :=
  ∑ i ∈ Finset.range K, nodes ent K m lvl (f i)

variable {ent K} {m m' : ℕ → V} {lvl root off : ℕ} {f f' : ℕ → ℕ}

@[simp] theorem leaf_root_zero (m : ℕ → V) (lvl off : ℕ) : leaf ent K m lvl 0 off = 0 := by
  cases lvl <;> simp [leaf]

@[simp] theorem nodes_root_zero (m : ℕ → V) (lvl : ℕ) : nodes ent K m lvl 0 = 0 := by
  cases lvl <;> simp [nodes]

theorem missing_root_zero (m : ℕ → V) (lvl off : ℕ) : missing ent K m lvl 0 off = lvl + 1 := by
  cases lvl <;> simp [missing]

theorem missing_succ (h : root ≠ 0) : missing ent K m (lvl + 1) root off =
    missing ent K m lvl (ent (m root) (off / K ^ (lvl + 1))) (off % K ^ (lvl + 1)) := by
  simp [missing, h]

theorem leaf_zero (h : root ≠ 0) : leaf ent K m 0 root off = ent (m root) off := by
  simp [leaf, h]

theorem leaf_succ (h : root ≠ 0) :
    leaf ent K m (lvl + 1) root off = fleaf ent K m lvl (ent (m root)) off := by
  simp [leaf, fleaf, h]

theorem nodes_zero (h : root ≠ 0) : nodes ent K m 0 root = {root} := by simp [nodes, h]

theorem nodes_succ (h : root ≠ 0) :
    nodes ent K m (lvl + 1) root = root ::ₘ fnodes ent K m lvl (ent (m root)) := by
  simp [nodes, fnodes, h]

theorem root_mem_nodes (h : root ≠ 0) : root ∈ nodes ent K m lvl root := by
  cases lvl with
  | zero => simp [nodes_zero h]
  | succ lvl => simp [nodes_succ h]

theorem mem_fnodes {b : ℕ} : b ∈ fnodes ent K m lvl f ↔ ∃ i < K, b ∈ nodes ent K m lvl (f i) := by
  simp [fnodes, Multiset.mem_sum]

/-- The blocks of a subtree are blocks of the tree. -/
theorem mem_nodes_slot {i b : ℕ} (h : root ≠ 0) (hi : i < K)
    (hb : b ∈ nodes ent K m lvl (ent (m root) i)) : b ∈ nodes ent K m (lvl + 1) root := by
  rw [nodes_succ h, Multiset.mem_cons, mem_fnodes]
  exact .inr ⟨i, hi, hb⟩

theorem div_lt_of_lt_pow (h : off < K ^ (lvl + 2)) : off / K ^ (lvl + 1) < K := by
  apply Nat.div_lt_of_lt_mul
  rwa [← pow_succ]

/-! ### Memories that agree on the blocks of a tree -/

theorem nodes_congr (h : ∀ b ∈ nodes ent K m lvl root, m' b = m b) :
    nodes ent K m' lvl root = nodes ent K m lvl root := by
  induction lvl generalizing root with
  | zero => rfl
  | succ lvl ih =>
    rcases eq_or_ne root 0 with rfl | h0
    · simp
    · rw [nodes_succ h0] at h
      rw [nodes_succ h0, nodes_succ h0, h root (Multiset.mem_cons_self _ _)]
      congr 1
      apply Finset.sum_congr rfl
      intro i hi
      apply ih
      intro b hb
      apply h
      rw [← nodes_succ h0]
      exact mem_nodes_slot h0 (Finset.mem_range.1 hi) hb

theorem leaf_congr (h : ∀ b ∈ nodes ent K m lvl root, m' b = m b) (ho : off < K ^ (lvl + 1)) :
    leaf ent K m' lvl root off = leaf ent K m lvl root off := by
  induction lvl generalizing root off with
  | zero =>
    rcases eq_or_ne root 0 with rfl | h0
    · simp
    · rw [leaf_zero h0, leaf_zero h0, h root (root_mem_nodes h0)]
  | succ lvl ih =>
    rcases eq_or_ne root 0 with rfl | h0
    · simp
    · rw [leaf_succ h0, leaf_succ h0, h root (root_mem_nodes h0), fleaf, fleaf]
      have hK : 0 < K ^ (lvl + 1) := by
        have : 0 < K := (Nat.zero_le _).trans_lt (div_lt_of_lt_pow ho)
        positivity
      apply ih
      · exact fun b hb => h b (mem_nodes_slot h0 (div_lt_of_lt_pow ho) hb)
      · exact Nat.mod_lt _ hK

theorem missing_congr (h : ∀ b ∈ nodes ent K m lvl root, m' b = m b) (ho : off < K ^ (lvl + 1)) :
    missing ent K m' lvl root off = missing ent K m lvl root off := by
  induction lvl generalizing root off with
  | zero => rfl
  | succ lvl ih =>
    rcases eq_or_ne root 0 with rfl | h0
    · rw [missing_root_zero, missing_root_zero]
    · have hK : 0 < K ^ (lvl + 1) := by
        have : 0 < K := (Nat.zero_le _).trans_lt (div_lt_of_lt_pow ho)
        positivity
      rw [missing_succ h0, missing_succ h0, h root (root_mem_nodes h0)]
      apply ih
      · exact fun b hb => h b (mem_nodes_slot h0 (div_lt_of_lt_pow ho) hb)
      · exact Nat.mod_lt _ hK

theorem fnodes_congr (h : ∀ b ∈ fnodes ent K m lvl f, m' b = m b) :
    fnodes ent K m' lvl f = fnodes ent K m lvl f := by
  apply Finset.sum_congr rfl
  intro i hi
  apply nodes_congr
  exact fun b hb => h b (mem_fnodes.2 ⟨i, Finset.mem_range.1 hi, hb⟩)

theorem fleaf_congr (h : ∀ b ∈ fnodes ent K m lvl f, m' b = m b) (ho : off < K ^ (lvl + 2)) :
    fleaf ent K m' lvl f off = fleaf ent K m lvl f off := by
  have hK : 0 < K ^ (lvl + 1) := by
    have : 0 < K := (Nat.zero_le _).trans_lt (div_lt_of_lt_pow ho)
    positivity
  apply leaf_congr
  · exact fun b hb => h b (mem_fnodes.2 ⟨_, div_lt_of_lt_pow ho, hb⟩)
  · exact Nat.mod_lt _ hK

/-! ### Forests with other roots -/

/-- A forest without roots has no blocks. -/
theorem fnodes_zero (h : ∀ i < K, f i = 0) : fnodes ent K m lvl f = 0 := by
  apply Finset.sum_eq_zero
  intro i hi
  rw [h i (Finset.mem_range.1 hi), nodes_root_zero]

theorem fleaf_zero (h : ∀ i < K, f i = 0) (ho : off < K ^ (lvl + 2)) :
    fleaf ent K m lvl f off = 0 := by
  rw [fleaf, h _ (div_lt_of_lt_pow ho), leaf_root_zero]

/-- Replacing the tree in one slot exchanges its blocks. -/
theorem fnodes_update {i : ℕ} (hi : i < K) (v : ℕ) :
    fnodes ent K m lvl (Function.update f i v) + nodes ent K m lvl (f i) =
      fnodes ent K m lvl f + nodes ent K m lvl v := by
  have hmem : i ∈ Finset.range K := Finset.mem_range.2 hi
  have hrest : ∑ j ∈ (Finset.range K).erase i, nodes ent K m lvl (Function.update f i v j) =
      ∑ j ∈ (Finset.range K).erase i, nodes ent K m lvl (f j) := by
    apply Finset.sum_congr rfl
    intro j hj
    rw [Function.update_of_ne (Finset.ne_of_mem_erase hj)]
  rw [fnodes, fnodes, ← Finset.add_sum_erase _ _ hmem, ← Finset.add_sum_erase _ _ hmem, hrest,
    Function.update_self]
  abel

/-- The blocks of a forest with the blocks of one of its trees apart. -/
theorem fnodes_eq_add {i : ℕ} (hi : i < K) :
    fnodes ent K m lvl f =
      nodes ent K m lvl (f i) + fnodes ent K m lvl (Function.update f i 0) := by
  have h : fnodes ent K m lvl (Function.update f i 0) + nodes ent K m lvl (f i) =
      fnodes ent K m lvl f + nodes ent K m lvl 0 := fnodes_update hi 0
  rw [nodes_root_zero, add_zero] at h
  rw [← h, add_comm]

theorem nodes_le_fnodes {i : ℕ} (hi : i < K) :
    nodes ent K m lvl (f i) ≤ fnodes ent K m lvl f := by
  rw [fnodes_eq_add hi]
  exact Multiset.le_add_right _ _

/-! ### Paths -/

theorem path_root_zero (m : ℕ → V) (lvl off : ℕ) : path ent K m lvl 0 off = [] := by
  cases lvl <;> simp [path]

theorem path_zero (h : root ≠ 0) : path ent K m 0 root off = [root] := by simp [path, h]

theorem path_succ (h : root ≠ 0) : path ent K m (lvl + 1) root off =
    root :: path ent K m lvl (ent (m root) (off / K ^ (lvl + 1))) (off % K ^ (lvl + 1)) := by
  simp [path, h]

theorem root_mem_path (h : root ≠ 0) : root ∈ path ent K m lvl root off := by
  cases lvl with
  | zero => simp [path_zero h]
  | succ lvl => simp [path_succ h]

/-- Each level of a tree has a block on the way to an offset, or one is missing. -/
theorem length_path_add_missing (m : ℕ → V) (lvl root off : ℕ) :
    (path ent K m lvl root off).length + missing ent K m lvl root off = lvl + 1 := by
  induction lvl generalizing root off with
  | zero =>
    unfold path missing
    split_ifs <;> rfl
  | succ lvl ih =>
    rcases eq_or_ne root 0 with rfl | h0
    · rw [path_root_zero, missing_root_zero, List.length_nil, Nat.zero_add]
    · rw [path_succ h0, missing_succ h0, List.length_cons, Nat.add_right_comm, ih]

theorem mem_nodes_of_mem_path {b : ℕ} (ho : off < K ^ (lvl + 1))
    (hb : b ∈ path ent K m lvl root off) : b ∈ nodes ent K m lvl root := by
  induction lvl generalizing root off with
  | zero =>
    rcases eq_or_ne root 0 with rfl | h0
    · simp [path_root_zero] at hb
    · rw [path_zero h0, List.mem_singleton] at hb
      rw [hb]
      exact root_mem_nodes h0
  | succ lvl ih =>
    rcases eq_or_ne root 0 with rfl | h0
    · simp [path_root_zero] at hb
    · have hK : 0 < K ^ (lvl + 1) := by
        have : 0 < K := (Nat.zero_le _).trans_lt (div_lt_of_lt_pow ho)
        positivity
      rw [path_succ h0, List.mem_cons] at hb
      rw [nodes_succ h0, Multiset.mem_cons, mem_fnodes]
      rcases hb with hb | hb
      · exact .inl hb
      · exact .inr ⟨_, div_lt_of_lt_pow ho, ih (Nat.mod_lt _ hK) hb⟩

theorem path_congr (h : ∀ b ∈ nodes ent K m lvl root, m' b = m b) (ho : off < K ^ (lvl + 1)) :
    path ent K m' lvl root off = path ent K m lvl root off := by
  induction lvl generalizing root off with
  | zero => rfl
  | succ lvl ih =>
    rcases eq_or_ne root 0 with rfl | h0
    · rw [path_root_zero, path_root_zero]
    · have hK : 0 < K ^ (lvl + 1) := by
        have : 0 < K := (Nat.zero_le _).trans_lt (div_lt_of_lt_pow ho)
        positivity
      rw [path_succ h0, path_succ h0, h root (root_mem_nodes h0)]
      congr 1
      apply ih
      · exact fun b hb => h b (mem_nodes_slot h0 (div_lt_of_lt_pow ho) hb)
      · exact Nat.mod_lt _ hK

/-- A block on the way to a leaf that is not zero has a pointer that is not zero. -/
theorem exists_ent_of_mem_path {b : ℕ} (ho : off < K ^ (lvl + 1))
    (hleaf : leaf ent K m lvl root off ≠ 0) (hb : b ∈ path ent K m lvl root off) :
    ∃ i < K, ent (m b) i ≠ 0 := by
  have h0 : root ≠ 0 := by
    rintro rfl
    simp at hleaf
  induction lvl generalizing root off with
  | zero =>
    rw [path_zero h0, List.mem_singleton] at hb
    rw [leaf_zero h0] at hleaf
    exact ⟨off, by simpa using ho, hb ▸ hleaf⟩
  | succ lvl ih =>
    have hK : 0 < K ^ (lvl + 1) := by
      have : 0 < K := (Nat.zero_le _).trans_lt (div_lt_of_lt_pow ho)
      positivity
    rw [leaf_succ h0, fleaf] at hleaf
    have hne : ent (m root) (off / K ^ (lvl + 1)) ≠ 0 := by
      intro he
      rw [he, leaf_root_zero] at hleaf
      exact hleaf rfl
    rw [path_succ h0, List.mem_cons] at hb
    rcases hb with rfl | hb
    · exact ⟨_, div_lt_of_lt_pow ho, hne⟩
    · exact ih (Nat.mod_lt _ hK) hleaf hb hne

/-- The offset in a subtree. -/
theorem slot_div_mod {i o : ℕ} (ho : o < K ^ (lvl + 1)) :
    (i * K ^ (lvl + 1) + o) / K ^ (lvl + 1) = i ∧ (i * K ^ (lvl + 1) + o) % K ^ (lvl + 1) = o := by
  have hK : 0 < K ^ (lvl + 1) := (Nat.zero_le o).trans_lt ho
  rw [Nat.mul_comm, Nat.mul_add_div hK, Nat.div_eq_of_lt ho, Nat.mul_add_mod, Nat.mod_eq_of_lt ho]
  exact ⟨Nat.add_zero i, rfl⟩

theorem slot_lt {i o : ℕ} (hi : i < K) (ho : o < K ^ (lvl + 1)) :
    i * K ^ (lvl + 1) + o < K ^ (lvl + 2) := by
  calc i * K ^ (lvl + 1) + o < i * K ^ (lvl + 1) + K ^ (lvl + 1) := by omega
    _ = (i + 1) * K ^ (lvl + 1) := by rw [Nat.succ_mul]
    _ ≤ K * K ^ (lvl + 1) := Nat.mul_le_mul_right _ hi
    _ = K ^ (lvl + 2) := (pow_succ' K (lvl + 1)).symm

/-- A tree whose blocks all have a pointer that is not zero has a leaf that is not zero. -/
theorem exists_leaf (h0 : root ≠ 0)
    (h : ∀ b ∈ nodes ent K m lvl root, ∃ i < K, ent (m b) i ≠ 0) :
    ∃ off < K ^ (lvl + 1), leaf ent K m lvl root off ≠ 0 := by
  induction lvl generalizing root with
  | zero =>
    obtain ⟨i, hi, hne⟩ := h root (root_mem_nodes h0)
    exact ⟨i, by simpa using hi, by rwa [leaf_zero h0]⟩
  | succ lvl ih =>
    obtain ⟨i, hi, hne⟩ := h root (root_mem_nodes h0)
    obtain ⟨o, ho, hleaf⟩ := ih hne fun b hb => h b (mem_nodes_slot h0 hi hb)
    obtain ⟨hd, hm⟩ := slot_div_mod (i := i) ho
    refine ⟨_, slot_lt hi ho, ?_⟩
    rwa [leaf_succ h0, fleaf, hd, hm]

/-- In such a tree every block is on the way to a leaf that is not zero. -/
theorem exists_mem_path {b : ℕ} (h : ∀ b ∈ nodes ent K m lvl root, ∃ i < K, ent (m b) i ≠ 0)
    (hb : b ∈ nodes ent K m lvl root) :
    ∃ off < K ^ (lvl + 1), leaf ent K m lvl root off ≠ 0 ∧ b ∈ path ent K m lvl root off := by
  have h0 : root ≠ 0 := by
    rintro rfl
    simp at hb
  -- the root is on every path
  have hroot : ∃ off < K ^ (lvl + 1), leaf ent K m lvl root off ≠ 0 ∧
      root ∈ path ent K m lvl root off := by
    obtain ⟨off, ho, hleaf⟩ := exists_leaf h0 h
    exact ⟨off, ho, hleaf, root_mem_path h0⟩
  induction lvl generalizing root with
  | zero =>
    rw [nodes_zero h0, Multiset.mem_singleton] at hb
    rwa [hb]
  | succ lvl ih =>
    rw [nodes_succ h0, Multiset.mem_cons] at hb
    rcases hb with rfl | hb
    · exact hroot
    · obtain ⟨i, hi, hb⟩ := mem_fnodes.1 hb
      have hi0 : ent (m root) i ≠ 0 := by
        intro h
        rw [h, nodes_root_zero] at hb
        exact absurd hb (Multiset.notMem_zero b)
      have hsub : ∀ b ∈ nodes ent K m lvl (ent (m root) i), ∃ i < K, ent (m b) i ≠ 0 :=
        fun b hb => h b (mem_nodes_slot h0 hi hb)
      obtain ⟨o₁, ho₁, hleaf₁⟩ := exists_leaf hi0 hsub
      obtain ⟨o, ho, hleaf, hpath⟩ := ih hsub hb hi0 ⟨o₁, ho₁, hleaf₁, root_mem_path hi0⟩
      obtain ⟨hd, hm⟩ := slot_div_mod (i := i) ho
      refine ⟨_, slot_lt hi ho, ?_, ?_⟩
      · rwa [leaf_succ h0, fleaf, hd, hm]
      · rw [path_succ h0, hd, hm]
        exact List.mem_cons_of_mem _ hpath

/-- A tree that has only lost pointers has the same way to a leaf that is left. -/
theorem path_eq_of_leaf {root' : ℕ} (hr : root' = root ∨ root' = 0)
    (h : ∀ b ∈ nodes ent K m' lvl root', ∀ i < K, ent (m' b) i = ent (m b) i ∨ ent (m' b) i = 0)
    (ho : off < K ^ (lvl + 1)) (hleaf : leaf ent K m' lvl root' off ≠ 0) :
    path ent K m' lvl root' off = path ent K m lvl root off := by
  have h0 : root' ≠ 0 := by
    rintro rfl
    simp at hleaf
  obtain rfl := hr.resolve_right h0
  induction lvl generalizing root' off with
  | zero => rw [path_zero h0, path_zero h0]
  | succ lvl ih =>
    have hK : 0 < K ^ (lvl + 1) := by
      have : 0 < K := (Nat.zero_le _).trans_lt (div_lt_of_lt_pow ho)
      positivity
    have hq := div_lt_of_lt_pow ho
    rw [leaf_succ h0, fleaf] at hleaf
    have hent := h root' (root_mem_nodes h0) _ hq
    have hne : ent (m' root') (off / K ^ (lvl + 1)) ≠ 0 := by
      intro he
      rw [he, leaf_root_zero] at hleaf
      exact hleaf rfl
    have hkept := hent.resolve_right hne
    rw [path_succ h0, path_succ h0, ← hkept]
    congr 1
    exact ih (fun b hb => h b (mem_nodes_slot h0 hq hb)) (Nat.mod_lt _ hK) hleaf hne (.inl rfl)

end RadixTree
