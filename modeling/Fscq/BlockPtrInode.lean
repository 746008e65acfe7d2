import Fscq.BlockPtrGet

/-!
# The block pointers of an inode record

A record has direct pointers and the roots of three trees.  Seen from above it is the list of its
pointers and the set of its index blocks; this module says what reading, growing and shrinking a
record do to them.
-/

namespace Fscq

open CrashProg

namespace BlockPtr

/-! ### The three trees -/

/-- The level of the tree that holds an indirect pointer. -/
def levelOf (off : ℕ) : ℕ :=
  if off < nIndirect then 0 else if off - nIndirect < nIndirect ^ 2 then 1 else 2

/-- The number of indirect pointers. -/
def treesSize : ℕ := nIndirect + nIndirect ^ 2 + nIndirect ^ 3

/-- An indirect pointer, where `r` has the roots of the trees. -/
def treesLeaf (m : Mem) (r : ℕ → ℕ) (off : ℕ) : ℕ :=
  treeLeaf m (levelOf off) (r (levelOf off)) (off - levelStart (levelOf off))

/-- The index blocks on the way to an indirect pointer. -/
def treesPath (m : Mem) (r : ℕ → ℕ) (off : ℕ) : List ℕ :=
  treePath m (levelOf off) (r (levelOf off)) (off - levelStart (levelOf off))

/-- The number of index blocks that are missing on the way to an indirect pointer. -/
def treesMissing (m : Mem) (r : ℕ → ℕ) (off : ℕ) : ℕ :=
  treeMissing m (levelOf off) (r (levelOf off)) (off - levelStart (levelOf off))

/-- The index blocks of the trees. -/
def treesNodes (m : Mem) (r : ℕ → ℕ) : Multiset ℕ := ∑ lvl ∈ Finset.range 3, treeNodes m lvl (r lvl)

theorem levelStart_zero : levelStart 0 = 0 := rfl

theorem levelStart_one : levelStart 1 = nIndirect := by simp [levelStart]

theorem levelStart_two : levelStart 2 = nIndirect + nIndirect ^ 2 := by
  simp [levelStart, List.range_succ]

theorem levelOf_lt (off : ℕ) : levelOf off < 3 := by
  unfold levelOf
  split_ifs <;> decide

/-- The level of a pointer tells the range it is in. -/
theorem levelOf_eq_iff {off lvl : ℕ} (ho : off < treesSize) (hl : lvl < 3) :
    levelOf off = lvl ↔ levelStart lvl ≤ off ∧ off < levelStart lvl + nIndirect ^ (lvl + 1) := by
  unfold treesSize at ho
  have hK : 0 < nIndirect := nIndirect_pos
  unfold levelOf
  obtain rfl | rfl | rfl : lvl = 0 ∨ lvl = 1 ∨ lvl = 2 := by omega
  · rw [levelStart_zero]
    split_ifs <;> simp <;> omega
  · rw [levelStart_one]
    split_ifs <;> simp <;> omega
  · rw [levelStart_two]
    split_ifs <;> simp <;> omega

variable {n : ℕ} {bxp : BallocXparams} {m m' m'' : Mem} {ms ms' ms'' : BmapCacheType}
  {N N' : Multiset ℕ} {W : Set ℕ} {lvl root off nr v : ℕ} {r : ℕ → ℕ} {P : ℕ → Prop}

theorem sub_levelStart_lt (ho : off < treesSize) :
    off - levelStart (levelOf off) < nIndirect ^ (levelOf off + 1) := by
  have := (levelOf_eq_iff ho (levelOf_lt off)).1 rfl
  omega

theorem mem_treesNodes {b : ℕ} : b ∈ treesNodes m r ↔ ∃ lvl < 3, b ∈ treeNodes m lvl (r lvl) := by
  simp [treesNodes, Multiset.mem_sum]

theorem treesNodes_congr (h : ∀ b ∈ treesNodes m r, m' b = m b) :
    treesNodes m' r = treesNodes m r := by
  apply Finset.sum_congr rfl
  intro lvl hl
  apply RadixTree.nodes_congr
  exact fun b hb => h b (mem_treesNodes.2 ⟨lvl, Finset.mem_range.1 hl, hb⟩)

theorem treesLeaf_congr (h : ∀ b ∈ treesNodes m r, m' b = m b) (ho : off < treesSize) :
    treesLeaf m' r off = treesLeaf m r off := by
  apply RadixTree.leaf_congr _ (sub_levelStart_lt ho)
  exact fun b hb => h b (mem_treesNodes.2 ⟨_, levelOf_lt off, hb⟩)

/-- The index blocks of one tree apart from the others. -/
theorem treesNodes_eq_add (hl : lvl < 3) : treesNodes m r = treeNodes m lvl (r lvl) +
    ∑ k ∈ (Finset.range 3).erase lvl, treeNodes m k (r k) :=
  (Finset.add_sum_erase _ _ (Finset.mem_range.2 hl)).symm

/-- Trees of which one has changed, where only blocks of that tree and free blocks have been
written. -/
theorem trees_update (hx : bxp.Ok n) (hl : lvl < 3) (hg : Good bxp m ms (treesNodes m r))
    (hst : BALLOCC.Step bxp W m ms m' ms')
    (hW : ∀ a ∈ W, a ∈ treeNodes m lvl (r lvl) + freeSet m bxp ms) :
    (∃ R, treesNodes m r = treeNodes m lvl (r lvl) + R ∧
      treesNodes m' (Function.update r lvl v) = treeNodes m' lvl v + R ∧ ∀ b ∈ R, m' b = m b) ∧
    ∀ off < treesSize, treesLeaf m' (Function.update r lvl v) off =
      if levelStart lvl ≤ off ∧ off < levelStart lvl + nIndirect ^ (lvl + 1) then
        treeLeaf m' lvl v (off - levelStart lvl)
      else treesLeaf m r off := by
  have hsplit := treesNodes_eq_add (m := m) (r := r) hl
  have hagree : ∀ k < 3, k ≠ lvl → ∀ b ∈ treeNodes m k (r k), m' b = m b := by
    intro k hk hne b hb
    have hbR : b ∈ ∑ k ∈ (Finset.range 3).erase lvl, treeNodes m k (r k) := by
      rw [Multiset.mem_sum]
      exact ⟨k, Finset.mem_erase.2 ⟨hne, Finset.mem_range.2 hk⟩, hb⟩
    have hbN : b ∈ treesNodes m r := mem_treesNodes.2 ⟨k, hk, hb⟩
    apply hst.frame b (hg.not_mem_region hx hbN)
    intro hbW
    have hnd := hg.nodup
    rw [hsplit, add_right_comm] at hnd
    exact Multiset.disjoint_left.1 (Multiset.nodup_add.1 hnd).2.2 (hW b hbW) hbR
  have hrest : ∀ b ∈ ∑ k ∈ (Finset.range 3).erase lvl, treeNodes m k (r k), m' b = m b := by
    intro b hb
    obtain ⟨k, hk, hb⟩ := Multiset.mem_sum.1 hb
    rw [Finset.mem_erase, Finset.mem_range] at hk
    exact hagree k hk.2 hk.1 b hb
  refine ⟨⟨_, hsplit, ?_, hrest⟩, ?_⟩
  · rw [treesNodes_eq_add hl, Function.update_self]
    congr 1
    apply Finset.sum_congr rfl
    intro k hk
    rw [Finset.mem_erase, Finset.mem_range] at hk
    rw [Function.update_of_ne hk.1]
    exact RadixTree.nodes_congr (hagree k hk.2 hk.1)
  · intro off ho
    rw [treesLeaf]
    split_ifs with hin
    · rw [(levelOf_eq_iff ho hl).2 hin, Function.update_self]
    · have hne : levelOf off ≠ lvl := fun h => hin ((levelOf_eq_iff ho hl).1 h)
      rw [Function.update_of_ne hne]
      exact RadixTree.leaf_congr (hagree _ (levelOf_lt off) hne) (sub_levelStart_lt ho)

/-- Clearing pointers of one of the trees. -/
theorem Clears.trees (hx : bxp.Ok n) (hl : lvl < 3) (hg : Good bxp m ms (treesNodes m r))
    (h : Clears bxp (nIndirect ^ (lvl + 1)) P m ms (treeNodes m lvl (r lvl))
      (treeLeaf m lvl (r lvl)) m' ms' (treeNodes m' lvl v) (treeLeaf m' lvl v)) :
    Clears bxp treesSize (fun off => (levelStart lvl ≤ off ∧
      off < levelStart lvl + nIndirect ^ (lvl + 1)) ∧ P (off - levelStart lvl)) m ms
      (treesNodes m r) (treesLeaf m r) m' ms' (treesNodes m' (Function.update r lvl v))
      (treesLeaf m' (Function.update r lvl v)) := by
  obtain ⟨⟨R, hR, hR', -⟩, hleaf⟩ := trees_update (v := v) hx hl hg h.step
    fun a ha => Multiset.mem_add.2 (.inl ha)
  constructor
  · apply h.step.mono
    intro b hb
    rw [Set.mem_ofPred_eq, hR]
    exact Multiset.mem_add.2 (.inl hb)
  · rintro off ho ⟨hin, hP⟩
    rw [hleaf off ho, if_pos hin]
    exact h.cleared _ (by omega) hP
  · intro off ho hP
    rw [hleaf off ho]
    split_ifs with hin
    · rw [h.kept _ (by omega) fun hP' => hP ⟨hin, hP'⟩, treesLeaf, (levelOf_eq_iff ho hl).2 hin]
    · rfl
  · rw [hR', hR, add_right_comm, h.acc, add_right_comm]
  · rw [hR', hR]
    exact add_le_add_left h.sub _

/-- Setting a pointer of one of the trees. -/
theorem Puts.trees {p : ℕ} (hx : bxp.Ok n) (hl : lvl < 3) (hg : Good bxp m ms (treesNodes m r))
    (ho : off < treesSize) (hlevel : levelOf off = lvl)
    (h : Puts bxp lvl (off - levelStart lvl) p m ms (r lvl) m' ms' v) :
    BALLOCC.Step bxp {a | a ∈ treesNodes m r + freeSet m bxp ms} m ms m' ms' ∧
    (∀ o < treesSize, treesLeaf m' (Function.update r lvl v) o =
      if o = off then p else treesLeaf m r o) ∧
    treesNodes m' (Function.update r lvl v) + freeSet m' bxp ms' =
      treesNodes m r + freeSet m bxp ms ∧
    (∀ k, r k ≠ 0 → Function.update r lvl v k = r k) ∧
    Adds (treesPath m r off) (treesNodes m r) (treesMissing m r off)
      (treesPath m' (Function.update r lvl v) off) (treesNodes m' (Function.update r lvl v)) ∧
    (treesLeaf m r off = 0 → Gains m m' (treesNodes m r)) := by
  obtain ⟨⟨R, hR, hR', hRm⟩, hleaf⟩ := trees_update (v := v) hx hl hg h.step fun a ha => ha
  have hin := (levelOf_eq_iff ho hl).1 hlevel
  refine ⟨?_, ?_, ?_, ?_, ?_, ?_⟩
  · apply h.step.mono
    intro b hb
    rw [Set.mem_ofPred_eq, hR, add_right_comm]
    exact Multiset.mem_add.2 (.inl hb)
  · intro o hlo
    rw [hleaf o hlo]
    have heq : ∀ s : ℕ, s ≤ o → s ≤ off → (o - s = off - s ↔ o = off) := fun s _ _ => by omega
    by_cases hino : levelStart lvl ≤ o ∧ o < levelStart lvl + nIndirect ^ (lvl + 1)
    · rw [if_pos hino, h.leaf _ (by omega)]
      simp only [heq _ hino.1 hin.1]
      split_ifs
      · rfl
      · rw [treesLeaf, (levelOf_eq_iff hlo hl).2 hino]
    · have hne : o ≠ off := by
        rintro rfl
        exact hino hin
      rw [if_neg hino, if_neg hne]
  · rw [hR', hR, add_right_comm, h.acc, add_right_comm]
  · intro k hk
    rcases eq_or_ne k lvl with rfl | hne
    · rw [Function.update_self, h.root_eq hk]
    · exact Function.update_of_ne hne _ _
  · obtain ⟨new, hpath, hN, hlen⟩ := h.adds
    refine ⟨new, ?_, ?_, ?_⟩
    · rw [treesPath, treesPath, hlevel, Function.update_self]
      exact hpath
    · rw [hR', hR, hN, add_right_comm]
    · rw [treesMissing, hlevel, hlen]
  · intro hnull b hb
    rw [treesLeaf, hlevel] at hnull
    rw [hR, Multiset.mem_add] at hb
    rcases hb with hb | hb
    · exact h.gains hnull b hb
    · rw [hRm b hb]
      exact .refl _

/-! ## Records -/

section

variable {IRec IAttr : Type} (B : BlockPtrSig IRec IAttr)

/-- The roots of the trees of a record. -/
def roots (ir : IRec) : ℕ → ℕ
  | 0 => B.irIndPtr ir
  | 1 => B.irDindPtr ir
  | _ => B.irTindPtr ir

/-- The pointer of a record at an offset. -/
def ptr (m : Mem) (ir : IRec) (off : ℕ) : ℕ :=
  if off < B.nDirect then ptrs (B.irBlocks ir) off else treesLeaf m (roots B ir) (off - B.nDirect)

/-- The index blocks of a record. -/
def recNodes (m : Mem) (ir : IRec) : Multiset ℕ := treesNodes m (roots B ir)

/-- The blocks of a file. -/
def recBlocks (m : Mem) (ir : IRec) : List ℕ := (List.range (B.irLen ir)).map (ptr B m ir)

/-- The number of index blocks that are missing on the way to a pointer of a record. -/
def recMissing (m : Mem) (ir : IRec) (off : ℕ) : ℕ :=
  if off < B.nDirect then 0 else treesMissing m (roots B ir) (off - B.nDirect)

/-- The index blocks on the way to a pointer of a record. -/
def recPath (m : Mem) (ir : IRec) (off : ℕ) : List ℕ :=
  if off < B.nDirect then [] else treesPath m (roots B ir) (off - B.nDirect)

variable {B} {ir ir' : IRec} {bn : Waddr}

@[simp] theorem length_recBlocks : (recBlocks B m ir).length = B.irLen ir := by simp [recBlocks]

theorem nBlocks_eq : nBlocks B = B.nDirect + treesSize := by
  rw [nBlocks, treesSize]
  ring

theorem nBlocks_lt : nBlocks B < 2 ^ addrlen := by
  have h : B.nDirect ≤ 64 := B.nDirect_bound
  rw [nBlocks, nIndirect_is]
  calc B.nDirect + 512 + 512 ^ 2 + 512 ^ 3 ≤ 64 + 512 + 512 ^ 2 + 512 ^ 3 := by omega
    _ < 2 ^ addrlen := by decide

theorem sub_lt_treesSize (ho : off < nBlocks B) (hd : ¬ off < B.nDirect) :
    off - B.nDirect < treesSize := by
  rw [nBlocks_eq] at ho
  omega

theorem roots_lt (ir : IRec) (lvl : ℕ) : roots B ir lvl < 2 ^ addrlen := by
  unfold roots
  split
  · exact B.indPtr_lt ir
  · exact B.dindPtr_lt ir
  · exact B.tindPtr_lt ir

theorem roots_updIRec {len i d t : ℕ} {bns : List Waddr} (hi : i < 2 ^ addrlen)
    (hd : d < 2 ^ addrlen) (ht : t < 2 ^ addrlen) (hl : lvl < 3) :
    roots B (B.updIRec ir len i d t bns) lvl = if lvl = 0 then i else if lvl = 1 then d else t := by
  obtain rfl | rfl | rfl : lvl = 0 ∨ lvl = 1 ∨ lvl = 2 := by omega
  · exact B.indPtr_updIRec ir len i d t bns hi
  · exact B.dindPtr_updIRec ir len i d t bns hd
  · exact B.tindPtr_updIRec ir len i d t bns ht

theorem treesNodes_roots {r' : ℕ → ℕ} (h : ∀ lvl < 3, r' lvl = r lvl) :
    treesNodes m r' = treesNodes m r := by
  apply Finset.sum_congr rfl
  intro lvl hl
  rw [h lvl (Finset.mem_range.1 hl)]

theorem treesLeaf_roots {r' : ℕ → ℕ} (h : ∀ lvl < 3, r' lvl = r lvl) (off : ℕ) :
    treesLeaf m r' off = treesLeaf m r off := by
  rw [treesLeaf, treesLeaf, h _ (levelOf_lt off)]

theorem treesPath_roots {r' : ℕ → ℕ} (h : ∀ lvl < 3, r' lvl = r lvl) (off : ℕ) :
    treesPath m r' off = treesPath m r off := by
  rw [treesPath, treesPath, h _ (levelOf_lt off)]

/-- A pointer has at most three index blocks. -/
theorem length_recPath_add_recMissing_le (m : Mem) (ir : IRec) (off : ℕ) :
    (recPath B m ir off).length + recMissing B m ir off ≤ 3 := by
  unfold recPath recMissing
  split_ifs
  · exact Nat.zero_le 3
  · exact (RadixTree.length_path_add_missing m _ _ _).trans_le (levelOf_lt _)

theorem ptr_congr (h : ∀ b ∈ recNodes B m ir, m' b = m b) (ho : off < nBlocks B) :
    ptr B m' ir off = ptr B m ir off := by
  unfold ptr
  split_ifs with hd
  · rfl
  · exact treesLeaf_congr h (sub_lt_treesSize ho hd)

theorem recNodes_congr (h : ∀ b ∈ recNodes B m ir, m' b = m b) :
    recNodes B m' ir = recNodes B m ir := treesNodes_congr h

theorem recMissing_congr (h : ∀ b ∈ recNodes B m ir, m' b = m b) (ho : off < nBlocks B) :
    recMissing B m' ir off = recMissing B m ir off := by
  rw [recMissing, recMissing]
  split_ifs with hd
  · rfl
  · apply RadixTree.missing_congr
    · exact fun b hb => h b (mem_treesNodes.2 ⟨_, levelOf_lt _, hb⟩)
    · exact sub_levelStart_lt (sub_lt_treesSize ho hd)

theorem recBlocks_congr (h : ∀ b ∈ recNodes B m ir, m' b = m b) (hl : B.irLen ir ≤ nBlocks B) :
    recBlocks B m' ir = recBlocks B m ir := by
  apply List.map_congr_left
  intro off ho
  exact ptr_congr h ((List.mem_range.1 ho).trans_le hl)

/-! ### Reading -/

theorem wp_ptrGet {Q : Waddr → Mem → Prop} (ho : off < nBlocks B)
    (hv : ∀ b ∈ recNodes B m ir, b < n)
    (hQ : ∀ w : Waddr, w.toNat = ptr B m ir off → Q w m) : Txn.wp n (get B ir off) Q m := by
  have hroot : ∀ lvl < 3, ∀ b ∈ treeNodes m lvl (roots B ir lvl), b < n :=
    fun lvl hl b hb => hv b (mem_treesNodes.2 ⟨lvl, hl, hb⟩)
  have hK := nIndirect_pos
  rw [nBlocks] at ho
  unfold ptr at hQ
  unfold get
  dsimp only
  split_ifs with h₁ h₂ h₃
  · rw [if_pos h₁] at hQ
    exact wp_pure (hQ _ rfl)
  · rw [if_neg h₁, treesLeaf, levelOf, if_pos h₂] at hQ
    exact wp_indget 0 _ _ _ (by simpa using h₂) (hroot 0 (by decide)) hQ
  · rw [if_neg h₁, treesLeaf, levelOf, if_neg h₂, if_pos h₃, levelStart_one] at hQ
    exact wp_indget 1 _ _ _ h₃ (hroot 1 (by decide)) hQ
  · rw [if_neg h₁, treesLeaf, levelOf, if_neg h₂, if_neg h₃, levelStart_two, ← Nat.sub_sub] at hQ
    have h₄ : off - B.nDirect - nIndirect - nIndirect ^ 2 < nIndirect ^ 3 := by omega
    exact wp_indget 2 _ _ _ h₄ (hroot 2 (by decide)) hQ

theorem map_toNat_take {l : List Waddr} {k : ℕ} {f : ℕ → ℕ} (hk : k ≤ l.length)
    (h : ∀ i < k, ptrs l i = f i) : (l.take k).map BitVec.toNat = (List.range k).map f := by
  apply List.ext_getElem
  · simp [hk]
  · intro i h₁ h₂
    have hi : i < k := by simpa using h₂
    rw [List.getElem_map, List.getElem_take, List.getElem_map, List.getElem_range, ← h i hi, ptrs,
      List.getD_eq_getElem]

theorem ptrs_append (l l' : List Waddr) (i : ℕ) :
    ptrs (l ++ l') i = if i < l.length then ptrs l i else ptrs l' (i - l.length) := by
  split_ifs with h
  · rw [ptrs, List.getD_append _ _ _ _ h, ptrs]
  · rw [ptrs, List.getD_append_right _ _ _ _ (Nat.not_lt.1 h), ptrs]

/-- The words of the three trees one after the other. -/
theorem ptrs_trees (m : Mem) (r : ℕ → ℕ) (ho : off < treesSize) :
    ptrs (treeWords m 0 (r 0) ++ treeWords m 1 (r 1) ++ treeWords m 2 (r 2)) off =
      treesLeaf m r off := by
  have hK := nIndirect_pos
  unfold treesSize at ho
  rw [ptrs_append, ptrs_append]
  simp only [List.length_append, length_treeWords, Nat.zero_add, pow_one, Nat.reduceAdd]
  unfold treesLeaf levelOf
  by_cases h₁ : off < nIndirect
  · rw [if_pos (by omega), if_pos h₁, if_pos h₁]
    exact ptrs_treeWords m 0 (by simpa using h₁)
  · by_cases h₂ : off - nIndirect < nIndirect ^ 2
    · rw [if_pos (by omega), if_neg h₁, if_neg h₁, if_pos h₂, levelStart_one]
      exact ptrs_treeWords m 1 h₂
    · rw [if_neg (by omega), if_neg h₁, if_neg h₂, levelStart_two]
      have h₃ : off - (nIndirect + nIndirect ^ 2) < nIndirect ^ 3 := by omega
      exact ptrs_treeWords m 2 h₃

theorem wp_ptrRead {Q : List Waddr → Mem → Prop} (hl : B.irLen ir ≤ nBlocks B)
    (hd : (B.irBlocks ir).length = B.nDirect) (hv : ∀ b ∈ recNodes B m ir, b < n)
    (hQ : ∀ l : List Waddr, l.map BitVec.toNat = recBlocks B m ir → Q l m) :
    Txn.wp n (read B ir) Q m := by
  have hroot : ∀ lvl < 3, ∀ b ∈ treeNodes m lvl (roots B ir lvl), b < n :=
    fun lvl hl b hb => hv b (mem_treesNodes.2 ⟨lvl, hl, hb⟩)
  unfold read
  split_ifs with hdir
  · apply wp_pure
    apply hQ
    apply map_toNat_take (hd ▸ hdir)
    intro i hi
    rw [ptr, if_pos (hi.trans_le hdir)]
  · apply wp_bind
    apply wp_indread 0 _ _ (hroot 0 (by decide))
    apply wp_bind
    apply wp_indread 1 _ _ (hroot 1 (by decide))
    apply wp_bind
    apply wp_indread 2 _ _ (hroot 2 (by decide))
    apply wp_pure
    apply hQ
    rw [List.append_assoc, List.append_assoc, ← List.append_assoc (treeWords m 0 _)]
    apply map_toNat_take
    · rw [nBlocks_eq, treesSize] at hl
      simpa [length_treeWords, hd, Nat.add_assoc] using hl
    · intro i hi
      rw [ptrs_append, hd, ptr]
      split_ifs with hid
      · rfl
      · exact ptrs_trees m (roots B ir) (sub_lt_treesSize (hi.trans_le hl) hid)

/-! ### Shrinking -/

theorem wp_indshrinkHelper {Q : BmapCacheType × ℕ → Mem → Prop} {nl : ℕ} (lvl : ℕ) (r : ℕ → ℕ)
    (hx : bxp.Ok n) (hl : lvl < 3) (hr : r lvl < 2 ^ addrlen) (hg : Good bxp m ms (treesNodes m r))
    (hQ : ∀ ms' m' v, v < 2 ^ addrlen →
      Clears bxp treesSize (fun off => (levelStart lvl ≤ off ∧
        off < levelStart lvl + nIndirect ^ (lvl + 1)) ∧ nl ≤ off) m ms (treesNodes m r)
        (treesLeaf m r) m' ms' (treesNodes m' (Function.update r lvl v))
        (treesLeaf m' (Function.update r lvl v)) → Q (ms', v) m') :
    Txn.wp n (indshrinkHelper bxp lvl (r lvl) nl ms) Q m := by
  have hgt : Good bxp m ms (treeNodes m lvl (r lvl)) := by
    apply hg.mono
    rw [treesNodes_eq_add hl]
    exact Multiset.le_add_right _ _
  unfold indshrinkHelper
  dsimp only
  split_ifs with h
  · apply wp_indclear hx lvl _ _ _ _ _ _ hr (by omega) hgt
    intro ms' m' v hv hc
    apply hQ ms' m' v hv
    apply (hc.trees hx hl hg).congr
    intro off ho
    omega
  · apply wp_pure
    apply hQ _ _ _ hr
    rw [Function.update_eq_self]
    apply Clears.refl
    intro off ho hP
    omega

theorem wp_indshrink {Q : BmapCacheType × ℕ × ℕ × ℕ → Mem → Prop} {nl : ℕ} (hx : bxp.Ok n)
    (hg : Good bxp m ms (recNodes B m ir))
    (hQ : ∀ ms' m' (r : ℕ → ℕ), (∀ lvl < 3, r lvl < 2 ^ addrlen) →
      Clears bxp treesSize (fun off => nl ≤ off) m ms (recNodes B m ir)
        (treesLeaf m (roots B ir)) m' ms' (treesNodes m' r) (treesLeaf m' r) →
      Q (ms', r 0, r 1, r 2) m') :
    Txn.wp n (indshrink B bxp ir nl ms) Q m := by
  have hr := roots_lt (B := B) ir
  unfold indshrink
  apply wp_bind
  apply wp_indshrinkHelper 0 (roots B ir) hx (by decide) (hr 0) hg
  intro ms₁ m₁ i hi hc₁
  dsimp only
  apply wp_bind
  apply wp_indshrinkHelper 1 (Function.update (roots B ir) 0 i) hx (by decide) (hr 1) (hc₁.good hg)
  intro ms₂ m₂ d hd hc₂
  have hc₁₂ := hc₁.trans hc₂
  dsimp only
  apply wp_bind
  apply wp_indshrinkHelper 2 (Function.update (Function.update (roots B ir) 0 i) 1 d) hx (by decide)
    (hr 2) (hc₁₂.good hg)
  intro ms₃ m₃ t ht hc₃
  apply wp_pure
  apply hQ ms₃ m₃ (Function.update (Function.update (Function.update (roots B ir) 0 i) 1 d) 2 t)
  · intro lvl hl
    obtain rfl | rfl | rfl : lvl = 0 ∨ lvl = 1 ∨ lvl = 2 := by omega
    · exact hi
    · exact hd
    · exact ht
  · apply (hc₁₂.trans hc₃).congr
    intro off ho
    -- every pointer is in the range of one of the levels
    simp only [levelStart_zero, levelStart_one, levelStart_two, Nat.zero_add, Nat.reduceAdd,
      pow_one]
    unfold treesSize at ho
    omega

/-- What shrinking does to a record. -/
structure Shrinks (B : BlockPtrSig IRec IAttr) (bxp : BallocXparams) (nr : ℕ) (m : Mem)
    (ms : BmapCacheType) (ir : IRec) (m' : Mem) (ms' : BmapCacheType) (ir' : IRec) : Prop where
  step : BALLOCC.Step bxp {a | a ∈ recNodes B m ir} m ms m' ms'
  len : B.irLen ir' = B.irLen ir - nr
  attrs : B.irAttrs ir' = B.irAttrs ir
  direct : (B.irBlocks ir').length = B.nDirect
  ptr : ∀ off < B.irLen ir - nr, ptr B m' ir' off = BlockPtr.ptr B m ir off
  acc : recNodes B m' ir' + freeSet m' bxp ms' = recNodes B m ir + freeSet m bxp ms
  sub : recNodes B m' ir' ≤ recNodes B m ir

theorem ptrs_updRangeFast (l : List Waddr) (start len i : ℕ) :
    ptrs (updRangeFast l start len 0) i = if start ≤ i ∧ i < start + len then 0 else ptrs l i := by
  rw [ptrs, ptrs, List.getD_eq_getElem?_getD, getElem?_updRangeFast, List.getD_eq_getElem?_getD]
  rcases Nat.lt_or_ge i l.length with h | h
  · split_ifs <;> first | rfl | omega
  · rw [List.getElem?_eq_none h]
    split_ifs <;> rfl

/-- All pointers of a record from `len` on are null. -/
def NullFrom (B : BlockPtrSig IRec IAttr) (m : Mem) (ir : IRec) (len : ℕ) : Prop :=
  ∀ off < nBlocks B, len ≤ off → ptr B m ir off = 0

/-- Shrinking a record.  If there are no pointers past its end, there are none past its new end. -/
theorem wp_ptrShrink_nullFrom {Q : BmapCacheType × IRec → Mem → Prop} (hx : bxp.Ok n)
    (hd : (B.irBlocks ir).length = B.nDirect) (hl : B.irLen ir ≤ nBlocks B)
    (hg : Good bxp m ms (recNodes B m ir))
    (hQ : ∀ ms' m' ir', Shrinks B bxp nr m ms ir m' ms' ir' →
      (NullFrom B m ir (B.irLen ir) → NullFrom B m' ir' (B.irLen ir - nr)) → Q (ms', ir') m') :
    Txn.wp n (shrink B bxp ir nr ms) Q m := by
  have hlen : B.irLen ir - nr < 2 ^ addrlen := by
    have := B.len_lt ir
    omega
  -- a record whose trees have lost the pointers from the new length on
  have hdone : ∀ ms' m' (r : ℕ → ℕ), (∀ lvl < 3, r lvl < 2 ^ addrlen) →
      BALLOCC.Step bxp {a | a ∈ recNodes B m ir} m ms m' ms' →
      (∀ off < B.irLen ir - nr, B.nDirect ≤ off →
        treesLeaf m' r (off - B.nDirect) = treesLeaf m (roots B ir) (off - B.nDirect)) →
      (NullFrom B m ir (B.irLen ir) → ∀ off < nBlocks B, B.irLen ir - nr ≤ off → B.nDirect ≤ off →
        treesLeaf m' r (off - B.nDirect) = 0) →
      treesNodes m' r + freeSet m' bxp ms' = recNodes B m ir + freeSet m bxp ms →
      treesNodes m' r ≤ recNodes B m ir →
      Q (ms', B.updIRec ir (B.irLen ir - nr) (r 0) (r 1) (r 2)
        (updRangeFast (B.irBlocks ir) (B.irLen ir - nr) (B.nDirect - (B.irLen ir - nr)) 0)) m' := by
    intro ms' m' r hr hst hleaf hnull hacc hsub
    have hroots : ∀ lvl < 3, roots B (B.updIRec ir (B.irLen ir - nr) (r 0) (r 1) (r 2)
        (updRangeFast (B.irBlocks ir) (B.irLen ir - nr) (B.nDirect - (B.irLen ir - nr)) 0)) lvl =
          r lvl := by
      intro lvl hl
      rw [roots_updIRec (hr 0 (by decide)) (hr 1 (by decide)) (hr 2 (by decide)) hl]
      obtain rfl | rfl | rfl : lvl = 0 ∨ lvl = 1 ∨ lvl = 2 := by omega
      all_goals rfl
    apply hQ
    · constructor
      · exact hst
      · exact B.len_updIRec _ _ _ _ _ _ hlen
      · exact B.attrs_updIRec _ _ _ _ _ _
      · rw [B.blocks_updIRec, length_updRangeFast, hd]
      · intro off ho
        rw [ptr, ptr, B.blocks_updIRec, treesLeaf_roots hroots]
        split_ifs with hoff
        · rw [ptrs_updRangeFast, if_neg (by omega)]
        · exact hleaf off ho (Nat.not_lt.1 hoff)
      · rw [recNodes, treesNodes_roots hroots, hacc]
      · rw [recNodes, treesNodes_roots hroots]
        exact hsub
    · intro hn off ho hle
      rw [ptr, B.blocks_updIRec, treesLeaf_roots hroots]
      split_ifs with hoff
      · rw [ptrs_updRangeFast, if_pos (by omega)]
      · exact hnull hn off ho hle (Nat.not_lt.1 hoff)
  unfold shrink
  dsimp only
  split_ifs with hdir
  · apply wp_pure
    apply hdone ms m (roots B ir) (fun lvl _ => roots_lt ir lvl) (AllocSig.Step.refl _ _ _ _ _) _ _
      rfl le_rfl
    · exact fun off ho hoff => by omega
    · -- the trees are past the end
      intro hn off ho _ hoff
      have h := hn off ho (hdir.trans hoff)
      rwa [ptr, if_neg (Nat.not_lt.2 hoff)] at h
  · apply wp_bind
    apply wp_indshrink hx hg
    intro ms' m' r hr hc
    apply wp_pure
    apply hdone ms' m' r hr hc.step _ _ hc.acc hc.sub
    · intro off ho hoff
      apply hc.kept _ (sub_lt_treesSize (by omega) (by omega))
      omega
    · intro _ off ho hle hoff
      apply hc.cleared _ (sub_lt_treesSize ho (Nat.not_lt.2 hoff))
      omega

/-! ### Growing -/

/-- What growing does to a record. -/
structure Grows (B : BlockPtrSig IRec IAttr) (bxp : BallocXparams) (p : ℕ) (m : Mem)
    (ms : BmapCacheType) (ir : IRec) (m' : Mem) (ms' : BmapCacheType) (ir' : IRec) : Prop where
  step : BALLOCC.Step bxp {a | a ∈ recNodes B m ir + freeSet m bxp ms} m ms m' ms'
  len : B.irLen ir' = B.irLen ir + 1
  attrs : B.irAttrs ir' = B.irAttrs ir
  direct : (B.irBlocks ir').length = B.nDirect
  ptr : ∀ off < nBlocks B,
    ptr B m' ir' off = if off = B.irLen ir then p else BlockPtr.ptr B m ir off
  acc : recNodes B m' ir' + freeSet m' bxp ms' = recNodes B m ir + freeSet m bxp ms
  roots : ∀ lvl < 3, roots B ir lvl ≠ 0 → roots B ir' lvl = BlockPtr.roots B ir lvl
  adds : Adds (recPath B m ir (B.irLen ir)) (recNodes B m ir) (recMissing B m ir (B.irLen ir))
    (recPath B m' ir' (B.irLen ir)) (recNodes B m' ir')
  gains : BlockPtr.ptr B m ir (B.irLen ir) = 0 → Gains m m' (recNodes B m ir)

/-- Setting an indirect pointer in the tree it belongs to. -/
theorem wp_indgrow {Q : BmapCacheType × ℕ × ℕ × ℕ × ℕ → Mem → Prop} (hx : bxp.Ok n)
    (ho : off < treesSize) (hg : Good bxp m ms (recNodes B m ir))
    (hQ0 : (freeSet m bxp ms).card < treesMissing m (roots B ir) off →
      ∀ ms' m' i d t, Leaks bxp m ms m' ms' → freeSet m' bxp ms' = 0 → Q (ms', 0, i, d, t) m')
    (hQ : ∀ ms' m' v lvl, v ≠ 0 → v < 2 ^ addrlen → lvl < 3 → levelOf off = lvl →
      Puts bxp lvl (off - levelStart lvl) bn.toNat m ms (roots B ir lvl) m' ms' v →
      Q (ms', v, Function.update (roots B ir) lvl v 0, Function.update (roots B ir) lvl v 1,
        Function.update (roots B ir) lvl v 2) m') :
    Txn.wp n (indgrow B bxp ir off bn ms) Q m := by
  have hgt : ∀ lvl < 3, Good bxp m ms (treeNodes m lvl (roots B ir lvl)) := by
    intro lvl hl
    apply hg.mono
    rw [recNodes, treesNodes_eq_add hl]
    exact Multiset.le_add_right _ _
  -- the tree of level `lvl` is the one
  have hlevel : ∀ {R : BmapCacheType × ℕ → Mem → Prop} (lvl : ℕ), lvl < 3 →
      levelStart lvl ≤ off → off - levelStart lvl < nIndirect ^ (lvl + 1) →
      (∀ ms' m', (∀ i d t, Q (ms', 0, i, d, t) m') → R (ms', 0) m') →
      (∀ ms' m' v, v ≠ 0 → Q (ms', v, Function.update (roots B ir) lvl v 0,
        Function.update (roots B ir) lvl v 1, Function.update (roots B ir) lvl v 2) m' →
        R (ms', v) m') →
      Txn.wp n (indput bxp lvl (roots B ir lvl) (off - levelStart lvl) bn ms) R m := by
    intro R lvl hl hle hlt hR0 hR
    have hlv : levelOf off = lvl := (levelOf_eq_iff ho hl).2 ⟨hle, by omega⟩
    apply wp_indput hx bn lvl _ _ _ _ _ hlt (hgt lvl hl)
    · intro hlack ms' m' hlk hnone
      rw [treesMissing, hlv] at hQ0
      exact hR0 ms' m' fun i d t => hQ0 hlack ms' m' i d t hlk hnone
    · intro ms' m' v hv hvlt hput
      exact hR ms' m' v hv (hQ ms' m' v lvl hv hvlt hl hlv hput)
  have hK := nIndirect_pos
  unfold treesSize at ho
  unfold indgrow
  dsimp only
  split_ifs with h₁ h₂
  · apply wp_bind
    apply hlevel 0 (by decide) (Nat.zero_le _) (by simpa [levelStart_zero] using h₁)
    · exact fun ms' m' h => wp_pure (h _ _ _)
    · exact fun ms' m' v _ h => wp_pure h
  · apply wp_bind
    have hlt : off - levelStart 1 < nIndirect ^ 2 := by rwa [levelStart_one]
    have h := hlevel 1 (by decide) (by rw [levelStart_one]; omega) hlt
      (R := fun v m' => Txn.wp n (pure (v.1, v.2, B.irIndPtr ir, v.2, B.irTindPtr ir)) Q m')
      (fun ms' m' h => wp_pure (h _ _ _)) (fun ms' m' v _ h => wp_pure h)
    rw [levelStart_one] at h
    exact h
  · apply wp_bind
    have hlt : off - levelStart 2 < nIndirect ^ 3 := by
      rw [levelStart_two]
      omega
    have h := hlevel 2 (by decide) (by rw [levelStart_two]; omega) hlt
      (R := fun v m' => Txn.wp n (pure (v.1, v.2, B.irIndPtr ir, B.irDindPtr ir, v.2)) Q m')
      (fun ms' m' h => wp_pure (h _ _ _)) (fun ms' m' v _ h => wp_pure h)
    rw [levelStart_two, ← Nat.sub_sub] at h
    exact h

/-- A record grows unless there are not enough free blocks for the missing index blocks. -/
theorem wp_ptrGrow {Q : BmapCacheType × Res IRec → Mem → Prop} (hx : bxp.Ok n)
    (hd : (B.irBlocks ir).length = B.nDirect) (hl : B.irLen ir < nBlocks B) (hbn : bn ≠ 0)
    (hg : Good bxp m ms (recNodes B m ir))
    (hQe : (freeSet m bxp ms).card < recMissing B m ir (B.irLen ir) →
      ∀ ms' m', Leaks bxp m ms m' ms' → freeSet m' bxp ms' = 0 → Q (ms', .error .ENOSPCBLOCK) m')
    (hQ : ∀ ms' m' ir', Grows B bxp bn.toNat m ms ir m' ms' ir' → Q (ms', .ok ir') m') :
    Txn.wp n (grow B bxp ir bn ms) Q m := by
  have hlen : B.irLen ir + 1 < 2 ^ addrlen := lt_of_le_of_lt hl nBlocks_lt
  unfold grow
  dsimp only
  split_ifs with hdir
  · apply wp_pure
    apply hQ
    have hroots : ∀ lvl < 3, roots B (B.updIRec ir (B.irLen ir + 1) (B.irIndPtr ir) (B.irDindPtr ir)
        (B.irTindPtr ir) ((B.irBlocks ir).set (B.irLen ir) bn)) lvl = roots B ir lvl := by
      intro lvl hl
      rw [roots_updIRec (B.indPtr_lt ir) (B.dindPtr_lt ir) (B.tindPtr_lt ir) hl]
      obtain rfl | rfl | rfl : lvl = 0 ∨ lvl = 1 ∨ lvl = 2 := by omega
      all_goals rfl
    constructor
    · exact AllocSig.Step.refl _ _ _ _ _
    · exact B.len_updIRec _ _ _ _ _ _ hlen
    · exact B.attrs_updIRec _ _ _ _ _ _
    · rw [B.blocks_updIRec, List.length_set, hd]
    · intro off _
      rw [ptr, ptr, B.blocks_updIRec, treesLeaf_roots hroots]
      split_ifs with hoff he he
      · rw [he, ptrs_set_word (hd ▸ hdir), Function.update_self]
      · rw [ptrs_set_word (hd ▸ hdir), Function.update_of_ne he]
      · omega
      · rfl
    · rw [recNodes, treesNodes_roots hroots, recNodes]
    · exact fun lvl hl _ => hroots lvl hl
    · rw [recPath, recPath, if_pos hdir, if_pos hdir, recMissing, if_pos hdir, recNodes, recNodes,
        treesNodes_roots hroots]
      exact Adds.refl _ _
    · exact fun _ b _ => .refl _
  · apply wp_bind
    apply wp_indgrow hx (sub_lt_treesSize hl hdir) hg
    · intro hlack ms' m' i d t hlk hnone
      dsimp only
      rw [if_pos rfl]
      refine wp_pure (hQe ?_ _ _ hlk hnone)
      rw [recMissing, if_neg hdir]
      exact hlack
    · intro ms' m' v lvl hv hvlt hlvl hlevel hput
      dsimp only
      rw [if_neg hv]
      apply wp_pure
      apply hQ
      obtain ⟨hst, hleaf, hacc, hold, hadds, hgains⟩ :=
        hput.trees hx hlvl hg (sub_lt_treesSize hl hdir) hlevel
      have hr : ∀ k, Function.update (roots B ir) lvl v k < 2 ^ addrlen := by
        intro k
        rw [Function.update_apply]
        split_ifs
        · exact hvlt
        · exact roots_lt ir k
      have hroots : ∀ k < 3, roots B (B.updIRec ir (B.irLen ir + 1)
          (Function.update (roots B ir) lvl v 0) (Function.update (roots B ir) lvl v 1)
          (Function.update (roots B ir) lvl v 2) (B.irBlocks ir)) k =
            Function.update (roots B ir) lvl v k := by
        intro k hk
        rw [roots_updIRec (hr 0) (hr 1) (hr 2) hk]
        obtain rfl | rfl | rfl : k = 0 ∨ k = 1 ∨ k = 2 := by omega
        all_goals rfl
      constructor
      · exact hst
      · exact B.len_updIRec _ _ _ _ _ _ hlen
      · exact B.attrs_updIRec _ _ _ _ _ _
      · rw [B.blocks_updIRec, hd]
      · intro off ho
        rw [ptr, ptr, B.blocks_updIRec, treesLeaf_roots hroots]
        split_ifs with hoff he he
        · omega
        · rfl
        · rw [hleaf _ (sub_lt_treesSize ho hoff), if_pos (by omega)]
        · rw [hleaf _ (sub_lt_treesSize ho hoff), if_neg (by omega)]
      · rw [recNodes, treesNodes_roots hroots, hacc]
        rfl
      · exact fun k hk h0 => (hroots k hk).trans (hold k h0)
      · rw [recPath, recPath, if_neg hdir, if_neg hdir, recMissing, if_neg hdir, recNodes, recNodes,
          treesNodes_roots hroots, treesPath_roots hroots]
        exact hadds
      · rw [ptr, if_neg hdir]
        exact hgains

theorem atMost_ptrGrow (bxp : BallocXparams) (ir : IRec) (bn : Waddr) (ms : BmapCacheType) :
    Txn.AtMost 6 (grow B bxp ir bn ms) := by
  have hput : ∀ lvl < 3, ∀ root off, Txn.AtMost 6 (indput bxp lvl root off bn ms) :=
    fun lvl hl root off => (atMost_indput bxp bn lvl root off ms).mono (by omega)
  unfold grow
  dsimp only
  split_ifs
  · exact Txn.atMost_pure 6 _
  · exact Txn.atMost_pure 6 _
  · apply Txn.AtMost.bind (j := 6) (k := 0)
    · unfold indgrow
      dsimp only
      split_ifs
      · exact (hput 0 (by decide) _ _).bind fun _ => Txn.atMost_pure 0 _
      · exact (hput 1 (by decide) _ _).bind fun _ => Txn.atMost_pure 0 _
      · exact (hput 2 (by decide) _ _).bind fun _ => Txn.atMost_pure 0 _
    · rintro ⟨ms', v, i, d, t⟩
      dsimp only
      split_ifs
      · exact Txn.atMost_pure 0 _
      · exact Txn.atMost_pure 0 _

end

end BlockPtr

end Fscq
