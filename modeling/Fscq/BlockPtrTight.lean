import Fscq.BlockPtrInode

/-!
# The index blocks that a record needs

The programs that clear pointers only ever make pointers null, and they never write an index block
whose pointers are all null: it is freed instead.  So a block that stays is on the same way to the
same pointers as before, and one that has lost them all is gone.  A record that has no other index
blocks than those on the way to a pointer, and no pointers past its end, is tight, and it stays tight
when it grows or shrinks.
-/

namespace Fscq

open CrashProg

namespace BlockPtr

/-! ### Losing pointers -/

/-- Below an address, the index blocks have only lost pointers, and none of those that have changed
is left without pointers. -/
def Thins (lo : ℕ) (m m' : Mem) : Prop :=
  ∀ b < lo, m' b = m b ∨
    ents (m' b) ≠ List.replicate nIndirect 0 ∧ Loses (ent (m b)) (ent (m' b))

/-- Every one of the blocks has a pointer. -/
def AllHold (m : Mem) (N : Multiset ℕ) : Prop :=
  ∀ b ∈ N, ents (m b) ≠ List.replicate nIndirect 0

variable {bxp : BallocXparams} {m m' m'' : Mem} {ms : BmapCacheType} {lo lvl root bn : ℕ}
  {l : List Waddr} {f f' f'' : ℕ → ℕ}

theorem Loses.trans (h : Loses f f') (h' : Loses f' f'') : Loses f f'' := by
  intro i
  rcases h' i with e | e
  · rw [e]
    exact h i
  · exact .inr e

theorem loses_updRange (l : List Waddr) (start len : ℕ) :
    Loses (ptrs l) (ptrs (updRange l start len 0)) := by
  intro i
  rw [ptrs_updRange]
  split_ifs
  · exact .inr rfl
  · exact .inl rfl

theorem loses_set {q v : ℕ} (hv : v = ptrs l q ∨ v = 0) :
    Loses (ptrs l) (ptrs (l.set q (addr2w v))) := by
  rcases Nat.lt_or_ge q l.length with hq | hq
  · have hlt : v < 2 ^ addrlen := by
      rcases hv with rfl | rfl
      · exact ptrs_lt l q
      · positivity
    rw [ptrs_set hq hlt]
    intro i
    rcases eq_or_ne i q with rfl | hi
    · rwa [Function.update_self]
    · exact .inl (Function.update_of_ne hi _ _)
  · rw [List.set_eq_of_length_le hq]
    exact .refl _

theorem Thins.refl (lo : ℕ) (m : Mem) : Thins lo m m := fun _ _ => .inl rfl

theorem Thins.trans (h : Thins lo m m') (h' : Thins lo m' m'') : Thins lo m m'' := by
  intro b hb
  rcases h' b hb with e | ⟨hne, hl⟩
  · rw [e]
    exact h b hb
  · right
    refine ⟨hne, ?_⟩
    rcases h b hb with e | ⟨-, hl'⟩
    · rwa [← e]
    · exact hl'.trans hl

theorem Thins.loses (h : Thins lo m m') {b : ℕ} (hb : b < lo) :
    Loses (ent (m b)) (ent (m' b)) := by
  rcases h b hb with e | ⟨-, hl⟩
  · rw [e]
    exact .refl _
  · exact hl

theorem Thins.allHold {N N' : Multiset ℕ} (h : Thins lo m m') (hN : AllHold m N) (hs : N' ≤ N)
    (hlt : ∀ b ∈ N', b < lo) : AllHold m' N' := by
  intro b hb
  rcases h b (hlt b hb) with e | ⟨hne, -⟩
  · rw [e]
    exact hN b (Multiset.mem_of_le hs hb)
  · exact hne

theorem AllHold.exists_ent {N : Multiset ℕ} (h : AllHold m N) {b : ℕ} (hb : b ∈ N) :
    ∃ i < nIndirect, ent (m b) i ≠ 0 := by
  by_contra hc
  simp only [not_exists, not_and, not_not] at hc
  apply h b hb
  apply ext_ptrs (by simp)
  intro i hi
  rw [ptrs_replicate]
  exact hc i (by simpa using hi)

/-! ### The programs -/

theorem run_indWrite (h0 : bn ≠ 0) (hl : l.length = nIndirect) (m : Mem) :
    (Txn.run (IndRec.write bn l) m).2 = Function.update m bn (packEnts l) :=
  Txn.wp_run (wp_indWrite (Q := fun _ m' => m' = Function.update m bn (packEnts l)) h0
    (Nat.lt_succ_self bn) hl rfl)

theorem does_indRead {Q : List Waddr → Mem → Prop} (h : Q (ents (m bn)) m) :
    Txn.Does (IndRec.read bn) Q m := Txn.wp_run (wp_indRead (Nat.lt_succ_self bn) h)

theorem above_free (bxp : BallocXparams) (bn : ℕ) (ms : BmapCacheType) :
    Txn.Above bxp.bmapStart (BALLOCC.free bxp bn ms) :=
  (AllocSig.above_bmapFree bxp bn).bind fun _ => Txn.above_pure _ _

theorem above_indclearAll (bxp : BallocXparams) (lvl : ℕ) : ∀ (root : ℕ) (ms : BmapCacheType),
    Txn.Above bxp.bmapStart (indclearAll bxp lvl root ms) := by
  induction lvl with
  | zero =>
    intro root ms
    unfold indclearAll
    split_ifs
    · exact Txn.above_pure _ _
    · exact above_free bxp root ms
  | succ lvl ih =>
    intro root ms
    unfold indclearAll
    split_ifs
    · exact Txn.above_pure _ _
    · apply ((atMost_indRead root).above _).bind
      intro indbns
      apply (Txn.above_forEach (fun w ms => ih w.toNat ms) indbns ms).bind
      exact fun ms' => above_free bxp root ms'

theorem above_indclearAligned (bxp : BallocXparams) (lvl : ℕ) (l : List Waddr) (start len : ℕ)
    (ms : BmapCacheType) : Txn.Above bxp.bmapStart (indclearAligned bxp lvl l start len ms) := by
  unfold indclearAligned
  exact Txn.above_forEach (fun (w : Waddr) ms => above_indclearAll bxp lvl w.toNat ms) _ ms

theorem Thins.of_eq (h : ∀ b < lo, m' b = m b) : Thins lo m m' := fun b hb => .inl (h b hb)

/-- A block is written with pointers that it had at the start, or freed. -/
theorem thins_updateBlock {m₀ : Mem} {new : List Waddr} (h0 : bn ≠ 0)
    (hlen : new.length = nIndirect) (h : Thins bxp.bmapStart m₀ m)
    (hnew : Loses (ent (m₀ bn)) (ptrs new)) (contents : List Waddr) (ms : BmapCacheType) :
    Txn.Does (updateBlock bxp bn contents new ms)
      (fun r m' => Thins bxp.bmapStart m₀ m' ∧ (r.2 = bn ∨ r.2 = 0)) m := by
  unfold updateBlock
  split_ifs with hz heq
  · apply Txn.does_bind
    apply ((above_free bxp bn ms).does m).post
    intro ms' m' hm
    exact Txn.does_pure ⟨h.trans (.of_eq hm), .inr rfl⟩
  · exact Txn.does_pure ⟨h, .inl rfl⟩
  · apply Txn.does_bind
    rw [Txn.Does, run_indWrite h0 hlen]
    refine Txn.does_pure ⟨?_, .inl rfl⟩
    intro b hb
    rcases eq_or_ne b bn with rfl | hne
    · have hent : ent (packEnts new) = ptrs new := by rw [ent, ents_packEnts hlen]
      right
      rw [Function.update_self, hent, ents_packEnts hlen]
      exact ⟨hz, hnew⟩
    · rw [Function.update_of_ne hne]
      exact h b hb

/-- What clearing pointers of a forest leaves. -/
def Trims (bxp : BallocXparams) (m : Mem) (l : List Waddr) (l' : List Waddr) (m' : Mem) : Prop :=
  Thins bxp.bmapStart m m' ∧ Loses (ptrs l) (ptrs l') ∧ l'.length = l.length

theorem Trims.refl (bxp : BallocXparams) (m : Mem) (l : List Waddr) : Trims bxp m l l m :=
  ⟨.refl _ _, .refl _, rfl⟩

/-- The block in a slot is replaced. -/
theorem trims_slot {q : ℕ} {r : BmapCacheType × ℕ} (h : Thins bxp.bmapStart m m')
    (hr : r.2 = ptrs l q ∨ r.2 = 0) : Trims bxp m l (l.set q (addr2w r.2)) m' :=
  ⟨h, loses_set hr, List.length_set⟩

theorem trims_indclearFromAligned (bxp : BallocXparams) (lvl : ℕ) :
    ∀ (l : List Waddr) (start len : ℕ) (ms : BmapCacheType) (m : Mem),
      Txn.Does (indclearFromAligned bxp lvl l start len ms) (fun r m' => Trims bxp m l r.2 m') m := by
  induction lvl with
  | zero =>
    intro l start len ms m
    unfold indclearFromAligned
    dsimp only
    split_ifs with h0 hr
    · exact Txn.does_pure (.refl bxp m l)
    · exact Txn.does_pure (.refl bxp m l)
    · apply Txn.does_bind
      apply does_indRead
      apply Txn.does_bind
      apply (thins_updateBlock hr (by simp) (.refl _ m) (loses_updRange _ _ _) _ ms).post
      rintro ⟨ms', v⟩ m' ⟨ht, hv⟩
      exact Txn.does_pure (trims_slot ht hv)
  | succ lvl ih =>
    intro l start len ms m
    unfold indclearFromAligned
    dsimp only
    split_ifs with h0 hr
    · exact Txn.does_pure (.refl bxp m l)
    · exact Txn.does_pure (.refl bxp m l)
    · apply Txn.does_bind
      apply does_indRead
      apply Txn.does_bind
      apply ((above_indclearAligned bxp lvl _ _ _ ms).does m).post
      intro ms₁ m₁ hm₁
      apply Txn.does_bind
      apply (ih _ _ _ ms₁ m₁).post
      rintro ⟨ms₂, l₂⟩ m₂ ⟨ht₂, hl₂, hlen₂⟩
      apply Txn.does_bind
      apply (thins_updateBlock hr (by simpa using hlen₂) ((Thins.of_eq hm₁).trans ht₂)
        ((loses_updRange _ _ _).trans hl₂) _ ms₂).post
      rintro ⟨ms', v⟩ m' ⟨ht, hv⟩
      exact Txn.does_pure (trims_slot ht hv)

theorem trims_indclearToAligned (bxp : BallocXparams) (lvl : ℕ) :
    ∀ (l : List Waddr) (start : ℕ) (ms : BmapCacheType) (m : Mem),
      Txn.Does (indclearToAligned bxp lvl l start ms) (fun r m' => Trims bxp m l r.2 m') m := by
  induction lvl with
  | zero =>
    intro l start ms m
    unfold indclearToAligned
    dsimp only
    split_ifs with h0 hr
    · exact Txn.does_pure (.refl bxp m l)
    · exact Txn.does_pure (.refl bxp m l)
    · apply Txn.does_bind
      apply does_indRead
      apply Txn.does_bind
      apply (thins_updateBlock hr (by simp) (.refl _ m) (loses_updRange _ _ _) _ ms).post
      rintro ⟨ms', v⟩ m' ⟨ht, hv⟩
      exact Txn.does_pure (trims_slot ht hv)
  | succ lvl ih =>
    intro l start ms m
    unfold indclearToAligned
    dsimp only
    split_ifs with h0 hr
    · exact Txn.does_pure (.refl bxp m l)
    · exact Txn.does_pure (.refl bxp m l)
    · apply Txn.does_bind
      apply does_indRead
      apply Txn.does_bind
      apply (ih _ _ ms m).post
      rintro ⟨ms₁, l₁⟩ m₁ ⟨ht₁, hl₁, hlen₁⟩
      apply Txn.does_bind
      apply ((above_indclearAligned bxp lvl l₁ _ _ ms₁).does m₁).post
      intro ms₂ m₂ hm₂
      apply Txn.does_bind
      apply (thins_updateBlock hr (by simpa using hlen₁) (ht₁.trans (.of_eq hm₂))
        (hl₁.trans (loses_updRange _ _ _)) _ ms₂).post
      rintro ⟨ms', v⟩ m' ⟨ht, hv⟩
      exact Txn.does_pure (trims_slot ht hv)

theorem trims_indclearMultipleBlocks (bxp : BallocXparams) (lvl : ℕ) (l : List Waddr)
    (start len : ℕ) (ms : BmapCacheType) (m : Mem) :
    Txn.Does (indclearMultipleBlocks bxp lvl l start len ms)
      (fun r m' => Trims bxp m l r.2 m') m := by
  unfold indclearMultipleBlocks
  apply Txn.does_bind
  apply (trims_indclearToAligned bxp lvl l start ms m).post
  rintro ⟨ms₁, l₁⟩ m₁ ⟨ht₁, hl₁, hlen₁⟩
  apply Txn.does_bind
  apply ((above_indclearAligned bxp lvl l₁ _ _ ms₁).does m₁).post
  intro ms₂ m₂ hm₂
  apply (trims_indclearFromAligned bxp lvl _ _ _ ms₂ m₂).post
  rintro ⟨ms', l'⟩ m' ⟨ht, hl, hlen⟩
  refine ⟨(ht₁.trans (.of_eq hm₂)).trans ht, (hl₁.trans (loses_updRange _ _ _)).trans hl, ?_⟩
  rw [hlen, length_updRange, hlen₁]

theorem thins_indclear (bxp : BallocXparams) (lvl : ℕ) :
    ∀ (root start len : ℕ) (ms : BmapCacheType) (m : Mem),
      Txn.Does (indclear bxp lvl root start len ms)
        (fun r m' => Thins bxp.bmapStart m m' ∧ (r.2 = root ∨ r.2 = 0)) m := by
  induction lvl with
  | zero =>
    intro root start len ms m
    unfold indclear
    split_ifs with h0 hlen
    · exact Txn.does_pure ⟨.refl _ m, .inr rfl⟩
    · exact Txn.does_pure ⟨.refl _ m, .inl rfl⟩
    · apply Txn.does_bind
      apply does_indRead
      exact thins_updateBlock h0 (by simp) (.refl _ m) (loses_updRange _ _ _) _ ms
  | succ lvl ih =>
    intro root start len ms m
    unfold indclear
    dsimp only
    split_ifs with h0 hlen hin
    · exact Txn.does_pure ⟨.refl _ m, .inr rfl⟩
    · exact Txn.does_pure ⟨.refl _ m, .inl rfl⟩
    · apply Txn.does_bind
      apply does_indRead
      apply Txn.does_bind
      apply Txn.does_bind
      apply (ih _ _ _ ms m).post
      rintro ⟨ms₁, v⟩ m₁ ⟨ht, hv⟩
      exact Txn.does_pure (thins_updateBlock h0 (by simp) ht (loses_set hv) _ ms₁)
    · apply Txn.does_bind
      apply does_indRead
      apply Txn.does_bind
      apply (trims_indclearMultipleBlocks bxp lvl _ start len ms m).post
      rintro ⟨ms₁, l₁⟩ m₁ ⟨ht, hl, hlen⟩
      exact thins_updateBlock h0 (by simpa using hlen) ht hl _ ms₁

theorem thins_indshrinkHelper (bxp : BallocXparams) (lvl bn nl : ℕ) (ms : BmapCacheType)
    (m : Mem) : Txn.Does (indshrinkHelper bxp lvl bn nl ms)
      (fun r m' => Thins bxp.bmapStart m m' ∧ (r.2 = bn ∨ r.2 = 0)) m := by
  unfold indshrinkHelper
  dsimp only
  split_ifs
  · exact thins_indclear bxp lvl bn _ _ ms m
  · exact Txn.does_pure ⟨.refl _ m, .inl rfl⟩

/-! ### Records -/

section

variable {IRec IAttr : Type} {B : BlockPtrSig IRec IAttr} {ir ir' : IRec} {n nr off : ℕ}
  {l : List Waddr} {ms' : BmapCacheType}

theorem thins_shrink (bxp : BallocXparams) (ir : IRec) (nr : ℕ) (ms : BmapCacheType) (m : Mem) :
    Txn.Does (shrink B bxp ir nr ms) (fun r m' => Thins bxp.bmapStart m m' ∧
      ∀ lvl < 3, roots B r.2 lvl = roots B ir lvl ∨ roots B r.2 lvl = 0) m := by
  have hlt : ∀ {v lvl : ℕ}, v = roots B ir lvl ∨ v = 0 → v < 2 ^ addrlen := by
    rintro v lvl (rfl | rfl)
    · exact roots_lt ir lvl
    · positivity
  -- a record with new roots
  have hroots : ∀ (i d t len : ℕ) (bns : List Waddr), (i = roots B ir 0 ∨ i = 0) →
      (d = roots B ir 1 ∨ d = 0) → (t = roots B ir 2 ∨ t = 0) → ∀ lvl < 3,
        roots B (B.updIRec ir len i d t bns) lvl = roots B ir lvl ∨
          roots B (B.updIRec ir len i d t bns) lvl = 0 := by
    intro i d t len bns hi hd ht lvl hl
    rw [roots_updIRec (hlt hi) (hlt hd) (hlt ht) hl]
    obtain rfl | rfl | rfl : lvl = 0 ∨ lvl = 1 ∨ lvl = 2 := by omega
    · exact hi
    · exact hd
    · exact ht
  unfold shrink
  dsimp only
  split_ifs
  · exact Txn.does_pure ⟨.refl _ m, hroots _ _ _ _ _ (.inl rfl) (.inl rfl) (.inl rfl)⟩
  · unfold indshrink
    apply Txn.does_bind
    apply Txn.does_bind
    apply (thins_indshrinkHelper bxp 0 _ _ ms m).post
    rintro ⟨ms₁, i⟩ m₁ ⟨h₁, hi⟩
    apply Txn.does_bind
    apply (thins_indshrinkHelper bxp 1 _ _ ms₁ m₁).post
    rintro ⟨ms₂, d⟩ m₂ ⟨h₂, hd⟩
    apply Txn.does_bind
    apply (thins_indshrinkHelper bxp 2 _ _ ms₂ m₂).post
    rintro ⟨ms₃, t⟩ m₃ ⟨h₃, ht⟩
    exact Txn.does_pure ⟨(h₁.trans h₂).trans h₃, hroots i d t _ _ hi hd ht⟩

/-- The pointer of a tree is a pointer of the record. -/
theorem ptr_tree (B : BlockPtrSig IRec IAttr) (m : Mem) (ir : IRec) {o : ℕ} (hl : lvl < 3) (ho : o < nIndirect ^ (lvl + 1)) :
    B.nDirect + (levelStart lvl + o) < nBlocks B ∧
      ptr B m ir (B.nDirect + (levelStart lvl + o)) = treeLeaf m lvl (roots B ir lvl) o ∧
      recPath B m ir (B.nDirect + (levelStart lvl + o)) =
        RadixTree.path ent nIndirect m lvl (roots B ir lvl) o := by
  have hsize : levelStart lvl + nIndirect ^ (lvl + 1) ≤ treesSize := by
    rw [treesSize]
    obtain rfl | rfl | rfl : lvl = 0 ∨ lvl = 1 ∨ lvl = 2 := by omega
    · rw [levelStart_zero, Nat.zero_add, Nat.zero_add, pow_one]
      omega
    · change levelStart 1 + nIndirect ^ 2 ≤ nIndirect + nIndirect ^ 2 + nIndirect ^ 3
      rw [levelStart_one]
      omega
    · rw [levelStart_two]
  have hlevel : levelOf (levelStart lvl + o) = lvl :=
    (levelOf_eq_iff (by omega) hl).2 ⟨by omega, by omega⟩
  refine ⟨?_, ?_, ?_⟩
  · rw [nBlocks_eq]
    omega
  · rw [ptr, if_neg (by omega), treesLeaf, Nat.add_sub_cancel_left, hlevel,
      Nat.add_sub_cancel_left]
  · rw [recPath, if_neg (by omega), Nat.add_sub_cancel_left, treesPath, hlevel,
      Nat.add_sub_cancel_left]

/-- A record has lost pointers, and every index block it still has holds one.  Then its index blocks
are those that were on the way to a pointer that is left. -/
theorem mem_recNodes_iff (hr : ∀ lvl < 3, roots B ir' lvl = roots B ir lvl ∨ roots B ir' lvl = 0)
    (hl : ∀ b ∈ recNodes B m' ir', Loses (ent (m b)) (ent (m' b)))
    (ha : AllHold m' (recNodes B m' ir')) (b : ℕ) :
    b ∈ recNodes B m' ir' ↔
      ∃ off < nBlocks B, ptr B m' ir' off ≠ 0 ∧ b ∈ recPath B m ir off := by
  have hsub : ∀ lvl < 3, ∀ b ∈ treeNodes m' lvl (roots B ir' lvl), b ∈ recNodes B m' ir' :=
    fun lvl hl b hb => mem_treesNodes.2 ⟨lvl, hl, hb⟩
  have hpath : ∀ lvl < 3, ∀ o < nIndirect ^ (lvl + 1),
      treeLeaf m' lvl (roots B ir' lvl) o ≠ 0 →
      RadixTree.path ent nIndirect m' lvl (roots B ir' lvl) o =
        RadixTree.path ent nIndirect m lvl (roots B ir lvl) o :=
    fun lvl hlvl o ho hne => RadixTree.path_eq_of_leaf (hr lvl hlvl)
      (fun b hb i _ => hl b (hsub lvl hlvl b hb) i) ho hne
  constructor
  · intro hb
    obtain ⟨lvl, hlvl, hb⟩ := mem_treesNodes.1 hb
    obtain ⟨o, ho, hne, hmem⟩ := RadixTree.exists_mem_path
      (fun c hc => ha.exists_ent (hsub lvl hlvl c hc)) hb
    obtain ⟨hlt, hptr, -⟩ := ptr_tree B m' ir' hlvl ho
    obtain ⟨-, -, hrec⟩ := ptr_tree B m ir hlvl ho
    refine ⟨_, hlt, ?_, ?_⟩
    · rw [hptr]
      exact hne
    · rw [hrec, ← hpath lvl hlvl o ho hne]
      exact hmem
  · rintro ⟨off, ho, hne, hmem⟩
    rw [ptr] at hne
    rw [recPath] at hmem
    split_ifs at hne hmem with hd
    · exact absurd hmem List.not_mem_nil
    · have hs := sub_lt_treesSize ho hd
      have hlt := sub_levelStart_lt hs
      rw [treesPath, treePath, ← hpath _ (levelOf_lt _) _ hlt hne] at hmem
      exact hsub _ (levelOf_lt _) b (RadixTree.mem_nodes_of_mem_path hlt hmem)

/-- A record has no pointers past its end, and each of its index blocks holds one. -/
structure Tight (B : BlockPtrSig IRec IAttr) (m : Mem) (ir : IRec) : Prop where
  past : NullFrom B m ir (B.irLen ir)
  hold : AllHold m (recNodes B m ir)

/-- The index blocks of a tight record are those on the way to its pointers. -/
theorem Tight.mem_recNodes_iff (h : Tight B m ir) (b : ℕ) :
    b ∈ recNodes B m ir ↔ ∃ off < nBlocks B, ptr B m ir off ≠ 0 ∧ b ∈ recPath B m ir off :=
  BlockPtr.mem_recNodes_iff (fun _ _ => .inl rfl) (fun _ _ => .refl _) h.hold b

theorem Tight.card_recNodes_le (h : Tight B m ir) (hnd : (recNodes B m ir).Nodup) :
    (recNodes B m ir).card ≤ 3 * B.irLen ir := by
  have hle : recNodes B m ir ≤ ((List.range (B.irLen ir)).flatMap (recPath B m ir) : List ℕ) := by
    rw [Multiset.le_iff_subset hnd]
    intro b hb
    obtain ⟨off, ho, hne, hmem⟩ := (h.mem_recNodes_iff b).1 hb
    have hlt : off < B.irLen ir := by
      by_contra hle
      exact hne (h.past off ho (Nat.le_of_not_lt hle))
    exact List.mem_flatMap.2 ⟨off, List.mem_range.2 hlt, hmem⟩
  refine (Multiset.card_le_card hle).trans ?_
  rw [Multiset.coe_card, List.length_flatMap]
  refine (List.sum_le_card_nsmul _ 3 ?_).trans_eq ?_
  · intro k hk
    obtain ⟨off, -, rfl⟩ := List.mem_map.1 hk
    exact (Nat.le_add_right _ _).trans (length_recPath_add_recMissing_le m ir off)
  · rw [List.length_map, List.length_range, smul_eq_mul, Nat.mul_comm]

theorem Tight.congr (h : Tight B m ir) (hm : ∀ b ∈ recNodes B m ir, m' b = m b) :
    Tight B m' ir where
  past off ho hle := by
    rw [ptr_congr hm ho]
    exact h.past off ho hle
  hold b hb := by
    rw [recNodes_congr hm] at hb
    rw [hm b hb]
    exact h.hold b hb

/-- A record without pointers. -/
theorem Tight.of_null (hr : ∀ lvl, roots B ir lvl = 0)
    (hb : B.irBlocks ir = List.replicate B.nDirect 0) : Tight B m ir where
  past off _ _ := by
    rw [ptr]
    split_ifs
    · rw [hb, ptrs_replicate]
    · rw [treesLeaf, hr]
      exact RadixTree.leaf_root_zero _ _ _
  hold b hmem := by
    obtain ⟨lvl, -, hmem⟩ := mem_treesNodes.1 hmem
    rw [hr, treeNodes, RadixTree.nodes_root_zero] at hmem
    exact absurd hmem (Multiset.notMem_zero b)

theorem ents_ne_of_ent {v : Valu} {i : ℕ} (h : ent v i ≠ 0) :
    ents v ≠ List.replicate nIndirect 0 := by
  intro he
  rw [ent, he, ptrs_replicate] at h
  exact h rfl

/-- An index block on the way to a pointer of a record holds one. -/
theorem exists_ent_of_mem_recPath {b : ℕ} (ho : off < nBlocks B) (hp : ptr B m ir off ≠ 0)
    (hb : b ∈ recPath B m ir off) : ∃ i < nIndirect, ent (m b) i ≠ 0 := by
  rw [recPath] at hb
  rw [ptr] at hp
  split_ifs at hb hp with hd
  · exact absurd hb List.not_mem_nil
  · exact RadixTree.exists_ent_of_mem_path (sub_levelStart_lt (sub_lt_treesSize ho hd)) hp hb

theorem Grows.tight {p : ℕ} (h : Grows B bxp p m ms ir m' ms' ir') (hl : B.irLen ir < nBlocks B)
    (hp : p ≠ 0) (ht : Tight B m ir) : Tight B m' ir' where
  past off ho hle := by
    rw [h.len] at hle
    rw [h.ptr off ho, if_neg (by omega)]
    exact ht.past off ho (by omega)
  hold b hb := by
    obtain ⟨new, hpath, hnodes, -⟩ := h.adds
    rw [hnodes, Multiset.mem_add] at hb
    rcases hb with hb | hb
    · -- a block that has been there keeps its pointer
      obtain ⟨i, -, hi⟩ := ht.hold.exists_ent hb
      have hgain := (h.gains (ht.past _ hl le_rfl) b hb i).resolve_right hi
      exact ents_ne_of_ent (hgain ▸ hi)
    · obtain ⟨i, -, hi⟩ := exists_ent_of_mem_recPath hl (by rw [h.ptr _ hl, if_pos rfl]; exact hp)
        (hpath ▸ List.mem_append_right _ hb)
      exact ents_ne_of_ent hi

/-- Shrinking a record.  A tight record stays tight, and the index blocks that are left are those on
the way to a pointer that is left. -/
theorem wp_ptrShrink_tight {Q : BmapCacheType × IRec → Mem → Prop} (hx : bxp.Ok n)
    (hd : (B.irBlocks ir).length = B.nDirect) (hl : B.irLen ir ≤ nBlocks B)
    (hg : Good bxp m ms (recNodes B m ir))
    (hQ : ∀ ms' m' ir', Shrinks B bxp nr m ms ir m' ms' ir' →
      (Tight B m ir → Tight B m' ir' ∧ ∀ b, b ∈ recNodes B m' ir' ↔
        ∃ off < nBlocks B, ptr B m' ir' off ≠ 0 ∧ b ∈ recPath B m ir off) → Q (ms', ir') m') :
    Txn.wp n (shrink B bxp ir nr ms) Q m := by
  have hwp : Txn.wp n (shrink B bxp ir nr ms) (fun r m' => Shrinks B bxp nr m ms ir m' r.1 r.2 ∧
      (NullFrom B m ir (B.irLen ir) → NullFrom B m' r.2 (B.irLen ir - nr))) m :=
    wp_ptrShrink_nullFrom hx hd hl hg fun ms' m' ir' hs hn => ⟨hs, hn⟩
  apply Txn.wp_post (Txn.wp_does hwp (thins_shrink bxp ir nr ms m))
  rintro ⟨ms', ir'⟩ m' ⟨⟨hs, hn⟩, ht, hr⟩
  dsimp only at hs hn hr
  apply hQ ms' m' ir' hs
  intro htight
  have hlo : ∀ b ∈ recNodes B m' ir', b < bxp.bmapStart :=
    fun b hb => ((hg.congr hs.acc).lt_nbits hb).trans_le hx.above
  have hhold : AllHold m' (recNodes B m' ir') := ht.allHold htight.hold hs.sub hlo
  have hpast := hn htight.past
  rw [← hs.len] at hpast
  exact ⟨⟨hpast, hhold⟩, mem_recNodes_iff hr (fun b hb => ht.loses (hlo b hb)) hhold⟩

/-! ### Dropping all pointers

The index blocks of a record that loses all its pointers are freed without being written. -/

theorem atMost_indread (lvl : ℕ) : ∀ root, Txn.AtMost 0 (indread lvl root) := by
  induction lvl with
  | zero =>
    intro root
    unfold indread
    split_ifs
    · exact Txn.atMost_pure 0 _
    · exact atMost_indRead root
  | succ lvl ih =>
    intro root
    unfold indread
    split_ifs
    · exact Txn.atMost_pure 0 _
    · apply (atMost_indRead root).after
      intro indbns
      exact Txn.atMost_forEach (fun (b : Waddr) r => (ih b.toNat).after fun _ => Txn.atMost_pure 0 _) _ []

theorem atMost_ptrRead (ir : IRec) : Txn.AtMost 0 (read B ir) := by
  unfold read
  split_ifs
  · exact Txn.atMost_pure 0 _
  · apply (atMost_indread 0 _).after
    intro indbns
    apply (atMost_indread 1 _).after
    intro dindbns
    exact (atMost_indread 2 _).after fun _ => Txn.atMost_pure 0 _

/-- A block that loses all pointers is freed. -/
theorem aboveAt_updateBlock_zero {new : List Waddr} (bxp : BallocXparams) (bn : ℕ)
    (contents : List Waddr) (hnew : new = List.replicate nIndirect 0) (ms : BmapCacheType)
    (m : Mem) : Txn.AboveAt bxp.bmapStart (updateBlock bxp bn contents new ms) m := by
  rw [updateBlock, if_pos hnew]
  exact ((above_free bxp bn ms).bind fun _ => Txn.above_pure _ _) m

theorem updRange_all (h : l.length = nIndirect) :
    updRange l 0 nIndirect 0 = List.replicate nIndirect 0 := by
  rw [updRange_eq, List.take_zero, List.nil_append, List.drop_zero, Nat.zero_add, ← h,
    List.take_length, List.drop_length, List.append_nil]

theorem indclearToAligned_zero (bxp : BallocXparams) (lvl : ℕ) (l : List Waddr)
    (ms : BmapCacheType) : indclearToAligned bxp lvl l 0 ms = pure (ms, l) := by
  cases lvl <;> rw [indclearToAligned, if_pos (Nat.zero_mod _)]

theorem indclearFromAligned_zero (bxp : BallocXparams) (lvl : ℕ) (l : List Waddr) (start : ℕ)
    (ms : BmapCacheType) : indclearFromAligned bxp lvl l start 0 ms = pure (ms, l) := by
  cases lvl <;> rw [indclearFromAligned, if_pos rfl]

theorem aboveAt_indclearMultipleBlocks_all (bxp : BallocXparams) (lvl : ℕ)
    (hl : l.length = nIndirect) (ms : BmapCacheType) (m : Mem) :
    Txn.AboveAt bxp.bmapStart
      (indclearMultipleBlocks bxp lvl l 0 (nIndirect ^ (lvl + 1) * nIndirect) ms) m ∧
    Txn.Does (indclearMultipleBlocks bxp lvl l 0 (nIndirect ^ (lvl + 1) * nIndirect) ms)
      (fun r _ => r.2 = List.replicate nIndirect 0) m := by
  have hN : 0 < nIndirect ^ (lvl + 1) := by
    rw [nIndirect_is]
    positivity
  have hround : roundup 0 (nIndirect ^ (lvl + 1)) = 0 := by rw [roundup, divup_zero, Nat.zero_mul]
  have hend : indclearMultipleBlocks bxp lvl l 0 (nIndirect ^ (lvl + 1) * nIndirect) ms =
      pure (ms, l) >>= fun r => indclearAligned bxp lvl r.2 0
        (nIndirect * nIndirect ^ (lvl + 1)) r.1 >>= fun ms' =>
          pure (ms', updRange r.2 0 nIndirect 0) := by
    unfold indclearMultipleBlocks
    simp only [indclearToAligned_zero, hround, Nat.sub_zero, Nat.add_zero, Nat.zero_div,
      Nat.mul_div_cancel_left _ hN, Nat.mul_mod_right, indclearFromAligned_zero]
  rw [hend]
  constructor
  · refine Txn.AboveAt.bind (R := fun r _ => r = (ms, l)) (Txn.aboveAt_pure _ _) rfl ?_
    rintro r m' rfl
    exact ((above_indclearAligned bxp lvl _ _ _ _).bind fun _ => Txn.above_pure _ _) m'
  · exact updRange_all hl

theorem aboveAt_indclear_all (bxp : BallocXparams) (lvl root : ℕ) (ms : BmapCacheType) (m : Mem) :
    Txn.AboveAt bxp.bmapStart (indclear bxp lvl root 0 (nIndirect ^ (lvl + 1)) ms) m := by
  have hread : ∀ root, Txn.Does (IndRec.read root) (fun l _ => l.length = nIndirect) m :=
    fun root => does_indRead (length_ents _)
  cases lvl with
  | zero =>
    unfold indclear
    split_ifs
    · exact Txn.aboveAt_pure _ _
    · exact Txn.aboveAt_pure _ _
    · refine Txn.AboveAt.bind ((atMost_indRead root).above _ m) (hread root) fun l m' hl => ?_
      apply aboveAt_updateBlock_zero
      rw [Nat.zero_add, pow_one, updRange_all hl]
  | succ lvl =>
    have hpos : 1 < nIndirect := by
      rw [nIndirect_is]
      decide
    have hlt : nIndirect ^ (lvl + 1) < nIndirect ^ (lvl + 1 + 1) := Nat.pow_lt_pow_right hpos (by omega)
    unfold indclear
    dsimp only
    rw [Nat.zero_mod, Nat.sub_zero]
    simp only [if_neg (Nat.not_le.2 hlt)]
    rw [pow_succ nIndirect (lvl + 1)]
    split_ifs with h0 hz
    · exact Txn.aboveAt_pure _ _
    · exact Txn.aboveAt_pure _ _
    · refine Txn.AboveAt.bind ((atMost_indRead root).above _ m) (hread root) fun l m' hl => ?_
      obtain ⟨habove, hdoes⟩ := aboveAt_indclearMultipleBlocks_all bxp lvl hl ms m'
      exact Txn.AboveAt.bind habove hdoes fun r m'' hr => aboveAt_updateBlock_zero bxp root l hr r.1 m''

theorem aboveAt_indshrinkHelper_zero (bxp : BallocXparams) (lvl bn : ℕ) (ms : BmapCacheType)
    (m : Mem) : Txn.AboveAt bxp.bmapStart (indshrinkHelper bxp lvl bn 0 ms) m := by
  have hpos : 0 < nIndirect ^ (lvl + 1) := by
    rw [nIndirect_is]
    positivity
  rw [indshrinkHelper, if_pos (by omega), Nat.zero_sub, Nat.sub_zero]
  exact aboveAt_indclear_all bxp lvl bn ms m

/-- Dropping all pointers writes the bitmap only. -/
theorem aboveAt_shrink_all (bxp : BallocXparams) (hir : B.irLen ir ≤ nr) (ms : BmapCacheType)
    (m : Mem) : Txn.AboveAt bxp.bmapStart (shrink B bxp ir nr ms) m := by
  have hnl : B.irLen ir - nr - B.nDirect = 0 := by omega
  have hany : ∀ {α : Type} (p : TxnProg α) (m : Mem), Txn.Does p (fun _ _ => True) m :=
    fun _ _ => trivial
  unfold shrink
  dsimp only
  split_ifs
  · exact Txn.aboveAt_pure _ _
  · rw [hnl]
    refine Txn.AboveAt.bind ?_ (hany _ m) fun r m' _ => Txn.aboveAt_pure _ _
    unfold indshrink
    refine Txn.AboveAt.bind (aboveAt_indshrinkHelper_zero bxp 0 _ ms m) (hany _ m) fun r₁ m₁ _ => ?_
    refine Txn.AboveAt.bind (aboveAt_indshrinkHelper_zero bxp 1 _ r₁.1 m₁) (hany _ m₁) fun r₂ m₂ _ => ?_
    refine Txn.AboveAt.bind (aboveAt_indshrinkHelper_zero bxp 2 _ r₂.1 m₂) (hany _ m₂) fun r₃ m₃ _ => ?_
    exact Txn.aboveAt_pure _ _

end

end BlockPtr

end Fscq
