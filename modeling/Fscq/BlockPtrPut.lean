import Fscq.BlockPtrClear

/-!
# Setting a block pointer

What setting a pointer of a tree does: the index blocks that are missing on the way to it are taken
from the allocator, and the other pointers stay.
-/

namespace Fscq

open CrashProg

namespace BlockPtr

open RadixTree (leaf fleaf)

section

variable {n lvl : ℕ} {bxp : BallocXparams} {m m' m'' : Mem} {ms ms' ms'' : BmapCacheType}
  {N N' : Multiset ℕ}

/-- Some of the pointers have become null, and the others are the same. -/
def Loses (f f' : ℕ → ℕ) : Prop := ∀ i, f' i = f i ∨ f' i = 0

theorem Loses.refl (f : ℕ → ℕ) : Loses f f := fun _ => .inl rfl

/-- The index blocks have only got pointers. -/
def Gains (m m' : Mem) (N : Multiset ℕ) : Prop := ∀ b ∈ N, Loses (ent (m' b)) (ent (m b))

/-- There are `k` more index blocks, all on the way in question, and behind those that have been
there. -/
def Adds (path : List ℕ) (N : Multiset ℕ) (k : ℕ) (path' : List ℕ) (N' : Multiset ℕ) : Prop :=
  ∃ new : List ℕ, path' = path ++ new ∧ N' = N + (new : Multiset ℕ) ∧ new.length = k

theorem Adds.le {path path' : List ℕ} {k : ℕ} (h : Adds path N k path' N') : N ≤ N' := by
  obtain ⟨new, -, rfl, -⟩ := h
  exact Multiset.le_add_right _ _

theorem Adds.card {path path' : List ℕ} {k : ℕ} (h : Adds path N k path' N') :
    N'.card = N.card + k := by
  obtain ⟨new, -, rfl, rfl⟩ := h
  rw [Multiset.card_add, Multiset.coe_card]

theorem Adds.refl (path : List ℕ) (N : Multiset ℕ) : Adds path N 0 path N := ⟨[], by simp⟩

/-- What setting a pointer of a tree does. -/
structure Puts (bxp : BallocXparams) (lvl off p : ℕ) (m : Mem) (ms : BmapCacheType) (root : ℕ)
    (m' : Mem) (ms' : BmapCacheType) (v : ℕ) : Prop where
  step : BALLOCC.Step bxp {a | a ∈ treeNodes m lvl root + freeSet m bxp ms} m ms m' ms'
  leaf : ∀ o < nIndirect ^ (lvl + 1),
    treeLeaf m' lvl v o = if o = off then p else treeLeaf m lvl root o
  acc : treeNodes m' lvl v + freeSet m' bxp ms' = treeNodes m lvl root + freeSet m bxp ms
  root_eq : root ≠ 0 → v = root
  adds : Adds (treePath m lvl root off) (treeNodes m lvl root) (treeMissing m lvl root off)
    (treePath m' lvl v off) (treeNodes m' lvl v)
  gains : treeLeaf m lvl root off = 0 → Gains m m' (treeNodes m lvl root)

/-- What an attempt leaves that has run out of blocks: some blocks are not free any more, and only
the bitmap has been written. -/
structure Leaks (bxp : BallocXparams) (m : Mem) (ms : BmapCacheType) (m' : Mem)
    (ms' : BmapCacheType) : Prop where
  step : BALLOCC.Step bxp ∅ m ms m' ms'
  le : freeSet m' bxp ms' ≤ freeSet m bxp ms

theorem Leaks.trans (h : Leaks bxp m ms m' ms') (h' : Leaks bxp m' ms' m'' ms'') :
    Leaks bxp m ms m'' ms'' :=
  ⟨h.step.trans h'.step (Set.Subset.refl _), h'.le.trans h.le⟩

theorem leaks_alloc_none (hfl : BALLOCC.freeList m bxp ms = []) :
    Leaks bxp m ms m (some []) := by
  refine ⟨⟨fun _ _ _ => rfl, ?_⟩, Multiset.zero_le _⟩
  intro hc l hl
  obtain rfl := Option.some.inj hl
  have := hc.perm
  rwa [hfl] at this

theorem leaks_alloc_some {bn : ℕ} {fl : List ℕ} (hfl : BALLOCC.freeList m bxp ms = bn :: fl)
    (hst : BALLOCC.Step bxp ∅ m ms m' (some fl)) : Leaks bxp m ms m' (some fl) := by
  refine ⟨hst, ?_⟩
  rw [freeSet, freeSet, hfl]
  exact Multiset.le_cons_self _ _

theorem ptrs_set_word {l : List Waddr} {i : ℕ} (hi : i < l.length) (w : Waddr) :
    ptrs (l.set i w) = Function.update (ptrs l) i w.toNat := by
  have hw : w = addr2w w.toNat := by simp [addr2w]
  conv_lhs => rw [hw]
  exact ptrs_set hi w.isLt

/-- The block that an operation on a tree starts with: its root, or a new block if it has none.
The block is in use afterwards, and `l` is what it holds or is going to hold. -/
structure Opened (bxp : BallocXparams) (lvl : ℕ) (m : Mem) (ms : BmapCacheType) (root : ℕ)
    (m' : Mem) (ms' : BmapCacheType) (ir : ℕ) (l : List Waddr) : Prop where
  ne_zero : ir ≠ 0
  lt_nbits : ir < BALLOCC.nbits bxp
  len : l.length = nIndirect
  step : BALLOCC.Step bxp ∅ m ms m' ms'
  acc : (ir ::ₘ childNodes m' lvl l) + freeSet m' bxp ms' = treeNodes m lvl root + freeSet m bxp ms
  leaf : ∀ o < nIndirect ^ (lvl + 1), treeLeaf m lvl root o = childLeaf m' lvl l o
  new : root = 0 → l = List.replicate nIndirect 0
  old : root ≠ 0 → ir = root ∧ l = ents (m' ir) ∧ m' = m ∧ ms' = ms
  leaks : Leaks bxp m ms m' ms'

/-- Opening a tree. -/
theorem wp_open {Q : BmapCacheType × Option ℕ → Mem → Prop} {root : ℕ} (hx : bxp.Ok n)
    (hg : Good bxp m ms (treeNodes m lvl root))
    (hnone : ∀ ms', root = 0 → freeSet m bxp ms = 0 → Leaks bxp m ms m ms' → Q (ms', none) m)
    (hsome : ∀ ms' m' ir l, Opened bxp lvl m ms root m' ms' ir l → Q (ms', some ir) m') :
    Txn.wp n (if root = 0 then BALLOCC.alloc bxp ms else pure (ms, some root)) Q m := by
  split_ifs with h0
  · subst h0
    have hfree : ∀ b ∈ BALLOCC.freeList m bxp ms, b ≠ 0 ∧ b < BALLOCC.nbits bxp :=
      fun b hb => hg.valid b (Multiset.mem_add.2 (.inr hb))
    apply AllocSig.wp_alloc hx.fits fun b hb => (hfree b hb).2
    · exact fun hfl => hnone _ rfl (congrArg Multiset.ofList hfl) (leaks_alloc_none hfl)
    · intro ir fl hfl hst
      have hir := hfree ir (by rw [hfl]; exact List.mem_cons_self)
      have hmem : freeSet m bxp ms = ir ::ₘ (fl : Multiset ℕ) := by
        rw [freeSet, hfl, Multiset.cons_coe]
      apply hsome _ _ ir (List.replicate nIndirect 0)
      refine ⟨hir.1, hir.2, by simp, hst, ?_, ?_, fun _ => rfl, fun h => absurd rfl h,
        leaks_alloc_some hfl hst⟩
      · rw [childNodes_replicate, treeNodes, RadixTree.nodes_root_zero, zero_add, hmem,
          Multiset.cons_zero, Multiset.singleton_add]
        rfl
      · intro o ho
        rw [treeLeaf, RadixTree.leaf_root_zero, childLeaf_replicate ho]
  · have hroot : root ∈ treeNodes m lvl root := RadixTree.root_mem_nodes h0
    apply wp_pure
    apply hsome _ _ root (ents (m root))
    refine ⟨h0, hg.lt_nbits hroot, length_ents _, AllocSig.Step.refl _ _ _ _ _, ?_, ?_,
      fun h => absurd h h0, fun _ => ⟨rfl, rfl, rfl, rfl⟩, AllocSig.Step.refl _ _ _ _ _, le_rfl⟩
    · rw [treeNodes_eq h0]
    · exact fun o _ => treeLeaf_eq h0

variable {root ir : ℕ} {l : List Waddr}

theorem Opened.good (h : Opened bxp lvl m ms root m' ms' ir l)
    (hg : Good bxp m ms (treeNodes m lvl root)) :
    Good bxp m' ms' (ir ::ₘ childNodes m' lvl l) := hg.congr h.acc

/-- The missing blocks of a tree are those below its opened block, and the opened one if it is
new. -/
theorem Opened.adds (h : Opened bxp lvl m ms root m' ms' ir l) {path : List ℕ} {off : ℕ}
    {N : Multiset ℕ} (ha : Adds (childPath m' lvl l off) (childNodes m' lvl l)
      (childMissing m' lvl l off) path N) :
    Adds (treePath m lvl root off) (treeNodes m lvl root) (treeMissing m lvl root off) (ir :: path)
      (ir ::ₘ N) := by
  obtain ⟨new, hpath, hN, hnew⟩ := ha
  rcases eq_or_ne root 0 with rfl | h0
  · rw [h.new rfl, childPath_replicate] at hpath
    rw [h.new rfl, childNodes_replicate] at hN
    rw [h.new rfl, childMissing_replicate] at hnew
    refine ⟨ir :: new, ?_, ?_, ?_⟩
    · rw [treePath, RadixTree.path_root_zero, hpath]
      rfl
    · rw [treeNodes, RadixTree.nodes_root_zero, hN, zero_add, zero_add, Multiset.cons_coe]
    · rw [treeMissing, RadixTree.missing_root_zero, List.length_cons, hnew]
  · obtain ⟨rfl, rfl, rfl, rfl⟩ := h.old h0
    refine ⟨new, ?_, ?_, ?_⟩
    · rw [treePath_eq h0, hpath, List.cons_append]
    · rw [treeNodes_eq h0, hN, Multiset.cons_add]
    · rw [treeMissing_eq h0, hnew]

/-- Writing the opened block closes the operation. -/
theorem Opened.close (hx : bxp.Ok n) {l' : List Waddr} {off p : ℕ} {w : Valu}
    (h : Opened bxp lvl m ms root m' ms' ir l) (hg : Good bxp m ms (treeNodes m lvl root))
    (ho : off < nIndirect ^ (lvl + 1))
    (hst : BALLOCC.Step bxp {a | a ∈ childNodes m' lvl l + freeSet m' bxp ms'} m' ms' m'' ms'')
    (hacc : childNodes m'' lvl l' + freeSet m'' bxp ms'' = childNodes m' lvl l + freeSet m' bxp ms')
    (hadds : Adds (childPath m' lvl l off) (childNodes m' lvl l) (childMissing m' lvl l off)
      (childPath m'' lvl l' off) (childNodes m'' lvl l'))
    (hgains : childLeaf m' lvl l off = 0 →
      Loses (ptrs l') (ptrs l) ∧ Gains m' m'' (childNodes m' lvl l))
    (hleaf : ∀ o < nIndirect ^ (lvl + 1),
      childLeaf m'' lvl l' o = if o = off then p else childLeaf m' lvl l o)
    (hw : ents w = l') :
    Puts bxp lvl off p m ms root (Function.update m'' ir w) ms'' ir := by
  have hg' := h.good hg
  have hmem : ir ∈ treeNodes m lvl root + freeSet m bxp ms := by
    rw [← h.acc]
    exact Multiset.mem_add.2 (.inl (Multiset.mem_cons_self _ _))
  have hir : ir ∉ childNodes m'' lvl l' := by
    have hnd := hg'.nodup
    rw [Multiset.cons_add, ← hacc] at hnd
    exact fun hb => (Multiset.nodup_cons.1 hnd).1 (Multiset.mem_add.2 (.inl hb))
  have hagree : ∀ b ∈ childNodes m'' lvl l', Function.update m'' ir w b = m'' b := by
    intro b hb
    apply Function.update_of_ne
    rintro rfl
    exact hir hb
  have hreg : ∀ a ∈ BALLOCC.bmp.region bxp, Function.update m'' ir w a = m'' a := by
    intro a ha
    apply Function.update_of_ne
    rintro rfl
    exact not_mem_region hx h.lt_nbits ha
  have hentry : ents (Function.update m'' ir w ir) = l' := by rw [Function.update_self, hw]
  have hnodes : treeNodes (Function.update m'' ir w) lvl ir = ir ::ₘ childNodes m'' lvl l' := by
    rw [treeNodes_eq h.ne_zero, hentry, childNodes_congr hagree]
  constructor
  · constructor
    · intro a ha haW
      have hne : a ≠ ir := by
        rintro rfl
        exact haW hmem
      rw [Function.update_of_ne hne, hst.frame a ha _, h.step.frame a ha (Set.notMem_empty a)]
      intro hb
      apply haW
      rw [Set.mem_ofPred_eq, ← h.acc, Multiset.cons_add]
      exact Multiset.mem_cons_of_mem hb
    · exact fun hc => (hst.coh (h.step.coh hc)).congr hreg
  · intro o ho
    rw [treeLeaf_eq h.ne_zero, hentry, childLeaf_congr hagree ho, hleaf o ho, h.leaf o ho]
  · rw [hnodes, freeSet_congr hreg, Multiset.cons_add, hacc, ← Multiset.cons_add, h.acc]
  · exact fun h0 => (h.old h0).1
  · rw [hnodes, treePath_eq h.ne_zero, hentry, childPath_congr hagree ho]
    exact h.adds hadds
  · intro hnull b hb
    have h0 : root ≠ 0 := by
      rintro rfl
      rw [treeNodes, RadixTree.nodes_root_zero] at hb
      exact absurd hb (Multiset.notMem_zero b)
    rw [h.leaf off ho] at hnull
    obtain ⟨hl, hchild⟩ := hgains hnull
    obtain ⟨rfl, hents, rfl, rfl⟩ := h.old h0
    rw [treeNodes_eq h0, ← hents, Multiset.mem_cons] at hb
    rcases hb with rfl | hb
    · rw [ent, hentry, ent, ← hents]
      exact hl
    · rw [hagree b (Multiset.mem_of_le hadds.le hb)]
      exact hchild b hb

/-- The pointer is set unless there are not enough free blocks for the missing index blocks. -/
theorem wp_indput (hx : bxp.Ok n) (bn : Waddr) (lvl : ℕ) :
    ∀ (root off : ℕ) (m : Mem) (ms : BmapCacheType) (Q : BmapCacheType × ℕ → Mem → Prop),
    off < nIndirect ^ (lvl + 1) → Good bxp m ms (treeNodes m lvl root) →
    ((freeSet m bxp ms).card < treeMissing m lvl root off →
      ∀ ms' m', Leaks bxp m ms m' ms' → freeSet m' bxp ms' = 0 → Q (ms', 0) m') →
    (∀ ms' m' v, v ≠ 0 → v < 2 ^ addrlen → Puts bxp lvl off bn.toNat m ms root m' ms' v →
      Q (ms', v) m') →
    Txn.wp n (indput bxp lvl root off bn ms) Q m := by
  induction lvl with
  | zero =>
    intro root off m ms Q ho hg hQ0 hQ
    have ho' : off < nIndirect := by simpa using ho
    unfold indput
    apply wp_bind
    apply wp_open hx hg
    · intro ms' h0 hfree hlk
      refine wp_pure (hQ0 ?_ ms' m hlk (Multiset.le_zero.1 (hfree ▸ hlk.le)))
      rw [h0, hfree, treeMissing, RadixTree.missing_root_zero]
      exact Nat.zero_lt_one
    · intro ms₁ m₁ ir l hop
      have hlt : ir < n := lt_of_lt_nbits hx hop.lt_nbits
      have hset : ptrs (l.set off bn) = Function.update (ptrs l) off bn.toNat :=
        ptrs_set_word (by rw [hop.len]; exact ho') bn
      -- writing the block is all there is to do
      have hdone : ∀ w, ents w = l.set off bn →
          Q (ms₁, ir) (Function.update m₁ ir w) := by
        intro w hw
        apply hQ _ _ ir hop.ne_zero (lt_of_lt_of_le hlt hx.words)
        have hacc : childNodes m₁ 0 (l.set off bn) + freeSet m₁ bxp ms₁ =
          childNodes m₁ 0 l + freeSet m₁ bxp ms₁ := rfl
        apply hop.close hx hg ho (AllocSig.Step.refl _ _ _ _ _) hacc (Adds.refl _ _) _ _ hw
        · intro hnull
          refine ⟨fun i => ?_, fun b hb => absurd hb (Multiset.notMem_zero b)⟩
          rw [hset]
          rcases eq_or_ne i off with rfl | hi
          · exact .inr hnull
          · exact .inl (Function.update_of_ne hi _ _).symm
        · intro o _
          rw [childLeaf, hset, Function.update_apply, childLeaf]
      dsimp only
      apply wp_bind
      split_ifs with h0
      · apply wp_indWrite hop.ne_zero hlt (by simp)
        apply wp_pure
        apply hdone
        rw [ents_packEnts (by simp), hop.new h0]
      · apply wp_indPut hop.ne_zero hlt ho'
        intro w hw
        apply wp_pure
        apply hdone w
        rw [hw, (hop.old h0).2.1]
  | succ lvl ih =>
    intro root off m ms Q ho hg hQ0 hQ
    have hK : 0 < nIndirect ^ (lvl + 1) := pow_pos nIndirect_pos _
    have hq : off / nIndirect ^ (lvl + 1) < nIndirect := RadixTree.div_lt_of_lt_pow ho
    unfold indput
    apply wp_bind
    apply wp_open hx hg
    · intro ms' h0 hfree hlk
      refine wp_pure (hQ0 ?_ ms' m hlk (Multiset.le_zero.1 (hfree ▸ hlk.le)))
      rw [h0, hfree, treeMissing, RadixTree.missing_root_zero]
      exact Nat.succ_pos _
    · intro ms₁ m₁ ir l hop
      have hlt : ir < n := lt_of_lt_nbits hx hop.lt_nbits
      have hg₁ := hop.good hg
      have hgf : Good bxp m₁ ms₁ (forestNodes m₁ lvl l) := hg₁.mono (Multiset.le_cons_self _ _)
      dsimp only
      apply wp_bind
      have hget : ∀ {R : List Waddr → Mem → Prop}, R l m₁ →
          Txn.wp n (indputGetBlocks (decide (root = 0)) ir) R m₁ := by
        intro R hR
        unfold indputGetBlocks
        split_ifs with h0
        · apply wp_pure
          rw [← hop.new (by simpa using h0)]
          exact hR
        · apply wp_indRead hlt
          rw [← (hop.old (by simpa using h0)).2.1]
          exact hR
      apply hget
      apply wp_bind
      apply ih _ _ _ _ _ (Nat.mod_lt _ hK) (hgf.slot hq)
      · intro hlack ms₂ m₂ hlk hnone
        dsimp only
        rw [if_pos rfl]
        refine wp_pure (hQ0 ?_ _ _ (hop.leaks.trans hlk) hnone)
        rcases eq_or_ne root 0 with rfl | h0
        · -- the new block is one of those that were missing
          have hacc := hop.acc
          rw [hop.new rfl, childNodes_replicate, treeNodes, RadixTree.nodes_root_zero, zero_add,
            Multiset.cons_zero, Multiset.singleton_add] at hacc
          rw [hop.new rfl, ptrs_replicate, treeMissing, RadixTree.missing_root_zero] at hlack
          rw [← hacc, Multiset.card_cons, treeMissing, RadixTree.missing_root_zero]
          exact Nat.succ_lt_succ hlack
        · obtain ⟨rfl, rfl, rfl, rfl⟩ := hop.old h0
          rw [treeMissing, RadixTree.missing_succ h0]
          exact hlack
      · intro ms₂ m₂ v hv hvlt hput
        dsimp only
        rw [if_neg hv]
        set q := off / nIndirect ^ (lvl + 1) with hqdef
        have hql : q < l.length := by rwa [hop.len]
        have hset : ptrs (l.set q (addr2w v)) = Function.update (ptrs l) q v := ptrs_set hql hvlt
        obtain ⟨⟨R, hR, hR', hRm⟩, hleaf⟩ :=
          forest_set hx hop.len hq hvlt hgf hput.step fun a ha => ha
        have hnd := hg₁.nodup
        rw [Multiset.cons_add, Multiset.nodup_cons] at hnd
        have hsubset : ∀ b ∈ treeNodes m₁ lvl (ptrs l q) + freeSet m₁ bxp ms₁,
            b ∈ childNodes m₁ (lvl + 1) l + freeSet m₁ bxp ms₁ := by
          intro b hb
          rw [childNodes, hR, add_right_comm]
          exact Multiset.mem_add.2 (.inl hb)
        have hacc : childNodes m₂ (lvl + 1) (l.set q (addr2w v)) + freeSet m₂ bxp ms₂ =
            childNodes m₁ (lvl + 1) l + freeSet m₁ bxp ms₁ := by
          rw [childNodes, childNodes, hR', hR, add_right_comm, hput.acc, add_right_comm]
        have hadds : Adds (childPath m₁ (lvl + 1) l off) (childNodes m₁ (lvl + 1) l)
            (childMissing m₁ (lvl + 1) l off)
            (childPath m₂ (lvl + 1) (l.set q (addr2w v)) off)
            (childNodes m₂ (lvl + 1) (l.set q (addr2w v))) := by
          obtain ⟨new, hpath, hN, hlen⟩ := hput.adds
          refine ⟨new, ?_, ?_, hlen⟩
          · rw [childPath, hset, ← hqdef, Function.update_self]
            exact hpath
          · rw [childNodes, childNodes, hR', hR, hN, add_right_comm]
        have hgains : childLeaf m₁ (lvl + 1) l off = 0 →
            Loses (ptrs (l.set q (addr2w v))) (ptrs l) ∧ Gains m₁ m₂ (childNodes m₁ (lvl + 1) l) := by
          intro hnull
          constructor
          · intro i
            rw [hset]
            rcases eq_or_ne i q with hi | hi
            · rw [hi, Function.update_self]
              rcases eq_or_ne (ptrs l q) 0 with h0 | h0
              · exact .inr h0
              · exact .inl (hput.root_eq h0).symm
            · exact .inl (Function.update_of_ne hi _ _).symm
          · intro b hb
            rw [childNodes, hR, Multiset.mem_add] at hb
            rcases hb with hb | hb
            · exact hput.gains hnull b hb
            · rw [hRm b hb]
              exact .refl _
        have hchild : ∀ o < nIndirect ^ (lvl + 1 + 1),
            childLeaf m₂ (lvl + 1) (l.set q (addr2w v)) o =
              if o = off then bn.toNat else childLeaf m₁ (lvl + 1) l o := by
          intro o hlo
          rw [childLeaf, hleaf o hlo, childLeaf]
          have hoff : o = off ↔ o / nIndirect ^ (lvl + 1) = q ∧
              o % nIndirect ^ (lvl + 1) = off % nIndirect ^ (lvl + 1) := by
            constructor
            · rintro rfl
              exact ⟨rfl, rfl⟩
            · rintro ⟨hd, hm⟩
              rw [← Nat.div_add_mod o (nIndirect ^ (lvl + 1)), hd, hm, Nat.div_add_mod]
          split_ifs with hd he he
          · rw [hput.leaf _ (Nat.mod_lt _ hK), if_pos (hoff.1 he).2]
          · rw [hput.leaf _ (Nat.mod_lt _ hK), if_neg fun hm => he (hoff.2 ⟨hd, hm⟩), forestLeaf,
              fleaf, hd]
          · exact absurd (hoff.1 he).1 hd
          · rfl
        have hst : BALLOCC.Step bxp {a | a ∈ childNodes m₁ (lvl + 1) l + freeSet m₁ bxp ms₁}
            m₁ ms₁ m₂ ms₂ := hput.step.mono hsubset
        have hirm : m₂ ir = m₁ ir :=
          hst.frame ir (not_mem_region hx hop.lt_nbits) hnd.1
        apply wp_bind
        unfold indputUpdIfNecessary
        split_ifs with he
        · -- the pointer to the subtree does not change
          have hroot : root ≠ 0 := by
            rintro rfl
            rw [hop.new rfl] at he
            exact hv (he.trans (ptrs_replicate _ _))
          have hsame : l.set q (addr2w v) = l := by
            rw [he, List.getD_eq_getElem _ _ hql]
            simp [addr2w]
          apply wp_pure
          apply wp_pure
          apply hQ _ _ ir hop.ne_zero (lt_of_lt_of_le hlt hx.words)
          have hclose := hop.close (w := m₂ ir) hx hg ho hst hacc hadds hgains hchild
            (by rw [hirm, hsame, (hop.old hroot).2.1])
          rwa [Function.update_eq_self] at hclose
        · apply wp_indWrite hop.ne_zero hlt (by simpa using hop.len)
          apply wp_pure
          apply hQ _ _ ir hop.ne_zero (lt_of_lt_of_le hlt hx.words)
          exact hop.close hx hg ho hst hacc hadds hgains hchild
            (ents_packEnts (by simpa using hop.len))

/-- Setting a pointer allocates and writes at most one index block of each level. -/
theorem atMost_indput (bxp : BallocXparams) (bn : Waddr) (lvl : ℕ) :
    ∀ (root off : ℕ) (ms : BmapCacheType),
      Txn.AtMost (2 * (lvl + 1)) (indput bxp lvl root off bn ms) := by
  have hopen : ∀ (root : ℕ) (ms : BmapCacheType),
      Txn.AtMost 1 (if root = 0 then BALLOCC.alloc bxp ms else pure (ms, some root)) := by
    intro root ms
    split_ifs
    · exact AllocSig.atMost_alloc bxp ms
    · exact Txn.atMost_pure 1 _
  induction lvl with
  | zero =>
    intro root off ms
    unfold indput
    apply (hopen root ms).bind (k := 1)
    rintro ⟨ms', _ | ir⟩
    · exact Txn.atMost_pure 1 _
    · dsimp only
      apply Txn.AtMost.bind (j := 1) (k := 0)
      · split_ifs
        · exact atMost_indWrite (by simp)
        · exact RASig.atMost_put (R := IndRec.sig) ir off bn
      · exact fun _ => Txn.atMost_pure 0 _
  | succ lvl ih =>
    intro root off ms
    have hbound : 2 * (lvl + 1 + 1) = 1 + (0 + (2 * (lvl + 1) + (1 + 0))) := by omega
    unfold indput
    rw [hbound]
    apply (hopen root ms).bind
    rintro ⟨ms', _ | ir⟩
    · exact Txn.atMost_pure _ _
    · dsimp only
      have hget : Txn.AtMost 0 (indputGetBlocks (decide (root = 0)) ir) := by
        unfold indputGetBlocks
        split_ifs
        · exact Txn.atMost_pure 0 _
        · exact atMost_indRead ir
      have hlen : ∀ m, (Txn.run (indputGetBlocks (decide (root = 0)) ir) m).1.length =
          nIndirect := by
        intro m
        unfold indputGetBlocks
        split_ifs
        · exact List.length_replicate
        · rw [run_indRead]
          exact length_ents _
      apply hget.bind_run
      intro m
      apply (ih _ _ _).bind
      rintro ⟨ms₂, v⟩
      dsimp only
      split_ifs
      · exact Txn.atMost_pure _ _
      · apply Txn.AtMost.bind
        · unfold indputUpdIfNecessary
          split_ifs
          · exact Txn.atMost_pure 1 _
          · exact atMost_indWrite (by rw [List.length_set, hlen])
        · exact fun _ => Txn.atMost_pure 0 _

end

end BlockPtr

end Fscq
