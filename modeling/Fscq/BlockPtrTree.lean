import Fscq.BlockPtr

/-!
# The trees of block pointers

What the programs on block pointers do to the trees: the pointers they change, the index blocks
they take from the allocator and the ones they give back.  No index block is lost or used twice:
the blocks of a tree and the free blocks together stay the same.
-/

namespace Fscq

open CrashProg

/-- The bitmap of a block allocator is in the data section, behind the blocks it is for, and block
numbers fit in words. -/
structure BallocXparams.Ok (n : ℕ) (bxp : BallocXparams) : Prop where
  fits : BALLOCC.bmp.Fits n bxp
  above : BALLOCC.nbits bxp ≤ bxp.bmapStart
  words : n ≤ 2 ^ addrlen

namespace BlockPtr

open RadixTree (leaf nodes fleaf fnodes)

/-! ### Index blocks -/

theorem nIndirect_is : nIndirect = 512 := by
  change valulen / addrlen = 512
  rw [valulen_is]
  rfl

theorem nIndirect_pos : 0 < nIndirect := by simp [nIndirect_is]

/-- The pointers of an index block. -/
def ents (v : Valu) : List Waddr := IndRec.sig.val2block v

/-- A list of words as a function on slots. -/
def ptrs (l : List Waddr) (i : ℕ) : ℕ := (l.getD i 0).toNat

def ent (v : Valu) : ℕ → ℕ := ptrs (ents v)

/-- An index block with the given pointers. -/
def packEnts (l : List Waddr) : Valu := IndRec.sig.block2val l

@[simp] theorem length_ents (v : Valu) : (ents v).length = nIndirect := RASig.length_val2block _ v

theorem ents_packEnts {l : List Waddr} (h : l.length = nIndirect) : ents (packEnts l) = l :=
  IndRec.sig.val2block_block2val h fun _ _ => trivial

theorem ptrs_lt (l : List Waddr) (i : ℕ) : ptrs l i < 2 ^ addrlen := (l.getD i 0).isLt

/-- A list of words is known from their values. -/
theorem ext_ptrs {l l' : List Waddr} (h : l.length = l'.length)
    (hp : ∀ i < l.length, ptrs l i = ptrs l' i) : l = l' := by
  apply List.ext_getElem h
  intro i h₁ h₂
  have hi := hp i h₁
  rw [ptrs, ptrs, List.getD_eq_getElem _ _ h₁, List.getD_eq_getElem _ _ h₂] at hi
  exact BitVec.eq_of_toNat_eq hi

theorem ptrs_set {l : List Waddr} {i v : ℕ} (hi : i < l.length) (hv : v < 2 ^ addrlen) :
    ptrs (l.set i (addr2w v)) = Function.update (ptrs l) i v := by
  funext j
  rcases eq_or_ne j i with rfl | h
  · rw [Function.update_self, ptrs, List.getD_eq_getElem _ _ (by simpa using hi),
      List.getElem_set_self, toNat_addr2w hv]
  · rw [Function.update_of_ne h, ptrs, ptrs, List.getD_eq_getElem?_getD, List.getElem?_set_ne h.symm,
      List.getD_eq_getElem?_getD]

theorem ptrs_updRange (l : List Waddr) (start len i : ℕ) :
    ptrs (updRange l start len 0) i = if start ≤ i ∧ i < start + len then 0 else ptrs l i := by
  rw [ptrs, ptrs, List.getD_eq_getElem?_getD, getElem?_updRange, List.getD_eq_getElem?_getD]
  rcases Nat.lt_or_ge i l.length with h | h
  · split_ifs <;> first | rfl | omega
  · rw [List.getElem?_eq_none h]
    split_ifs <;> rfl

theorem ptrs_replicate (k i : ℕ) : ptrs (List.replicate k 0) i = 0 := by
  rw [ptrs, List.getD_eq_getElem?_getD, List.getElem?_replicate]
  split_ifs <;> rfl

section

variable {n bn ix : ℕ} {m : Mem}

theorem indFits (h0 : bn ≠ 0) (h : bn < n) : IndRec.sig.Fits n bn := ⟨h0, h⟩

theorem ix_lt (hi : ix < nIndirect) : ix < IndRec.sig.raLen bn * IndRec.sig.itemsPerVal :=
  hi.trans_eq (Nat.one_mul _).symm

theorem wp_indGet {Q : Waddr → Mem → Prop} (h0 : bn ≠ 0) (hn : bn < n) (hi : ix < nIndirect)
    (hQ : Q ((ents (m bn)).getD ix 0) m) : Txn.wp n (IndRec.get bn ix) Q m := by
  apply RASig.wp_get (indFits h0 hn) (ix_lt hi)
  · have e : IndRec.sig.item m bn ix = (ents (m bn)).getD ix 0 := by
      have hd : ix / IndRec.sig.itemsPerVal = 0 := Nat.div_eq_of_lt hi
      have hm : ix % IndRec.sig.itemsPerVal = ix := Nat.mod_eq_of_lt hi
      rw [RASig.item, hd, hm]
      rfl
    rw [e]
    exact hQ

theorem wp_indRead {Q : List Waddr → Mem → Prop} (hn : bn < n) (hQ : Q (ents (m bn)) m) :
    Txn.wp n (IndRec.read bn) Q m := by
  apply @RASig.wp_readItems _ IndRec.sig _ bn _ _ _ hn
  have e : IndRec.sig.items (Txn.blocks m (IndRec.sig.raStart bn) 1) = ents (m bn) := by
    simp [Txn.blocks, RASig.items]
    rfl
  rw [e]
  exact hQ

theorem wp_indPut {Q : Unit → Mem → Prop} {v : Waddr} (h0 : bn ≠ 0) (hn : bn < n)
    (hi : ix < nIndirect)
    (hQ : ∀ w, ents w = (ents (m bn)).set ix v → Q () (Function.update m bn w)) :
    Txn.wp n (IndRec.put bn ix v) Q m := by
  have hd : ix / IndRec.sig.itemsPerVal = 0 := Nat.div_eq_of_lt hi
  have hm : ix % IndRec.sig.itemsPerVal = ix := Nat.mod_eq_of_lt hi
  apply RASig.wp_put (indFits h0 hn) (ix_lt hi)
  have h := hQ _ (IndRec.sig.val2block_updN (m bn) hi (show Rec.WellFormed IndRec.sig.itemtype v from trivial))
  unfold RASig.putItem
  rw [hd, hm]
  exact h

theorem ipack_ents {l : List Waddr} (hl : l.length = nIndirect) :
    IndRec.sig.ipack l = [packEnts l] := by
  have hitems : IndRec.sig.items [packEnts l] = l := by
    simp only [RASig.items, List.flatMap_cons, List.flatMap_nil, List.append_nil]
    exact ents_packEnts hl
  rw [← IndRec.sig.ipack_items [packEnts l], hitems]

theorem wp_indWrite {Q : Unit → Mem → Prop} {l : List Waddr} (h0 : bn ≠ 0) (hn : bn < n)
    (hl : l.length = nIndirect) (hQ : Q () (Function.update m bn (packEnts l))) :
    Txn.wp n (IndRec.write bn l) Q m := by
  have hp := ipack_ents hl
  have hw : Txn.writeBlocks m bn [packEnts l] = Function.update m bn (packEnts l) := by
    funext b
    rw [Txn.writeBlocks]
    rcases eq_or_ne b bn with rfl | h
    · simp
    · rw [Function.update_of_ne h, if_neg (by simp only [List.length_singleton]; omega)]
  apply Txn.wp_writeRange (a := bn) h0
  · rw [hp]
    exact hn
  · rw [hp, hw]
    exact hQ

theorem atMost_indWrite {l : List Waddr} (hl : l.length = nIndirect) :
    Txn.AtMost 1 (IndRec.write bn l) := by
  intro m
  change (Txn.writes (Txn.writeRange bn (IndRec.sig.ipack l)) m).length ≤ 1
  rw [Txn.writes_writeRange, ipack_ents hl, List.length_range', List.length_singleton]

theorem run_indRead (m : Mem) (bn : ℕ) : (Txn.run (IndRec.read bn) m).1 = ents (m bn) :=
  Txn.wp_run (wp_indRead (Q := fun l _ => l = ents (m bn)) (Nat.lt_succ_self bn) rfl)

theorem atMost_indRead (bn : ℕ) : Txn.AtMost 0 (IndRec.read bn) := Txn.atMost_readRange _ _ _ _

end

/-! ### Blocks in use and free blocks -/

/-- The free blocks of an allocator. -/
def freeSet (m : Mem) (bxp : BallocXparams) (ms : BmapCacheType) : Multiset ℕ :=
  BALLOCC.freeList m bxp ms

/-- The blocks in `N` are in use: they are different from each other and from the free blocks. -/
structure Good (bxp : BallocXparams) (m : Mem) (ms : BmapCacheType) (N : Multiset ℕ) : Prop where
  nodup : (N + freeSet m bxp ms).Nodup
  valid : ∀ b ∈ N + freeSet m bxp ms, b ≠ 0 ∧ b < BALLOCC.nbits bxp

section

variable {n : ℕ} {bxp : BallocXparams} {m m' : Mem} {ms ms' : BmapCacheType} {N N' : Multiset ℕ}
  {b : ℕ}

theorem Good.congr (h : Good bxp m ms N)
    (e : N' + freeSet m' bxp ms' = N + freeSet m bxp ms) : Good bxp m' ms' N' :=
  ⟨e ▸ h.nodup, e ▸ h.valid⟩

theorem Good.mono (h : Good bxp m ms N) (hN : N' ≤ N) : Good bxp m ms N' := by
  have hle : N' + freeSet m bxp ms ≤ N + freeSet m bxp ms := add_le_add_left hN _
  exact ⟨Multiset.nodup_of_le hle h.nodup, fun b hb => h.valid b (Multiset.mem_of_le hle hb)⟩

theorem Good.ne_zero (h : Good bxp m ms N) (hb : b ∈ N) : b ≠ 0 :=
  (h.valid b (Multiset.mem_add.2 (.inl hb))).1

theorem Good.lt_nbits (h : Good bxp m ms N) (hb : b ∈ N) : b < BALLOCC.nbits bxp :=
  (h.valid b (Multiset.mem_add.2 (.inl hb))).2

theorem lt_of_lt_nbits (hx : bxp.Ok n) (h : b < BALLOCC.nbits bxp) : b < n := by
  have h₁ : bxp.bmapStart + bxp.bmapNBlocks ≤ n := hx.fits.bound
  have h₂ := hx.above
  omega

theorem not_mem_region (hx : bxp.Ok n) (h : b < BALLOCC.nbits bxp) :
    b ∉ BALLOCC.bmp.region bxp := fun hr => by
  have h₁ : bxp.bmapStart ≤ b := hr.1
  have h₂ := hx.above
  omega

theorem Good.lt (hx : bxp.Ok n) (h : Good bxp m ms N) (hb : b ∈ N) : b < n :=
  lt_of_lt_nbits hx (h.lt_nbits hb)

theorem Good.not_mem_region (hx : bxp.Ok n) (h : Good bxp m ms N) (hb : b ∈ N) :
    b ∉ BALLOCC.bmp.region bxp := BlockPtr.not_mem_region hx (h.lt_nbits hb)

theorem freeSet_congr (h : ∀ a ∈ BALLOCC.bmp.region bxp, m' a = m a) :
    freeSet m' bxp ms = freeSet m bxp ms := by
  rw [freeSet, AllocSig.freeList_congr h, freeSet]

/-- A block in use is given back. -/
theorem wp_freeBlock {Q : BmapCacheType → Mem → Prop} (hx : bxp.Ok n)
    (hg : Good bxp m ms (b ::ₘ N))
    (hQ : ∀ ms' m', BALLOCC.Step bxp ∅ m ms m' ms' →
      freeSet m' bxp ms' = b ::ₘ freeSet m bxp ms → Q ms' m') :
    Txn.wp n (BALLOCC.free bxp b ms) Q m := by
  have hmem : b ∈ b ::ₘ N := Multiset.mem_cons_self b N
  have hnd := hg.nodup
  rw [Multiset.cons_add, Multiset.nodup_cons, Multiset.mem_add] at hnd
  apply AllocSig.wp_free hx.fits (hg.ne_zero hmem) (hg.lt_nbits hmem)
  · exact fun h => hnd.1 (.inr h)
  · intro ms' m' hst hp
    exact hQ ms' m' hst (Multiset.coe_eq_coe.2 hp)

end

/-! ### Changes to trees and forests -/

abbrev treeLeaf (m : Mem) (lvl root off : ℕ) : ℕ := leaf ent nIndirect m lvl root off

abbrev treeNodes (m : Mem) (lvl root : ℕ) : Multiset ℕ := nodes ent nIndirect m lvl root

abbrev treeMissing (m : Mem) (lvl root off : ℕ) : ℕ :=
  RadixTree.missing ent nIndirect m lvl root off

abbrev treePath (m : Mem) (lvl root off : ℕ) : List ℕ :=
  RadixTree.path ent nIndirect m lvl root off

abbrev forestLeaf (m : Mem) (lvl : ℕ) (l : List Waddr) (off : ℕ) : ℕ :=
  fleaf ent nIndirect m lvl (ptrs l) off

abbrev forestNodes (m : Mem) (lvl : ℕ) (l : List Waddr) : Multiset ℕ :=
  fnodes ent nIndirect m lvl (ptrs l)

/-- What clearing pointers does, where a tree or a forest has the index blocks `N` and the pointers
`L` before and `N'` and `L'` after: the pointers at the offsets `P` become null, the others stay,
and the index blocks that are gone are free. -/
structure Clears (bxp : BallocXparams) (size : ℕ) (P : ℕ → Prop) (m : Mem) (ms : BmapCacheType)
    (N : Multiset ℕ) (L : ℕ → ℕ) (m' : Mem) (ms' : BmapCacheType) (N' : Multiset ℕ) (L' : ℕ → ℕ) :
    Prop where
  step : BALLOCC.Step bxp {a | a ∈ N} m ms m' ms'
  cleared : ∀ off < size, P off → L' off = 0
  kept : ∀ off < size, ¬ P off → L' off = L off
  acc : N' + freeSet m' bxp ms' = N + freeSet m bxp ms
  sub : N' ≤ N

section

variable {n : ℕ} {bxp : BallocXparams} {m m' m'' : Mem} {ms ms' ms'' : BmapCacheType}
  {N N' N'' : Multiset ℕ} {L L' L'' : ℕ → ℕ} {size lvl : ℕ} {P P' : ℕ → Prop}

theorem Clears.refl (h : ∀ off < size, P off → L off = 0) :
    Clears bxp size P m ms N L m ms N L :=
  ⟨AllocSig.Step.refl _ _ _ _ _, h, fun _ _ _ => rfl, rfl, le_rfl⟩

theorem Clears.trans (h : Clears bxp size P m ms N L m' ms' N' L')
    (h' : Clears bxp size P' m' ms' N' L' m'' ms'' N'' L'') :
    Clears bxp size (fun off => P off ∨ P' off) m ms N L m'' ms'' N'' L'' where
  step := (h.step).trans (h'.step.mono fun _ hb => Multiset.mem_of_le h.sub hb) (Set.Subset.refl _)
  cleared off ho hp := by
    by_cases hp' : P' off
    · exact h'.cleared off ho hp'
    · rw [h'.kept off ho hp']
      exact h.cleared off ho (hp.resolve_right hp')
  kept off ho hp := by
    rw [h'.kept off ho fun hp' => hp (.inr hp'), h.kept off ho fun hp' => hp (.inl hp')]
  acc := h'.acc.trans h.acc
  sub := h'.sub.trans h.sub

theorem Clears.congr (h : Clears bxp size P m ms N L m' ms' N' L')
    (e : ∀ off < size, P off ↔ P' off) : Clears bxp size P' m ms N L m' ms' N' L' where
  step := h.step
  cleared off ho hp := h.cleared off ho ((e off ho).2 hp)
  kept off ho hp := h.kept off ho fun hp' => hp ((e off ho).1 hp')
  acc := h.acc
  sub := h.sub

theorem Clears.good (h : Clears bxp size P m ms N L m' ms' N' L') (hg : Good bxp m ms N) :
    Good bxp m' ms' N' := hg.congr h.acc

/-! ### Freeing whole trees -/

/-- The index blocks of a forest, as the sum over the list of its roots. -/
theorem forestNodes_eq_sum {l : List Waddr} (hl : l.length = nIndirect) :
    forestNodes m lvl l = (l.map fun w => treeNodes m lvl w.toNat).sum := by
  have hsum : ∀ l : List Waddr, (l.map fun w => treeNodes m lvl w.toNat).sum =
      ∑ i ∈ Finset.range l.length, treeNodes m lvl (ptrs l i) := by
    intro l
    induction l with
    | nil => rfl
    | cons w l ih =>
      rw [List.map_cons, List.sum_cons, ih, List.length_cons, Finset.sum_range_succ', add_comm]
      rfl
  rw [hsum, hl]
  rfl

theorem treeNodes_step (hx : bxp.Ok n) (hst : BALLOCC.Step bxp ∅ m ms m' ms') {root : ℕ}
    (hv : ∀ b ∈ treeNodes m lvl root, b < BALLOCC.nbits bxp) :
    treeNodes m' lvl root = treeNodes m lvl root :=
  RadixTree.nodes_congr fun b hb => hst.frame b (not_mem_region hx (hv b hb)) (Set.notMem_empty b)

/-- Freeing the trees of a list of roots, given how one tree is freed. -/
theorem wp_clearList {Q : BmapCacheType → Mem → Prop} (hx : bxp.Ok n)
    (hone : ∀ root m ms, Good bxp m ms (treeNodes m lvl root) →
      ∀ Q : BmapCacheType → Mem → Prop, (∀ ms' m', BALLOCC.Step bxp ∅ m ms m' ms' →
        freeSet m' bxp ms' = treeNodes m lvl root + freeSet m bxp ms → Q ms' m') →
      Txn.wp n (indclearAll bxp lvl root ms) Q m)
    {l : List Waddr} (hg : Good bxp m ms (l.map fun w => treeNodes m lvl w.toNat).sum)
    (hQ : ∀ ms' m', BALLOCC.Step bxp ∅ m ms m' ms' →
      freeSet m' bxp ms' = (l.map fun w => treeNodes m lvl w.toNat).sum + freeSet m bxp ms →
      Q ms' m') :
    Txn.wp n (forEach (fun bn ms => indclearAll bxp lvl bn.toNat ms) l ms) Q m := by
  set g : Waddr → Multiset ℕ := fun w => treeNodes m lvl w.toNat with hgdef
  apply Txn.wp_post (Q := fun ms' m' => BALLOCC.Step bxp ∅ m ms m' ms' ∧
    (([] : List Waddr).map g).sum + freeSet m' bxp ms' = (l.map g).sum + freeSet m bxp ms)
  · apply wp_forEach (fun r ms' m' => BALLOCC.Step bxp ∅ m ms m' ms' ∧
      (r.map g).sum + freeSet m' bxp ms' = (l.map g).sum + freeSet m bxp ms)
    · rintro w r ms₁ m₁ ⟨hst, hacc⟩
      have hg₁ : Good bxp m₁ ms₁ ((w :: r).map g).sum := hg.congr hacc
      have hle : g w ≤ ((w :: r).map g).sum := by
        rw [List.map_cons, List.sum_cons]
        exact Multiset.le_add_right _ _
      have hnode : treeNodes m₁ lvl w.toNat = g w :=
        treeNodes_step hx hst fun b hb => (hg₁.mono hle).lt_nbits hb
      apply hone _ _ _ (hnode ▸ hg₁.mono hle)
      intro ms₂ m₂ hst' hfree
      refine ⟨hst.trans hst' (Set.Subset.refl _), ?_⟩
      rw [hfree, hnode, ← hacc, List.map_cons, List.sum_cons]
      abel
    · exact ⟨AllocSig.Step.refl _ _ _ _ _, rfl⟩
  · rintro ms' m' ⟨hst, hacc⟩
    apply hQ ms' m' hst
    simpa using hacc

/-- All index blocks of a tree become free. -/
theorem wp_indclearAll (hx : bxp.Ok n) (lvl : ℕ) : ∀ (root : ℕ) (m : Mem) (ms : BmapCacheType),
    Good bxp m ms (treeNodes m lvl root) → ∀ Q : BmapCacheType → Mem → Prop,
    (∀ ms' m', BALLOCC.Step bxp ∅ m ms m' ms' →
      freeSet m' bxp ms' = treeNodes m lvl root + freeSet m bxp ms → Q ms' m') →
    Txn.wp n (indclearAll bxp lvl root ms) Q m := by
  induction lvl with
  | zero =>
    intro root m ms hg Q hQ
    unfold indclearAll
    split_ifs with h0
    · apply wp_pure
      apply hQ _ _ (AllocSig.Step.refl _ _ _ _ _)
      rw [h0, treeNodes, RadixTree.nodes_root_zero, zero_add]
    · rw [treeNodes, RadixTree.nodes_zero h0, ← Multiset.cons_zero] at hg
      apply wp_freeBlock hx hg
      intro ms' m' hst hfree
      apply hQ ms' m' hst
      rw [hfree, treeNodes, RadixTree.nodes_zero h0, Multiset.singleton_add]
  | succ lvl ih =>
    intro root m ms hg Q hQ
    unfold indclearAll
    split_ifs with h0
    · apply wp_pure
      apply hQ _ _ (AllocSig.Step.refl _ _ _ _ _)
      rw [h0, treeNodes, RadixTree.nodes_root_zero, zero_add]
    · have hnodes : treeNodes m (lvl + 1) root =
          root ::ₘ ((ents (m root)).map fun w => treeNodes m lvl w.toNat).sum := by
        rw [treeNodes, RadixTree.nodes_succ h0, ← forestNodes_eq_sum (length_ents _)]
        rfl
      rw [hnodes] at hg
      apply wp_bind
      apply wp_indRead (hg.lt hx (Multiset.mem_cons_self _ _))
      apply wp_bind
      apply wp_clearList hx ih (hg.mono (Multiset.le_cons_self _ _))
      intro ms₁ m₁ hst hfree
      -- the root itself is still in use
      have hg₁ : Good bxp m₁ ms₁ (root ::ₘ 0) := by
        apply hg.congr
        rw [hfree, Multiset.cons_zero, Multiset.singleton_add, Multiset.cons_add]
      apply wp_freeBlock hx hg₁
      intro ms₂ m₂ hst' hfree'
      apply hQ ms₂ m₂ (hst.trans hst' (Set.Subset.refl _))
      rw [hfree', hfree, hnodes, Multiset.cons_add]

/-! ### Parts of a forest -/

theorem forestNodes_step (hx : bxp.Ok n) (hst : BALLOCC.Step bxp ∅ m ms m' ms') {l : List Waddr}
    (hg : Good bxp m ms (forestNodes m lvl l)) : forestNodes m' lvl l = forestNodes m lvl l :=
  RadixTree.fnodes_congr fun b hb => hst.frame b (hg.not_mem_region hx hb) (Set.notMem_empty b)

theorem forestLeaf_step (hx : bxp.Ok n) (hst : BALLOCC.Step bxp ∅ m ms m' ms') {l : List Waddr}
    (hg : Good bxp m ms (forestNodes m lvl l)) {off : ℕ} (ho : off < nIndirect ^ (lvl + 2)) :
    forestLeaf m' lvl l off = forestLeaf m lvl l off :=
  RadixTree.fleaf_congr
    (fun b hb => hst.frame b (hg.not_mem_region hx hb) (Set.notMem_empty b)) ho

/-- The trees of a range of slots become free. -/
theorem wp_indclearAligned {Q : BmapCacheType → Mem → Prop} {l : List Waddr} {start len : ℕ}
    (hx : bxp.Ok n) (hl : l.length = nIndirect) (hg : Good bxp m ms (forestNodes m lvl l))
    (hQ : ∀ ms' m', Clears bxp (nIndirect ^ (lvl + 2))
      (fun off => start / nIndirect ^ (lvl + 1) ≤ off / nIndirect ^ (lvl + 1) ∧
        off / nIndirect ^ (lvl + 1) < start / nIndirect ^ (lvl + 1) + len / nIndirect ^ (lvl + 1))
      m ms (forestNodes m lvl l) (forestLeaf m lvl l) m' ms'
      (forestNodes m' lvl (updRange l (start / nIndirect ^ (lvl + 1)) (len / nIndirect ^ (lvl + 1)) 0))
      (forestLeaf m' lvl (updRange l (start / nIndirect ^ (lvl + 1)) (len / nIndirect ^ (lvl + 1)) 0)) →
      Q ms' m') :
    Txn.wp n (indclearAligned bxp lvl l start len ms) Q m := by
  set q := start / nIndirect ^ (lvl + 1)
  set k := len / nIndirect ^ (lvl + 1)
  set l' := updRange l q k 0 with hl'
  have hlen' : l'.length = nIndirect := by rw [hl', length_updRange, hl]
  -- the slots that are dropped and the others
  have hsplit : forestNodes m lvl l' +
      (((l.drop q).take k).map fun w => treeNodes m lvl w.toNat).sum = forestNodes m lvl l := by
    have hdrop : l.drop (q + k) = (l.drop q).drop k := by rw [List.drop_drop]
    conv_rhs =>
      rw [forestNodes_eq_sum hl, ← List.take_append_drop q l, ← List.take_append_drop k (l.drop q)]
    rw [forestNodes_eq_sum hlen', hl', updRange_eq, hdrop]
    simp only [List.map_append, List.sum_append, List.map_replicate, List.sum_replicate]
    have h0 : treeNodes m lvl (0 : Waddr).toNat = 0 := RadixTree.nodes_root_zero m lvl
    rw [h0, smul_zero]
    abel
  apply wp_clearList hx (wp_indclearAll hx lvl)
  · exact hg.mono (hsplit ▸ Multiset.le_add_left _ _)
  · intro ms' m' hst hfree
    have hle : forestNodes m lvl l' ≤ forestNodes m lvl l := hsplit ▸ Multiset.le_add_right _ _
    have hnodes : forestNodes m' lvl l' = forestNodes m lvl l' :=
      forestNodes_step hx hst (hg.mono hle)
    have hptrs := ptrs_updRange l q k
    apply hQ
    refine ⟨hst.mono (Set.empty_subset _), ?_, ?_, ?_, hnodes ▸ hle⟩
    · intro off ho hP
      rw [forestLeaf, fleaf, hptrs, if_pos hP, RadixTree.leaf_root_zero]
    · intro off ho hP
      rw [forestLeaf_step hx hst (hg.mono hle) ho, forestLeaf, forestLeaf, fleaf, hptrs, if_neg hP,
        fleaf]
    · rw [hnodes, hfree, ← add_assoc, hsplit]

/-- A forest in which the tree of one slot has changed, where only blocks of that tree and free
blocks have been written. -/
theorem forest_set {l : List Waddr} {q v : ℕ} {W : Set ℕ} (hx : bxp.Ok n)
    (hl : l.length = nIndirect) (hq : q < nIndirect) (hv : v < 2 ^ addrlen)
    (hg : Good bxp m ms (forestNodes m lvl l)) (hst : BALLOCC.Step bxp W m ms m' ms')
    (hW : ∀ a ∈ W, a ∈ treeNodes m lvl (ptrs l q) + freeSet m bxp ms) :
    (∃ R, forestNodes m lvl l = treeNodes m lvl (ptrs l q) + R ∧
      forestNodes m' lvl (l.set q (addr2w v)) = treeNodes m' lvl v + R ∧ ∀ b ∈ R, m' b = m b) ∧
    ∀ off < nIndirect ^ (lvl + 2), forestLeaf m' lvl (l.set q (addr2w v)) off =
      if off / nIndirect ^ (lvl + 1) = q then treeLeaf m' lvl v (off % nIndirect ^ (lvl + 1))
      else forestLeaf m lvl l off := by
  have hK : 0 < nIndirect ^ (lvl + 1) := pow_pos nIndirect_pos _
  have hptrs : ptrs (l.set q (addr2w v)) = Function.update (ptrs l) q v := ptrs_set (hl ▸ hq) hv
  have hsplit : forestNodes m lvl l = treeNodes m lvl (ptrs l q) +
      fnodes ent nIndirect m lvl (Function.update (ptrs l) q 0) := RadixTree.fnodes_eq_add hq
  -- the blocks of the other trees are not touched
  have hagree : ∀ b ∈ fnodes ent nIndirect m lvl (Function.update (ptrs l) q 0), m' b = m b := by
    intro b hb
    have hb' : b ∈ forestNodes m lvl l := by
      rw [hsplit]
      exact Multiset.mem_add.2 (.inr hb)
    apply hst.frame b (hg.not_mem_region hx hb')
    intro ha
    have hnd := hg.nodup
    rw [hsplit, add_right_comm] at hnd
    exact Multiset.disjoint_left.1 (Multiset.nodup_add.1 hnd).2.2 (hW b ha) hb
  refine ⟨⟨_, hsplit, ?_, hagree⟩, ?_⟩
  · rw [forestNodes, hptrs, RadixTree.fnodes_eq_add hq, Function.update_self,
      Function.update_idem, RadixTree.fnodes_congr hagree]
  · intro off ho
    rw [forestLeaf, fleaf, hptrs]
    split_ifs with hoq
    · rw [hoq, Function.update_self]
    · rw [Function.update_of_ne hoq, forestLeaf, fleaf]
      apply RadixTree.leaf_congr _ (Nat.mod_lt _ hK)
      intro b hb
      apply hagree
      rw [RadixTree.mem_fnodes]
      exact ⟨_, RadixTree.div_lt_of_lt_pow ho, by rwa [Function.update_of_ne hoq]⟩

/-- Clearing pointers of the tree in one slot. -/
theorem Clears.slot {l : List Waddr} {q v : ℕ} (hx : bxp.Ok n) (hl : l.length = nIndirect)
    (hq : q < nIndirect) (hv : v < 2 ^ addrlen) (hg : Good bxp m ms (forestNodes m lvl l))
    (h : Clears bxp (nIndirect ^ (lvl + 1)) P m ms (treeNodes m lvl (ptrs l q))
      (treeLeaf m lvl (ptrs l q)) m' ms' (treeNodes m' lvl v) (treeLeaf m' lvl v)) :
    Clears bxp (nIndirect ^ (lvl + 2))
      (fun off => off / nIndirect ^ (lvl + 1) = q ∧ P (off % nIndirect ^ (lvl + 1)))
      m ms (forestNodes m lvl l) (forestLeaf m lvl l) m' ms'
      (forestNodes m' lvl (l.set q (addr2w v))) (forestLeaf m' lvl (l.set q (addr2w v))) := by
  have hK : 0 < nIndirect ^ (lvl + 1) := pow_pos nIndirect_pos _
  obtain ⟨⟨R, hR, hR', -⟩, hleaf⟩ := forest_set hx hl hq hv hg h.step
    fun a ha => Multiset.mem_add.2 (.inl ha)
  constructor
  · exact h.step.mono fun b hb => by
      rw [Set.mem_ofPred_eq, hR]
      exact Multiset.mem_add.2 (.inl hb)
  · rintro off ho ⟨hoq, hP⟩
    rw [hleaf off ho, if_pos hoq]
    exact h.cleared _ (Nat.mod_lt _ hK) hP
  · intro off ho hP
    rw [hleaf off ho]
    split_ifs with hoq
    · rw [h.kept _ (Nat.mod_lt _ hK) fun hP' => hP ⟨hoq, hP'⟩, forestLeaf, fleaf, hoq]
    · rfl
  · rw [hR', hR, add_right_comm, h.acc, add_right_comm]
  · rw [hR', hR]
    exact add_le_add_left h.sub _

end

end BlockPtr

end Fscq
