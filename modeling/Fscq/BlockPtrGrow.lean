import Fscq.BlockPtrShrink

/-!
# Growing the pointers of an inode

Growing takes exactly the index blocks that are missing on the way to the new pointer, and shrinking
by one gives them back.
-/

namespace Fscq

open CrashProg

namespace BlockPtr

section

variable {IRec IAttr : Type} {B : BlockPtrSig IRec IAttr} {ir ir' ir'' : IRec} {n off lvl : ℕ}
  {bxp : BallocXparams} {m m' m'' : Mem} {ms ms' ms'' : BmapCacheType} {l : List Waddr} {bn : Waddr}

theorem Rep.tight (h : Rep B bxp m ir l) (ha : AllHold m (recNodes B m ir)) : Tight B m ir :=
  ⟨h.nullFrom, ha⟩

/-- All pointers of a record that represents a list, and those past its end. -/
theorem Rep.ptr_eq (h : Rep B bxp m ir l) (ho : off < nBlocks B) : ptr B m ir off = ptrs l off := by
  rcases Nat.lt_or_ge off l.length with hlt | hge
  · exact (h.ptrs_eq hlt).symm
  · rw [h.nullFrom off ho (h.len ▸ hge), ptrs, List.getD_eq_default _ _ hge]
    rfl

/-- A tree of a tight record is there exactly if it has a pointer. -/
theorem Tight.root_iff (h : Tight B m ir) (hl : lvl < 3) : roots B ir lvl ≠ 0 ↔
    ∃ o < nIndirect ^ (lvl + 1), ptr B m ir (B.nDirect + (levelStart lvl + o)) ≠ 0 := by
  constructor
  · intro hne
    obtain ⟨o, ho, hleaf⟩ := RadixTree.exists_leaf (m := m) hne fun b hb =>
      h.hold.exists_ent (mem_treesNodes.2 ⟨lvl, hl, hb⟩)
    refine ⟨o, ho, ?_⟩
    rw [(ptr_tree B m ir hl ho).2.1]
    exact hleaf
  · rintro ⟨o, ho, hne⟩ h0
    rw [(ptr_tree B m ir hl ho).2.1, h0] at hne
    exact hne (RadixTree.leaf_root_zero m lvl o)

/-- The record represents the list with one more pointer. -/
theorem Grows.rep (h : Grows B bxp bn.toNat m ms ir m' ms' ir') (hr : Rep B bxp m ir l)
    (hg : Good bxp m ms (recNodes B m ir)) (hl : l.length < nBlocks B) :
    Rep B bxp m' ir' (l ++ [bn]) := by
  have hlen : (l ++ [bn]).length = B.irLen ir' := by
    rw [List.length_append, h.len, hr.len, List.length_singleton]
  have hlen' : (l ++ [bn]).length = l.length + 1 := List.length_append
  apply Rep.of_ptrs hlen (hlen' ▸ hl) h.direct (hg.congr h.acc)
  · intro off ho
    rw [h.ptr off (by omega), ptrs_append, ← hr.len]
    rcases Nat.lt_succ_iff_lt_or_eq.1 (hlen' ▸ ho) with hlt | rfl
    · rw [if_pos hlt, if_neg hlt.ne, hr.ptrs_eq hlt]
    · rw [if_neg (Nat.lt_irrefl _), if_pos rfl, Nat.sub_self]
      rfl
  · intro off ho hle
    rw [h.len] at hle
    rw [h.ptr off ho, if_neg (by omega)]
    exact hr.nullFrom off ho (by omega)

/-- The index blocks of the record from before are those on the way to a pointer from before. -/
theorem Grows.mem_recNodes_iff {p b : ℕ} (h : Grows B bxp p m ms ir m' ms' ir')
    (hl : B.irLen ir < nBlocks B) (ht : Tight B m ir) : b ∈ recNodes B m ir ↔
    ∃ off < nBlocks B, BlockPtr.ptr B m ir off ≠ 0 ∧ b ∈ recPath B m' ir' off := by
  apply BlockPtr.mem_recNodes_iff _ (h.gains (ht.past _ hl le_rfl)) ht.hold
  intro lvl hlvl
  rcases eq_or_ne (BlockPtr.roots B ir lvl) 0 with h0 | h0
  · exact .inr h0
  · exact .inl (h.roots lvl hlvl h0).symm

/-- Two records with the same pointers are both without trees, or none is, if both are tight. -/
theorem Tight.roots_iff (h : Tight B m ir) (h' : Tight B m' ir')
    (hp : ∀ off < nBlocks B, ptr B m' ir' off = ptr B m ir off) (hl : lvl < 3) :
    roots B ir' lvl = 0 ↔ roots B ir lvl = 0 := by
  rw [← not_iff_not]
  change roots B ir' lvl ≠ 0 ↔ roots B ir lvl ≠ 0
  rw [h.root_iff hl, h'.root_iff hl]
  refine exists_congr fun o => and_congr_right fun ho => ?_
  rw [hp _ (ptr_tree B m ir hl ho).1]

/-- Shrinking by one undoes a growth. -/
theorem Grows.wp_undo (hx : bxp.Ok n) (h : Grows B bxp bn.toNat m ms ir m' ms' ir')
    (hr : Rep B bxp m ir l) (hg : Good bxp m ms (recNodes B m ir))
    (ha : AllHold m (recNodes B m ir)) (hl : l.length < nBlocks B) (hbn : bn ≠ 0) :
    Txn.wp n (shrink B bxp ir' 1 ms') (fun q m'' => Rep B bxp m'' q.2 l ∧
      (∀ lvl < 3, BlockPtr.roots B q.2 lvl = 0 ↔ BlockPtr.roots B ir lvl = 0) ∧
      freeSet m'' bxp q.1 = freeSet m bxp ms) m' := by
  have ht := hr.tight ha
  have hl' : B.irLen ir < nBlocks B := hr.len ▸ hl
  have hr' := h.rep hr hg hl
  have hg' := hg.congr h.acc
  have hbn' : bn.toNat ≠ 0 := fun h0 => hbn (BitVec.eq_of_toNat_eq h0)
  have ht' : Tight B m' ir' := h.tight hl' hbn' ht
  apply wp_ptrShrink_tight hx h.direct (by rw [h.len]; exact hl') hg'
  intro ms'' m'' ir'' hs htight
  obtain ⟨ht'', hmem⟩ := htight ht'
  have hlen : B.irLen ir' - 1 = l.length := by rw [h.len, hr.len, Nat.add_sub_cancel]
  have hg'' := hg'.congr hs.acc
  have hrep : Rep B bxp m'' ir'' l := by
    apply Rep.of_ptrs (hs.len.trans hlen).symm hr.bound hs.direct hg'' _ ht''.past
    intro off ho
    rw [hs.ptr off (hlen ▸ ho), h.ptr off (ho.trans hl), if_neg (by rw [← hr.len]; omega),
      hr.ptrs_eq ho]
  have hp : ∀ off < nBlocks B, BlockPtr.ptr B m'' ir'' off = BlockPtr.ptr B m ir off :=
    fun off ho => (hrep.ptr_eq ho).trans (hr.ptr_eq ho).symm
  have hnodes : recNodes B m'' ir'' = recNodes B m ir := by
    apply (Multiset.Nodup.ext hrep.nodup hr.nodup).2
    intro b
    rw [hmem, h.mem_recNodes_iff hl' ht]
    exact exists_congr fun off => and_congr_right fun ho => by rw [hp off ho]
  refine ⟨hrep, fun lvl hlvl => ht.roots_iff ht'' hp hlvl, ?_⟩
  have hacc := hs.acc.trans h.acc
  rw [hnodes] at hacc
  exact add_left_cancel hacc

/-- Growing.  The record represents the list with the new pointer, all others are unchanged, and the
conditions hold again.  The allocator has lost the index blocks that were missing on the way to the
new pointer, and no others; without enough of them growing fails, and the allocator has run out of
blocks.  Shrinking by one restores the list, the absence of trees and the set of free blocks. -/
theorem grow_extends (hx : bxp.Ok n) (h : Rep B bxp m ir l) (hg : Good bxp m ms (recNodes B m ir))
    (ha : AllHold m (recNodes B m ir)) (hl : l.length < nBlocks B) (hbn : bn ≠ 0) :
    Txn.wp n (grow B bxp ir bn ms) (fun r m' =>
      (∀ e, r.2 = .error e → (freeSet m bxp ms).card < recMissing B m ir l.length ∧
        freeSet m' bxp r.1 = 0 ∧ Leaks bxp m ms m' r.1) ∧
      ∀ ir', r.2 = .ok ir' →
        Rep B bxp m' ir' (l ++ [bn]) ∧ Good bxp m' r.1 (recNodes B m' ir') ∧
        AllHold m' (recNodes B m' ir') ∧
        (∀ off < nBlocks B, off ≠ l.length → ptr B m' ir' off = ptr B m ir off) ∧
        (∃ new : List ℕ, recPath B m' ir' l.length = recPath B m ir l.length ++ new ∧
          new.length = recMissing B m ir l.length ∧
          recNodes B m' ir' = recNodes B m ir + (new : Multiset ℕ) ∧
          freeSet m bxp ms = (new : Multiset ℕ) + freeSet m' bxp r.1) ∧
        Txn.wp n (shrink B bxp ir' 1 r.1) (fun q m'' => Rep B bxp m'' q.2 l ∧
          (∀ lvl < 3, roots B q.2 lvl = 0 ↔ roots B ir lvl = 0) ∧
          freeSet m'' bxp q.1 = freeSet m bxp ms) m') m := by
  have ht := h.tight ha
  have hl' : B.irLen ir < nBlocks B := h.len ▸ hl
  apply wp_ptrGrow hx h.direct hl' hbn hg
  · intro hlack ms' m' hlk hnone
    refine ⟨fun e _ => ⟨?_, hnone, hlk⟩, fun ir' he => nomatch he⟩
    rw [h.len]
    exact hlack
  · intro ms' m' ir' hgr
    refine ⟨fun e he => (nomatch he), fun ir₁ he => ?_⟩
    obtain rfl : ir' = ir₁ := Except.ok.inj he
    have hbn' : bn.toNat ≠ 0 := fun h0 => hbn (BitVec.eq_of_toNat_eq h0)
    refine ⟨hgr.rep h hg hl, hg.congr hgr.acc, (hgr.tight hl' hbn' ht).hold, ?_, ?_,
      hgr.wp_undo hx h hg ha hl hbn⟩
    · intro off ho hne
      rw [hgr.ptr off ho, if_neg (h.len ▸ hne)]
    · obtain ⟨new, hpath, hnodes, hcard⟩ := hgr.adds
      rw [h.len]
      refine ⟨new, hpath, hcard, hnodes, ?_⟩
      have hacc := hgr.acc
      rw [hnodes, add_assoc] at hacc
      exact (add_left_cancel hacc).symm

end

end BlockPtr

namespace Sample

open BlockPtr

/-- The record grows by a pointer in its index block. -/
theorem grow_extends_irec :
    Txn.wp 32769 (grow INODE.bptrSig highBalloc irec 11 (some [10])) (fun r m' =>
      (∀ e, r.2 = .error e → (freeSet indexMem highBalloc (some [10])).card <
        recMissing INODE.bptrSig indexMem irec 8) ∧
      ∀ ir', r.2 = .ok ir' → Rep INODE.bptrSig highBalloc m' ir' [2, 3, 4, 5, 6, 7, 8, 9, 11])
      indexMem := by
  have hl : [2, 3, 4, 5, 6, 7, 8, 9].length < nBlocks INODE.bptrSig := by
    rw [nBlocks_eq, treesSize, nIndirect_is]
    decide
  apply Txn.wp_post (grow_extends highBalloc_ok rep_irec good_irec allHold_irec hl (by decide))
  rintro r m' ⟨herr, hok⟩
  exact ⟨fun e he => (herr e he).1, fun ir' he => (hok ir' he).1⟩

end Sample

end Fscq
