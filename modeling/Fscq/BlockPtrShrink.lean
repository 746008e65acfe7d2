import Fscq.BlockPtrRead

/-!
# Shrinking the pointers of an inode

Shrinking gives back exactly the index blocks that no longer hold a pointer.
-/

namespace Fscq

open CrashProg

namespace BlockPtr

section

variable {IRec IAttr : Type} {B : BlockPtrSig IRec IAttr} {ir : IRec} {n nr : ℕ}
  {bxp : BallocXparams} {m : Mem} {ms : BmapCacheType} {l : List Waddr}

theorem Rep.nullFrom (h : Rep B bxp m ir l) : NullFrom B m ir (B.irLen ir) := by
  intro off ho hle
  have hlen := length_recWords (m := m) h.direct
  rw [← ptrs_recWords h.direct ho, ptrs, List.getD_eq_getElem _ _ (hlen ▸ ho)]
  rw [← h.len] at hle
  have hmem : (recWords B m ir)[off] ∈ (recWords B m ir).drop l.length := by
    rw [List.mem_iff_getElem]
    refine ⟨off - l.length, ?_, ?_⟩
    · rw [List.length_drop]
      omega
    · rw [List.getElem_drop]
      congr 1
      omega
  rw [h.past _ hmem]
  rfl

/-- A record represents the list of its pointers. -/
theorem Rep.of_ptrs (hlen : l.length = B.irLen ir) (hb : l.length ≤ nBlocks B)
    (hd : (B.irBlocks ir).length = B.nDirect) (hg : Good bxp m ms (recNodes B m ir))
    (hp : ∀ off < l.length, ptrs l off = ptr B m ir off) (hn : NullFrom B m ir (B.irLen ir)) :
    Rep B bxp m ir l where
  len := hlen
  bound := hb
  direct := hd
  valid _ hb := hg.lt_nbits hb
  nodup := (Multiset.nodup_add.1 hg.nodup).1
  firstn := by
    have hw : l.length ≤ (recWords B m ir).length := by rwa [length_recWords hd]
    apply ext_ptrs
    · rw [List.length_take, Nat.min_eq_left hw]
    · intro i hi
      rw [ptrs_take _ hi, ptrs_recWords hd (hi.trans_le hb), hp i hi]
  past := by
    intro w hw
    obtain ⟨i, hi, rfl⟩ := List.getElem_of_mem hw
    rw [List.length_drop, length_recWords hd] at hi
    have hlt : l.length + i < (recWords B m ir).length := by
      rw [length_recWords hd]
      omega
    have hz := hn (l.length + i) (by omega) (by omega)
    rw [← ptrs_recWords hd (by omega), ptrs, List.getD_eq_getElem _ _ hlt] at hz
    rw [List.getElem_drop]
    exact BitVec.eq_of_toNat_eq hz

/-- Shrinking.  The record represents the beginning of the list, and the conditions hold again: no
pointers past the end, and no index block without a pointer.  The index blocks that are left are
those that hold a pointer which is left; all others have become free, each once, and no other
block has changed.  A record of length zero has no index blocks. -/
theorem shrink_frees (hx : bxp.Ok n) (h : Rep B bxp m ir l) (hg : Good bxp m ms (recNodes B m ir))
    (ha : AllHold m (recNodes B m ir)) :
    Txn.wp n (shrink B bxp ir nr ms) (fun r m' =>
      Rep B bxp m' r.2 (l.take (l.length - nr)) ∧ Good bxp m' r.1 (recNodes B m' r.2) ∧
      AllHold m' (recNodes B m' r.2) ∧
      (∀ b, b ∈ recNodes B m' r.2 ↔
        ∃ off < nBlocks B, ptr B m' r.2 off ≠ 0 ∧ b ∈ recPath B m ir off) ∧
      freeSet m' bxp r.1 = recNodes B m ir - recNodes B m' r.2 + freeSet m bxp ms ∧
      BALLOCC.Step bxp {a | a ∈ recNodes B m ir} m ms m' r.1 ∧
      (l.length ≤ nr → (∀ lvl < 3, roots B r.2 lvl = 0) ∧ recNodes B m' r.2 = 0)) m := by
  apply wp_ptrShrink_tight hx h.direct (h.len ▸ h.bound) hg
  intro ms' m' ir' hs htight
  obtain ⟨⟨hn, ha'⟩, hmem⟩ := htight ⟨h.nullFrom, ha⟩
  have hg' : Good bxp m' ms' (recNodes B m' ir') := hg.congr hs.acc
  have hlen : (l.take (l.length - nr)).length = B.irLen ir' := by
    rw [List.length_take, hs.len, h.len, Nat.min_eq_left (Nat.sub_le _ _)]
  have hrep : Rep B bxp m' ir' (l.take (l.length - nr)) := by
    apply Rep.of_ptrs hlen _ hs.direct hg'
    · intro off ho
      have ho' : off < B.irLen ir - nr := by rwa [hlen, hs.len] at ho
      rw [ptrs_take _ (by rwa [h.len]), h.ptrs_eq (by rw [h.len]; omega), hs.ptr off ho']
    · exact hn
    · exact (List.length_take_le' _ _).trans h.bound
  refine ⟨hrep, hg', ha', hmem, ?_, hs.step, ?_⟩
  · have hsplit := tsub_add_cancel_of_le hs.sub
    have hacc := hs.acc
    rw [← hsplit, add_comm (recNodes B m ir - _), add_assoc] at hacc
    exact add_left_cancel hacc
  · -- a block that is left would hold a pointer
    intro hnr
    have hnil : recNodes B m' ir' = 0 := by
      apply Multiset.eq_zero_of_forall_notMem
      intro b hb
      obtain ⟨off, ho, hne, -⟩ := (hmem b).1 hb
      exact hne (hn off ho (by rw [hs.len, ← h.len]; omega))
    refine ⟨?_, hnil⟩
    intro lvl hl
    by_contra hne
    have hroot : roots B ir' lvl ∈ recNodes B m' ir' :=
      mem_treesNodes.2 ⟨lvl, hl, RadixTree.root_mem_nodes hne⟩
    rw [hnil] at hroot
    exact absurd hroot (Multiset.notMem_zero _)

end

end BlockPtr

namespace Sample

open BlockPtr

/-- The index block is in use, and block 10 is free. -/
theorem good_irec :
    Good highBalloc indexMem (some [10]) (recNodes INODE.bptrSig indexMem irec) := by
  have hfree : freeSet indexMem highBalloc (some [10]) = {10} := rfl
  rw [recNodes_irec]
  constructor
  · rw [hfree]
    decide
  · intro b hb
    rw [hfree, Multiset.mem_add, Multiset.mem_singleton, Multiset.mem_singleton] at hb
    rw [AllocSig.nbits, valulen_is]
    rcases hb with rfl | rfl
    all_goals decide

theorem allHold_irec : AllHold indexMem (recNodes INODE.bptrSig indexMem irec) := by
  intro b hb h
  rw [recNodes_irec, Multiset.mem_singleton] at hb
  rw [hb, indexMem, Function.update_self, ents_packEnts length_index] at h
  have h0 : (9 : Waddr) ∈ List.replicate nIndirect 0 := h ▸ List.mem_cons_self
  exact absurd (List.eq_of_mem_replicate h0) (by decide)

/-- All pointers are dropped, and the index block becomes free. -/
theorem shrink_frees_irec :
    Txn.wp 32769 (shrink INODE.bptrSig highBalloc irec 8 (some [10])) (fun r m' =>
      Rep INODE.bptrSig highBalloc m' r.2 [] ∧ recNodes INODE.bptrSig m' r.2 = 0 ∧
      freeSet m' highBalloc r.1 = {1} + {10}) indexMem := by
  apply Txn.wp_post (shrink_frees highBalloc_ok rep_irec good_irec allHold_irec)
  rintro r m' ⟨hrep, -, -, -, hfree, -, hnil⟩
  obtain ⟨-, hnil⟩ := hnil (by decide)
  refine ⟨hrep, hnil, ?_⟩
  rw [hfree, hnil, recNodes_irec]
  rfl

end Sample

end Fscq
