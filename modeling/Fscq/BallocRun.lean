import Fscq.Balloc

/-!
# Runs of the allocators

The allocator with the cached list refines a finite set of free objects, in every state that its
operations reach; the list may be dropped and read again from the bitmap at any point.  The scan of
the bitmap finds a free object whenever there is one.
-/

namespace Fscq

open CrashProg

namespace AllocSig

variable {XParams : Type} {S : AllocSig XParams} {n bn : ℕ} {xp : XParams} {m : Mem}
  {ms : BmapCacheType}

/-! ## The scan of the bitmap -/

/-- A word is all ones exactly when all of its bits are. -/
theorem hasAvail_iff {s : BitVec wordSize} :
    hasAvail s = true ↔ ∃ i < wordSize, s.getLsbD i = avail := by
  have hfull : s = BitVec.allOnes wordSize ↔ ∀ i < wordSize, s.getLsbD i = inuse := by
    constructor
    · rintro rfl i hi
      rw [BitVec.getLsbD_allOnes, decide_eq_true hi, inuse]
    · intro h
      apply BitVec.eq_of_getLsbD_eq
      intro i hi
      rw [h i hi, BitVec.getLsbD_allOnes, decide_eq_true hi, inuse]
  rw [hasAvail]
  split_ifs with hs
  · have h := hfull.1 hs
    constructor
    · intro hf
      cases hf
    · rintro ⟨i, hi, ha⟩
      rw [h i hi] at ha
      cases ha
  · refine ⟨fun _ => ?_, fun _ => rfl⟩
    by_contra hno
    refine hs (hfull.2 fun i hi => ?_)
    cases hb : s.getLsbD i with
    | false => exact absurd ⟨i, hi, hb⟩ hno
    | true => rfl

/-- The word with its reserved bit marked as used. -/
def maskZero (s : BitVec wordSize) (i : ℕ) : BitVec wordSize := if i = 0 then s ||| 1 else s

/-- The reserved bit is bit zero of word zero, and the bits are counted across words. -/
theorem getLsbD_maskZero (s : BitVec wordSize) (i : ℕ) {j : ℕ} (hj : j < wordSize) :
    (maskZero s i).getLsbD j = avail ↔ i * wordSize + j ≠ 0 ∧ s.getLsbD j = avail := by
  have hone : (1 : BitVec wordSize).getLsbD j = decide (j = 0) := by
    rcases j with _ | j
    · rfl
    · simp
  rw [maskZero]
  split_ifs with hi
  · rw [hi, BitVec.getLsbD_or, hone, avail]
    by_cases h0 : j = 0
    · simp [h0]
    · simp [h0]
  · have hne : i * wordSize + j ≠ 0 := by
      have : 0 < i * wordSize := Nat.mul_pos (Nat.pos_of_ne_zero hi) (by decide)
      omega
    exact (and_iff_right hne).symm

theorem availNonzero_eq (s : BitVec wordSize) (i : ℕ) :
    availNonzero s i = hasAvail (maskZero s i) := by
  rw [availNonzero, maskZero]
  split_ifs <;> rfl

theorem ifindByte_some {s : BitVec wordSize} {i : ℕ} {b : Bool} (h : ifindByte s = some (i, b)) :
    i < wordSize ∧ s.getLsbD i = avail := by
  obtain ⟨-, hget, hb⟩ := ifindList_some h
  rw [Nat.sub_zero] at hget
  obtain ⟨hlt, he⟩ := List.getElem?_eq_some_iff.1 hget
  have hi : i < wordSize := by simpa [bits] using hlt
  have hbit : s.getLsbD i = b := by simpa [bits] using he
  have hav : b = avail := by simpa using hb
  exact ⟨hi, hbit.trans hav⟩

/-- The search of a word succeeds exactly when the word is not full. -/
theorem ifindByte_isSome_iff {s : BitVec wordSize} :
    (ifindByte s).isSome = true ↔ hasAvail s = true := by
  rw [hasAvail_iff, ← Option.ne_none_iff_isSome, ifindByte, ne_eq, ifindList_none]
  constructor
  · intro h
    by_contra hno
    refine h fun b hb => ?_
    obtain ⟨i, hi, rfl⟩ := List.mem_map.1 hb
    have hne : ¬ s.getLsbD i = avail := fun ha => hno ⟨i, List.mem_range.1 hi, ha⟩
    rw [if_neg hne]
  · rintro ⟨i, hi, ha⟩ h
    have hi' := h (s.getLsbD i) (List.mem_map.2 ⟨i, List.mem_range.2 hi, rfl⟩)
    rw [if_pos ha] at hi'
    cases hi'

/-- What the search of the words finds. -/
theorem wp_ifindWord {Q : Option (ℕ × BitVec wordSize) → Mem → Prop} (hf : S.bmp.Fits n xp)
    (hnone : (∀ bn < S.nbits xp, bn ≠ 0 → S.bit m xp bn = inuse) → Q none m)
    (hsome : ∀ i, i < S.bmp.raLen xp * S.bmp.itemsPerVal →
      hasAvail (maskZero (S.byteAt m xp i) i) = true → Q (some (i, S.byteAt m xp i)) m) :
    Txn.wp n (S.bmp.ifind xp availNonzero) Q m := by
  have hQ : Q (ifindList availNonzero
      ((List.range (S.bmp.raLen xp * S.bmp.itemsPerVal)).map (S.byteAt m xp)) 0) m := by
    cases hr : ifindList availNonzero
        ((List.range (S.bmp.raLen xp * S.bmp.itemsPerVal)).map (S.byteAt m xp)) 0 with
    | none =>
      apply hnone
      intro bn hbn h0
      have hdiv := div_lt_of_lt_nbits hbn
      have hword := ifindList_eq_none.1 hr (bn / wordSize) (S.byteAt m xp (bn / wordSize)) (by
        rw [List.getElem?_map, List.getElem?_range hdiv]
        rfl)
      rw [Nat.zero_add, availNonzero_eq, Bool.eq_false_iff, ne_eq, hasAvail_iff] at hword
      have hmod : bn % wordSize < wordSize := Nat.mod_lt _ (by decide)
      have he : bn / wordSize * wordSize + bn % wordSize = bn := Nat.div_add_mod' bn wordSize
      cases hb : S.bit m xp bn with
      | true => rfl
      | false =>
        refine absurd ⟨bn % wordSize, hmod, ?_⟩ hword
        rw [getLsbD_maskZero _ _ hmod, he]
        exact ⟨h0, hb⟩
    | some r =>
      obtain ⟨i, s⟩ := r
      obtain ⟨-, hget, hc⟩ := ifindList_some hr
      rw [Nat.sub_zero] at hget
      obtain ⟨hlt, he⟩ := List.getElem?_eq_some_iff.1 hget
      have hi : i < S.bmp.raLen xp * S.bmp.itemsPerVal := by simpa using hlt
      obtain rfl : S.byteAt m xp i = s := by simpa using he
      rw [availNonzero_eq] at hc
      exact hsome i hi hc
  exact RASig.wp_ifind hf hQ

/-- The scan of the bitmap.  It returns a free object other than zero and marks it, and it marks
nothing else; it returns nothing exactly when all objects other than zero are in use; and where the
search of the words finds a word, the search of its bits does not fail. -/
theorem bmapAlloc_scan (m : Mem) (hf : S.bmp.Fits n xp) :
    Txn.wp n (Bmap.alloc S xp) (fun r m' =>
      (∀ bn, r = some bn → bn ≠ 0 ∧ bn < S.nbits xp ∧ S.bit m xp bn = avail ∧
        (∀ bn', S.bit m' xp bn' = if bn' = bn then inuse else S.bit m xp bn') ∧
        ∀ a ∉ S.bmp.region xp, m' a = m a) ∧
      (r = none ↔ ∀ bn < S.nbits xp, bn ≠ 0 → S.bit m xp bn = inuse) ∧
      (r = none → m' = m)) m ∧
    Txn.wp n (S.bmp.ifind xp availNonzero) (fun (r : Option (ℕ × BitVec wordSize)) _ =>
      ∀ bn nonfull, r = some (bn, nonfull) →
        (ifindByte (if bn = 0 then nonfull ||| 1 else nonfull)).isSome = true) m := by
  constructor
  · apply wp_bind
    apply wp_bind
    apply wp_ifindWord hf
    · intro hall
      apply wp_pure
      apply wp_pure
      refine ⟨fun bn h => ?_, ⟨fun _ => hall, fun _ => rfl⟩, fun _ => rfl⟩
      cases h
    · intro i hi hav
      obtain ⟨⟨j, b⟩, hj⟩ := Option.isSome_iff_exists.1 (ifindByte_isSome_iff.2 hav)
      obtain ⟨hjw, hbit⟩ := ifindByte_some hj
      obtain ⟨h0, hbit⟩ := (getLsbD_maskZero _ _ hjw).1 hbit
      rw [← bit_word m xp i hjw] at hbit
      rw [maskZero] at hj
      dsimp only
      rw [hj]
      have hlt : i * wordSize + j < S.nbits xp := by
        rw [nbits_eq]
        have : (i + 1) * wordSize ≤ S.bmpLen xp * S.bmp.itemsPerVal * wordSize :=
          Nat.mul_le_mul_right _ hi
        rw [Nat.add_mul, Nat.one_mul] at this
        omega
      have hput : S.bmp.putItem m xp i (setBit (S.byteAt m xp i) inuse j) =
          S.setBitMem m xp (i * wordSize + j) inuse := by
        have h₁ : (i * wordSize + j) / wordSize = i := by
          rw [Nat.mul_comm, Nat.mul_add_div (by decide), Nat.div_eq_of_lt hjw, Nat.add_zero]
        have h₂ : (i * wordSize + j) % wordSize = j := by
          rw [Nat.mul_comm, Nat.mul_add_mod, Nat.mod_eq_of_lt hjw]
        rw [setBitMem, h₁, h₂]
      apply wp_pure
      apply wp_bind
      apply RASig.wp_put hf hi
      rw [hput]
      apply wp_pure
      refine ⟨?_, ⟨fun h => ?_, fun h => ?_⟩, fun h => ?_⟩
      · intro bn h
        obtain rfl : i * wordSize + j = bn := Option.some.inj h
        exact ⟨h0, hlt, hbit, fun bn' => bit_setBitMem m xp _ bn' inuse,
          fun a ha => setBitMem_of_not_mem hlt ha⟩
      · cases h
      · rw [h _ hlt h0] at hbit
        cases hbit
      · cases h
  · apply wp_ifindWord hf
    · intro _ bn nonfull h
      cases h
    · intro i _ hav bn nonfull h
      obtain ⟨rfl, rfl⟩ := Prod.mk.inj (Option.some.inj h)
      exact ifindByte_isSome_iff.2 hav

/-! ## The allocator with the cached list -/

/-- The operations of an allocator.  `load` reads the free list from the bitmap, and `forget` drops
it, as a recovery or an aborted transaction does. -/
inductive Op
  | init
  | initNofree
  | alloc
  | free (bn : ℕ)
  | freevec (l : List ℕ)
  | steal (bn : ℕ)
  | load
  | forget

namespace Op

/-- What is freed is in range, in use and not zero; what is stolen is in range. -/
def Valid (S : AllocSig XParams) (xp : XParams) (F : Finset ℕ) : Op → Prop
  | .free bn => bn ≠ 0 ∧ bn < S.nbits xp ∧ bn ∉ F
  | .freevec l => l.Nodup ∧ ∀ bn ∈ l, bn ≠ 0 ∧ bn < S.nbits xp ∧ bn ∉ F
  | .steal bn => bn < S.nbits xp
  | _ => True

/-- The free objects after an operation that answered `r`. -/
def after (S : AllocSig XParams) (xp : XParams) (F : Finset ℕ) : Op → Option ℕ → Finset ℕ
  | .init, _ => (Finset.range (S.nbits xp)).erase 0
  | .initNofree, _ => ∅
  | .alloc, r => r.elim F F.erase
  | .free bn, _ => insert bn F
  | .freevec l, _ => l.toFinset ∪ F
  | .steal bn, _ => F.erase bn
  | .load, _ => F
  | .forget, _ => F

/-- The right answers: an allocation takes a free object, and fails only if there is none. -/
def Answers (F : Finset ℕ) : Op → Option ℕ → Prop
  | .alloc, some bn => bn ∈ F
  | .alloc, none => F = ∅
  | _, r => r = none

/-- The objects whose bits an operation may change. -/
def touches : Op → Option ℕ → Set ℕ
  | .init, _ => Set.univ
  | .initNofree, _ => Set.univ
  | .alloc, r => {bn | r = some bn}
  | .free bn, _ => {bn}
  | .freevec l, _ => {bn | bn ∈ l}
  | .steal bn, _ => {bn}
  | _, _ => ∅

def exec (S : AllocSig XParams) (xp : XParams) (o : Op) (ms : BmapCacheType) :
    TxnProg (BmapCacheType × Option ℕ) :=
  match o with
  | .init => do
    let ms ← S.init xp
    pure (ms, none)
  | .initNofree => do
    let ms ← S.initNofree xp
    pure (ms, none)
  | .alloc => S.alloc xp ms
  | .free bn => do
    let ms ← S.free xp bn ms
    pure (ms, none)
  | .freevec l => do
    let ms ← S.freevec xp l ms
    pure (ms, none)
  | .steal bn => do
    let ms ← S.steal xp bn ms
    pure (ms, none)
  | .load => do
    let (ms, _) ← S.getFreeBlocks xp ms
    pure (ms, none)
  | .forget => pure (freelist0, none)

end Op

/-- The bitmap and the cached list represent the set `F` of free objects. -/
structure Refines (S : AllocSig XParams) (m : Mem) (xp : XParams) (ms : BmapCacheType)
    (F : Finset ℕ) : Prop where
  bitmap : ∀ bn, bn ∈ F ↔ bn < S.nbits xp ∧ bn ≠ 0 ∧ S.bit m xp bn = avail
  nodup : ∀ l, ms = some l → l.Nodup
  nonzero : ∀ l, ms = some l → 0 ∉ l
  cached : ∀ l, ms = some l → ∀ bn, bn ∈ l ↔ bn ∈ F

/-- The objects whose bits are clear. -/
def freeSet (S : AllocSig XParams) (m : Mem) (xp : XParams) : Finset ℕ :=
  (S.bmapFree m xp).toFinset

/-- What a client reaches that starts with any bitmap and nothing cached, with the set of free
objects that its operations lead to. -/
inductive Reach (S : AllocSig XParams) (xp : XParams) : Mem → BmapCacheType → Finset ℕ → Prop
  | start (m : Mem) : Reach S xp m none (S.freeSet m xp)
  | step {m : Mem} {ms : BmapCacheType} {F : Finset ℕ} (h : Reach S xp m ms F) (o : Op)
      (ho : o.Valid S xp F) :
      Reach S xp (Txn.run (o.exec S xp ms) m).2 (Txn.run (o.exec S xp ms) m).1.1
        (o.after S xp F (Txn.run (o.exec S xp ms) m).1.2)

variable {F : Finset ℕ} {W : Set ℕ}

theorem mem_freeSet : bn ∈ S.freeSet m xp ↔ bn < S.nbits xp ∧ bn ≠ 0 ∧ S.bit m xp bn = avail := by
  rw [freeSet, List.mem_toFinset, mem_bmapFree]

/-- Nothing needs to be known of a list that is not cached. -/
theorem refines_none (h : ∀ bn, bn ∈ F ↔ bn < S.nbits xp ∧ bn ≠ 0 ∧ S.bit m xp bn = avail) :
    S.Refines m xp none F where
  bitmap := h
  nodup l hl := by cases hl
  nonzero l hl := by cases hl
  cached l hl := by cases hl

theorem refines_some {l : List ℕ} (hn : l.Nodup) (hl : ∀ bn, bn ∈ l ↔ bn ∈ F)
    (h : ∀ bn, bn ∈ F ↔ bn < S.nbits xp ∧ bn ≠ 0 ∧ S.bit m xp bn = avail) :
    S.Refines m xp (some l) F where
  bitmap := h
  nodup _ e := Option.some.inj e ▸ hn
  nonzero _ e := by
    rw [← Option.some.inj e, hl, h]
    exact fun h0 => h0.2.1 rfl
  cached _ e := Option.some.inj e ▸ hl

/-- The list that the allocator works with. -/
theorem Refines.freeList (h : S.Refines m xp ms F) :
    (S.freeList m xp ms).Nodup ∧ ∀ bn, bn ∈ S.freeList m xp ms ↔ bn ∈ F := by
  rw [AllocSig.freeList]
  cases hms : ms with
  | none =>
    rw [Option.getD_none]
    exact ⟨nodup_bmapFree, fun bn => by rw [mem_bmapFree, h.bitmap]⟩
  | some l =>
    rw [Option.getD_some]
    exact ⟨h.nodup l hms, h.cached l hms⟩

/-- The bitmap with one more object in use. -/
theorem Refines.bitmap_take (h : S.Refines m xp ms F) (bn bn' : ℕ) :
    bn' ∈ F.erase bn ↔ bn' < S.nbits xp ∧ bn' ≠ 0 ∧
      S.bit (S.setBitMem m xp bn inuse) xp bn' = avail := by
  rw [Finset.mem_erase, h.bitmap, bit_setBitMem]
  rcases eq_or_ne bn' bn with rfl | hne
  · simp [inuse, avail]
  · simp [hne]

/-- The bitmap with one more free object. -/
theorem Refines.bitmap_give (h : S.Refines m xp ms F) (h0 : bn ≠ 0) (hn : bn < S.nbits xp)
    (bn' : ℕ) : bn' ∈ insert bn F ↔ bn' < S.nbits xp ∧ bn' ≠ 0 ∧
      S.bit (S.setBitMem m xp bn avail) xp bn' = avail := by
  rw [Finset.mem_insert, h.bitmap, bit_setBitMem]
  rcases eq_or_ne bn' bn with rfl | hne
  · simp [h0, hn]
  · simp [hne]

/-- What an operation leaves alone: the bits of the objects that it does not touch, and all blocks
outside of the bitmap. -/
structure Keeps (S : AllocSig XParams) (xp : XParams) (W : Set ℕ) (m m' : Mem) : Prop where
  bits : ∀ bn, bn ∉ W → S.bit m' xp bn = S.bit m xp bn
  frame : ∀ a, a ∉ S.bmp.region xp → m' a = m a

theorem Keeps.refl (S : AllocSig XParams) (xp : XParams) (W : Set ℕ) (m : Mem) :
    S.Keeps xp W m m := ⟨fun _ _ => rfl, fun _ _ => rfl⟩

theorem Keeps.trans {m' m'' : Mem} (h : S.Keeps xp W m m') (h' : S.Keeps xp W m' m'') :
    S.Keeps xp W m m'' :=
  ⟨fun bn hbn => (h'.bits bn hbn).trans (h.bits bn hbn),
    fun a ha => (h'.frame a ha).trans (h.frame a ha)⟩

theorem keeps_setBitMem {b : Bool} (hn : bn < S.nbits xp) (hW : bn ∈ W) :
    S.Keeps xp W m (S.setBitMem m xp bn b) where
  bits bn' hbn' := by
    rw [bit_setBitMem, if_neg]
    rintro rfl
    exact hbn' hW
  frame _ ha := setBitMem_of_not_mem hn ha

/-- Freeing an object puts it into the set. -/
theorem Refines.wp_free {Q : BmapCacheType → Mem → Prop} (hf : S.bmp.Fits n xp)
    (h : S.Refines m xp ms F) (h0 : bn ≠ 0) (hn : bn < S.nbits xp) (hbn : bn ∉ F)
    (hQ : ∀ ms' m', S.Refines m' xp ms' (insert bn F) → S.Keeps xp {bn} m m' → Q ms' m') :
    Txn.wp n (S.free xp bn ms) Q m := by
  apply wp_bind
  apply wp_bmapFree hf hn
  apply wp_pure
  refine hQ _ _ ?_ (keeps_setBitMem hn rfl)
  cases hms : ms with
  | none => exact refines_none (h.bitmap_give h0 hn)
  | some l =>
    refine refines_some ?_ ?_ (h.bitmap_give h0 hn)
    · refine List.nodup_cons.2 ⟨fun hmem => hbn ((h.cached l hms bn).1 hmem), h.nodup l hms⟩
    · intro bn'
      rw [List.mem_cons, Finset.mem_insert, h.cached l hms]

theorem Refines.wp_freevec {Q : BmapCacheType → Mem → Prop} {l : List ℕ} (hf : S.bmp.Fits n xp)
    (h : S.Refines m xp ms F) (hl : l.Nodup)
    (hv : ∀ bn ∈ l, bn ≠ 0 ∧ bn < S.nbits xp ∧ bn ∉ F)
    (hQ : ∀ ms' m', S.Refines m' xp ms' (l.toFinset ∪ F) → S.Keeps xp {bn | bn ∈ l} m m' →
      Q ms' m') :
    Txn.wp n (S.freevec xp l ms) Q m := by
  -- the first objects of the list have been freed
  refine wp_mono (wp_forN (N := l.length) (fun i ms' m' =>
    S.Refines m' xp ms' ((l.take i).toFinset ∪ F) ∧ S.Keeps xp {bn | bn ∈ l} m m') ?_ l.length 0
    ms m (by omega) ⟨by simpa using h, .refl S xp _ m⟩) ?_ fun _ => id
  · rintro i ms' m' hi ⟨h', hk⟩
    have hmem : l[i] ∈ l := List.getElem_mem hi
    obtain ⟨h0, hn, hbn⟩ := hv _ hmem
    rw [List.getD_eq_getElem _ _ hi]
    apply h'.wp_free hf h0 hn
    · rw [Finset.mem_union, List.mem_toFinset, not_or]
      refine ⟨fun hx => ?_, hbn⟩
      obtain ⟨j, hj, he⟩ := List.mem_iff_getElem.1 hx
      rw [List.length_take] at hj
      rw [List.getElem_take] at he
      have hji : j = i := (hl.getElem_inj_iff).1 he
      omega
    · intro ms'' m'' h'' hk'
      have hset : (l.take (i + 1)).toFinset ∪ F = insert l[i] ((l.take i).toFinset ∪ F) := by
        rw [List.take_succ_eq_append_getElem hi, List.toFinset_append, Finset.union_right_comm,
          Finset.union_comm, List.toFinset_cons, List.toFinset_nil, Finset.insert_eq]
        simp
      rw [hset]
      refine ⟨h'', hk.trans ⟨fun bn hb => hk'.bits bn ?_, hk'.frame⟩⟩
      rintro rfl
      exact hb hmem
  · rintro ms' m' ⟨h', hk⟩
    rw [List.take_length] at h'
    exact hQ ms' m' h' hk

/-- Every operation refines its effect on the set of free objects. -/
theorem Refines.wp_exec (hf : S.bmp.Fits n xp) (h : S.Refines m xp ms F) {o : Op}
    (ho : o.Valid S xp F) :
    Txn.wp n (o.exec S xp ms) (fun r m' => o.Answers F r.2 ∧
      S.Refines m' xp r.1 (o.after S xp F r.2) ∧ S.Keeps xp (o.touches r.2) m m') m := by
  obtain ⟨hnd, hmem⟩ := h.freeList
  cases o with
  | init =>
    apply wp_bind
    apply wp_init hf
    intro m' hm' hu
    apply wp_pure
    refine ⟨rfl, refines_none fun bn => ?_, fun bn hbn => absurd (Set.mem_univ bn) hbn, hm'⟩
    rw [Op.after, Finset.mem_erase, Finset.mem_range, and_comm]
    exact ⟨fun hb => ⟨hb.1, hb.2, hu bn hb.1⟩, fun hb => ⟨hb.1, hb.2.1⟩⟩
  | initNofree =>
    apply wp_bind
    apply wp_initNofree hf
    intro m' hm' hu
    apply wp_pure
    refine ⟨rfl, refines_none fun bn => ?_, fun bn hbn => absurd (Set.mem_univ bn) hbn, hm'⟩
    refine ⟨fun hb => absurd hb (Finset.notMem_empty bn), fun hb => ?_⟩
    rw [hu bn hb.1] at hb
    cases hb.2.2
  | alloc =>
    apply wp_alloc hf
    · exact fun bn hb => ((h.bitmap bn).1 ((hmem bn).1 hb)).1
    · intro hnil
      have hempty : F = ∅ := by
        apply Finset.eq_empty_of_forall_notMem
        intro bn hb
        rw [← hmem, hnil] at hb
        exact List.not_mem_nil hb
      refine ⟨hempty, ?_, .refl S xp _ m⟩
      refine refines_some List.nodup_nil (fun bn => ?_) h.bitmap
      rw [Op.after, Option.elim_none, hempty]
      simp
    · intro bn l hl _
      rw [hl] at hnd hmem
      have hbn : bn ∈ F := (hmem bn).1 List.mem_cons_self
      obtain ⟨hnot, hnd'⟩ := List.nodup_cons.1 hnd
      refine ⟨hbn, refines_some hnd' (fun bn' => ?_) (h.bitmap_take bn),
        keeps_setBitMem ((h.bitmap bn).1 hbn).1 rfl⟩
      rw [Op.after, Option.elim_some, Finset.mem_erase, ← hmem, List.mem_cons]
      constructor
      · intro hb
        exact ⟨fun e => hnot (e ▸ hb), .inr hb⟩
      · rintro ⟨hne, he | hb⟩
        · exact absurd he hne
        · exact hb
  | free bn =>
    obtain ⟨h0, hn, hbn⟩ := ho
    apply wp_bind
    apply h.wp_free hf h0 hn hbn
    exact fun ms' m' h' hk => wp_pure ⟨rfl, h', hk⟩
  | freevec l =>
    apply wp_bind
    apply h.wp_freevec hf ho.1 ho.2
    exact fun ms' m' h' hk => wp_pure ⟨rfl, h', hk⟩
  | steal bn =>
    apply wp_bind
    apply wp_bind
    apply wp_bmapSteal hf ho
    apply wp_pure
    exact wp_pure ⟨rfl, refines_none (h.bitmap_take bn), keeps_setBitMem ho rfl⟩
  | load =>
    apply wp_bind
    apply wp_getFreeBlocks hf
    exact wp_pure ⟨rfl, refines_some hnd hmem h.bitmap, .refl S xp _ m⟩
  | forget => exact wp_pure ⟨rfl, refines_none h.bitmap, .refl S xp _ m⟩

theorem reach_load (hf : S.bmp.Fits n xp) (h : S.Reach xp m ms F) :
    S.Reach xp m (some (S.freeList m xp ms)) F := by
  have hwp : Txn.wp n (Op.exec S xp .load ms) (fun r m' =>
      r = (some (S.freeList m xp ms), none) ∧ m' = m) m := by
    apply wp_bind
    apply wp_getFreeBlocks hf
    exact wp_pure ⟨rfl, rfl⟩
  obtain ⟨hr, hm⟩ := Txn.wp_run hwp
  have h' := h.step .load trivial
  rw [hr, hm] at h'
  exact h'

/-- The head of the cached list is allocated. -/
theorem reach_alloc {l : List ℕ} (hf : S.bmp.Fits n xp) (hn : bn < S.nbits xp)
    (h : S.Reach xp m (some (bn :: l)) F) :
    S.Reach xp (S.setBitMem m xp bn inuse) (some l) (F.erase bn) := by
  have hwp : Txn.wp n (Op.exec S xp .alloc (some (bn :: l))) (fun r m' =>
      r = (some l, some bn) ∧ m' = S.setBitMem m xp bn inuse) m := by
    apply wp_bind
    apply wp_getFreeBlocks hf
    apply wp_bind
    apply wp_bmapSteal hf hn
    exact wp_pure ⟨rfl, rfl⟩
  obtain ⟨hr, hm⟩ := Txn.wp_run hwp
  have h' := h.step .alloc trivial
  rw [hr, hm] at h'
  exact h'

/-- The allocator refines a finite set.  In every state that a client reaches which frees objects in
use and steals objects in range, the cached list, if there is one, has no duplicates and no zero,
and lists the objects of the set, which are those with a clear bit.  Every operation then does to
the set what it should, answers right, and changes no other bit. -/
theorem alloc_refines_set (hf : S.bmp.Fits n xp) (h : S.Reach xp m ms F) :
    S.Refines m xp ms F ∧ ∀ o : Op, o.Valid S xp F →
      Txn.wp n (o.exec S xp ms) (fun r m' => o.Answers F r.2 ∧
        S.Refines m' xp r.1 (o.after S xp F r.2) ∧ S.Keeps xp (o.touches r.2) m m') m := by
  have href : S.Refines m xp ms F := by
    induction h with
    | start m => exact refines_none fun bn => mem_freeSet
    | step _ o ho ih => exact (Txn.wp_run (ih.wp_exec hf ho)).2.1
  exact ⟨href, fun o ho => href.wp_exec hf ho⟩

end AllocSig

namespace Sample

/-- A bitmap of one block. -/
def balloc : BallocXparams := ⟨1, 1⟩

theorem balloc_fits : BALLOCC.bmp.Fits 2 balloc := ⟨by decide, by decide⟩

theorem one_lt_nbits : 1 < BALLOCC.nbits balloc := by
  rw [AllocSig.nbits, valulen_is]
  decide

theorem bmapAlloc_scan_zero :
    Txn.wp 2 (AllocSig.Bmap.alloc BALLOCC balloc) (fun r m' =>
      (∀ bn, r = some bn → bn ≠ 0 ∧ bn < BALLOCC.nbits balloc ∧
        BALLOCC.bit (fun _ => 0) balloc bn = AllocSig.avail ∧
        (∀ bn', BALLOCC.bit m' balloc bn' =
          if bn' = bn then AllocSig.inuse else BALLOCC.bit (fun _ => 0) balloc bn') ∧
        ∀ a ∉ BALLOCC.bmp.region balloc, m' a = 0) ∧
      (r = none ↔ ∀ bn < BALLOCC.nbits balloc, bn ≠ 0 →
        BALLOCC.bit (fun _ => 0) balloc bn = AllocSig.inuse) ∧
      (r = none → m' = fun _ => 0)) (fun _ => 0) :=
  (AllocSig.bmapAlloc_scan (fun _ => 0) balloc_fits).1

theorem freeList_zero : ∃ l, BALLOCC.freeList (fun _ => 0) balloc none = 1 :: l := by
  have hn : BALLOCC.nbits balloc = valulen - 2 + 2 := by
    rw [AllocSig.nbits, valulen_is]
    decide
  rw [AllocSig.freeList, Option.getD_none, AllocSig.bmapFree, hn, List.range_eq_range',
    List.range'_succ, List.range'_succ, List.filter_cons_of_neg (by simp),
    List.filter_cons_of_pos]
  · exact ⟨_, rfl⟩
  · rw [decide_eq_true_iff]
    refine ⟨one_ne_zero, ?_⟩
    rw [AllocSig.bit, AllocSig.byteAt, RASig.item, RASig.val2block_zero,
      List.getD_replicate _ (RASig.mod_lt_itemsPerVal _)]
    exact BitVec.getLsbD_zero

/-- The list is read from the bitmap, and then an object is allocated. -/
theorem exists_loaded : ∃ l,
    BALLOCC.Reach balloc (fun _ => 0) (some (1 :: l)) (BALLOCC.freeSet (fun _ => 0) balloc) ∧
    BALLOCC.Reach balloc (BALLOCC.setBitMem (fun _ => 0) balloc 1 AllocSig.inuse) (some l)
      ((BALLOCC.freeSet (fun _ => 0) balloc).erase 1) := by
  obtain ⟨l, hl⟩ := freeList_zero
  have h₁ : BALLOCC.Reach balloc (fun _ => 0) (some (1 :: l)) _ :=
    hl ▸ AllocSig.reach_load balloc_fits (.start fun _ => 0)
  exact ⟨l, h₁, AllocSig.reach_alloc balloc_fits one_lt_nbits h₁⟩

/-- An object is allocated from a list that is cached, and freed again. -/
theorem alloc_refines_set_alloc_free : ∃ l F m, F = BALLOCC.freeSet (fun _ => 0) balloc ∧
    m = BALLOCC.setBitMem (fun _ => 0) balloc 1 AllocSig.inuse ∧
    (BALLOCC.Refines (fun _ => 0) balloc (some (1 :: l)) F ∧
      Txn.wp 2 (AllocSig.Op.exec BALLOCC balloc .alloc (some (1 :: l))) (fun r m' =>
        ∃ bn ∈ F, r.2 = some bn ∧ BALLOCC.Refines m' balloc r.1 (F.erase bn) ∧
          BALLOCC.Keeps balloc {bn} (fun _ => 0) m') (fun _ => 0)) ∧
    BALLOCC.Refines m balloc (some l) (F.erase 1) ∧
      Txn.wp 2 (AllocSig.Op.exec BALLOCC balloc (.free 1) (some l)) (fun r m' => r.2 = none ∧
        BALLOCC.Refines m' balloc r.1 (insert 1 (F.erase 1)) ∧
        BALLOCC.Keeps balloc {1} m m') m := by
  obtain ⟨l, h₁, h₂⟩ := exists_loaded
  obtain ⟨href, ha⟩ := AllocSig.alloc_refines_set balloc_fits h₁
  obtain ⟨href', hb⟩ := AllocSig.alloc_refines_set balloc_fits h₂
  refine ⟨l, _, _, rfl, rfl, ⟨href, Txn.wp_post (ha .alloc trivial) ?_⟩, href',
    hb (.free 1) ⟨one_ne_zero, one_lt_nbits, Finset.notMem_erase 1 _⟩⟩
  rintro ⟨ms, r⟩ m' ⟨hr, hset, hk⟩
  cases r with
  | none => exact absurd ((href.cached _ rfl 1).1 List.mem_cons_self) (hr ▸ Finset.notMem_empty 1)
  | some bn =>
    refine ⟨bn, hr, rfl, hset, ⟨fun bn' hbn' => hk.bits bn' fun e => hbn' ?_, hk.frame⟩⟩
    exact (Option.some.inj e).symm

end Sample

end Fscq
