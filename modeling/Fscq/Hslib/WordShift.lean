import Fscq.Hslib.WordArith

/-!
# Shifts and complement of the Haskell words
-/

namespace Fscq.Hslib

theorem toInt_of_le_maxShift {s : ℕ} (h : s ≤ maxShift) : toInt s = s := by
  have : maxShift = 2 ^ 63 - 1 := rfl
  exact toInt_of_lt (by omega)

theorem wlshift_integer (sz : ℕ) (i : ℤ) (s : ℕ) : wlshift sz (.W i) s = some (.W (i * 2 ^ s)) := by
  induction s using Nat.strong_induction_on generalizing i with
  | _ s ih =>
    have hpos := maxShift_pos
    rw [wlshift]
    split_ifs with h
    · rw [ih maxShift h, Option.bind_some, ih (s - maxShift) (by omega), mul_assoc, ← pow_add,
        Nat.add_sub_cancel' h.le]
    · rw [toInt_of_le_maxShift (by omega), shiftL, if_neg (by omega), Int.toNat_natCast]
      rfl

theorem wlshift_machine (sz : ℕ) (w : BitVec 64) (s : ℕ) :
    wlshift sz (.W64 w) s = some (.W64 (w <<< s)) := by
  induction s using Nat.strong_induction_on generalizing w with
  | _ s ih =>
    have hpos := maxShift_pos
    rw [wlshift]
    split_ifs with h
    · rw [ih maxShift h, Option.bind_some, ih (s - maxShift) (by omega), ← BitVec.shiftLeft_add,
        Nat.add_sub_cancel' h.le]
    · rw [toInt_of_le_maxShift (by omega), Int.toNat_natCast]

theorem maxShift_mod_eight : maxShift % 8 = 7 := by decide

/-- Only a whole number of bytes within one step is shifted as a byte string. -/
theorem wlshift_bytes (sz : ℕ) (bs : ByteString) (s : ℕ) : wlshift sz (.WBS bs) s =
    if s ≤ maxShift ∧ s % 8 = 0 then some (.WBS (bs.take (toInt (((sz : ℤ) - s).tdiv 8)).toNat))
    else some (.W (bs2i bs * 2 ^ s)) := by
  have hone : ∀ t ≤ maxShift, t % 8 ≠ 0 →
      wlshift sz (.WBS bs) t = some (.W (bs2i bs * 2 ^ t)) := by
    intro t ht h8
    rw [wlshift, if_neg (by omega)]
    rw [if_neg h8, toInt_of_le_maxShift ht, shiftL, if_neg (by omega), Int.toNat_natCast]
    rfl
  by_cases h : s ≤ maxShift
  · by_cases h8 : s % 8 = 0
    · rw [if_pos ⟨h, h8⟩, wlshift, if_neg (by omega)]
      rw [if_pos h8]
    · rw [if_neg (fun h' => h8 h'.2), hone s h h8]
  · have hmod := maxShift_mod_eight
    rw [if_neg (fun h' => h h'.1), wlshift, if_pos (by omega), hone maxShift le_rfl (by omega),
      Option.bind_some, wlshift_integer, mul_assoc, ← pow_add, Nat.add_sub_cancel' (by omega)]

theorem wrshift_integer (sz : ℕ) (i : ℤ) (s : ℕ) : wrshift sz (.W i) s = some (.W (i / 2 ^ s)) := by
  induction s using Nat.strong_induction_on generalizing i with
  | _ s ih =>
    have hpos := maxShift_pos
    rw [wrshift]
    split_ifs with h
    · rw [ih maxShift h, Option.bind_some, ih (s - maxShift) (by omega),
        Int.ediv_ediv_of_nonneg (by positivity), ← pow_add, Nat.add_sub_cancel' h.le]
    · rw [toInt_of_le_maxShift (by omega), shiftR, if_neg (by omega), Int.toNat_natCast]
      rfl

theorem wrshift_machine (sz : ℕ) (w : BitVec 64) (s : ℕ) :
    wrshift sz (.W64 w) s = some (.W64 (w >>> s)) := by
  induction s using Nat.strong_induction_on generalizing w with
  | _ s ih =>
    have hpos := maxShift_pos
    rw [wrshift]
    split_ifs with h
    · rw [ih maxShift h, Option.bind_some, ih (s - maxShift) (by omega), ← BitVec.shiftRight_add,
        Nat.add_sub_cancel' h.le]
    · rw [toInt_of_le_maxShift (by omega), Int.toNat_natCast]

theorem wrshift_bytes (sz : ℕ) (bs : ByteString) (s : ℕ) : wrshift sz (.WBS bs) s =
    if s ≤ maxShift ∧ s % 8 = 0 then some (.WBS (bs.drop (s / 8)))
    else some (.W (bs2i bs / 2 ^ s)) := by
  have hone : ∀ t ≤ maxShift, t % 8 ≠ 0 →
      wrshift sz (.WBS bs) t = some (.W (bs2i bs / 2 ^ t)) := by
    intro t ht h8
    rw [wrshift, if_neg (by omega)]
    rw [if_neg h8, toInt_of_le_maxShift ht, shiftR, if_neg (by omega), Int.toNat_natCast]
    rfl
  by_cases h : s ≤ maxShift
  · by_cases h8 : s % 8 = 0
    · have hdiv : toInt ((s : ℤ).tdiv 8) = (s / 8 : ℕ) := by
        rw [show (8 : ℤ) = (8 : ℕ) from rfl, ← Int.ofNat_tdiv]
        exact toInt_of_le_maxShift (by omega)
      rw [if_pos ⟨h, h8⟩, wrshift, if_neg (by omega)]
      rw [if_pos h8, hdiv, Int.toNat_natCast]
    · rw [if_neg (fun h' => h8 h'.2), hone s h h8]
  · have hmod := maxShift_mod_eight
    rw [if_neg (fun h' => h h'.1), wrshift, if_pos (by omega), hone maxShift le_rfl (by omega),
      Option.bind_some, wrshift_integer, Int.ediv_ediv_of_nonneg (by positivity), ← pow_add,
      Nat.add_sub_cancel' (by omega)]

/-- A left shift stays within the width; whole bytes are only shifted by zero. -/
def LShiftFits (sz : ℕ) (w : CoqWord) (s : ℕ) : Prop :=
  match w with
  | .W i => i * 2 ^ s < 2 ^ sz
  | .W64 _ => True
  | .WBS bs =>
    if s ≤ maxShift ∧ s % 8 = 0 then s = 0 ∨ sz = 0 else bs2i bs * 2 ^ s < 2 ^ sz

/-- A right shift of a byte string by whole bytes keeps its length only at zero. -/
def RShiftFits (sz : ℕ) (w : CoqWord) (s : ℕ) : Prop :=
  w.IsWBS → s ≤ maxShift → s % 8 = 0 → s = 0 ∨ sz = 0

def CoqWord.IsW64 : CoqWord → Bool
  | W64 _ => true
  | _ => false

section

variable {sz : ℕ} {w : CoqWord} {v : BitVec sz}

theorem returns_shifted_left (s : ℕ) : Returns (some (.W (v.toNat * 2 ^ s))) (Fscq.wlshift v s) ↔
    (v.toNat : ℤ) * 2 ^ s < 2 ^ sz := by
  rw [show (v.toNat : ℤ) * 2 ^ s = (v.toNat * 2 ^ s : ℕ) by push_cast; rfl, returns_integer,
    toNat_wlshift, eq_comm, Nat.mod_eq_iff_lt (by positivity)]
  exact_mod_cast Iff.rfl

theorem returns_shifted_right (s : ℕ) : Returns (some (.W (v.toNat / 2 ^ s))) (Fscq.wrshift v s) := by
  rw [show (v.toNat : ℤ) / 2 ^ s = (v.toNat / 2 ^ s : ℕ) by push_cast; rfl, returns_integer,
    toNat_wrshift]

/-- A byte string that stands for a word has all its bytes. -/
theorem returns_bytes {bs : ByteString} : Returns (some (.WBS bs)) v ↔
    8 * bs.length = sz ∧ bs.length < 2 ^ 63 ∧ bs2i bs = v.toNat := by
  constructor
  · rintro ⟨w, hw, hf, hv⟩
    obtain rfl := Option.some.inj hw
    exact ⟨hf.1, hf.2, hv⟩
  · rintro ⟨hl, hlt, hv⟩
    exact ⟨_, rfl, ⟨hl, hlt⟩, hv⟩

theorem returns_wlshift (h : Represents sz w v) (s : ℕ) :
    Returns (wlshift sz w s) (Fscq.wlshift v s) ↔ LShiftFits sz w s := by
  obtain ⟨hf, hv⟩ := h
  cases w with
  | W i =>
    have hi : i = v.toNat := hv
    rw [wlshift_integer, LShiftFits, hi, returns_shifted_left]
  | W64 w =>
    subst hf
    have hw : w = v := BitVec.eq_of_toNat_eq (Int.natCast_inj.mp hv)
    rw [wlshift_machine, hw]
    refine iff_of_true ⟨_, rfl, rfl, ?_⟩ trivial
    rw [toNat_wlshift, CoqWord.toInteger, BitVec.toNat_shiftLeft, Nat.shiftLeft_eq]
  | WBS bs =>
    have hbs : bs2i bs = v.toNat := hv
    obtain ⟨hl, hlt⟩ := hf
    rw [wlshift_bytes, LShiftFits]
    by_cases hs : s ≤ maxShift ∧ s % 8 = 0
    · have hn : (toInt (((sz : ℤ) - s).tdiv 8)).toNat = bs.length - s / 8 := by
        have hmax : maxShift = 2 ^ 63 - 1 := rfl
        rw [show (sz : ℤ) - s = 8 * ((bs.length : ℤ) - (s / 8 : ℕ)) by omega,
          Int.mul_tdiv_cancel_left _ (by decide), toInt, Int.bmod_def]
        omega
      rw [if_pos hs, if_pos hs, hn, returns_bytes, List.length_take]
      constructor
      · rintro ⟨hlen, -, -⟩
        omega
      · intro h0
        have htake : bs.take (bs.length - s / 8) = bs := List.take_of_length_le (by omega)
        rw [htake, hbs, toNat_wlshift]
        refine ⟨by omega, by omega, ?_⟩
        rcases h0 with rfl | rfl
        · rw [pow_zero, Nat.mul_one, Nat.mod_eq_of_lt v.isLt]
        · rw [show v.toNat = 0 by have := v.isLt; omega, Nat.zero_mul, Nat.zero_mod]
    · rw [if_neg hs, if_neg hs, hbs, returns_shifted_left]

theorem returns_wrshift (h : Represents sz w v) (s : ℕ) :
    Returns (wrshift sz w s) (Fscq.wrshift v s) ↔ RShiftFits sz w s := by
  obtain ⟨hf, hv⟩ := h
  cases w with
  | W i =>
    have hi : i = v.toNat := hv
    rw [wrshift_integer, hi]
    exact iff_of_true (returns_shifted_right s) fun hw => nomatch hw
  | W64 w =>
    subst hf
    have hw : w = v := BitVec.eq_of_toNat_eq (Int.natCast_inj.mp hv)
    rw [wrshift_machine, hw]
    refine iff_of_true ⟨_, rfl, rfl, ?_⟩ fun hw => nomatch hw
    rw [toNat_wrshift, CoqWord.toInteger, BitVec.toNat_ushiftRight, Nat.shiftRight_eq_div_pow]
  | WBS bs =>
    have hbs : bs2i bs = v.toNat := hv
    obtain ⟨hl, hlt⟩ := hf
    rw [wrshift_bytes]
    by_cases hs : s ≤ maxShift ∧ s % 8 = 0
    · rw [if_pos hs, returns_bytes, List.length_drop, bs2i_drop, hbs, toNat_wrshift,
        show 8 * (s / 8) = s by omega]
      constructor
      · rintro ⟨hlen, -, -⟩ - - -
        omega
      · intro hfit
        rcases hfit rfl hs.1 hs.2 with h0 | h0
        · exact ⟨by omega, by omega, by push_cast; rfl⟩
        · exact ⟨by omega, by omega, by push_cast; rfl⟩
    · rw [if_neg hs, hbs]
      exact iff_of_true (returns_shifted_right s) fun _ h1 h2 => absurd ⟨h1, h2⟩ hs

theorem returns_wnot (h : Represents sz w v) : Returns (wnot sz w) (~~~v) ↔ w.IsW64 := by
  obtain ⟨hf, hv⟩ := h
  cases w with
  | W i =>
    refine iff_of_false ?_ (fun h => nomatch h)
    rintro ⟨w, hw, hwf, -⟩
    obtain rfl := Option.some.inj hw
    have hneg : Int.lnot i = -i - 1 := by
      obtain ⟨n, rfl⟩ := Int.eq_ofNat_of_zero_le hf.1
      exact (Int.negSucc_eq n).trans (by omega)
    have h1 := hf.1
    have h2 := hwf.1
    omega
  | W64 w =>
    subst hf
    have hw : w = v := BitVec.eq_of_toNat_eq (Int.natCast_inj.mp hv)
    rw [hw]
    exact iff_of_true (returns_machine _) rfl
  | WBS bs => exact iff_of_false (not_returns_none _) fun h => nomatch h

theorem returns_wones : Returns (wones sz) (BitVec.allOnes sz) ↔ sz < 2 ^ 63 := by
  rw [← toInt_eq_iff, wones]
  by_cases hk : toInt sz < 0
  · rw [bitmask_of_neg hk]
    exact iff_of_false (not_returns_none _) (by omega)
  rw [bitmask_of_nonneg (by omega), Option.map_some]
  have hcast : ((2 : ℤ) ^ (toInt sz).toNat - 1) = (2 ^ (toInt sz).toNat - 1 : ℕ) := by
    push_cast [Nat.one_le_two_pow (n := (toInt sz).toNat)]
    rfl
  rw [hcast, returns_integer, BitVec.toNat_allOnes]
  have h1 := Nat.one_le_two_pow (n := (toInt sz).toNat)
  have h2 := Nat.one_le_two_pow (n := sz)
  constructor
  · intro he
    have := Nat.pow_right_injective (le_refl 2) (show 2 ^ (toInt sz).toNat = 2 ^ sz by omega)
    omega
  · intro he
    rw [he, Int.toNat_natCast]

end

/-- When the shifts, the complement and the all-ones word of width `sz` are those of `Word.v`. -/
theorem shifts_exact (sz : ℕ) :
    (∀ w, ∀ v : BitVec sz, Represents sz w v →
      (∀ s, (Returns (wlshift sz w s) (Fscq.wlshift v s) ↔ LShiftFits sz w s) ∧
        (Returns (wrshift sz w s) (Fscq.wrshift v s) ↔ RShiftFits sz w s)) ∧
      (Returns (wnot sz w) (~~~v) ↔ w.IsW64)) ∧
    (Returns (wones sz) (BitVec.allOnes sz) ↔ sz < 2 ^ 63) :=
  ⟨fun _ _ h => ⟨fun s => ⟨returns_wlshift h s, returns_wrshift h s⟩, returns_wnot h⟩, returns_wones⟩

theorem shifts_exact_integer :
    Represents 8 (.W 3) 3 ∧ Returns (wlshift 8 (.W 3) 2) (Fscq.wlshift 3#8 2) := by
  have h3 : Represents 8 (.W 3) 3 := ⟨by decide, rfl⟩
  exact ⟨h3, (((shifts_exact 8).1 _ _ h3).1 2).1.mpr (show (3 : ℤ) * 2 ^ 2 < 2 ^ 8 by decide)⟩

/-- Shifting the two bytes of `0x0201` left by one keeps byte 1 in place and drops byte 2. -/
theorem wlshift_keeps_low_bytes :
    Represents 16 (.WBS [1, 2]) 0x0201 ∧ wlshift 16 (.WBS [1, 2]) 8 = some (.WBS [1]) ∧
    ¬ Returns (wlshift 16 (.WBS [1, 2]) 8) (Fscq.wlshift 0x0201#16 8) := by
  have hbytes : Represents 16 (.WBS [1, 2]) 0x0201 := ⟨by decide, by decide⟩
  refine ⟨hbytes, ?_, fun h => ?_⟩
  · rw [wlshift_bytes]
    decide
  · have := (returns_wlshift hbytes 8).mp h
    revert this
    rw [LShiftFits]
    decide

end Fscq.Hslib
