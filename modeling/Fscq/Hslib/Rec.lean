import Fscq.Hslib.WordShift

/-!
# Records in the Haskell words

`word_selN_shift` and `word_updN_shift` access an element of a packed array with shifts and masks.
In Haskell the mask is a negative integer and the left shift is not reduced, but what is put together
from them is a word of the right width, as long as the mask is that of the width.
-/

namespace Fscq.Hslib

def wzero (n : ℕ) : CoqWord := if n = 64 then .W64 0 else .W 0

def wordMask : ℕ → ℕ → ℕ → Option CoqWord
  | 0, _, _ => some (wzero 0)
  | l + 1, n, idx => do
    let ones ← wones n
    let w ← combine n ones (l * n) (wzero (l * n))
    wlshift ((l + 1) * n) w (idx * n)

def wordSelNShift : ℕ → ℕ → ℕ → CoqWord → Option CoqWord
  | 0, n, _, _ => some (wzero n)
  | l + 1, n, idx, w => do
    let w ← wrshift ((l + 1) * n) w (idx * n)
    split1 n (l * n) w

def wordUpdNShift : ℕ → ℕ → ℕ → CoqWord → CoqWord → Option CoqWord
  | 0, _, _, w, _ => some w
  | l + 1, n, idx, w, v => do
    let v' := zext n v (l * n)
    let mask ← wordMask (l + 1) n idx
    let newmask ← wlshift ((l + 1) * n) v' (n * idx)
    let notMask ← wnot ((l + 1) * n) mask
    let cleared ← wand ((l + 1) * n) w notMask
    wor ((l + 1) * n) cleared newmask

/-! ### Bits -/

/-- The number with `b` put at bit `s`, after `k` bits there have been cleared. -/
def updBits (k s a b : ℕ) : ℕ := Nat.ldiff a ((2 ^ k - 1) * 2 ^ s) ||| b * 2 ^ s

theorem testBit_updBits (k s a b i : ℕ) : (updBits k s a b).testBit i =
    ((a.testBit i && !(decide (s ≤ i) && decide (i - s < k))) ||
      (decide (s ≤ i) && b.testBit (i - s))) := by
  rw [updBits, Nat.testBit_or, Nat.testBit_ldiff, Nat.testBit_mul_two_pow, Nat.testBit_mul_two_pow,
    Nat.testBit_two_pow_sub_one]

/-- When `b` has no more than the `k` bits, the others are kept. -/
theorem testBit_updBits_of_lt {k s a b i : ℕ} (hb : b < 2 ^ k) : (updBits k s a b).testBit i =
    if s ≤ i ∧ i < s + k then b.testBit (i - s) else a.testBit i := by
  rw [testBit_updBits]
  by_cases hs : s ≤ i
  · by_cases hi : i < s + k
    · have hk : i - s < k := by omega
      simp [hs, hi, hk]
    · have hk : ¬ i - s < k := by omega
      have hbit : b.testBit (i - s) = false :=
        Nat.testBit_lt_two_pow (hb.trans_le (Nat.pow_le_pow_right (by decide) (by omega)))
      simp [hi, hk, hbit]
  · simp [hs]

theorem updBits_lt {N k s a b : ℕ} (ha : a < 2 ^ N) (hb : b < 2 ^ k) (hs : s + k ≤ N) :
    updBits k s a b < 2 ^ N := by
  apply Nat.lt_pow_two_of_testBit
  intro i hi
  rw [testBit_updBits_of_lt hb, if_neg (by omega)]
  exact Nat.testBit_lt_two_pow (ha.trans_le (Nat.pow_le_pow_right (by decide) hi))

/-- The `j`-th `n`-bit field of a number. -/
def field (n : ℕ) (i : ℤ) (j : ℕ) : ℤ := i / 2 ^ (j * n) % 2 ^ n

theorem field_natCast (n a j : ℕ) : field n a j = (a / 2 ^ (j * n) % 2 ^ n : ℕ) := by
  rw [field]
  push_cast
  rfl

theorem testBit_field (n a j i : ℕ) :
    (a / 2 ^ (j * n) % 2 ^ n).testBit i = (decide (i < n) && a.testBit (i + j * n)) := by
  rw [Nat.testBit_mod_two_pow, Nat.testBit_div_two_pow]

theorem field_updBits (n a j idx : ℕ) {b : ℕ} (hb : b < 2 ^ n) :
    field n (updBits n (idx * n) a b) j = if j = idx then (b : ℤ) else field n a j := by
  have hbit : ∀ i, (updBits n (idx * n) a b / 2 ^ (j * n) % 2 ^ n).testBit i =
      (if j = idx then b else a / 2 ^ (j * n) % 2 ^ n).testBit i := by
    intro i
    rw [testBit_field, testBit_updBits_of_lt hb]
    by_cases hi : i < n
    · by_cases hj : j = idx
      · subst hj
        rw [if_pos (by omega), if_pos rfl, Nat.add_sub_cancel, decide_eq_true hi, Bool.true_and]
      · have hout : ¬ (idx * n ≤ i + j * n ∧ i + j * n < idx * n + n) := by
          rintro ⟨h₁, h₂⟩
          rcases Nat.lt_or_gt_of_ne hj with hlt | hgt
          · have := Nat.mul_le_mul_right n (show j + 1 ≤ idx from hlt)
            have e : (j + 1) * n = j * n + n := by ring
            omega
          · have := Nat.mul_le_mul_right n (show idx + 1 ≤ j from hgt)
            have e : (idx + 1) * n = idx * n + n := by ring
            omega
        rw [if_neg hout, if_neg hj, testBit_field]
    · rw [decide_eq_false hi, Bool.false_and]
      have hle : 2 ^ n ≤ 2 ^ i := Nat.pow_le_pow_right (by decide) (by omega)
      split_ifs
      · exact (Nat.testBit_lt_two_pow (hb.trans_le hle)).symm
      · exact (Nat.testBit_lt_two_pow ((Nat.mod_lt _ (by positivity)).trans_le hle)).symm
  rw [field_natCast, Nat.eq_of_testBit_eq hbit]
  split_ifs
  · rfl
  · rw [field_natCast]

/-! ### The programs compute them -/

section

variable {l n idx : ℕ} {x y : CoqWord} {a b : ℕ}

theorem wordMask_eq (l idx : ℕ) (h : 0 ≤ toInt n) : wordMask (l + 1) n idx =
    some (.W ((2 ^ (toInt n).toNat - 1) * 2 ^ (idx * n) : ℕ)) := by
  have hzero : combine n (.W (2 ^ (toInt n).toNat - 1)) (l * n) (wzero (l * n)) =
      some (.W (2 ^ (toInt n).toNat - 1)) := by
    have hcomb : combine n (.W (2 ^ (toInt n).toNat - 1)) (l * n) (wzero (l * n)) =
        combineInteger n (2 ^ (toInt n).toNat - 1) 0 := by
      rw [wzero]
      split_ifs <;> rfl
    rw [hcomb, combineInteger, shiftL, if_neg (Int.not_lt.2 h), zero_mul, Option.map_some, add_zero]
  have hcast : ((2 : ℤ) ^ (toInt n).toNat - 1) = (2 ^ (toInt n).toNat - 1 : ℕ) := by
    push_cast [Nat.one_le_two_pow (n := (toInt n).toNat)]
    rfl
  rw [wordMask, wones, bitmask_of_nonneg h, Option.map_some]
  show (combine n (.W (2 ^ (toInt n).toNat - 1)) (l * n) (wzero (l * n))).bind _ = _
  rw [hzero, Option.bind_some, wlshift_integer, hcast]
  push_cast
  rfl

theorem wordMask_of_neg (l idx : ℕ) (h : toInt n < 0) : wordMask (l + 1) n idx = none := by
  rw [wordMask, wones, bitmask_of_neg h]
  rfl

/-- Whatever number comes out, it is that of a well-formed word if it is small enough. -/
theorem wordUpdNShift_eq (idx : ℕ) (hx : WellFormed ((l + 1) * n) x) (hxw : x.IsWBS = false)
    (ha : x.toInteger = a) (hb : y.toInteger = b) (h : 0 ≤ toInt n)
    (hlt : updBits (toInt n).toNat (idx * n) a b < 2 ^ ((l + 1) * n)) :
    ∃ x', wordUpdNShift (l + 1) n idx x y = some x' ∧ WellFormed ((l + 1) * n) x' ∧
      x'.toInteger = updBits (toInt n).toNat (idx * n) a b := by
  have hz : zext n y (l * n) = .W b := by
    rw [← hb]
    cases y <;> rfl
  rw [wordUpdNShift, hz, wordMask_eq l idx h, wlshift_integer]
  cases x with
  | W i =>
    obtain rfl : i = a := ha
    refine ⟨.W (updBits (toInt n).toNat (idx * n) a b), ?_, ⟨by omega, by exact_mod_cast hlt⟩, rfl⟩
    rw [updBits, Nat.mul_comm idx n]
    push_cast
    rfl
  | W64 w =>
    have h64 : (l + 1) * n = 64 := hx
    have haw : a = w.toNat := (Int.natCast_inj.1 ha).symm
    refine ⟨.W64 (BitVec.ofNat 64 (updBits (toInt n).toNat (idx * n) a b)), ?_, h64, ?_⟩
    · have hbits : w &&& BitVec.ofInt 64 (Int.lnot ((2 ^ (toInt n).toNat - 1) * 2 ^ (idx * n) : ℕ)) |||
          BitVec.ofInt 64 ((b : ℤ) * 2 ^ (n * idx)) =
          BitVec.ofNat 64 (updBits (toInt n).toNat (idx * n) a b) := by
        have hnew : (b : ℤ) * 2 ^ (n * idx) = (b * 2 ^ (idx * n) : ℕ) := by
          push_cast [Nat.mul_comm n idx]
          rfl
        have hnot : BitVec.ofInt 64 (Int.lnot ((2 ^ (toInt n).toNat - 1) * 2 ^ (idx * n) : ℕ)) =
            ~~~BitVec.ofNat 64 ((2 ^ (toInt n).toNat - 1) * 2 ^ (idx * n)) :=
          BitVec.ofInt_negSucc_eq_not_ofNat
        rw [hnew, hnot, BitVec.ofInt_natCast]
        apply BitVec.eq_of_getLsbD_eq
        intro i hi
        simp only [BitVec.getLsbD_or, BitVec.getLsbD_and, BitVec.getLsbD_not, BitVec.getLsbD_ofNat,
          hi, decide_true, Bool.true_and, updBits, Nat.testBit_or, Nat.testBit_ldiff, haw]
        rfl
      rw [← hbits]
      rfl
    · rw [CoqWord.toInteger, BitVec.toNat_ofNat, Nat.mod_eq_of_lt (h64 ▸ hlt)]
  | WBS => cases hxw

theorem wordSelNShift_eq (l idx : ℕ) (hx : 0 ≤ x.toInteger) (hxw : x.IsWBS = false)
    (hn : n < 2 ^ 63) : ∃ z, wordSelNShift (l + 1) n idx x = some z ∧
      z.toInteger = field n x.toInteger idx := by
  have hshift : ∃ w, wrshift ((l + 1) * n) x (idx * n) = some w ∧ w.IsWBS = false ∧
      w.toInteger = x.toInteger / 2 ^ (idx * n) := by
    cases x with
    | W i => exact ⟨_, wrshift_integer _ i _, rfl, rfl⟩
    | W64 w =>
      refine ⟨_, wrshift_machine _ w _, rfl, ?_⟩
      rw [CoqWord.toInteger, BitVec.toNat_ushiftRight, Nat.shiftRight_eq_div_pow, CoqWord.toInteger]
      push_cast
      rfl
    | WBS => cases hxw
  obtain ⟨w, hw, hww, hval⟩ := hshift
  have hnonneg : 0 ≤ w.toInteger := by
    rw [hval]
    exact Int.ediv_nonneg hx (by positivity)
  have hcut : ∃ z, split1 n (l * n) w = some z ∧ z.toInteger = w.toInteger % 2 ^ n :=
    split1_of_fits hnonneg hww (fits_of_lt hn _)
  obtain ⟨z, hz, hzv⟩ := hcut
  refine ⟨z, ?_, by rw [hzv, hval, field]⟩
  rw [wordSelNShift, hw]
  exact hz

/-- For every word and every value the code replaces the field by the value, keeps the others, and
selects the field. -/
def RecordAccess (l n idx : ℕ) : Prop :=
  ∀ x y, WellFormed (l * n) x → x.IsWBS = false → WellFormed n y →
    (∃ x', wordUpdNShift l n idx x y = some x' ∧ WellFormed (l * n) x' ∧
      field n x'.toInteger idx = y.toInteger ∧
      ∀ j < l, j ≠ idx → field n x'.toInteger j = field n x.toInteger j) ∧
    ∃ z, wordSelNShift l n idx x = some z ∧ z.toInteger = field n x.toInteger idx

theorem recordAccess_of_lt (hidx : idx < l) (hn : n < 2 ^ 63) : RecordAccess l n idx := by
  obtain _ | l := l
  · exact absurd hidx (Nat.not_lt_zero idx)
  intro x y hx hxw hy
  obtain ⟨a, ha, halt⟩ := hx.exists_nat
  obtain ⟨b, hb, hblt⟩ := hy.exists_nat
  have hk : toInt n = n := toInt_of_lt hn
  have hkn : (toInt n).toNat = n := by rw [hk, Int.toNat_natCast]
  have hnonneg : 0 ≤ toInt n := by
    rw [hk]
    exact Int.natCast_nonneg n
  have hend : idx * n + n ≤ (l + 1) * n := by
    calc idx * n + n = (idx + 1) * n := by ring
      _ ≤ (l + 1) * n := Nat.mul_le_mul_right n hidx
  constructor
  · obtain ⟨x', hupd, hwf, hval⟩ := wordUpdNShift_eq idx hx hxw ha hb hnonneg
      (by rw [hkn]; exact updBits_lt halt hblt hend)
    rw [hkn] at hval
    refine ⟨x', hupd, hwf, ?_, fun j _ hj => ?_⟩
    · rw [hval, field_updBits n a idx idx hblt, if_pos rfl, hb]
    · rw [hval, field_updBits n a j idx hblt, if_neg hj, ha]
  · exact wordSelNShift_eq l idx (ha ▸ Int.natCast_nonneg a) hxw hn

/-- A mask that is too short leaves the highest bit of the field as it was. -/
theorem not_recordAccess (hidx : idx < l) (hn : (toInt n).toNat < n) : ¬ RecordAccess l n idx := by
  obtain _ | l := l
  · exact absurd hidx (Nat.not_lt_zero idx)
  intro hacc
  have hones : (0 : ℤ) ≤ (2 ^ ((l + 1) * n) - 1 : ℕ) := Int.natCast_nonneg _
  have hlt : 2 ^ ((l + 1) * n) - 1 < 2 ^ ((l + 1) * n) := Nat.sub_lt (by positivity) one_pos
  have hwf : WellFormed ((l + 1) * n) (.W (2 ^ ((l + 1) * n) - 1 : ℕ)) := ⟨hones, by exact_mod_cast hlt⟩
  have hzero : WellFormed n (.W 0) := ⟨le_rfl, by positivity⟩
  obtain ⟨⟨x', hupd, -, hfield, -⟩, -⟩ := hacc _ _ hwf rfl hzero
  rcases lt_or_ge (toInt n) 0 with hk | hk
  · rw [wordUpdNShift, wordMask_of_neg l idx hk] at hupd
    cases hupd
  · have hend : idx * n + n ≤ (l + 1) * n := by
      calc idx * n + n = (idx + 1) * n := by ring
        _ ≤ (l + 1) * n := Nat.mul_le_mul_right n hidx
    obtain ⟨x'', hupd', -, hval⟩ := wordUpdNShift_eq (y := .W 0) (b := 0) idx hwf rfl rfl rfl hk
      (updBits_lt hlt (by positivity) (by omega))
    obtain rfl : x'' = x' := Option.some.inj (hupd'.symm.trans hupd)
    rw [hval, field_natCast] at hfield
    have hbit := testBit_field n
      (updBits (toInt n).toNat (idx * n) (2 ^ ((l + 1) * n) - 1) 0) idx (n - 1)
    rw [Int.natCast_inj.1 hfield, testBit_updBits_of_lt (by positivity), if_neg (by omega),
      Nat.testBit_two_pow_sub_one] at hbit
    have h₁ : n - 1 < n := by omega
    have h₂ : n - 1 + idx * n < (l + 1) * n := by omega
    simp [h₁, h₂] at hbit

end

/-- The records of a block are accessed as they should be exactly if their width is an `Int`. -/
theorem record_access_exact {l n idx : ℕ} (hidx : idx < l) :
    RecordAccess l n idx ↔ n < 2 ^ 63 := by
  constructor
  · intro hacc
    by_contra h
    apply not_recordAccess hidx _ hacc
    have := toInt_lt n
    omega
  · exact recordAccess_of_lt hidx

theorem record_access_exact_bytes : RecordAccess 4 8 2 :=
  (record_access_exact (by decide)).mpr (by decide)

theorem keeps_bit_of_toInt {n : ℕ} (h : toInt n = 3) (hn : 64 ≤ n) :
    WellFormed (1 * n) (.W 8) ∧ WellFormed n (.W 0) ∧
    (∃ x', wordUpdNShift 1 n 0 (.W 8) (.W 0) = some x' ∧ field n x'.toInteger 0 = 8) ∧
    ¬ RecordAccess 1 n 0 := by
  have h8 : 8 < 2 ^ n := (by decide : 8 < 2 ^ 64).trans_le (Nat.pow_le_pow_right (by decide) hn)
  have hwf : WellFormed ((0 + 1) * n) (.W 8) := by
    rw [Nat.zero_add, Nat.one_mul]
    exact ⟨by decide, by exact_mod_cast h8⟩
  have hbits : updBits (toInt n).toNat (0 * n) 8 0 = 8 := by
    rw [h, Nat.zero_mul]
    decide +kernel
  obtain ⟨x', hupd, -, hval⟩ := wordUpdNShift_eq (y := .W 0) (b := 0) 0 hwf rfl rfl rfl
    (by rw [h]; decide) (by rw [hbits, Nat.zero_add, Nat.one_mul]; exact h8)
  rw [hbits] at hval
  refine ⟨hwf, ⟨le_rfl, by positivity⟩, ⟨x', hupd, ?_⟩, not_recordAccess one_pos ?_⟩
  · rw [hval, field_natCast, Nat.zero_mul, pow_zero, Nat.div_one, Nat.mod_eq_of_lt h8]
    rfl
  · rw [h]
    show 3 < n
    omega

/-- A record that is wider than any `Int` keeps its fourth bit when it is replaced by zero. -/
theorem wordUpdNShift_keeps_bit :
    WellFormed (1 * (2 ^ 64 + 3)) (.W 8) ∧ WellFormed (2 ^ 64 + 3) (.W 0) ∧
    (∃ x', wordUpdNShift 1 (2 ^ 64 + 3) 0 (.W 8) (.W 0) = some x' ∧
      field (2 ^ 64 + 3) x'.toInteger 0 = 8) ∧
    ¬ RecordAccess 1 (2 ^ 64 + 3) 0 :=
  keeps_bit_of_toInt (by decide) (by decide)

end Fscq.Hslib
