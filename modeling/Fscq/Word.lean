import Mathlib.Tactic

/-!
# Words

Fixed-width words are bit vectors.  `combine` puts its first argument in the low bits, `split1` and
`split2` take a word apart again, and `zext` pads it with zeros.
-/

namespace Fscq

/-- Concatenation; the first word is the low part. -/
def combine {n m : ℕ} (a : BitVec n) (b : BitVec m) : BitVec (n + m) :=
  (b ++ a).cast (Nat.add_comm m n)

/-- The low `n` bits. -/
def split1 (n m : ℕ) (w : BitVec (n + m)) : BitVec n := w.extractLsb' 0 n

/-- The high `m` bits. -/
def split2 (n m : ℕ) (w : BitVec (n + m)) : BitVec m := w.extractLsb' n m

/-- Zero extension by `m` bits. -/
def zext {n : ℕ} (w : BitVec n) (m : ℕ) : BitVec (n + m) := combine w 0

/-- Left shift: zeros are put below the word and its low part is kept. -/
def wlshift {sz : ℕ} (w : BitVec sz) (n : ℕ) : BitVec sz :=
  split1 sz n ((combine (0 : BitVec n) w).cast (Nat.add_comm n sz))

/-- Right shift: zeros are put above the word and its high part is kept. -/
def wrshift {sz : ℕ} (w : BitVec sz) (n : ℕ) : BitVec sz :=
  split2 n sz ((combine w (0 : BitVec n)).cast (Nat.add_comm sz n))

/-- The word with only bit `n` set. -/
def wbit (sz : ℕ) {sz' : ℕ} (n : BitVec sz') : BitVec sz := BitVec.ofNat sz (2 ^ n.toNat)

variable {n m : ℕ}

theorem getLsbD_combine (a : BitVec n) (b : BitVec m) (i : ℕ) :
    (combine a b).getLsbD i = if i < n then a.getLsbD i else b.getLsbD (i - n) := by
  simp [combine, BitVec.getLsbD_append]

theorem split1_combine (a : BitVec n) (b : BitVec m) : split1 n m (combine a b) = a := by
  ext i hi
  simp [split1, ← BitVec.getLsbD_eq_getElem, getLsbD_combine, hi]

theorem split2_combine (a : BitVec n) (b : BitVec m) : split2 n m (combine a b) = b := by
  ext i hi
  simp [split2, ← BitVec.getLsbD_eq_getElem, getLsbD_combine, hi]

theorem combine_split (w : BitVec (n + m)) : combine (split1 n m w) (split2 n m w) = w := by
  ext i hi
  simp only [← BitVec.getLsbD_eq_getElem, getLsbD_combine, split1, split2,
    BitVec.getLsbD_extractLsb']
  by_cases h : i < n
  · simp [h]
  · simp [h, show i - n < m by omega, show n + (i - n) = i by omega]

theorem combine_inj {a a' : BitVec n} {b b' : BitVec m} (h : combine a b = combine a' b') :
    a = a' ∧ b = b' := by
  constructor
  · rw [← split1_combine a b, h, split1_combine]
  · rw [← split2_combine a b, h, split2_combine]

@[simp] theorem split1_zext (w : BitVec n) (m : ℕ) : split1 n m (zext w m) = w :=
  split1_combine w 0

theorem toNat_combine (a : BitVec n) (b : BitVec m) :
    (combine a b).toNat = a.toNat + b.toNat * 2 ^ n := by
  rw [combine, BitVec.toNat_cast, BitVec.toNat_append, ← Nat.shiftLeft_add_eq_or_of_lt a.isLt,
    Nat.shiftLeft_eq, Nat.add_comm]

theorem toNat_split1 (w : BitVec (n + m)) : (split1 n m w).toNat = w.toNat % 2 ^ n := by
  rw [split1, BitVec.extractLsb'_toNat, Nat.shiftRight_zero]

theorem toNat_split2 (w : BitVec (n + m)) : (split2 n m w).toNat = w.toNat / 2 ^ n := by
  rw [split2, BitVec.extractLsb'_toNat, Nat.shiftRight_eq_div_pow, Nat.mod_eq_of_lt]
  rw [Nat.div_lt_iff_lt_mul (by positivity), ← pow_add, Nat.add_comm m]
  exact w.isLt

theorem toNat_zext (w : BitVec n) (m : ℕ) : (zext w m).toNat = w.toNat := by
  simp [zext, toNat_combine]

theorem toNat_wlshift (w : BitVec n) (s : ℕ) : (wlshift w s).toNat = w.toNat * 2 ^ s % 2 ^ n := by
  simp [wlshift, toNat_split1, toNat_combine]

theorem toNat_wrshift (w : BitVec n) (s : ℕ) : (wrshift w s).toNat = w.toNat / 2 ^ s := by
  simp [wrshift, toNat_split2, toNat_combine]

end Fscq
