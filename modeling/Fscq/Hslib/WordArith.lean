import Fscq.Hslib.WordSlice

/-!
# Arithmetic and comparison of the Haskell words

Where the value is an integer, a result is reduced to its width with a mask, which wraps for widths
of 64 bits and more.
-/

namespace Fscq.Hslib

theorem fits_sixty_four (v : ℤ) : Fits 64 v := fits_of_lt (by decide) v

theorem returns_integer {sz v : ℕ} {b : BitVec sz} :
    Returns (some (.W v)) b ↔ v = b.toNat := by
  constructor
  · rintro ⟨w, hw, -, hv⟩
    obtain rfl := Option.some.inj hw
    exact Int.natCast_inj.mp hv
  · rintro rfl
    exact ⟨_, rfl, ⟨Int.natCast_nonneg _, by exact_mod_cast b.isLt⟩, rfl⟩

theorem returns_machine (b : BitVec 64) : Returns (some (.W64 b)) b := ⟨_, rfl, rfl, rfl⟩

theorem not_returns_none {sz : ℕ} (b : BitVec sz) : ¬ Returns none b := fun ⟨_, h, _⟩ => nomatch h

/-- `wrap` reduces a number to its width exactly if the reduced number fits. -/
theorem returns_wrap {sz : ℕ} (v : ℕ) :
    Returns (wrap sz v) (BitVec.ofNat sz v) ↔ Fits sz (BitVec.ofNat sz v).toNat := by
  by_cases h64 : sz = 64
  · subst h64
    rw [wrap, if_pos rfl, BitVec.ofInt_natCast]
    exact iff_of_true (returns_machine _) (fits_sixty_four _)
  by_cases hk : toInt sz < 0
  · rw [wrap_of_neg hk]
    exact iff_of_false (not_returns_none _) fun hf => absurd hf.1 (by omega)
  rw [wrap_of_nonneg h64 (by omega), returns_integer, BitVec.toNat_ofNat, Fits]
  constructor
  · intro he
    refine ⟨by omega, .inr ?_⟩
    rw [← he]
    exact_mod_cast Nat.mod_lt v (by positivity)
  · rintro ⟨-, he | hlt⟩
    · rw [he, Int.toNat_natCast]
    · have hlt' : v % 2 ^ sz < 2 ^ (toInt sz).toNat := by exact_mod_cast hlt
      rw [← Nat.mod_mod_of_dvd v (pow_dvd_pow 2 (toNat_toInt_le sz)), Nat.mod_eq_of_lt hlt']

/-- A function of the family works on the numbers, or, at width 64, on the machine words. -/
theorem binary_cases {sz : ℕ} {x y : CoqWord} {a b : BitVec sz} (hx : Represents sz x a)
    (hy : Represents sz y b) (hxw : x.IsWBS = false) (hyw : y.IsWBS = false) {α : Type}
    (f : ℤ → ℤ → Option α) (g : BitVec 64 → BitVec 64 → Option α) :
    binary f g x y = f a.toNat b.toNat ∨
      ∃ h : sz = 64, binary f g x y = g (a.cast h) (b.cast h) := by
  have hW : ∀ (i : ℤ) (c : BitVec 64), i = c.toNat → BitVec.ofInt 64 i = c := by
    rintro _ c rfl
    rw [BitVec.ofInt_natCast, BitVec.ofNat_toNat, BitVec.setWidth_eq]
  obtain ⟨hxf, hxv⟩ := hx
  obtain ⟨hyf, hyv⟩ := hy
  cases x with
  | W i =>
    cases y with
    | W j => exact .inl (by rw [← hxv, ← hyv]; rfl)
    | W64 j =>
      subst hyf
      refine .inr ⟨rfl, ?_⟩
      rw [binary, hW i a hxv, BitVec.eq_of_toNat_eq (Int.natCast_inj.mp hyv)]
      rfl
    | WBS => cases hyw
  | W64 i =>
    subst hxf
    refine .inr ⟨rfl, ?_⟩
    rw [BitVec.eq_of_toNat_eq (Int.natCast_inj.mp hxv)]
    cases y with
    | W j =>
      rw [binary, hW j b hyv]
      rfl
    | W64 j =>
      rw [binary, BitVec.eq_of_toNat_eq (Int.natCast_inj.mp hyv)]
      rfl
    | WBS => cases hyw
  | WBS => cases hxw

theorem Represents.unbs {sz : ℕ} {x : CoqWord} {a : BitVec sz} (h : Represents sz x a) :
    Represents sz (unbs x) a ∧ (Hslib.unbs x).IsWBS = false := by
  cases x with
  | W | W64 => exact ⟨h, rfl⟩
  | WBS bs =>
    refine ⟨⟨⟨bs2i_nonneg bs, ?_⟩, h.2⟩, rfl⟩
    rw [← h.1.1]
    exact bs2i_lt bs

section

variable {sz : ℕ} {x y : CoqWord} {a b : BitVec sz}

theorem returns_wplus (hx : Represents sz x a) (hy : Represents sz y b) (hxw : x.IsWBS = false)
    (hyw : y.IsWBS = false) : Returns (wplus sz x y) (a + b) ↔ Fits sz (a + b).toNat := by
  rcases binary_cases hx hy hxw hyw (fun x y => wrap sz (x + y)) (fun x y => some (.W64 (x + y)))
    with h | ⟨rfl, h⟩
  · rw [wplus, h, ← Nat.cast_add, BitVec.add_def, returns_wrap]
  · rw [wplus, h]
    exact iff_of_true (returns_machine _) (fits_sixty_four _)

theorem returns_wminus (hx : Represents sz x a) (hy : Represents sz y b) (hxw : x.IsWBS = false)
    (hyw : y.IsWBS = false) : Returns (wminus sz x y) (a - b) ↔ Fits sz (a - b).toNat := by
  rcases binary_cases hx hy hxw hyw (fun x y => wrap sz (2 ^ sz + x - y))
    (fun x y => some (.W64 (x - y))) with h | ⟨rfl, h⟩
  · have hcast : (2 : ℤ) ^ sz + a.toNat - b.toNat = (2 ^ sz - b.toNat + a.toNat : ℕ) := by
      have := b.isLt
      push_cast [this.le]
      ring
    rw [wminus, h, hcast, BitVec.sub_def, returns_wrap]
  · rw [wminus, h]
    exact iff_of_true (returns_machine _) (fits_sixty_four _)

theorem returns_wmult (hx : Represents sz x a) (hy : Represents sz y b) (hxw : x.IsWBS = false)
    (hyw : y.IsWBS = false) : Returns (wmult sz x y) (a * b) ↔ Fits sz (a * b).toNat := by
  rcases binary_cases hx hy hxw hyw (fun x y => wrap sz (x * y)) (fun x y => some (.W64 (x * y)))
    with h | ⟨rfl, h⟩
  · have hmul : a * b = BitVec.ofNat sz (a.toNat * b.toNat) :=
      BitVec.eq_of_toNat_eq (by rw [BitVec.toNat_mul, BitVec.toNat_ofNat])
    rw [wmult, h, ← Nat.cast_mul, hmul, returns_wrap]
  · rw [wmult, h]
    exact iff_of_true (returns_machine _) (fits_sixty_four _)

theorem returns_wdiv (hx : Represents sz x a) (hy : Represents sz y b) (hxw : x.IsWBS = false)
    (hyw : y.IsWBS = false) (hb : b ≠ 0) : Returns (wdiv sz x y) (a / b) := by
  rcases binary_cases hx hy hxw hyw (fun x y => if y = 0 then none else some (CoqWord.W (x.tdiv y)))
    (fun x y => if y = 0 then none else some (.W64 (x / y))) with h | ⟨rfl, h⟩
  · have hne : ((b.toNat : ℕ) : ℤ) ≠ 0 := by
      exact_mod_cast fun h0 => hb (BitVec.eq_of_toNat_eq h0)
    rw [wdiv, h, if_neg hne, ← Int.ofNat_tdiv, returns_integer, BitVec.toNat_udiv]
  · rw [wdiv, h, BitVec.cast_eq, BitVec.cast_eq, if_neg hb]
    exact returns_machine _

theorem returns_wmod (hx : Represents sz x a) (hy : Represents sz y b) (hxw : x.IsWBS = false)
    (hyw : y.IsWBS = false) (hb : b ≠ 0) : Returns (wmod sz x y) (a % b) := by
  rcases binary_cases hx hy hxw hyw (fun x y => if y = 0 then none else some (CoqWord.W (x.tmod y)))
    (fun x y => if y = 0 then none else some (.W64 (x % y))) with h | ⟨rfl, h⟩
  · have hne : ((b.toNat : ℕ) : ℤ) ≠ 0 := by
      exact_mod_cast fun h0 => hb (BitVec.eq_of_toNat_eq h0)
    rw [wmod, h, if_neg hne, ← Int.ofNat_tmod, returns_integer, BitVec.toNat_umod]
  · rw [wmod, h, BitVec.cast_eq, BitVec.cast_eq, if_neg hb]
    exact returns_machine _

theorem returns_wand (hx : Represents sz x a) (hy : Represents sz y b) :
    Returns (wand sz x y) (a &&& b) := by
  rcases binary_cases hx.unbs.1 hy.unbs.1 hx.unbs.2 hy.unbs.2
    (fun x y => some (CoqWord.W (Int.land x y))) (fun x y => some (.W64 (x &&& y))) with h | ⟨rfl, h⟩
  · rw [wand, h]
    exact returns_integer.mpr (BitVec.toNat_and a b).symm
  · rw [wand, h]
    exact returns_machine _

theorem returns_wor (hx : Represents sz x a) (hy : Represents sz y b) (hxw : x.IsWBS = false)
    (hyw : y.IsWBS = false) : Returns (wor sz x y) (a ||| b) := by
  rcases binary_cases hx hy hxw hyw
    (fun x y => some (CoqWord.W (Int.lor x y))) (fun x y => some (.W64 (x ||| y))) with h | ⟨rfl, h⟩
  · rw [wor, h]
    exact returns_integer.mpr (BitVec.toNat_or a b).symm
  · rw [wor, h]
    exact returns_machine _

theorem wltDec_eq (hx : Represents sz x a) (hy : Represents sz y b) (hxw : x.IsWBS = false)
    (hyw : y.IsWBS = false) : wltDec sz x y = some (decide (a < b)) := by
  rcases binary_cases hx hy hxw hyw (fun x y => some (decide (x < y)))
    (fun x y => some (decide (x < y))) with h | ⟨rfl, h⟩
  · rw [wltDec, h]
    simp only [Nat.cast_lt, BitVec.lt_def]
  · exact h

theorem weq_eq (hx : Represents sz x a) (hy : Represents sz y b) :
    weq sz x y = some (decide (a = b)) := by
  have hinteger : binary (fun x y => some (x == y)) (fun x y => some (x == y)) (unbs x) (unbs y) =
      some (decide (a = b)) := by
    rcases binary_cases hx.unbs.1 hy.unbs.1 hx.unbs.2 hy.unbs.2 (fun x y => some (x == y))
      (fun x y => some (x == y)) with h | ⟨rfl, h⟩
    · rw [h, Option.some_inj, Bool.eq_iff_iff]
      simp [BitVec.toNat_inj]
    · rw [h, Option.some_inj, Bool.eq_iff_iff]
      simp
  cases x with
  | W | W64 => exact hinteger
  | WBS b1 =>
    cases y with
    | W | W64 => exact hinteger
    | WBS b2 =>
      have hl : b1.length = b2.length := by
        have h1 := hx.1.1
        have h2 := hy.1.1
        omega
      have hval : bs2i b1 = bs2i b2 ↔ a = b := by
        rw [show bs2i b1 = a.toNat from hx.2, show bs2i b2 = b.toNat from hy.2, Int.natCast_inj,
          BitVec.toNat_inj]
      rw [weq, Option.some_inj, Bool.eq_iff_iff, beq_iff_eq, decide_eq_true_iff, ← bs2i_inj hl, hval]

theorem wordToNat_eq (hx : Represents sz x a) (hxw : x.IsWBS = false) :
    wordToNat sz x = some a.toNat := by
  cases x with
  | W | W64 => exact congrArg some hx.2
  | WBS => cases hxw

theorem represents_zext (hx : Represents sz x a) (sz' : ℕ) :
    Represents (sz + sz') (zext sz x sz') (Fscq.zext a sz') := by
  have heq : zext sz x sz' = .W a.toNat := by
    rw [← hx.2]
    cases x <;> rfl
  rw [heq]
  refine ⟨⟨Int.natCast_nonneg _, ?_⟩, by rw [toNat_zext]; rfl⟩
  rw [← toNat_zext a sz']
  exact_mod_cast (Fscq.zext a sz').isLt

theorem returns_natToWord (n : ℕ) : Returns (natToWord sz n) (BitVec.ofNat sz n) ↔
    n = 0 ∨ Fits sz (BitVec.ofNat sz n).toNat := by
  rw [natToWord]
  by_cases h0 : n = 0
  · subst h0
    rw [if_pos rfl]
    exact iff_of_true (returns_integer.mpr (by simp)) (.inl rfl)
  · rw [if_neg h0, returns_wrap, or_iff_right h0]

theorem returns_wbit {sz' : ℕ} {n : CoqWord} {c : BitVec sz'} (hn : Represents sz' n c)
    (hnw : n.IsWBS = false) :
    Returns (wbit sz sz' n) (Fscq.wbit sz c) ↔ Fits sz (Fscq.wbit sz c).toNat := by
  have heq : wbit sz sz' n = wrap sz (2 ^ c.toNat : ℕ) := by
    rw [Nat.cast_pow, Nat.cast_ofNat]
    obtain ⟨hf, hv⟩ := hn
    cases n with
    | W i =>
      have hi : i = c.toNat := hv
      subst hi
      rw [wbit, if_neg (not_lt.mpr (Int.natCast_nonneg _)), Int.toNat_natCast]
    | W64 w =>
      have hw : w.toNat = c.toNat := Int.natCast_inj.mp hv
      rw [← hw]
      rfl
    | WBS => cases hnw
  rw [heq]
  exact returns_wrap _

end

/-- What the comparisons and the arithmetic return, against the Coq words of width `sz`.  Only the
functions that reduce an integer to the width depend on it: they are right exactly if the result
fits. -/
theorem arithmetic_exact (sz : ℕ) :
    (∀ x y, ∀ a b : BitVec sz, Represents sz x a → Represents sz y b →
      weq sz x y = some (decide (a = b)) ∧ Returns (wand sz x y) (a &&& b) ∧
      (x.IsWBS = false → y.IsWBS = false →
        wltDec sz x y = some (decide (a < b)) ∧ Returns (wor sz x y) (a ||| b) ∧
        (b ≠ 0 → Returns (wdiv sz x y) (a / b) ∧ Returns (wmod sz x y) (a % b)) ∧
        (Returns (wplus sz x y) (a + b) ↔ Fits sz (a + b).toNat) ∧
        (Returns (wminus sz x y) (a - b) ↔ Fits sz (a - b).toNat) ∧
        (Returns (wmult sz x y) (a * b) ↔ Fits sz (a * b).toNat))) ∧
    (∀ x, ∀ a : BitVec sz, Represents sz x a →
      (∀ sz', Represents (sz + sz') (zext sz x sz') (Fscq.zext a sz')) ∧
      (x.IsWBS = false → wordToNat sz x = some a.toNat)) ∧
    (∀ n, Returns (natToWord sz n) (BitVec.ofNat sz n) ↔
      n = 0 ∨ Fits sz (BitVec.ofNat sz n).toNat) ∧
    ∀ sz' n, ∀ c : BitVec sz', Represents sz' n c → n.IsWBS = false →
      (Returns (wbit sz sz' n) (Fscq.wbit sz c) ↔ Fits sz (Fscq.wbit sz c).toNat) := by
  refine ⟨fun x y a b hx hy => ⟨weq_eq hx hy, returns_wand hx hy, fun hxw hyw => ?_⟩,
    fun x a hx => ⟨represents_zext hx, wordToNat_eq hx⟩, returns_natToWord,
    fun sz' n c hn hnw => returns_wbit hn hnw⟩
  exact ⟨wltDec_eq hx hy hxw hyw, returns_wor hx hy hxw hyw,
    fun hb => ⟨returns_wdiv hx hy hxw hyw hb, returns_wmod hx hy hxw hyw hb⟩,
    returns_wplus hx hy hxw hyw, returns_wminus hx hy hxw hyw, returns_wmult hx hy hxw hyw⟩

/-- A machine word plus an integer, at width 64. -/
theorem arithmetic_exact_mixed :
    Represents 64 (.W64 5) 5 ∧ Represents 64 (.W 0) 0 ∧
    Returns (wplus 64 (.W64 5) (.W 0)) (5#64 + 0#64) := by
  have h5 : Represents 64 (.W64 5) 5 := ⟨rfl, rfl⟩
  have h0 : Represents 64 (.W 0) 0 := ⟨by decide, rfl⟩
  exact ⟨h5, h0,
    (((arithmetic_exact 64).1 _ _ _ _ h5 h0).2.2 rfl rfl).2.2.2.1.mpr (fits_sixty_four _)⟩

theorem not_fits_of_toInt {sz : ℕ} (h : toInt sz = 3) (hsz : 64 ≤ sz) :
    ¬ Fits sz (BitVec.ofNat sz 9).toNat := by
  have h9 : 9 < 2 ^ sz := lt_of_lt_of_le (by decide) (Nat.pow_le_pow_right (by decide) hsz)
  rw [Fits, h, BitVec.toNat_ofNat, Nat.mod_eq_of_lt h9]
  rintro ⟨-, h | h⟩
  · omega
  · revert h
    decide

/-- At width `2 ^ 64 + 3` the mask is that of width 3, and 9 becomes 1. -/
theorem natToWord_wraps :
    natToWord (2 ^ 64 + 3) 9 = some (.W 1) ∧
    ¬ Returns (natToWord (2 ^ 64 + 3) 9) (BitVec.ofNat (2 ^ 64 + 3) 9) := by
  refine ⟨by decide +kernel, fun h => ?_⟩
  rw [returns_natToWord] at h
  rcases h with h | h
  · cases h
  · exact not_fits_of_toInt (by decide) (by decide) h

end Fscq.Hslib
