import Fscq.Hslib.Word

/-!
# The Haskell words represent the Coq words

`Represents sz w v` says that `w` is a well-formed value of width `sz` that stands for the word `v`.
The results say of each replaced function on which inputs it returns what the function of `Word.v`
returns.
-/

namespace Fscq.Hslib

/-! ## Machine integers -/

theorem toInt_of_lt {n : ℕ} (h : n < 2 ^ 63) : toInt n = n := by
  rw [toInt, Int.bmod_def]
  omega

theorem toInt_le (n : ℕ) : toInt n ≤ n := by
  rw [toInt, Int.bmod_def]
  omega

theorem toInt_lt (i : ℤ) : toInt i < 2 ^ 63 := by
  rw [toInt, Int.bmod_def]
  omega

theorem toInt_eq_iff (n : ℕ) : toInt n = n ↔ n < 2 ^ 63 := by
  refine ⟨fun h => ?_, toInt_of_lt⟩
  have := toInt_lt n
  omega

theorem eight_dvd_toInt {n : ℕ} (h : n % 8 = 0) : 8 ∣ toInt n := by
  rw [toInt, Int.bmod_def]
  omega

/-- Cutting `v` at `sz` is the same as cutting it at the machine integer for `sz`. -/
def Fits (sz : ℕ) (v : ℤ) : Prop := 0 ≤ toInt sz ∧ (toInt sz = sz ∨ v < 2 ^ (toInt sz).toNat)

instance (sz : ℕ) (v : ℤ) : Decidable (Fits sz v) := inferInstanceAs (Decidable (_ ∧ _))

theorem fits_of_lt {sz : ℕ} (h : sz < 2 ^ 63) (v : ℤ) : Fits sz v := by
  rw [Fits, toInt_of_lt h]
  exact ⟨by omega, .inl rfl⟩

theorem Fits.mono {sz : ℕ} {v v' : ℤ} (h : Fits sz v) (hv : v' ≤ v) : Fits sz v' :=
  ⟨h.1, h.2.imp_right hv.trans_lt⟩

theorem toNat_toInt_le (sz : ℕ) : (toInt sz).toNat ≤ sz := by
  have := toInt_le sz
  omega

theorem pow_toInt_le (sz : ℕ) : (2 : ℤ) ^ (toInt sz).toNat ≤ 2 ^ sz :=
  pow_le_pow_right₀ (by norm_num) (toNat_toInt_le sz)

/-- A quotient is the same at both widths exactly if the number fits. -/
theorem ediv_pow_eq_iff {sz : ℕ} {v : ℤ} (h : 0 ≤ toInt sz) (hv : 0 ≤ v) :
    v / 2 ^ (toInt sz).toNat = v / 2 ^ sz ↔ toInt sz = sz ∨ v < 2 ^ (toInt sz).toNat := by
  have hk : (0 : ℤ) < 2 ^ (toInt sz).toNat := by positivity
  constructor
  · intro heq
    by_contra hne
    push Not at hne
    obtain ⟨m, hm⟩ : ∃ m, sz = (toInt sz).toNat + (m + 1) := by
      have := toInt_le sz
      exact ⟨sz - (toInt sz).toNat - 1, by omega⟩
    have hq : 1 ≤ v / 2 ^ (toInt sz).toNat := (Int.le_ediv_iff_mul_le hk).mpr (by omega)
    have hcut : v / 2 ^ sz = v / 2 ^ (toInt sz).toNat / 2 ^ (m + 1) := by
      rw [Int.ediv_ediv_of_nonneg hk.le, ← pow_add, ← hm]
    have htwo : (2 : ℤ) ≤ 2 ^ (m + 1) := by
      rw [pow_succ]
      have : (0 : ℤ) < 2 ^ m := by positivity
      omega
    have hlt : v / 2 ^ (toInt sz).toNat / 2 ^ (m + 1) < v / 2 ^ (toInt sz).toNat :=
      Int.ediv_lt_of_lt_mul (by omega) (by nlinarith)
    omega
  · rintro (heq | hlt)
    · rw [heq, Int.toNat_natCast]
    · rw [Int.ediv_eq_zero_of_lt hv hlt,
        Int.ediv_eq_zero_of_lt hv (hlt.trans_le (pow_toInt_le sz))]

/-! ## Bytes -/

theorem pow_two_fifty_six (n : ℕ) : 256 ^ n = 2 ^ (8 * n) := by
  rw [pow_mul]
  norm_num

theorem toNat_lt_of_mem {bs : ByteString} {d : ℕ} (h : d ∈ bs.map UInt8.toNat) : d < 256 := by
  obtain ⟨b, -, rfl⟩ := List.mem_map.mp h
  exact b.toNat_lt

theorem bs2i_nonneg (bs : ByteString) : 0 ≤ bs2i bs := Int.natCast_nonneg _

theorem bs2i_lt (bs : ByteString) : bs2i bs < 2 ^ (8 * bs.length) := by
  have hlt : ∀ d ∈ bs.map UInt8.toNat, d < 256 := fun d => toNat_lt_of_mem
  have h := Nat.ofDigits_lt_base_pow_length (b := 256) (by decide) hlt
  rw [List.length_map, pow_two_fifty_six] at h
  rw [bs2i]
  exact_mod_cast h

theorem bs2i_append (b1 b2 : ByteString) :
    bs2i (b1 ++ b2) = bs2i b1 + bs2i b2 * 2 ^ (8 * b1.length) := by
  rw [bs2i, List.map_append, Nat.ofDigits_append, List.length_map, pow_two_fifty_six]
  push_cast [bs2i]
  ring

theorem bs2i_zeros (n : ℕ) : bs2i (List.replicate n 0) = 0 := by
  rw [bs2i, List.map_replicate]
  exact_mod_cast Nat.ofDigits_replicate_zero

theorem bs2i_take (bs : ByteString) (n : ℕ) : bs2i (bs.take n) = bs2i bs % 2 ^ (8 * n) := by
  have h := Nat.ofDigits_mod_pow_eq_ofDigits_take n (by decide : 0 < 256) (bs.map UInt8.toNat)
    fun d => toNat_lt_of_mem
  rw [pow_two_fifty_six, ← List.map_take] at h
  rw [bs2i, bs2i, ← h]
  push_cast
  rfl

theorem bs2i_drop (bs : ByteString) (n : ℕ) : bs2i (bs.drop n) = bs2i bs / 2 ^ (8 * n) := by
  have h := Nat.ofDigits_div_pow_eq_ofDigits_drop n (by decide : 0 < 256) (bs.map UInt8.toNat)
    fun d => toNat_lt_of_mem
  rw [pow_two_fifty_six, ← List.map_drop] at h
  rw [bs2i, bs2i, ← h]
  push_cast
  rfl

/-- Byte strings of one length are equal exactly if they stand for the same number. -/
theorem bs2i_inj {b1 b2 : ByteString} (hl : b1.length = b2.length) : bs2i b1 = bs2i b2 ↔ b1 = b2 := by
  refine ⟨fun h => ?_, congrArg bs2i⟩
  have := Nat.ofDigits_inj_of_len_eq (b := 256) (by decide) (by simpa using hl)
    (fun d => toNat_lt_of_mem) (fun d => toNat_lt_of_mem) (Nat.cast_injective h)
  exact List.map_injective_iff.mpr (fun _ _ => UInt8.toNat_inj.mp) this

theorem bs2i_exportInteger (i : ℤ) : bs2i (exportInteger i) = i.natAbs := by
  have h : (exportInteger i).map UInt8.toNat = Nat.digits 256 i.natAbs := by
    rw [exportInteger, List.map_map]
    conv_rhs => rw [← List.map_id (Nat.digits 256 i.natAbs)]
    refine List.map_congr_left fun d hd => ?_
    have := Nat.digits_lt_base (by decide) hd
    simp only [Function.comp_apply, UInt8.toNat_ofNat', id]
    omega
  rw [bs2i, h, Nat.ofDigits_digits]

theorem length_exportInteger_le {v : ℕ} {n : ℕ} :
    (exportInteger v).length ≤ n ↔ v < 2 ^ (8 * n) := by
  rw [exportInteger, List.length_map, Int.natAbs_natCast, Nat.digits_length_le_iff (by decide),
    pow_two_fifty_six]

/-- Padding to `k` bytes succeeds exactly for the numbers that fit, and keeps the number. -/
theorem i2bs_eq_some_iff {v : ℕ} {k : ℤ} {bs : ByteString} :
    i2bs v k = some bs ↔ 0 ≤ k ∧ bs2i bs = v ∧ bs.length = k := by
  rw [i2bs]
  constructor
  · intro h
    split_ifs at h with hk
    obtain rfl := Option.some.inj h
    refine ⟨by omega, ?_, ?_⟩
    · rw [bs2i_append, bs2i_zeros, bs2i_exportInteger]
      simp
    · rw [List.length_append, List.length_replicate]
      omega
  · rintro ⟨hk, hv, hl⟩
    have hlen : (exportInteger v).length ≤ bs.length := by
      rw [length_exportInteger_le]
      have := bs2i_lt bs
      rw [hv] at this
      exact_mod_cast this
    rw [if_neg (by omega), Option.some_inj]
    refine (bs2i_inj ?_).mp ?_
    · rw [List.length_append, List.length_replicate]
      omega
    · rw [bs2i_append, bs2i_zeros, bs2i_exportInteger, hv]
      simp

theorem exists_i2bs {v : ℕ} {k : ℤ} (hk : 0 ≤ k) (hv : v < 2 ^ (8 * k.toNat)) :
    ∃ bs, i2bs v k = some bs := by
  have := length_exportInteger_le.mpr hv
  exact ⟨_, if_neg (by omega)⟩

/-! ## Well-formed words -/

/-- The values of width `sz`.  The length of a byte string is an `Int`. -/
def WellFormed (sz : ℕ) : CoqWord → Prop
  | .W i => 0 ≤ i ∧ i < 2 ^ sz
  | .W64 _ => sz = 64
  | .WBS bs => 8 * bs.length = sz ∧ bs.length < 2 ^ 63

instance (sz : ℕ) (w : CoqWord) : Decidable (WellFormed sz w) :=
  match w with
  | .W _ => inferInstanceAs (Decidable (_ ∧ _))
  | .W64 _ => inferInstanceAs (Decidable (_ = _))
  | .WBS _ => inferInstanceAs (Decidable (_ ∧ _))

/-- `w` is a well-formed value of width `sz` that stands for the word `v`. -/
def Represents (sz : ℕ) (w : CoqWord) (v : BitVec sz) : Prop :=
  WellFormed sz w ∧ w.toInteger = v.toNat

/-- The call returns a well-formed value that stands for `v`. -/
def Returns {sz : ℕ} (r : Option CoqWord) (v : BitVec sz) : Prop := ∃ w, r = some w ∧ Represents sz w v

def CoqWord.IsWBS : CoqWord → Bool
  | WBS _ => true
  | _ => false

theorem WellFormed.exists_nat {sz : ℕ} {w : CoqWord} (h : WellFormed sz w) :
    ∃ v : ℕ, w.toInteger = v ∧ v < 2 ^ sz := by
  cases w with
  | W i =>
    obtain ⟨v, rfl⟩ := Int.eq_ofNat_of_zero_le h.1
    exact ⟨v, rfl, by exact_mod_cast h.2⟩
  | W64 w =>
    subst h
    exact ⟨w.toNat, rfl, w.isLt⟩
  | WBS bs =>
    refine ⟨Nat.ofDigits 256 (bs.map UInt8.toNat), rfl, ?_⟩
    have := bs2i_lt bs
    rw [h.1, bs2i] at this
    exact_mod_cast this

/-! ## Reduction to a width -/

theorem bitmask_of_nonneg {i : ℤ} (h : 0 ≤ i) : bitmask i = some (2 ^ i.toNat - 1) :=
  if_neg (by omega)

theorem bitmask_of_neg {i : ℤ} (h : i < 0) : bitmask i = none := if_pos h

theorem land_mask (v n : ℕ) : Int.land v (2 ^ n - 1) = (v % 2 ^ n : ℕ) := by
  have h : ((2 : ℤ) ^ n - 1) = ((2 ^ n - 1 : ℕ) : ℤ) := by
    have := Nat.one_le_two_pow (n := n)
    push_cast [this]
    rfl
  rw [h, ← Nat.and_two_pow_sub_one_eq_mod]
  rfl

theorem wrap_of_nonneg {n : ℕ} (hn : n ≠ 64) (h : 0 ≤ toInt n) (v : ℕ) :
    wrap n v = some (.W (v % 2 ^ (toInt n).toNat : ℕ)) := by
  rw [wrap, if_neg hn, bitmask_of_nonneg h, Option.map_some, land_mask]

theorem wrap_of_neg {n : ℕ} (h : toInt n < 0) (v : ℤ) : wrap n v = none := by
  have hn : n ≠ 64 := by
    rintro rfl
    rw [toInt_of_lt (by decide)] at h
    omega
  rw [wrap, if_neg hn, bitmask_of_neg h, Option.map_none]

/-! ## Slicing -/

theorem bs2i_byteArray (v : ℕ) : bs2i (byteArray v) = v := by
  rw [byteArray, bs2i_append, bs2i_zeros, bs2i_exportInteger]
  simp

theorem lt_pow_length_byteArray (v : ℕ) : v < 2 ^ (8 * (byteArray v).length) := by
  have := bs2i_lt (byteArray v)
  rw [bs2i_byteArray] at this
  exact_mod_cast this

/-- An integer that fits an `Int` is always cut at `sz`, a larger one at the machine integer. -/
theorem split1Integer_eq (sz v : ℕ) : split1Integer sz v =
    if v < 2 ^ 63 then some (.W (v % 2 ^ sz : ℕ))
    else if toInt sz < 0 then none else some (.W (v % 2 ^ (toInt sz).toNat : ℕ)) := by
  rw [split1Integer]
  by_cases h0 : v = 0
  · subst h0
    simp
  rw [if_neg (by exact_mod_cast h0)]
  by_cases hv : v < 2 ^ 63
  · rw [if_neg (by omega), if_pos hv]
    by_cases hsz : 64 ≤ sz
    · have : v < 2 ^ sz := hv.trans_le (Nat.pow_le_pow_right (by decide) (by omega))
      rw [if_pos ⟨by omega, hsz⟩, Nat.mod_eq_of_lt this]
    · have hi : toInt sz = sz := toInt_of_lt (by omega)
      rw [if_neg (by omega), wrap_of_nonneg (by omega) (by omega), hi, Int.toNat_natCast]
  rw [if_pos (by omega), if_neg hv]
  by_cases hneg : toInt sz < 0
  · rw [if_neg (by omega), if_pos hneg, wrap_of_neg hneg]
    have : (toInt sz).tdiv 8 < 0 ∨ sz % 8 ≠ 0 := by
      by_cases h8 : sz % 8 = 0
      · obtain ⟨q, hq⟩ := eight_dvd_toInt h8
        rw [hq, Int.mul_tdiv_cancel_left _ (by decide)]
        omega
      · exact .inr h8
    split_ifs with h8
    · rw [importIntegerFromByteArray, if_pos (.inl (this.resolve_right (by omega))), Option.map_none]
    · rfl
  rw [if_neg hneg]
  split_ifs with hlen h8
  · have : v < 2 ^ (toInt sz).toNat :=
      (lt_pow_length_byteArray v).trans_le (Nat.pow_le_pow_right (by decide) (by omega))
    rw [Nat.mod_eq_of_lt this]
  · obtain ⟨q, hq⟩ := eight_dvd_toInt h8
    have hk : (toInt sz).toNat = 8 * q.toNat := by omega
    rw [hq, Int.mul_tdiv_cancel_left _ (by decide), importIntegerFromByteArray, if_neg (by omega),
      bs2i_take, bs2i_byteArray, ← hq, hk]
    push_cast
    rfl
  · have hne : sz ≠ 64 := by
      rintro rfl
      exact h8 (by decide)
    exact wrap_of_nonneg hne (by omega) v

theorem split1_eq (sz1 sz2 : ℕ) (w : CoqWord) :
    split1 sz1 sz2 w = split1Integer (if w.IsWBS then sz2 else sz1) w.toInteger := by
  cases w <;> rfl

theorem split2_eq (sz1 sz2 : ℕ) (w : CoqWord) :
    split2 sz1 sz2 w = (shiftR w.toInteger (toInt sz1)).map .W := by
  cases w <;> rfl

theorem split1_integer {sz1 sz2 : ℕ} {w a : CoqWord} (h : 0 ≤ w.toInteger)
    (ha : split1 sz1 sz2 w = some a) : ∃ i, a = .W i := by
  obtain ⟨v, hv⟩ := Int.eq_ofNat_of_zero_le h
  rw [split1_eq, hv, split1Integer_eq] at ha
  generalize (if w.IsWBS then sz2 else sz1) = sz at ha
  split at ha
  · exact ⟨_, (Option.some.inj ha).symm⟩
  · split at ha
    · cases ha
    · exact ⟨_, (Option.some.inj ha).symm⟩

theorem split2_integer {sz1 sz2 : ℕ} {w b : CoqWord} (hb : split2 sz1 sz2 w = some b) :
    ∃ i, b = .W i := by
  rw [split2_eq] at hb
  obtain ⟨i, -, rfl⟩ := Option.map_eq_some_iff.mp hb
  exact ⟨i, rfl⟩

/-- The parts of `w` that the code computes are those of the number, and they combine to `w`. -/
def Slices (sz1 sz2 : ℕ) (w : CoqWord) : Prop :=
  ∃ a b c, split1 sz1 sz2 w = some a ∧ a.toInteger = w.toInteger % 2 ^ sz1 ∧
    split2 sz1 sz2 w = some b ∧ b.toInteger = w.toInteger / 2 ^ sz1 ∧
    combine sz1 a sz2 b = some c ∧ c.toInteger = w.toInteger

/-- `a` and `b` combine to the number made of both, and its parts are `a` and `b` again. -/
def Joins (sz1 sz2 : ℕ) (a b : CoqWord) : Prop :=
  ∃ w x y, combine sz1 a sz2 b = some w ∧ w.toInteger = a.toInteger + b.toInteger * 2 ^ sz1 ∧
    split1 sz1 sz2 w = some x ∧ x.toInteger = a.toInteger ∧
    split2 sz1 sz2 w = some y ∧ y.toInteger = b.toInteger

/-- What `split1` takes of a byte string, the low `sz2` bits, is what it should take. -/
def SwapFits (sz1 sz2 : ℕ) (v : ℤ) : Prop :=
  if v < 2 ^ 63 then v % 2 ^ sz2 = v % 2 ^ sz1
  else 0 ≤ toInt sz2 ∧ v % 2 ^ (toInt sz2).toNat = v % 2 ^ sz1

theorem exists_some_integer {i n : ℤ} :
    (∃ a, some (CoqWord.W i) = some a ∧ a.toInteger = n) ↔ i = n :=
  ⟨fun ⟨_, ha, he⟩ => (congrArg CoqWord.toInteger (Option.some.inj ha)).trans he,
    fun h => ⟨_, rfl, h⟩⟩

theorem split2_iff {sz1 : ℕ} (sz2 : ℕ) {w : CoqWord} (h : 0 ≤ w.toInteger) :
    (∃ b, split2 sz1 sz2 w = some b ∧ b.toInteger = w.toInteger / 2 ^ sz1) ↔
      Fits sz1 w.toInteger := by
  rw [split2_eq, shiftR, Fits]
  by_cases hk : toInt sz1 < 0
  · rw [if_pos hk]
    exact ⟨fun ⟨_, hb, _⟩ => (nomatch hb), fun hf => absurd hf.1 (by omega)⟩
  · rw [if_neg hk, ← ediv_pow_eq_iff (by omega) h, Option.map_some, exists_some_integer]
    exact ⟨fun he => ⟨by omega, he⟩, And.right⟩

theorem split1_bytes_iff {sz1 sz2 : ℕ} {w : CoqWord} (h : 0 ≤ w.toInteger) (hw : w.IsWBS) :
    (∃ a, split1 sz1 sz2 w = some a ∧ a.toInteger = w.toInteger % 2 ^ sz1) ↔
      SwapFits sz1 sz2 w.toInteger := by
  obtain ⟨v, hv⟩ := Int.eq_ofNat_of_zero_le h
  rw [split1_eq, if_pos hw, hv, split1Integer_eq, SwapFits]
  by_cases hlt : v < 2 ^ 63
  · have hlt' : (v : ℤ) < 2 ^ 63 := by exact_mod_cast hlt
    rw [if_pos hlt, if_pos hlt', exists_some_integer, Int.natCast_mod, Nat.cast_pow, Nat.cast_ofNat]
  have hlt' : ¬ (v : ℤ) < 2 ^ 63 := by omega
  rw [if_neg hlt, if_neg hlt']
  by_cases hk : toInt sz2 < 0
  · rw [if_pos hk]
    exact ⟨fun ⟨_, ha, _⟩ => (nomatch ha), fun hs => absurd hs.1 (by omega)⟩
  · rw [if_neg hk, exists_some_integer, Int.natCast_mod, Nat.cast_pow, Nat.cast_ofNat]
    exact ⟨fun he => ⟨not_lt.mp hk, he⟩, And.right⟩

/-- A value that fits is cut right when it is not a byte string. -/
theorem split1_of_fits {sz1 sz2 : ℕ} {w : CoqWord} (h : 0 ≤ w.toInteger) (hw : w.IsWBS = false)
    (hf : Fits sz1 w.toInteger) :
    ∃ a, split1 sz1 sz2 w = some a ∧ a.toInteger = w.toInteger % 2 ^ sz1 := by
  obtain ⟨v, hv⟩ := Int.eq_ofNat_of_zero_le h
  rw [hv] at hf
  have hcut : v % 2 ^ (toInt sz1).toNat = v % 2 ^ sz1 := by
    rcases hf.2 with he | hlt
    · rw [he, Int.toNat_natCast]
    · have hlt' : v < 2 ^ (toInt sz1).toNat := by exact_mod_cast hlt
      rw [Nat.mod_eq_of_lt hlt', Nat.mod_eq_of_lt (hlt'.trans_le
        (Nat.pow_le_pow_right (by decide) (toNat_toInt_le sz1)))]
  have hnn : ¬ toInt sz1 < 0 := by
    have := hf.1
    omega
  refine ⟨.W (v % 2 ^ sz1 : ℕ), ?_, ?_⟩
  · rw [split1_eq, hw, if_neg Bool.false_ne_true, hv, split1Integer_eq, if_neg hnn, hcut, ite_self]
  · rw [hv]
    push_cast [CoqWord.toInteger]
    rfl

theorem WellFormed.mod_eight {sz : ℕ} {w : CoqWord} (h : WellFormed sz w) (hw : w.IsWBS) :
    sz % 8 = 0 := by
  cases w with
  | WBS bs =>
    have := h.1
    omega
  | W i => cases hw
  | W64 w => cases hw

/-- `combine` makes a byte string exactly if one argument is one and the widths allow it. -/
def JoinsBytes (sz1 sz2 : ℕ) (a b : CoqWord) : Prop :=
  sz1 % 8 = 0 ∧ sz2 % 8 = 0 ∧ (a.IsWBS ∨ b.IsWBS)

theorem combine_of_not_bytes {sz1 sz2 : ℕ} {a b : CoqWord} (ha : WellFormed sz1 a)
    (hb : WellFormed sz2 b) (h : ¬ JoinsBytes sz1 sz2 a b) :
    combine sz1 a sz2 b = combineInteger sz1 a.toInteger b.toInteger := by
  have ha8 := ha.mod_eight
  have hb8 := hb.mod_eight
  cases a with
  | W | W64 =>
    cases b with
    | W | W64 => rfl
    | WBS => exact if_neg fun h8 => h ⟨h8, hb8 rfl, .inr rfl⟩
  | WBS =>
    cases b with
    | W | W64 => exact if_neg fun h8 => h ⟨ha8 rfl, h8, .inl rfl⟩
    | WBS => exact absurd ⟨ha8 rfl, hb8 rfl, .inl rfl⟩ h

theorem combine_of_bytes {sz1 sz2 : ℕ} {a b : CoqWord} (h : JoinsBytes sz1 sz2 a b) :
    combine sz1 a sz2 b = (w2bs a ((toInt sz1).tdiv 8)).bind fun b1 =>
      (w2bs b ((toInt sz2).tdiv 8)).map fun b2 => .WBS (b1 ++ b2) := by
  obtain ⟨h1, h2, hw⟩ := h
  generalize hn1 : (toInt sz1).tdiv 8 = n1
  generalize hn2 : (toInt sz2).tdiv 8 = n2
  unfold combine
  rw [hn1, hn2]
  cases a with
  | W | W64 =>
    cases b with
    | W | W64 => simp [CoqWord.IsWBS] at hw
    | WBS => exact (if_pos h1).trans Option.map_eq_bind
  | WBS =>
    rw [w2bs, Option.bind_some]
    cases b with
    | W | W64 => exact if_pos h2
    | WBS => rfl

/-- Turning a number into the bytes of its width. -/
theorem w2bs_eq_some_iff {sz : ℕ} {w : CoqWord} {bs : ByteString} (h : WellFormed sz w)
    (hw : w.IsWBS = false) (h8 : sz % 8 = 0) :
    w2bs w ((toInt sz).tdiv 8) = some bs ↔
      0 ≤ toInt sz ∧ bs2i bs = w.toInteger ∧ 8 * (bs.length : ℤ) = toInt sz := by
  obtain ⟨v, hv, -⟩ := h.exists_nat
  obtain ⟨q, hq⟩ := eight_dvd_toInt h8
  have hbs : w2bs w ((toInt sz).tdiv 8) = i2bs v q := by
    rw [hq, Int.mul_tdiv_cancel_left _ (by decide), ← hv]
    cases w with
    | W i => rfl
    | W64 w => rfl
    | WBS bs => cases hw
  rw [hbs, i2bs_eq_some_iff, hv, hq]
  omega

theorem exists_w2bs_iff {sz : ℕ} {w : CoqWord} (h : WellFormed sz w) (hw : w.IsWBS = false)
    (h8 : sz % 8 = 0) : (∃ bs, w2bs w ((toInt sz).tdiv 8) = some bs) ↔ Fits sz w.toInteger := by
  obtain ⟨v, hv, hlt⟩ := h.exists_nat
  obtain ⟨q, hq⟩ := eight_dvd_toInt h8
  constructor
  · rintro ⟨bs, hbs⟩
    obtain ⟨hk, hval, hlen⟩ := (w2bs_eq_some_iff h hw h8).mp hbs
    refine ⟨hk, .inr ?_⟩
    rw [← hval, show (toInt sz).toNat = 8 * bs.length by omega]
    exact bs2i_lt bs
  · rintro ⟨hk, hfit⟩
    have hlt' : v < 2 ^ (toInt sz).toNat := by
      rcases hfit with he | hfit
      · rwa [he, Int.toNat_natCast]
      · rw [hv] at hfit
        exact_mod_cast hfit
    rw [show (toInt sz).toNat = 8 * q.toNat by omega] at hlt'
    obtain ⟨bs, hbs⟩ := exists_i2bs (by omega) hlt'
    obtain ⟨hq0, hval, hlen⟩ := i2bs_eq_some_iff.mp hbs
    exact ⟨bs, (w2bs_eq_some_iff h hw h8).mpr ⟨hk, hval.trans hv.symm, by omega⟩⟩

theorem Fits.mul_pow_eq {sz : ℕ} {a b : ℤ} (ha : 0 ≤ a) (hb : 0 ≤ b)
    (h : Fits sz (a + b * 2 ^ sz)) : b * 2 ^ (toInt sz).toNat = b * 2 ^ sz := by
  rcases h.2 with he | hlt
  · rw [he, Int.toNat_natCast]
  · have hpow := pow_toInt_le sz
    have : b = 0 := by
      by_contra hne
      nlinarith [show 1 ≤ b by omega, show (0 : ℤ) < 2 ^ sz by positivity]
    rw [this, zero_mul, zero_mul]

/-- The first argument keeps its place: its bytes are as many as the width says, or the second is
zero. -/
theorem combine_bytes_value {sz1 sz2 : ℕ} {a b w : CoqWord} (ha : WellFormed sz1 a)
    (hb : WellFormed sz2 b) (h : JoinsBytes sz1 sz2 a b)
    (hf : Fits sz1 (a.toInteger + b.toInteger * 2 ^ sz1)) (hw : combine sz1 a sz2 b = some w) :
    w.toInteger = a.toInteger + b.toInteger * 2 ^ sz1 := by
  obtain ⟨va, hva, -⟩ := ha.exists_nat
  obtain ⟨vb, hvb, -⟩ := hb.exists_nat
  rw [combine_of_bytes h] at hw
  obtain ⟨b1, hb1, hw⟩ := Option.bind_eq_some_iff.mp hw
  obtain ⟨b2, hb2, rfl⟩ := Option.map_eq_some_iff.mp hw
  have hval2 : bs2i b2 = b.toInteger := by
    cases hbw : b.IsWBS with
    | false => exact ((w2bs_eq_some_iff hb hbw h.2.1).mp hb2).2.1
    | true =>
      cases b with
      | W | W64 => cases hbw
      | WBS bs => rw [← Option.some.inj hb2, CoqWord.toInteger]
  rw [CoqWord.toInteger, bs2i_append, hval2]
  cases haw : a.IsWBS with
  | false =>
    obtain ⟨hk, hval, hlen⟩ := (w2bs_eq_some_iff ha haw h.1).mp hb1
    rw [hval, show 8 * b1.length = (toInt sz1).toNat by omega, hf.mul_pow_eq (by omega) (by omega)]
  | true =>
    cases a with
    | W | W64 => cases haw
    | WBS bs => rw [← Option.some.inj hb1, CoqWord.toInteger, ha.1]

theorem exists_combine_bytes {sz1 sz2 : ℕ} {a b : CoqWord} (ha : WellFormed sz1 a)
    (hb : WellFormed sz2 b) (h : JoinsBytes sz1 sz2 a b) (hfa : Fits sz1 a.toInteger)
    (hfb : b.IsWBS = false → Fits sz2 b.toInteger) : ∃ w, combine sz1 a sz2 b = some (.WBS w) := by
  have hbytes : ∀ {sz w}, WellFormed sz w → sz % 8 = 0 →
      (w.IsWBS = false → Fits sz w.toInteger) → ∃ bs, w2bs w ((toInt sz).tdiv 8) = some bs := by
    intro sz w hwf h8 hfit
    cases hw : w.IsWBS with
    | false => exact (exists_w2bs_iff hwf hw h8).mpr (hfit hw)
    | true =>
      cases w with
      | W | W64 => cases hw
      | WBS bs => exact ⟨bs, rfl⟩
  obtain ⟨b1, hb1⟩ := hbytes ha h.1 fun _ => hfa
  obtain ⟨b2, hb2⟩ := hbytes hb h.2.1 hfb
  exact ⟨b1 ++ b2, by rw [combine_of_bytes h, hb1, hb2, Option.bind_some, Option.map_some]⟩

theorem combineInteger_of_fits {sz1 : ℕ} {a b : ℤ} (ha : 0 ≤ a) (hb : 0 ≤ b)
    (h : Fits sz1 (a + b * 2 ^ sz1)) : combineInteger sz1 a b = some (.W (a + b * 2 ^ sz1)) := by
  rw [combineInteger, shiftL, if_neg (not_lt.mpr h.1), Option.map_some, h.mul_pow_eq ha hb]

/-- The value is cut at the right place. -/
def SliceFits (sz1 sz2 : ℕ) (w : CoqWord) : Prop :=
  Fits sz1 w.toInteger ∧ (w.IsWBS → SwapFits sz1 sz2 w.toInteger)

/-- The arguments are put together at the right place, and the result is cut there again. -/
def JoinFits (sz1 sz2 : ℕ) (a b : CoqWord) : Prop :=
  Fits sz1 (a.toInteger + b.toInteger * 2 ^ sz1) ∧
    (JoinsBytes sz1 sz2 a b → SwapFits sz1 sz2 (a.toInteger + b.toInteger * 2 ^ sz1) ∧
      (b.IsWBS = false → Fits sz2 b.toInteger))

theorem slices_iff {sz1 sz2 : ℕ} {w : CoqWord} (h : WellFormed (sz1 + sz2) w) :
    Slices sz1 sz2 w ↔ SliceFits sz1 sz2 w := by
  obtain ⟨v, hv, -⟩ := h.exists_nat
  have hnn : 0 ≤ w.toInteger := by omega
  constructor
  · rintro ⟨a, b, c, ha, hav, hb, hbv, -, -⟩
    exact ⟨(split2_iff sz2 hnn).mp ⟨b, hb, hbv⟩, fun hw => (split1_bytes_iff hnn hw).mp ⟨a, ha, hav⟩⟩
  · rintro ⟨hf, hs⟩
    obtain ⟨b, hb, hbv⟩ := (split2_iff sz2 hnn).mpr hf
    obtain ⟨a, ha, hav⟩ : ∃ a, split1 sz1 sz2 w = some a ∧ a.toInteger = w.toInteger % 2 ^ sz1 := by
      cases hw : w.IsWBS with
      | false => exact split1_of_fits hnn hw hf
      | true => exact (split1_bytes_iff hnn hw).mpr (hs hw)
    have hsum : a.toInteger + b.toInteger * 2 ^ sz1 = w.toInteger := by
      rw [hav, hbv, Int.emod_add_ediv_mul]
    have hinteger : combine sz1 a sz2 b = combineInteger sz1 a.toInteger b.toInteger := by
      obtain ⟨i, rfl⟩ := split1_integer hnn ha
      obtain ⟨j, rfl⟩ := split2_integer hb
      rfl
    refine ⟨a, b, .W w.toInteger, ha, hav, hb, hbv, ?_, rfl⟩
    rw [hinteger, combineInteger_of_fits, hsum]
    · rw [hav]
      exact Int.emod_nonneg _ (by positivity)
    · rw [hbv]
      exact Int.ediv_nonneg hnn (by positivity)
    · rwa [hsum]

theorem joins_iff {sz1 sz2 : ℕ} {a b : CoqWord} (ha : WellFormed sz1 a) (hb : WellFormed sz2 b) :
    Joins sz1 sz2 a b ↔ JoinFits sz1 sz2 a b := by
  obtain ⟨va, hva, hlt⟩ := ha.exists_nat
  obtain ⟨vb, hvb, -⟩ := hb.exists_nat
  have hnn : 0 ≤ a.toInteger + b.toInteger * 2 ^ sz1 := by
    rw [hva, hvb]
    positivity
  have hltZ : a.toInteger < 2 ^ sz1 := by
    rw [hva]
    exact_mod_cast hlt
  have hmod : (a.toInteger + b.toInteger * 2 ^ sz1) % 2 ^ sz1 = a.toInteger := by
    rw [Int.add_mul_emod_self_right, Int.emod_eq_of_lt (by omega) hltZ]
  have hdiv : (a.toInteger + b.toInteger * 2 ^ sz1) / 2 ^ sz1 = b.toInteger := by
    rw [Int.add_mul_ediv_right _ _ (by positivity), Int.ediv_eq_zero_of_lt (by omega) hltZ, zero_add]
  constructor
  · rintro ⟨w, x, y, hw, hval, hx, hxv, hy, hyv⟩
    rw [← hval] at hnn hmod hdiv
    rw [JoinFits, ← hval]
    refine ⟨(split2_iff sz2 hnn).mp ⟨y, hy, hyv.trans hdiv.symm⟩, fun hj => ?_⟩
    rw [combine_of_bytes hj] at hw
    obtain ⟨b1, -, hw⟩ := Option.bind_eq_some_iff.mp hw
    obtain ⟨b2, hb2, hw⟩ := Option.map_eq_some_iff.mp hw
    have hww : w.IsWBS := hw ▸ rfl
    exact ⟨(split1_bytes_iff hnn hww).mp ⟨x, hx, hxv.trans hmod.symm⟩,
      fun hbw => (exists_w2bs_iff hb hbw hj.2.1).mp ⟨b2, hb2⟩⟩
  · rintro ⟨hf, hj⟩
    obtain ⟨w, hw, hval, hswap⟩ : ∃ w, combine sz1 a sz2 b = some w ∧
        w.toInteger = a.toInteger + b.toInteger * 2 ^ sz1 ∧
        (w.IsWBS → SwapFits sz1 sz2 (a.toInteger + b.toInteger * 2 ^ sz1)) := by
      by_cases hbytes : JoinsBytes sz1 sz2 a b
      · have hfa : Fits sz1 a.toInteger := hf.mono <| by
          have : 0 ≤ b.toInteger * 2 ^ sz1 := by
            rw [hvb]
            positivity
          omega
        obtain ⟨w, hw⟩ := exists_combine_bytes ha hb hbytes hfa (hj hbytes).2
        exact ⟨.WBS w, hw, combine_bytes_value ha hb hbytes hf hw, fun _ => (hj hbytes).1⟩
      · refine ⟨.W (a.toInteger + b.toInteger * 2 ^ sz1), ?_, rfl, fun h => nomatch h⟩
        rw [combine_of_not_bytes ha hb hbytes, combineInteger_of_fits (by omega) (by omega) hf]
    rw [← hval] at hf hswap hmod hdiv hnn
    obtain ⟨y, hy, hyv⟩ := (split2_iff sz2 hnn).mpr hf
    obtain ⟨x, hx, hxv⟩ : ∃ x, split1 sz1 sz2 w = some x ∧ x.toInteger = w.toInteger % 2 ^ sz1 := by
      cases hww : w.IsWBS with
      | false => exact split1_of_fits hnn hww hf
      | true => exact (split1_bytes_iff hnn hww).mpr (hswap hww)
    exact ⟨w, x, y, hw, hval, hx, hxv.trans hmod, hy, hyv.trans hdiv⟩

/-- The slicing functions compute the numbers of the Coq ones exactly on the values that are cut
where they should be. -/
theorem slicing_exact (sz1 sz2 : ℕ) :
    (∀ w, WellFormed (sz1 + sz2) w → (Slices sz1 sz2 w ↔ SliceFits sz1 sz2 w)) ∧
    ∀ a b, WellFormed sz1 a → WellFormed sz2 b → (Joins sz1 sz2 a b ↔ JoinFits sz1 sz2 a b) :=
  ⟨fun _ => slices_iff, fun _ _ => joins_iff⟩

theorem slicing_exact_integer :
    WellFormed 32 (.W 0x04030201) ∧ Slices 8 24 (.W 0x04030201) ∧
    WellFormed 8 (.WBS [1]) ∧ WellFormed 3 (.W 5) ∧ Joins 8 3 (.WBS [1]) (.W 5) := by
  have hint : WellFormed (8 + 24) (.W 0x04030201) := by decide
  have hbyte : WellFormed 8 (.WBS [1]) := by decide
  have hbits : WellFormed 3 (.W 5) := by decide
  refine ⟨hint, ((slicing_exact 8 24).1 _ hint).mpr ⟨fits_of_lt (by decide) _, fun h => nomatch h⟩,
    hbyte, hbits, ((slicing_exact 8 3).2 _ _ hbyte hbits).mpr ⟨fits_of_lt (by decide) _, ?_⟩⟩
  exact fun h => absurd h.2.1 (by decide)

/-- The low byte of a four-byte string: `split1` returns its low three bytes. -/
theorem split1_takes_high_width :
    WellFormed (8 + 24) (.WBS [1, 2, 3, 4]) ∧
    split1 8 24 (.WBS [1, 2, 3, 4]) = some (.W 0x030201) ∧
    ¬ Slices 8 24 (.WBS [1, 2, 3, 4]) := by
  have hcut : split1 8 24 (.WBS [1, 2, 3, 4]) = some (.W 0x030201) := by decide +kernel
  refine ⟨by decide, hcut, ?_⟩
  rintro ⟨a, b, c, ha, hav, -⟩
  rw [hcut] at ha
  obtain rfl := Option.some.inj ha
  revert hav
  decide

end Fscq.Hslib
