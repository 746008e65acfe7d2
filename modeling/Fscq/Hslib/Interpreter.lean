import Fscq.Hslib.WordSlice

/-!
# The hashes of the interpreter

The interpreter hashes a word as the byte string of its width.  The checksum does not depend on how
the word is represented, and hashing two words one after the other hashes their combination, as long
as the widths are `Int`s where the code turns them into one.
-/

namespace Fscq.Hslib

abbrev Word32 := BitVec 32

section

variable (crc32Update : Word32 → ByteString → Word32)

def crc32WordUpdate (c : Word32) (sz : ℕ) : CoqWord → Option Word32
  | .W w => (i2bs w (toInt ((sz + 7) / 8 : ℕ))).map fun bs => crc32Update c bs
  | .W64 w => (i2bs w.toNat (toInt ((sz + 7) / 8 : ℕ))).map fun bs => crc32Update c bs
  | .WBS bs => some (crc32Update c bs)

def hash (sz : ℕ) (w : CoqWord) : Option CoqWord :=
  (crc32WordUpdate crc32Update 0 sz w).map fun c => .W c.toNat

def hash2 (sz1 sz2 : ℕ) (w1 w2 : CoqWord) : Option CoqWord := do
  let c1 ← crc32WordUpdate crc32Update 0 sz1 w1
  let c2 ← crc32WordUpdate crc32Update c1 sz2 w2
  pure (.W c2.toNat)

/-! ### Representations -/

variable {sz sz1 sz2 : ℕ} {w w1 w2 : CoqWord}

/-- A well-formed word is hashed as the bytes of its number. -/
theorem crc32WordUpdate_eq (h : WellFormed sz w) {v : ℕ} (hv : w.toInteger = v) (c : Word32) :
    crc32WordUpdate crc32Update c sz w =
      (i2bs v (toInt ((sz + 7) / 8 : ℕ))).map fun bs => crc32Update c bs := by
  cases w with
  | W i =>
    obtain rfl : i = v := hv
    rfl
  | W64 x =>
    obtain rfl : x.toNat = v := Int.natCast_inj.1 hv
    rfl
  | WBS bs =>
    obtain ⟨hlen, hlt⟩ := h
    have hbytes : (sz + 7) / 8 = bs.length := by omega
    have hbs : i2bs v (toInt ((sz + 7) / 8 : ℕ)) = some bs := by
      rw [hbytes, toInt_of_lt hlt]
      exact i2bs_eq_some_iff.2 ⟨Int.natCast_nonneg _, hv, rfl⟩
    rw [hbs]
    rfl

theorem hash_eq (h : WellFormed sz w) {v : ℕ} (hv : w.toInteger = v) :
    hash crc32Update sz w = (i2bs v (toInt ((sz + 7) / 8 : ℕ))).map fun bs =>
      .W (crc32Update 0 bs).toNat := by
  rw [hash, crc32WordUpdate_eq crc32Update h hv, Option.map_map]
  rfl

theorem hash2_eq (h1 : WellFormed sz1 w1) (h2 : WellFormed sz2 w2) {v1 v2 : ℕ}
    (hv1 : w1.toInteger = v1) (hv2 : w2.toInteger = v2) :
    hash2 crc32Update sz1 sz2 w1 w2 = (i2bs v1 (toInt ((sz1 + 7) / 8 : ℕ))).bind fun b1 =>
      (i2bs v2 (toInt ((sz2 + 7) / 8 : ℕ))).map fun b2 =>
        .W (crc32Update (crc32Update 0 b1) b2).toNat := by
  rw [hash2, crc32WordUpdate_eq crc32Update h1 hv1]
  cases i2bs v1 (toInt ((sz1 + 7) / 8 : ℕ)) with
  | none => rfl
  | some b1 =>
    show (crc32WordUpdate crc32Update (crc32Update 0 b1) sz2 w2).bind _ = _
    rw [crc32WordUpdate_eq crc32Update h2 hv2]
    cases i2bs v2 (toInt ((sz2 + 7) / 8 : ℕ)) <;> rfl

end

/-- Updating with two byte strings is updating with both at once. -/
def Appends (crc32Update : Word32 → ByteString → Word32) : Prop :=
  ∀ c b1 b2, crc32Update c (b1 ++ b2) = crc32Update (crc32Update c b1) b2

/-- The hash of two words is that of their combination, for every checksum. -/
def HashCombines (sz1 sz2 : ℕ) : Prop :=
  ∀ crc32Update, Appends crc32Update → ∀ w1 w2, WellFormed sz1 w1 → WellFormed sz2 w2 →
    ∃ h, hash2 crc32Update sz1 sz2 w1 w2 = some h ∧
      (combine sz1 w1 sz2 w2).bind (hash crc32Update (sz1 + sz2)) = some h

/-- The widths are `Int`s where the code turns them into one. -/
def HashFits (sz1 sz2 : ℕ) : Prop :=
  sz1 < 2 ^ 63 ∧ (sz1 + sz2 + 7) / 8 < 2 ^ 63 ∧ (sz2 % 8 = 0 → sz2 < 2 ^ 63)

section

variable {sz1 sz2 : ℕ} {w1 w2 : CoqWord}

theorem length_of_w2bs {sz : ℕ} {w : CoqWord} {bs : ByteString} (h : WellFormed sz w)
    (h8 : sz % 8 = 0) (hlt : w.IsWBS = false → sz < 2 ^ 63)
    (hb : w2bs w ((toInt sz).tdiv 8) = some bs) : 8 * bs.length = sz := by
  cases hw : w.IsWBS with
  | false =>
    have hlen := ((w2bs_eq_some_iff h hw h8).1 hb).2.2
    rw [toInt_of_lt (hlt hw)] at hlen
    exact_mod_cast hlen
  | true =>
    cases w with
    | W | W64 => cases hw
    | WBS => exact (Option.some.inj hb) ▸ h.1

theorem join_lt {v1 v2 : ℕ} (h1 : v1 < 2 ^ sz1) (h2 : v2 < 2 ^ sz2) :
    v1 + v2 * 2 ^ sz1 < 2 ^ (sz1 + sz2) := by
  calc v1 + v2 * 2 ^ sz1 < 2 ^ sz1 + v2 * 2 ^ sz1 := Nat.add_lt_add_right h1 _
    _ = (v2 + 1) * 2 ^ sz1 := by ring
    _ ≤ 2 ^ sz2 * 2 ^ sz1 := Nat.mul_le_mul_right _ h2
    _ = 2 ^ (sz1 + sz2) := by rw [pow_add, Nat.mul_comm]

/-- The words are combined to a well-formed word. -/
theorem exists_combine (h8 : sz1 % 8 = 0) (hf : HashFits sz1 sz2) (h1 : WellFormed sz1 w1)
    (h2 : WellFormed sz2 w2) : ∃ w, combine sz1 w1 sz2 w2 = some w ∧ WellFormed (sz1 + sz2) w ∧
      w.toInteger = w1.toInteger + w2.toInteger * 2 ^ sz1 := by
  obtain ⟨v1, hv1, hlt1⟩ := h1.exists_nat
  obtain ⟨v2, hv2, hlt2⟩ := h2.exists_nat
  have hfit : ∀ v, Fits sz1 v := fits_of_lt hf.1
  by_cases hbytes : JoinsBytes sz1 sz2 w1 w2
  · obtain ⟨bs, hbs⟩ := exists_combine_bytes h1 h2 hbytes (hfit _)
      fun _ => fits_of_lt (hf.2.2 hbytes.2.1) _
    refine ⟨_, hbs, ?_, combine_bytes_value h1 h2 hbytes (hfit _) hbs⟩
    rw [combine_of_bytes hbytes] at hbs
    obtain ⟨b1, hb1, hbs⟩ := Option.bind_eq_some_iff.1 hbs
    obtain ⟨b2, hb2, hbs⟩ := Option.map_eq_some_iff.1 hbs
    obtain rfl : b1 ++ b2 = bs := CoqWord.WBS.inj hbs
    have hlen1 := length_of_w2bs h1 h8 (fun _ => hf.1) hb1
    have hlen2 := length_of_w2bs h2 hbytes.2.1 (fun _ => hf.2.2 hbytes.2.1) hb2
    have hlt := hf.2.1
    rw [WellFormed, List.length_append]
    omega
  · refine ⟨.W (w1.toInteger + w2.toInteger * 2 ^ sz1), ?_, ?_, rfl⟩
    · rw [combine_of_not_bytes h1 h2 hbytes, combineInteger_of_fits _ _ (hfit _)]
      · omega
      · omega
    · rw [hv1, hv2]
      refine ⟨by positivity, ?_⟩
      exact_mod_cast join_lt hlt1 hlt2

/-- The bytes of the two words follow each other. -/
theorem i2bs_join (h8 : sz1 % 8 = 0) (hf : HashFits sz1 sz2) {v1 v2 : ℕ} {b1 b2 : ByteString}
    (hb1 : i2bs v1 (toInt ((sz1 + 7) / 8 : ℕ)) = some b1)
    (hb2 : i2bs v2 (toInt ((sz2 + 7) / 8 : ℕ)) = some b2) :
    i2bs (v1 + v2 * 2 ^ sz1 : ℕ) (toInt ((sz1 + sz2 + 7) / 8 : ℕ)) = some (b1 ++ b2) := by
  have hlt := hf.2.1
  have e1 : toInt ((sz1 + 7) / 8 : ℕ) = ((sz1 + 7) / 8 : ℕ) := toInt_of_lt (by omega)
  have e2 : toInt ((sz2 + 7) / 8 : ℕ) = ((sz2 + 7) / 8 : ℕ) := toInt_of_lt (by omega)
  have e : toInt ((sz1 + sz2 + 7) / 8 : ℕ) = ((sz1 + sz2 + 7) / 8 : ℕ) := toInt_of_lt hlt
  rw [e1] at hb1
  rw [e2] at hb2
  obtain ⟨-, hval1, hlen1⟩ := i2bs_eq_some_iff.1 hb1
  obtain ⟨-, hval2, hlen2⟩ := i2bs_eq_some_iff.1 hb2
  have hpow : 8 * b1.length = sz1 := by omega
  rw [e, i2bs_eq_some_iff, bs2i_append, hval1, hval2, hpow, List.length_append]
  refine ⟨Int.natCast_nonneg _, by push_cast; rfl, by omega⟩

theorem hashCombines_of_fits (h8 : sz1 % 8 = 0) (hf : HashFits sz1 sz2) : HashCombines sz1 sz2 := by
  intro crc32Update happ w1 w2 h1 h2
  obtain ⟨v1, hv1, hlt1⟩ := h1.exists_nat
  obtain ⟨v2, hv2, hlt2⟩ := h2.exists_nat
  obtain ⟨w, hw, hwf, hval⟩ := exists_combine h8 hf h1 h2
  have hbytes : ∀ {sz v : ℕ}, (sz + 7) / 8 < 2 ^ 63 → v < 2 ^ sz →
      ∃ bs, i2bs v (toInt ((sz + 7) / 8 : ℕ)) = some bs := by
    intro sz v hsz hv
    rw [toInt_of_lt hsz]
    apply exists_i2bs (Int.natCast_nonneg _)
    refine hv.trans_le (Nat.pow_le_pow_right (by decide) ?_)
    rw [Int.toNat_natCast]
    omega
  have hlt := hf.2.1
  obtain ⟨b1, hb1⟩ := hbytes (by omega) hlt1
  obtain ⟨b2, hb2⟩ := hbytes (by omega) hlt2
  have hsum : w.toInteger = (v1 + v2 * 2 ^ sz1 : ℕ) := by
    rw [hval, hv1, hv2]
    push_cast
    rfl
  refine ⟨.W (crc32Update (crc32Update 0 b1) b2).toNat, ?_, ?_⟩
  · rw [hash2_eq crc32Update h1 h2 hv1 hv2, hb1, Option.bind_some, hb2, Option.map_some]
  · rw [hw, Option.bind_some, hash_eq crc32Update hwf hsum, i2bs_join h8 hf hb1 hb2,
      Option.map_some, happ]

end

/-! ### Widths that do not fit -/

/-- A checksum that remembers whether the first byte that is zero or one is a zero or a one. -/
def scanByte (c : Word32) (b : UInt8) : Word32 :=
  if c = 0 then if b = 0 then 1 else if b = 1 then 2 else 0 else c

def scan (c : Word32) (bs : ByteString) : Word32 := bs.foldl scanByte c

theorem appends_scan : Appends scan := fun _ _ _ => List.foldl_append

theorem scan_of_ne {c : Word32} (h : c ≠ 0) (bs : ByteString) : scan c bs = c := by
  induction bs with
  | nil => rfl
  | cons b bs ih =>
    rw [scan, List.foldl_cons, scanByte, if_neg h]
    exact ih

theorem scan_ones (m : ℕ) : scan 0 (List.replicate m 255) = 0 := by
  induction m with
  | zero => rfl
  | succ m ih =>
    rw [List.replicate_succ, scan, List.foldl_cons]
    exact ih

theorem bs2i_ones (m : ℕ) : bs2i (List.replicate m 255) = (2 ^ (8 * m) - 1 : ℕ) := by
  induction m with
  | zero => rfl
  | succ m ih =>
    have e : List.replicate (m + 1) (255 : UInt8) = [255] ++ List.replicate m 255 := rfl
    have h1 : bs2i [255] = 255 := rfl
    rw [e, bs2i_append, ih, h1]
    have e8 : 2 ^ (8 * (m + 1)) = 2 ^ (8 * m) * 2 ^ 8 := by rw [← pow_add, Nat.mul_add_one]
    have hpos : 1 ≤ 2 ^ (8 * m) := Nat.one_le_two_pow
    have hsum : 255 + (2 ^ (8 * m) - 1) * 2 ^ 8 = 2 ^ (8 * m) * 2 ^ 8 - 1 := by omega
    rw [e8, ← hsum]
    push_cast
    rfl

/-- The lowest byte of a number. -/
theorem exists_cons {bs : ByteString} {v : ℕ} (h : bs2i bs = v) (hv : v ≠ 0) :
    ∃ b rest, bs = b :: rest ∧ b.toNat = v % 256 := by
  obtain _ | ⟨b, rest⟩ := bs
  · have h0 : bs2i [] = 0 := rfl
    rw [h0] at h
    exact absurd (by exact_mod_cast h.symm) hv
  · refine ⟨b, rest, rfl, ?_⟩
    have hb : b.toNat < 256 := b.toNat_lt
    rw [bs2i, List.map_cons, Nat.ofDigits_cons, Int.natCast_inj] at h
    omega

theorem le_of_ones_lt {n m : ℕ} (h : 2 ^ n - 1 < 2 ^ m) : n ≤ m := by
  by_contra hlt
  have hpow : 2 ^ (m + 1) ≤ 2 ^ n := Nat.pow_le_pow_right (by decide) (by omega)
  have hpos : 1 ≤ 2 ^ m := Nat.one_le_two_pow
  rw [pow_succ] at hpow
  omega

theorem wellFormed_ones (sz : ℕ) : WellFormed sz (.W (2 ^ sz - 1 : ℕ)) := by
  have hlt : 2 ^ sz - 1 < 2 ^ sz := Nat.sub_lt (by positivity) one_pos
  exact ⟨Int.natCast_nonneg _, by exact_mod_cast hlt⟩

theorem wellFormed_one {sz : ℕ} (h : sz ≠ 0) : WellFormed sz (.W (1 : ℕ)) := by
  have hlt : 1 < 2 ^ sz := Nat.one_lt_two_pow h
  exact ⟨Int.natCast_nonneg _, by exact_mod_cast hlt⟩

theorem lt_of_fits_ones {sz : ℕ} (h : Fits sz (2 ^ sz - 1 : ℕ)) : sz < 2 ^ 63 := by
  rw [← toInt_eq_iff]
  obtain ⟨h0, he | hlt⟩ := h
  · exact he
  · have hle : sz ≤ (toInt sz).toNat := le_of_ones_lt (by exact_mod_cast hlt)
    have := toInt_le sz
    omega

/-- The bytes of the largest number are all ones. -/
theorem eq_ones_of_i2bs {sz : ℕ} {bs : ByteString} (h8 : sz % 8 = 0)
    (h : i2bs (2 ^ sz - 1 : ℕ) (toInt ((sz + 7) / 8 : ℕ)) = some bs) :
    bs = List.replicate (sz / 8) 255 := by
  obtain ⟨-, hval, hlen⟩ := i2bs_eq_some_iff.1 h
  have hlt := bs2i_lt bs
  rw [hval] at hlt
  have hle : sz ≤ 8 * bs.length := le_of_ones_lt (by exact_mod_cast hlt)
  have hint := toInt_le ((sz + 7) / 8)
  have hlen8 : bs.length = sz / 8 := by omega
  have hsz : 8 * (sz / 8) = sz := by omega
  apply (bs2i_inj (by rw [hlen8, List.length_replicate])).1
  rw [hval, bs2i_ones, hsz]

theorem scan_one {bs : ByteString} (h : bs2i bs = 1) : scan 0 bs = 2 := by
  obtain ⟨b, rest, rfl, hb⟩ := exists_cons (v := 1) h one_ne_zero
  obtain rfl : b = 1 := UInt8.toNat_inj.1 hb
  exact scan_of_ne (c := 2) (by decide) rest

/-- A one that is put too low ends the ones below it. -/
theorem scan_gap {sz k : ℕ} {bs : ByteString} (hk : k % 8 = 0) (hle : k + 8 ≤ sz)
    (h : bs2i bs = (2 ^ sz - 1 + 2 ^ k : ℕ)) : scan 0 bs = 1 := by
  have hP : 1 ≤ 2 ^ k := Nat.one_le_two_pow
  have hsz : 2 ^ sz = 2 ^ (sz - k) * 2 ^ k := by rw [← pow_add, Nat.sub_add_cancel (by omega)]
  have hv : 2 ^ sz - 1 + 2 ^ k = (2 ^ k - 1) + 2 ^ (sz - k) * 2 ^ k := by
    have hone : 1 ≤ 2 ^ sz := Nat.one_le_two_pow
    omega
  have hk8 : 8 * (k / 8) = k := by omega
  have hlen : k / 8 < bs.length := by
    have hlt := bs2i_lt bs
    rw [h] at hlt
    have hlt' : 2 ^ sz - 1 + 2 ^ k < 2 ^ (8 * bs.length) := by exact_mod_cast hlt
    have := le_of_ones_lt (n := sz) (m := 8 * bs.length) (by omega)
    omega
  have htake : bs.take (k / 8) = List.replicate (k / 8) 255 := by
    apply (bs2i_inj (by rw [List.length_take, List.length_replicate]; omega)).1
    have hmod : (2 ^ sz - 1 + 2 ^ k) % 2 ^ k = 2 ^ k - 1 := by
      rw [hv, Nat.add_mul_mod_self_right, Nat.mod_eq_of_lt (by omega)]
    rw [bs2i_take, h, bs2i_ones, hk8, ← hmod]
    push_cast
    rfl
  have hdrop : bs2i (bs.drop (k / 8)) = (2 ^ (sz - k) : ℕ) := by
    have hdiv : (2 ^ sz - 1 + 2 ^ k) / 2 ^ k = 2 ^ (sz - k) := by
      rw [hv, Nat.add_mul_div_right _ _ (by omega), Nat.div_eq_of_lt (by omega), zero_add]
    rw [bs2i_drop, h, hk8, ← hdiv]
    push_cast
    rfl
  obtain ⟨b, rest, hrest, hb⟩ := exists_cons hdrop (by positivity)
  have hb0 : b = 0 := by
    apply UInt8.toNat_inj.1
    have hdvd : 256 ∣ 2 ^ (sz - k) := pow_dvd_pow 2 (show 8 ≤ sz - k by omega)
    rw [hb, Nat.mod_eq_zero_of_dvd hdvd]
    rfl
  rw [← List.take_append_drop (k / 8) bs, appends_scan, htake, scan_ones, hrest, hb0]
  exact scan_of_ne (c := 1) (by decide) rest

section

variable {sz1 sz2 : ℕ}

/-- The largest numbers of both widths are hashed one after the other. -/
theorem i2bs_of_hash2 {crc32Update : Word32 → ByteString → Word32} {v1 v2 : ℕ} {h : CoqWord}
    (h1 : WellFormed sz1 (.W v1)) (h2 : WellFormed sz2 (.W v2))
    (hh : hash2 crc32Update sz1 sz2 (.W v1) (.W v2) = some h) :
    ∃ b1 b2, i2bs v1 (toInt ((sz1 + 7) / 8 : ℕ)) = some b1 ∧
      i2bs v2 (toInt ((sz2 + 7) / 8 : ℕ)) = some b2 ∧
      h = .W (crc32Update (crc32Update 0 b1) b2).toNat := by
  rw [hash2_eq crc32Update h1 h2 rfl rfl] at hh
  obtain ⟨b1, hb1, hh⟩ := Option.bind_eq_some_iff.1 hh
  obtain ⟨b2, hb2, hh⟩ := Option.map_eq_some_iff.1 hh
  exact ⟨b1, b2, hb1, hb2, hh.symm⟩

theorem i2bs_of_hash {crc32Update : Word32 → ByteString → Word32} {sz v : ℕ} {h : CoqWord}
    (hh : hash crc32Update sz (.W v) = some h) :
    ∃ bs, i2bs v (toInt ((sz + 7) / 8 : ℕ)) = some bs ∧ h = .W (crc32Update 0 bs).toNat := by
  rw [hash, crc32WordUpdate] at hh
  obtain ⟨c, hc, rfl⟩ := Option.map_eq_some_iff.1 hh
  obtain ⟨bs, hbs, rfl⟩ := Option.map_eq_some_iff.1 hc
  exact ⟨bs, hbs, rfl⟩

theorem combine_ints (v1 v2 : ℕ) {w : CoqWord} (h : combine sz1 (.W v1) sz2 (.W v2) = some w) :
    0 ≤ toInt sz1 ∧ w = .W (v1 + v2 * 2 ^ (toInt sz1).toNat : ℕ) := by
  have hint : combine sz1 (.W v1) sz2 (.W v2) = combineInteger sz1 v1 v2 := rfl
  rw [hint, combineInteger] at h
  obtain ⟨i, hi, rfl⟩ := Option.map_eq_some_iff.1 h
  rw [shiftL] at hi
  split_ifs at hi with hneg
  obtain rfl := Option.some.inj hi
  refine ⟨Int.not_lt.1 hneg, ?_⟩
  push_cast
  rfl

/-- The first width is the amount by which the second word is shifted. -/
theorem HashCombines.lt_left (h8 : sz1 % 8 = 0) (h : HashCombines sz1 sz2) : sz1 < 2 ^ 63 := by
  rcases Nat.eq_zero_or_pos sz2 with rfl | hpos
  · obtain ⟨r, -, hr⟩ := h scan appends_scan _ (.WBS []) (wellFormed_ones sz1) ⟨rfl, by decide⟩
    obtain ⟨w, hw, -⟩ := Option.bind_eq_some_iff.1 hr
    have hbytes : JoinsBytes sz1 0 (.W (2 ^ sz1 - 1 : ℕ)) (.WBS []) := ⟨h8, rfl, .inr rfl⟩
    rw [combine_of_bytes hbytes] at hw
    obtain ⟨b1, hb1, -⟩ := Option.bind_eq_some_iff.1 hw
    exact lt_of_fits_ones ((exists_w2bs_iff (wellFormed_ones sz1) rfl h8).1 ⟨b1, hb1⟩)
  · rw [← toInt_eq_iff]
    by_contra hne
    have hone := wellFormed_one (Nat.pos_iff_ne_zero.1 hpos)
    obtain ⟨r, hr2, hr⟩ := h scan appends_scan _ _ (wellFormed_ones sz1) hone
    obtain ⟨b1, b2, hb1, hb2, rfl⟩ := i2bs_of_hash2 (wellFormed_ones sz1) hone hr2
    obtain ⟨w, hw, hr⟩ := Option.bind_eq_some_iff.1 hr
    obtain ⟨h0, rfl⟩ := combine_ints _ _ hw
    obtain ⟨bs, hbs, hscan⟩ := i2bs_of_hash hr
    -- the one follows the bytes of the first word, or it is put among them
    have htwo : scan (scan 0 b1) b2 = 2 := by
      rw [eq_ones_of_i2bs h8 hb1, scan_ones]
      exact scan_one (i2bs_eq_some_iff.1 hb2).2.1
    have hgap : scan 0 bs = 1 := by
      have hle := toInt_le sz1
      have hd := eight_dvd_toInt h8
      have hle' : (toInt sz1).toNat + 8 ≤ sz1 := by omega
      apply scan_gap (by omega) hle'
      rw [(i2bs_eq_some_iff.1 hbs).2.1, Nat.one_mul]
    rw [htwo, hgap] at hscan
    exact absurd hscan (by decide)

theorem HashCombines.lt_bytes (h8 : sz1 % 8 = 0) (h : HashCombines sz1 sz2) :
    (sz1 + sz2 + 7) / 8 < 2 ^ 63 := by
  obtain ⟨r, -, hr⟩ := h scan appends_scan _ _ (wellFormed_ones sz1) (wellFormed_ones sz2)
  obtain ⟨w, hw, hr⟩ := Option.bind_eq_some_iff.1 hr
  obtain ⟨-, rfl⟩ := combine_ints _ _ hw
  obtain ⟨bs, hbs, -⟩ := i2bs_of_hash hr
  obtain ⟨-, hval, hlen⟩ := i2bs_eq_some_iff.1 hbs
  have hk : (toInt sz1).toNat = sz1 := by
    rw [(toInt_eq_iff sz1).2 (h.lt_left h8), Int.toNat_natCast]
  have hsum : 2 ^ sz1 - 1 + (2 ^ sz2 - 1) * 2 ^ sz1 = 2 ^ (sz1 + sz2) - 1 := by
    have h1 : 1 ≤ 2 ^ sz1 := Nat.one_le_two_pow
    have h2 : 1 ≤ 2 ^ sz2 := Nat.one_le_two_pow
    have hle : 2 ^ sz1 ≤ 2 ^ sz2 * 2 ^ sz1 := Nat.le_mul_of_pos_left _ h2
    rw [Nat.sub_mul, pow_add, Nat.mul_comm (2 ^ sz1)]
    omega
  rw [hk, hsum] at hval
  have hlt := bs2i_lt bs
  rw [hval] at hlt
  have hle : sz1 + sz2 ≤ 8 * bs.length := le_of_ones_lt (by exact_mod_cast hlt)
  have hint := toInt_lt ((sz1 + sz2 + 7) / 8 : ℕ)
  omega

theorem HashCombines.lt_right (h8 : sz1 % 8 = 0) (h : HashCombines sz1 sz2) (h8' : sz2 % 8 = 0) :
    sz2 < 2 ^ 63 := by
  have hlt := h.lt_left h8
  have hwf : WellFormed sz1 (.WBS (List.replicate (sz1 / 8) 0)) := by
    rw [WellFormed, List.length_replicate]
    omega
  obtain ⟨r, -, hr⟩ := h scan appends_scan _ _ hwf (wellFormed_ones sz2)
  obtain ⟨w, hw, -⟩ := Option.bind_eq_some_iff.1 hr
  have hbytes : JoinsBytes sz1 sz2 (.WBS (List.replicate (sz1 / 8) 0)) (.W (2 ^ sz2 - 1 : ℕ)) :=
    ⟨h8, h8', .inl rfl⟩
  rw [combine_of_bytes hbytes] at hw
  obtain ⟨b1, -, hw⟩ := Option.bind_eq_some_iff.1 hw
  obtain ⟨b2, hb2, -⟩ := Option.map_eq_some_iff.1 hw
  exact lt_of_fits_ones ((exists_w2bs_iff (wellFormed_ones sz2) rfl h8').1 ⟨b2, hb2⟩)

end

/-- The checksum of a word is that of its number, and two words are hashed like their combination
exactly if the widths are `Int`s where the code turns them into one. -/
theorem hash_exact (sz1 sz2 : ℕ) :
    (∀ crc32Update c w w', WellFormed sz1 w → WellFormed sz1 w' → w.toInteger = w'.toInteger →
      crc32WordUpdate crc32Update c sz1 w = crc32WordUpdate crc32Update c sz1 w') ∧
    (sz1 % 8 = 0 → (HashCombines sz1 sz2 ↔ HashFits sz1 sz2)) := by
  constructor
  · intro crc32Update c w w' hw hw' heq
    obtain ⟨v, hv, -⟩ := hw.exists_nat
    rw [crc32WordUpdate_eq crc32Update hw hv, crc32WordUpdate_eq crc32Update hw' (heq ▸ hv)]
  · intro h8
    constructor
    · intro h
      exact ⟨h.lt_left h8, h.lt_bytes h8, h.lt_right h8⟩
    · exact hashCombines_of_fits h8

theorem hash_exact_bytes :
    crc32WordUpdate scan 0 64 (.W64 5) = crc32WordUpdate scan 0 64 (.WBS [5, 0, 0, 0, 0, 0, 0, 0]) ∧
    HashCombines 8 8 :=
  ⟨(hash_exact 64 8).1 scan 0 _ _ rfl (by decide) (by decide),
    ((hash_exact 8 8).2 rfl).mpr ⟨by decide, by decide, by decide⟩⟩

theorem overruns_of_toInt {sz : ℕ} (h0 : toInt ((sz + 7) / 8 : ℕ) = 0)
    (crc32Update : Word32 → ByteString → Word32) : hash2 crc32Update sz 8 (.W 1) (.W 1) = none := by
  have hbytes : i2bs 1 0 = none := by decide +kernel
  rw [hash2, crc32WordUpdate, h0, hbytes]
  rfl

/-- The buffer for a word of `2 ^ 67` bits has no bytes: one of its numbers is not hashed. -/
theorem hash2_overruns :
    WellFormed (2 ^ 67) (.W 1) ∧ WellFormed 8 (.W 1) ∧
    (∀ crc32Update, hash2 crc32Update (2 ^ 67) 8 (.W 1) (.W 1) = none) ∧
    combine (2 ^ 67) (.W 1) 8 (.W 1) = some (.W 2) ∧ ¬ HashCombines (2 ^ 67) 8 := by
  refine ⟨wellFormed_one (by norm_num), by decide, overruns_of_toInt (by decide),
    by decide +kernel, fun h => ?_⟩
  exact absurd (h.lt_left (by norm_num)) (by norm_num)

end Fscq.Hslib
