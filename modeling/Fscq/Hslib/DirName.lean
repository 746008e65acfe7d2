import Mathlib.Data.Nat.Bitwise
import Fscq.DirName
import Fscq.Hslib.WordSlice

/-!
# Names in the extracted code

Extraction makes a string of `DirName.v` a list of Haskell characters and replaces `ascii2byte`,
whose result is a word of 8 bits, by `Word.ascii2byte`, which returns the code point of the
character whatever its size.
-/

namespace Fscq.Hslib

/-- A `Char`: a code point, surrogates included. -/
abbrev HsChar := Fin 0x110000

abbrev HsString := List HsChar

/-! ## Bytes and characters -/

/-- `Word.ascii2byte`. -/
def ascii2byte (c : HsChar) : CoqWord := .W (c : ℕ)

def wbitset (len : ℕ) (bitpos w : CoqWord) : Option Bool := do
  let bit ← wbit len len bitpos
  let x ← wand len w bit
  let z ← natToWord len 0
  let b ← weq len x z
  pure (if b then false else true)

/-- What is extracted for the constructor `Ascii`: the character with the given bits. -/
def ascii (bits : Fin 8 → Bool) : HsChar :=
  ⟨Nat.ofBits bits, (Nat.ofBits_lt_two_pow bits).trans (by decide)⟩

/-- The bit of `b` at position `k`: `wbitset $k b`. -/
def bitAt (b : CoqWord) (k : ℕ) : Option Bool :=
  (natToWord 8 k).bind fun bitpos => wbitset 8 bitpos b

def byte2ascii (b : CoqWord) : Option HsChar := do
  let b0 ← bitAt b 0
  let b1 ← bitAt b 1
  let b2 ← bitAt b 2
  let b3 ← bitAt b 3
  let b4 ← bitAt b 4
  let b5 ← bitAt b 5
  let b6 ← bitAt b 6
  let b7 ← bitAt b 7
  pure (ascii ![b0, b1, b2, b3, b4, b5, b6, b7])

/-! ## Strings and names -/

def name2padstring : ℕ → CoqWord → Option HsString
  | 0, _ => some []
  | nbytes + 1, name => do
    let b ← split1 8 (nbytes * 8) name
    let c ← byte2ascii b
    let rest ← split2 8 (nbytes * 8) name
    let s ← name2padstring nbytes rest
    pure (c :: s)

def padstring2name : ℕ → HsString → Option CoqWord
  | 0, _ => natToWord 0 0
  | nbytes + 1, [] => natToWord ((nbytes + 1) * 8) 0
  | nbytes + 1, a :: s => do
    let rest ← padstring2name nbytes s
    combine 8 (ascii2byte a) (nbytes * 8) rest

def stringPad : ℕ → HsString → HsString
  | 0, _ => []
  | nbytes + 1, [] => 0 :: stringPad nbytes []
  | nbytes + 1, a :: s => a :: stringPad nbytes s

def stringUnpad : HsString → HsString
  | [] => []
  | a :: s => if a = 0 then [] else a :: stringUnpad s

def string2name (nbytes : ℕ) (s : HsString) : Option CoqWord :=
  padstring2name nbytes (stringPad nbytes s)

def name2string (nbytes : ℕ) (name : CoqWord) : Option HsString :=
  (name2padstring nbytes name).map stringUnpad

-- The source computes this one too, and it has the equations of `padstring2name`.
def string2name' : ℕ → HsString → Option CoqWord
  | 0, _ => natToWord 0 0
  | nbytes + 1, [] => natToWord ((nbytes + 1) * 8) 0
  | nbytes + 1, a :: s => do
    let rest ← string2name' nbytes s
    combine 8 (ascii2byte a) (nbytes * 8) rest

namespace SDIR

def namelen : ℕ := Fscq.SDIR.namelen

def isNozero : HsString → Bool
  | [] => true
  | c :: s => if c = 0 then false else isNozero s

def isValidSname (s : HsString) : Bool := isNozero s && if s.length ≤ namelen then true else false

theorem isNozero_iff {s : HsString} : isNozero s = true ↔ ∀ c ∈ s, c ≠ 0 := by
  induction s with
  | nil => simp [isNozero]
  | cons c s ih =>
    rw [isNozero]
    split_ifs with h
    · simp [h]
    · rw [List.forall_mem_cons, ih]
      exact ⟨fun hs => ⟨h, hs⟩, fun hs => hs.2⟩

end SDIR

/-! ## The integer of a name -/

/-- The characters of a string as the digits of a number; a character can exceed its digit. -/
def nameValue (s : HsString) : ℕ := Nat.ofDigits 256 (s.map Fin.val)

theorem nameValue_cons (c : HsChar) (s : HsString) :
    nameValue (c :: s) = c + 256 * nameValue s := Nat.ofDigits_cons ..

theorem toInt_eight : toInt (8 : ℕ) = (8 : ℕ) := toInt_of_lt (by norm_num)

theorem combine_eight (c : HsChar) (sz v : ℕ) :
    combine 8 (ascii2byte c) sz (.W v) = some (.W (c + 256 * v : ℕ)) := by
  have h : combine 8 (ascii2byte c) sz (.W v) = combineInteger 8 c v := rfl
  have hv : (c : ℤ) + v * 2 ^ 8 = (c + 256 * v : ℕ) := by
    push_cast
    ring
  rw [h, combineInteger, toInt_eight, shiftL, if_neg (by omega), Option.map_some,
    Int.toNat_natCast, hv]

theorem string2name'_eq {nbytes : ℕ} {s : HsString} (hl : s.length ≤ nbytes) :
    string2name' nbytes s = some (.W (nameValue s)) := by
  induction s generalizing nbytes with
  | nil => cases nbytes <;> rfl
  | cons c s ih =>
    cases nbytes with
    | zero => cases hl
    | succ nbytes =>
      rw [string2name', ih (Nat.le_of_succ_le_succ hl), nameValue_cons]
      exact combine_eight c (nbytes * 8) _

/-- The padding characters are zero and do not change the number. -/
theorem padstring2name_stringPad {nbytes : ℕ} {s : HsString} (hl : s.length ≤ nbytes) :
    padstring2name nbytes (stringPad nbytes s) = some (.W (nameValue s)) := by
  induction nbytes generalizing s with
  | zero =>
    obtain rfl := List.length_eq_zero_iff.mp (Nat.le_zero.mp hl)
    rfl
  | succ nbytes ih =>
    cases s with
    | nil =>
      rw [stringPad, padstring2name, ih (Nat.zero_le _)]
      exact combine_eight 0 (nbytes * 8) 0
    | cons c s =>
      rw [stringPad, padstring2name, ih (Nat.le_of_succ_le_succ hl), nameValue_cons]
      exact combine_eight c (nbytes * 8) _

/-- The two ways to encode a name that fits agree. -/
theorem string2name_eq_string2name' {nbytes : ℕ} {s : HsString} (hl : s.length ≤ nbytes) :
    string2name nbytes s = string2name' nbytes s := by
  rw [string2name, padstring2name_stringPad hl, string2name'_eq hl]

/-! ## Taking a name apart -/

theorem weq_zero_integer (i : ℤ) : weq 8 (.W i) (.W 0) = some (i == 0) := rfl

theorem natToWord_bit {k : ℕ} (hk : k < 8) : natToWord 8 k = some (.W k) := by
  rw [natToWord]
  split_ifs with h
  · rw [h, Nat.cast_zero]
  · rw [wrap_of_nonneg (by decide) (by rw [toInt_eight]; omega), toInt_eight, Int.toNat_natCast,
      Nat.mod_eq_of_lt (hk.trans (by decide))]

theorem wbit_bit {k : ℕ} (hk : k < 8) : wbit 8 8 (.W k) = some (.W (2 ^ k : ℕ)) := by
  have hlt : 2 ^ k < 2 ^ 8 := Nat.pow_lt_pow_right (by decide) hk
  have hcast : (2 : ℤ) ^ k = (2 ^ k : ℕ) := by norm_num
  rw [wbit, if_neg (by omega), Int.toNat_natCast, hcast,
    wrap_of_nonneg (by decide) (by rw [toInt_eight]; omega), toInt_eight, Int.toNat_natCast,
    Nat.mod_eq_of_lt hlt]

/-- A bit of a byte is the bit of the number, which may be larger than a byte. -/
theorem bitAt_integer {k : ℕ} (hk : k < 8) (v : ℕ) : bitAt (.W v) k = some (v.testBit k) := by
  have hand : wand 8 (.W v) (.W (2 ^ k : ℕ)) = some (.W (v &&& 2 ^ k : ℕ)) := rfl
  rw [bitAt, natToWord_bit hk, Option.bind_some, wbitset, wbit_bit hk]
  simp only [bind, Option.bind_some]
  rw [hand, Option.bind_some, natToWord, if_pos rfl, Option.bind_some, weq_zero_integer,
    Option.bind_some, Nat.and_two_pow]
  cases v.testBit k <;> simp [pure]

theorem byte2ascii_integer (v : ℕ) :
    byte2ascii (.W v) = some ⟨v % 256, (Nat.mod_lt v (by decide)).trans (by decide)⟩ := by
  have hbits : (![v.testBit 0, v.testBit 1, v.testBit 2, v.testBit 3, v.testBit 4, v.testBit 5,
      v.testBit 6, v.testBit 7] : Fin 8 → Bool) = fun i : Fin 8 => v.testBit i := by
    funext i
    fin_cases i <;> rfl
  rw [byte2ascii]
  simp only [bitAt_integer, Nat.reduceLT, bind, Option.bind_some, pure, hbits, Option.some_inj]
  exact Fin.ext (Nat.ofBits_testBit v 8)

theorem split1_eight (sz v : ℕ) : split1 8 sz (.W v) = some (.W (v % 256 : ℕ)) := by
  have h : split1 8 sz (.W v) = split1Integer 8 v := rfl
  rw [h, split1Integer_eq, toInt_eight, Int.toNat_natCast]
  split_ifs with h₁ h₂
  · rfl
  · omega
  · rfl

theorem split2_eight (sz v : ℕ) : split2 8 sz (.W v) = some (.W (v / 256 : ℕ)) := by
  have h : split2 8 sz (.W v) = (shiftR v (toInt (8 : ℕ))).map .W := rfl
  rw [h, toInt_eight, shiftR, if_neg (by omega), Option.map_some, Int.toNat_natCast]
  norm_num

theorem name2padstring_succ (nbytes v : ℕ) :
    name2padstring (nbytes + 1) (.W v) = (name2padstring nbytes (.W (v / 256 : ℕ))).map
      (⟨v % 256, (Nat.mod_lt v (by decide)).trans (by decide)⟩ :: ·) := by
  rw [name2padstring, split1_eight, split2_eight]
  simp only [bind, Option.bind_some, byte2ascii_integer, pure]
  rw [Option.map_eq_bind]
  congr 1
  funext s
  simp

/-- Every character of a decoded name is a byte. -/
theorem lt_of_mem_name2padstring {nbytes v : ℕ} {s : HsString}
    (h : name2padstring nbytes (.W v) = some s) : ∀ c ∈ s, (c : ℕ) < 256 := by
  induction nbytes generalizing v s with
  | zero =>
    cases h
    simp
  | succ nbytes ih =>
    rw [name2padstring_succ] at h
    obtain ⟨t, ht, rfl⟩ := Option.map_eq_some_iff.mp h
    rw [List.forall_mem_cons]
    exact ⟨Nat.mod_lt v (by decide), ih ht⟩

theorem mem_of_mem_stringUnpad {s : HsString} {c : HsChar} (h : c ∈ stringUnpad s) : c ∈ s := by
  induction s with
  | nil => exact h
  | cons a s ih =>
    rw [stringUnpad] at h
    split_ifs at h with ha
    · cases h
    · rcases List.mem_cons.mp h with rfl | h
      · exact List.mem_cons_self
      · exact List.mem_cons_of_mem _ (ih h)

theorem lt_of_mem_name2string {nbytes v : ℕ} {s : HsString}
    (h : name2string nbytes (.W v) = some s) : ∀ c ∈ s, (c : ℕ) < 256 := by
  obtain ⟨t, ht, rfl⟩ := Option.map_eq_some_iff.mp h
  exact fun c hc => lt_of_mem_name2padstring ht c (mem_of_mem_stringUnpad hc)

/-! ## Names of bytes -/

theorem name2padstring_nameValue {nbytes : ℕ} {s : HsString} (hl : s.length ≤ nbytes)
    (hs : ∀ c ∈ s, (c : ℕ) < 256) :
    name2padstring nbytes (.W (nameValue s)) = some (stringPad nbytes s) := by
  induction nbytes generalizing s with
  | zero =>
    obtain rfl := List.length_eq_zero_iff.mp (Nat.le_zero.mp hl)
    rfl
  | succ nbytes ih =>
    rw [name2padstring_succ]
    cases s with
    | nil =>
      have := ih (Nat.zero_le _) (s := []) (by simp)
      rw [stringPad, ← Option.map_some, ← this]
      rfl
    | cons c s =>
      rw [List.forall_mem_cons] at hs
      have hdiv : nameValue (c :: s) / 256 = nameValue s := by
        rw [nameValue_cons]
        omega
      have hmod : nameValue (c :: s) % 256 = c := by
        rw [nameValue_cons]
        omega
      rw [hdiv, ih (Nat.le_of_succ_le_succ hl) hs.2, Option.map_some, stringPad]
      congr 2
      exact Fin.ext hmod

theorem stringUnpad_stringPad {nbytes : ℕ} {s : HsString} (hl : s.length ≤ nbytes)
    (hs : ∀ c ∈ s, c ≠ 0) : stringUnpad (stringPad nbytes s) = s := by
  induction nbytes generalizing s with
  | zero =>
    obtain rfl := List.length_eq_zero_iff.mp (Nat.le_zero.mp hl)
    rfl
  | succ nbytes ih =>
    cases s with
    | nil => rfl
    | cons c s =>
      rw [List.forall_mem_cons] at hs
      rw [stringPad, stringUnpad, if_neg hs.1, ih (Nat.le_of_succ_le_succ hl) hs.2]

theorem nameValue_lt {nbytes : ℕ} {s : HsString} (hl : s.length ≤ nbytes)
    (hs : ∀ c ∈ s, (c : ℕ) < 256) : nameValue s < 2 ^ (nbytes * 8) := by
  have hlt : ∀ d ∈ s.map Fin.val, d < 256 := by
    intro d hd
    obtain ⟨c, hc, rfl⟩ := List.mem_map.mp hd
    exact hs c hc
  have h := Nat.ofDigits_lt_base_pow_length (b := 256) (by decide) hlt
  rw [List.length_map, pow_two_fifty_six] at h
  exact h.trans_le (Nat.pow_le_pow_right (by decide) (by omega))

/-! ## What the names of the file system need -/

namespace SDIR

/-- What the proofs about `DirName.v` show of two valid names: different names have different
encodings, an encoding has `namelen` bytes, and it is decoded to the name. -/
structure Encoded (s t : HsString) : Prop where
  injective : string2name namelen s = string2name namelen t → s = t
  fits : ∀ u ∈ [s, t], ∃ w, string2name namelen u = some w ∧ WellFormed (namelen * 8) w
  decoded : ∀ u ∈ [s, t], (string2name namelen u).bind (name2string namelen) = some u

theorem length_le_of_valid {s : HsString} (h : isValidSname s = true) : s.length ≤ namelen := by
  rw [isValidSname, Bool.and_eq_true] at h
  simpa using h.2

theorem ne_zero_of_valid {s : HsString} (h : isValidSname s = true) : ∀ c ∈ s, c ≠ 0 := by
  rw [isValidSname, Bool.and_eq_true] at h
  exact isNozero_iff.mp h.1

theorem string2name_of_valid {s : HsString} (h : isValidSname s = true) :
    string2name namelen s = some (.W (nameValue s)) :=
  padstring2name_stringPad (length_le_of_valid h)

theorem name2string_of_bytes {s : HsString} (h : isValidSname s = true)
    (hs : ∀ c ∈ s, (c : ℕ) < 256) : name2string namelen (.W (nameValue s)) = some s := by
  rw [name2string, name2padstring_nameValue (length_le_of_valid h) hs, Option.map_some,
    stringUnpad_stringPad (length_le_of_valid h) (ne_zero_of_valid h)]

/-- The valid names with what the proofs show of them are those whose characters are bytes. -/
theorem encoded_iff {s t : HsString} (hs : isValidSname s = true) (ht : isValidSname t = true) :
    Encoded s t ↔ (∀ c ∈ s, (c : ℕ) < 256) ∧ ∀ c ∈ t, (c : ℕ) < 256 := by
  constructor
  · intro h
    have hdec := h.decoded
    simp only [List.forall_mem_cons, string2name_of_valid, hs, ht, Option.bind_some] at hdec
    exact ⟨lt_of_mem_name2string hdec.1, lt_of_mem_name2string hdec.2.1⟩
  · rintro ⟨hbs, hbt⟩
    have hval : ∀ u ∈ [s, t], isValidSname u = true ∧ ∀ c ∈ u, (c : ℕ) < 256 := by
      simp only [List.forall_mem_cons, hs, ht, true_and]
      exact ⟨hbs, hbt, by simp⟩
    have hdec : ∀ u ∈ [s, t], (string2name namelen u).bind (name2string namelen) = some u := by
      intro u hu
      obtain ⟨hv, hb⟩ := hval u hu
      rw [string2name_of_valid hv, Option.bind_some, name2string_of_bytes hv hb]
    refine ⟨?_, ?_, hdec⟩
    · intro heq
      have h := congrArg (Option.bind · (name2string namelen)) heq
      simp only [hdec, List.mem_cons, true_or, or_true, Option.some_inj] at h
      exact h
    · intro u hu
      obtain ⟨hv, hb⟩ := hval u hu
      refine ⟨_, string2name_of_valid hv, Int.natCast_nonneg _, ?_⟩
      exact_mod_cast nameValue_lt (length_le_of_valid hv) hb

theorem encoded_ascii : Encoded [97] [98] :=
  (encoded_iff (by decide) (by decide)).2 ⟨by simp, by simp⟩

/-- A character above a byte carries into its neighbour: two names with one encoding. -/
theorem not_encoded_carry : isValidSname [257] = true ∧ isValidSname [1, 1] = true ∧
    string2name namelen [257] = string2name namelen [1, 1] ∧ ¬ Encoded [257] [1, 1] := by
  have h₁ : isValidSname [257] = true := by decide
  have h₂ : isValidSname [1, 1] = true := by decide
  have heq : string2name namelen [257] = string2name namelen [1, 1] := by
    rw [string2name_of_valid h₁, string2name_of_valid h₂]
    rfl
  exact ⟨h₁, h₂, heq, fun h => absurd (h.injective heq) (by decide)⟩

end SDIR

end Fscq.Hslib
