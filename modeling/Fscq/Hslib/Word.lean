import Mathlib.Data.Int.Bitwise
import Mathlib.Data.Nat.Digits.Lemmas
import Fscq.Word

/-!
# The Haskell words

Extraction replaces the words of `Word.v` by the type `CoqWord`, whose values are integers, machine
words or byte strings.  A width or a shift is a Coq `nat`, which is extracted to `Integer`; where the
code turns it into an `Int`, `toInt` reduces it.

A call that throws (an incomplete pattern, a negative index or shift, a division by zero) or that
would leave a buffer gives `none`.
-/

namespace Fscq.Hslib

/-- `fromIntegral :: Integer -> Int`: the low 64 bits, read as a signed number. -/
def toInt (i : ℤ) : ℤ := i.bmod (2 ^ 64)

abbrev ByteString := List UInt8

inductive CoqWord where
  | W (i : ℤ)
  | W64 (w : BitVec 64)
  | WBS (bs : ByteString)
  deriving DecidableEq

/-! ## Byte strings -/

/-- The number with the given little-endian bytes. -/
def bs2i (bs : ByteString) : ℤ := (Nat.ofDigits 256 (bs.map UInt8.toNat) : ℕ)

/-- The bytes of an integer, without its sign; zero has none. -/
def exportInteger (i : ℤ) : ByteString := (Nat.digits 256 i.natAbs).map UInt8.ofNat

/-- A buffer of `nbytes` zeros with the bytes of `i` exported to its start. -/
def i2bs (i nbytes : ℤ) : Option ByteString :=
  if nbytes < (exportInteger i).length then none
  else some (exportInteger i ++ List.replicate (nbytes.toNat - (exportInteger i).length) 0)

/-- The integer a word stands for; for a byte string the one that `unbs` imports. -/
def CoqWord.toInteger : CoqWord → ℤ
  | W i => i
  | W64 w => w.toNat
  | WBS bs => bs2i bs

def w2bs : CoqWord → ℤ → Option ByteString
  | .W64 w, nbytes => i2bs w.toNat nbytes
  | .W w, nbytes => i2bs w nbytes
  | .WBS bs, _ => some bs

def unbs : CoqWord → CoqWord
  | .W w => .W w
  | .W64 w => .W64 w
  | .WBS bs => .W (bs2i bs)

/-! ## Arithmetic and comparison -/

/-- `bitmask !! i`. -/
def bitmask (i : ℤ) : Option ℤ := if i < 0 then none else some (2 ^ i.toNat - 1)

def wrap (nbits : ℕ) (v : ℤ) : Option CoqWord :=
  if nbits = 64 then some (.W64 (BitVec.ofInt 64 v))
  else (bitmask (toInt nbits)).map fun mask => .W (Int.land v mask)

/-- The four cases of a function on integers and machine words: an integer that meets a machine word
is truncated to one. -/
def binary {α : Type} (f : ℤ → ℤ → Option α) (g : BitVec 64 → BitVec 64 → Option α) :
    CoqWord → CoqWord → Option α
  | .W x, .W y => f x y
  | .W x, .W64 y => g (BitVec.ofInt 64 x) y
  | .W64 x, .W y => g x (BitVec.ofInt 64 y)
  | .W64 x, .W64 y => g x y
  | _, _ => none

def weq (_sz : ℕ) : CoqWord → CoqWord → Option Bool
  | .WBS x, .WBS y => some (x == y)
  | x, y => binary (fun x y => some (x == y)) (fun x y => some (x == y)) (unbs x) (unbs y)

def wltDec (_sz : ℕ) : CoqWord → CoqWord → Option Bool :=
  binary (fun x y => some (decide (x < y))) (fun x y => some (decide (x < y)))

def wplus (n : ℕ) : CoqWord → CoqWord → Option CoqWord :=
  binary (fun x y => wrap n (x + y)) (fun x y => some (.W64 (x + y)))

def wminus (n : ℕ) : CoqWord → CoqWord → Option CoqWord :=
  binary (fun x y => wrap n (2 ^ n + x - y)) (fun x y => some (.W64 (x - y)))

def wmult (n : ℕ) : CoqWord → CoqWord → Option CoqWord :=
  binary (fun x y => wrap n (x * y)) (fun x y => some (.W64 (x * y)))

def wdiv (_sz : ℕ) : CoqWord → CoqWord → Option CoqWord :=
  binary (fun x y => if y = 0 then none else some (.W (x.tdiv y)))
    (fun x y => if y = 0 then none else some (.W64 (x / y)))

def wmod (_sz : ℕ) : CoqWord → CoqWord → Option CoqWord :=
  binary (fun x y => if y = 0 then none else some (.W (x.tmod y)))
    (fun x y => if y = 0 then none else some (.W64 (x % y)))

def wbit (sz _sz' : ℕ) : CoqWord → Option CoqWord
  | .W n => if n < 0 then none else wrap sz (2 ^ n.toNat)
  | .W64 n => wrap sz (2 ^ n.toNat)
  | .WBS _ => none

-- The last equation of the source removes byte strings; `unbs` keeps every other word.
def wand (_sz : ℕ) (x y : CoqWord) : Option CoqWord :=
  binary (fun x y => some (.W (Int.land x y))) (fun x y => some (.W64 (x &&& y))) (unbs x) (unbs y)

def wor (_sz : ℕ) : CoqWord → CoqWord → Option CoqWord :=
  binary (fun x y => some (.W (Int.lor x y))) (fun x y => some (.W64 (x ||| y)))

def natToWord (n x : ℕ) : Option CoqWord := if x = 0 then some (.W 0) else wrap n x

def wordToNat (_sz : ℕ) : CoqWord → Option ℤ
  | .W x => some x
  | .W64 x => some x.toNat
  | .WBS _ => none

def zext (_sz : ℕ) (w : CoqWord) (_sz' : ℕ) : CoqWord :=
  match w with
  | .W w => .W w
  | .W64 w => .W w.toNat
  | .WBS b => .W (bs2i b)

/-! ## Slicing -/

/-- The byte array of a `Jp#`: the bytes of the integer, filled up to whole 64-bit limbs. -/
def byteArray (w : ℤ) : ByteString :=
  exportInteger w ++ List.replicate ((8 - (exportInteger w).length % 8) % 8) 0

/-- `importIntegerFromByteArray ba 0## n 0#`. -/
def importIntegerFromByteArray (ba : ByteString) (n : ℤ) : Option ℤ :=
  if n < 0 ∨ ba.length < n then none else some (bs2i (ba.take n.toNat))

/-- `split1` of an integer.  `S#` holds the integers that fit an `Int`, `Jp#` the larger ones. -/
def split1Integer (sz1 : ℕ) (w : ℤ) : Option CoqWord :=
  if w = 0 then some (.W 0)
  else if 2 ^ 63 ≤ w then
    if 8 * ((byteArray w).length : ℤ) ≤ toInt sz1 then some (.W w)
    else if sz1 % 8 = 0 then
      (importIntegerFromByteArray (byteArray w) ((toInt sz1).tdiv 8)).map .W
    else wrap sz1 w
  else if -2 ^ 63 ≤ w ∧ 64 ≤ sz1 then some (.W w)
  else wrap sz1 w

def split1 (sz1 sz2 : ℕ) : CoqWord → Option CoqWord
  | .W w => split1Integer sz1 w
  | .W64 w => split1Integer sz1 w.toNat
  -- The source recurses as `split1 sz2 sz2 (unbs w)`.
  | .WBS bs => split1Integer sz2 (bs2i bs)

def shiftL (w i : ℤ) : Option ℤ := if i < 0 then none else some (w * 2 ^ i.toNat)

def shiftR (w i : ℤ) : Option ℤ := if i < 0 then none else some (w / 2 ^ i.toNat)

def split2 (sz1 _sz2 : ℕ) : CoqWord → Option CoqWord
  | .W w => (shiftR w (toInt sz1)).map .W
  | .W64 w => (shiftR w.toNat (toInt sz1)).map .W
  | .WBS bs => (shiftR (bs2i bs) (toInt sz1)).map .W

def combineInteger (sz1 : ℕ) (w1 w2 : ℤ) : Option CoqWord :=
  (shiftL w2 (toInt sz1)).map fun w2 => .W (w1 + w2)

def combine (sz1 : ℕ) (w1 : CoqWord) (sz2 : ℕ) (w2 : CoqWord) : Option CoqWord :=
  match w1, w2 with
  | .WBS b1, .WBS b2 => some (.WBS (b1 ++ b2))
  | w1, .WBS b2 =>
    if sz1 % 8 = 0 then (w2bs w1 ((toInt sz1).tdiv 8)).map fun b1 => .WBS (b1 ++ b2)
    else combineInteger sz1 w1.toInteger (bs2i b2)
  | .WBS b1, w2 =>
    if sz2 % 8 = 0 then (w2bs w2 ((toInt sz2).tdiv 8)).map fun b2 => .WBS (b1 ++ b2)
    else combineInteger sz1 (bs2i b1) w2.toInteger
  -- What is left are integers and machine words, which the source converts to integers.
  | w1, w2 => combineInteger sz1 w1.toInteger w2.toInteger

/-! ## Shifts and complement -/

/-- `maxBound :: Int`. -/
def maxShift : ℕ := 2 ^ 63 - 1

theorem maxShift_pos : 0 < maxShift := by decide

def wlshift (sz : ℕ) (w1 : CoqWord) (s : ℕ) : Option CoqWord :=
  if maxShift < s then
    (wlshift sz w1 maxShift).bind fun w => wlshift sz w (s - maxShift)
  else
    match w1 with
    | .W w1 => (shiftL w1 (toInt s)).map .W
    | .W64 w1 => some (.W64 (w1 <<< (toInt s).toNat))
    | .WBS bs =>
      if s % 8 = 0 then some (.WBS (bs.take (toInt (((sz : ℤ) - s).tdiv 8)).toNat))
      else (shiftL (bs2i bs) (toInt s)).map .W
termination_by s
decreasing_by
  all_goals
    have := maxShift_pos
    omega

def wrshift (sz : ℕ) (w1 : CoqWord) (s : ℕ) : Option CoqWord :=
  if maxShift < s then
    (wrshift sz w1 maxShift).bind fun w => wrshift sz w (s - maxShift)
  else
    match w1 with
    | .W w1 => (shiftR w1 (toInt s)).map .W
    | .W64 w1 => some (.W64 (w1 >>> (toInt s).toNat))
    | .WBS bs =>
      if s % 8 = 0 then some (.WBS (bs.drop (toInt ((s : ℤ).tdiv 8)).toNat))
      else (shiftR (bs2i bs) (toInt s)).map .W
termination_by s
decreasing_by
  all_goals
    have := maxShift_pos
    omega

def wnot (_sz : ℕ) : CoqWord → Option CoqWord
  | .W w => some (.W (Int.lnot w))
  | .W64 w => some (.W64 (~~~w))
  | .WBS _ => none

def wones (n : ℕ) : Option CoqWord := (bitmask (toInt n)).map .W

end Fscq.Hslib
