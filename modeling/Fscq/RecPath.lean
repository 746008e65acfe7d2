import Fscq.Rec

/-!
# Fields of packed records

A path goes from a layout to a part of it, through elements of arrays and fields of records.  The
part has its place in a packed value, which is the sum of the lengths before it: reading and
replacing the bits there (`Path.ofWord_read`, `Path.ofWord_write`) is reading and replacing the part of
the unpacked value.
-/

namespace Fscq

namespace Rec

/-! ### Replacing bits -/

variable {N n k : ℕ}

/-- The word with the bits of `x` in place of its own from bit `off` on. -/
def splice (off : ℕ) (w : BitVec N) (x : BitVec n) : BitVec N :=
  (w &&& ~~~((BitVec.allOnes n).setWidth N <<< off)) ||| (x.setWidth N <<< off)

theorem getLsbD_splice (off : ℕ) (w : BitVec N) (x : BitVec n) (h : off + n ≤ N) (i : ℕ) :
    (splice off w x).getLsbD i =
      if off ≤ i ∧ i < off + n then x.getLsbD (i - off) else w.getLsbD i := by
  rw [splice, BitVec.getLsbD_or, BitVec.getLsbD_and, BitVec.getLsbD_not, BitVec.getLsbD_shiftLeft,
    BitVec.getLsbD_shiftLeft, BitVec.getLsbD_setWidth, BitVec.getLsbD_setWidth,
    BitVec.getLsbD_allOnes]
  split_ifs with hi
  · have h₁ : ¬ i < off := by omega
    have h₂ : i < N := by omega
    have h₃ : i - off < n := by omega
    have h₄ : i - off < N := by omega
    simp [h₁, h₂, h₃, h₄]
  · rcases Nat.lt_or_ge i off with h₁ | h₁
    · have h₂ : i < N := by omega
      simp [h₁, h₂]
    · have hx : x.getLsbD (i - off) = false := BitVec.getLsbD_of_ge _ _ (by omega)
      have h₂ : ¬ i - off < n := by omega
      rcases Nat.lt_or_ge i N with h₃ | h₃
      · simp [hx, h₂, h₃]
      · have hw : w.getLsbD i = false := BitVec.getLsbD_of_ge _ _ h₃
        simp [hx, hw]

/-- What is read from the place that has been replaced. -/
theorem extractLsb'_splice (off : ℕ) (w : BitVec N) (x : BitVec n) (h : off + n ≤ N) :
    (splice off w x).extractLsb' off n = x := by
  ext i hi
  rw [BitVec.getElem_extractLsb', getLsbD_splice off w x h, if_pos (by omega),
    Nat.add_sub_cancel_left, BitVec.getLsbD_eq_getElem hi]

/-- What is read beside that place. -/
theorem extractLsb'_splice_of_disjoint {off start len : ℕ} (w : BitVec N) (x : BitVec n)
    (h : off + n ≤ N) (hd : start + len ≤ off ∨ off + n ≤ start) :
    (splice off w x).extractLsb' start len = w.extractLsb' start len := by
  ext i hi
  rw [BitVec.getElem_extractLsb', BitVec.getElem_extractLsb', getLsbD_splice off w x h,
    if_neg (by omega)]

/-- Bits of a part. -/
theorem extractLsb'_extractLsb' {a b : ℕ} (w : BitVec N) (h : b + k ≤ n) :
    (w.extractLsb' a n).extractLsb' b k = w.extractLsb' (a + b) k := by
  ext i hi
  rw [BitVec.getElem_extractLsb', BitVec.getLsbD_extractLsb', BitVec.getElem_extractLsb',
    decide_eq_true (by omega : b + i < n), Bool.true_and, Nat.add_assoc]

/-- A part of which bits are replaced. -/
theorem splice_splice {a b : ℕ} (w : BitVec N) (x : BitVec k) (ha : a + n ≤ N) (hb : b + k ≤ n) :
    splice a w (splice b (w.extractLsb' a n) x) = splice (a + b) w x := by
  apply BitVec.eq_of_getLsbD_eq
  intro i _
  rw [getLsbD_splice a w _ ha, getLsbD_splice b _ x hb, getLsbD_splice (a + b) w x (by omega),
    BitVec.getLsbD_extractLsb']
  by_cases hin : a ≤ i ∧ i < a + n
  · have hlt : i - a < n := by omega
    have hi : a + (i - a) = i := by omega
    have hsub : i - a - b = i - (a + b) := by omega
    rw [if_pos hin, decide_eq_true hlt, Bool.true_and, hi, hsub]
    congr 1
    apply propext
    omega
  · rw [if_neg hin, if_neg (by omega)]

/-! ### Fields of a record -/

/-- A record has a field: the first one of its name. -/
inductive FieldIn : List (String × Ty) → String → Ty → Type
  | FE (s : String) (t : Ty) (fs : List (String × Ty)) : FieldIn ((s, t) :: fs) s t
  | FS (s' : String) (t' : Ty) {s : String} {t : Ty} {fs : List (String × Ty)} (h : s' ≠ s)
      (f : FieldIn fs s t) : FieldIn ((s', t') :: fs) s t

variable {fs : List (String × Ty)} {s : String} {t u : Ty}

def recget : {fs : List (String × Ty)} → FieldIn fs s t → dataFields fs → t.data
  | _, .FE _ _ _, (v, _) => v
  | _, .FS _ _ _ f, (_, r) => recget f r

def recset : {fs : List (String × Ty)} → FieldIn fs s t → dataFields fs → t.data → dataFields fs
  | _, .FE _ _ _, (_, r), v => (v, r)
  | _, .FS _ _ _ f, (v₀, r), v => (v₀, recset f r v)

/-- The bits before a field. -/
def FieldIn.offset : {fs : List (String × Ty)} → FieldIn fs s t → ℕ
  | _, .FE _ _ _ => 0
  | _, .FS _ t' _ f => t'.len + f.offset

theorem FieldIn.offset_add_len_le : ∀ {fs : List (String × Ty)} (f : FieldIn fs s t),
    f.offset + t.len ≤ lenFields fs
  | _, .FE _ _ fs => by
    rw [offset, lenFields]
    omega
  | _, .FS _ t' _ f => by
    have ih := f.offset_add_len_le
    rw [offset, lenFields]
    omega

theorem recget_ofWordFields : ∀ {fs : List (String × Ty)} (f : FieldIn fs s t)
    (w : BitVec (lenFields fs)),
    recget f (ofWordFields fs w) = ofWord t (w.extractLsb' f.offset t.len)
  | _, .FE _ _ _, _ => rfl
  | _, .FS _ t' _ f, w => by
    have ih := recget_ofWordFields f (w.extractLsb' t'.len _)
    rw [extractLsb'_extractLsb' w f.offset_add_len_le] at ih
    exact ih

theorem recset_ofWordFields : ∀ {fs : List (String × Ty)} (f : FieldIn fs s t)
    (w : BitVec (lenFields fs)) (x : BitVec t.len),
    recset f (ofWordFields fs w) (ofWord t x) = ofWordFields fs (splice f.offset w x)
  | _, .FE _ _ fs, w, x => by
    have hle : 0 + t.len ≤ t.len + lenFields fs := by omega
    have h₁ : (splice 0 w x).extractLsb' 0 t.len = x := extractLsb'_splice 0 w x hle
    have h₂ : (splice 0 w x).extractLsb' t.len (lenFields fs) = w.extractLsb' t.len _ :=
      extractLsb'_splice_of_disjoint w x hle (.inr (by omega))
    exact Prod.ext (congrArg (ofWord t) h₁.symm) (congrArg (ofWordFields fs) h₂.symm)
  | _, @FieldIn.FS s' t' _ _ fs _ f, w, x => by
    have hle : t'.len + f.offset + t.len ≤ t'.len + lenFields fs := by
      have := f.offset_add_len_le
      omega
    have ih := recset_ofWordFields f (w.extractLsb' t'.len _) x
    have h₁ : (splice (t'.len + f.offset) w x).extractLsb' 0 t'.len = w.extractLsb' 0 _ :=
      extractLsb'_splice_of_disjoint w x hle (.inl (by omega))
    have h₂ : (splice (t'.len + f.offset) w x).extractLsb' t'.len (lenFields fs) =
        splice f.offset (w.extractLsb' t'.len _) x := by
      have hN : t'.len + lenFields fs ≤ lenFields ((s', t') :: fs) := le_rfl
      rw [← splice_splice w x hN f.offset_add_len_le]
      exact extractLsb'_splice _ w _ hN
    refine Prod.ext (congrArg (ofWord t') h₁.symm) (ih.trans ?_)
    exact congrArg (ofWordFields fs) h₂.symm

/-! ### Paths -/

/-- The way from a layout to a part of it. -/
inductive Path : Ty → Ty → Type
  | here (t : Ty) : Path t t
  | elem {t u : Ty} {n : ℕ} (i : ℕ) (hi : i < n) (p : Path t u) : Path (.arrayF t n) u
  | field {t u : Ty} {fs : List (String × Ty)} {s : String} (f : FieldIn fs s t) (p : Path t u) :
      Path (.recF fs) u

namespace Path

/-- The bits before the part. -/
def offset : {t : Ty} → Path t u → ℕ
  | _, .here _ => 0
  | _, .elem (t := t) i _ p => i * t.len + p.offset
  | _, .field f p => f.offset + p.offset

/-- The part of a value. -/
def get : {t : Ty} → Path t u → t.data → u.data
  | _, .here _, v => v
  | _, .elem (t := t) i _ p, (l : List t.data) => p.get (l.getD i (ofWord t 0))
  | _, .field f p, r => p.get (recget f r)

/-- The value with another part. -/
def set : {t : Ty} → Path t u → t.data → u.data → t.data
  | _, .here _, _, x => x
  | _, .elem (t := t) i _ p, (l : List t.data), x => l.set i (p.set (l.getD i (ofWord t 0)) x)
  | _, .field f p, r, x => recset f r (p.set (recget f r) x)

/-- The part of a packed value. -/
def read {t : Ty} (p : Path t u) (w : BitVec t.len) : BitVec u.len := w.extractLsb' p.offset u.len

/-- The packed value with another part. -/
def write {t : Ty} (p : Path t u) (w : BitVec t.len) (x : BitVec u.len) : BitVec t.len :=
  splice p.offset w x

theorem elem_le {i n : ℕ} (hi : i < n) (k : ℕ) : i * k + k ≤ n * k := by
  calc i * k + k = (i + 1) * k := by ring
    _ ≤ n * k := Nat.mul_le_mul_right k hi

theorem offset_add_len_le : ∀ {t : Ty} (p : Path t u), p.offset + u.len ≤ t.len
  | _, .here _ => by
    rw [offset]
    omega
  | _, .elem (t := t) (n := n) i hi p => by
    have hp := p.offset_add_len_le
    have hle := elem_le hi t.len
    rw [offset, Ty.len]
    omega
  | _, .field f p => by
    have hp := p.offset_add_len_le
    have hf := f.offset_add_len_le
    rw [offset, Ty.len]
    omega

theorem wordSelNShift_eq {i : ℕ} (w : BitVec (n * k)) :
    wordSelNShift n k i w = w.extractLsb' (i * k) k := by
  ext j hj
  rw [← BitVec.getLsbD_eq_getElem, getLsbD_wordSelNShift n i j w hj, BitVec.getElem_extractLsb']

theorem wordUpdNShift_eq {i : ℕ} (w : BitVec (n * k)) (v : BitVec k) :
    wordUpdNShift n k i w v = splice (i * k) w v := by
  rw [wordUpdNShift, Nat.mul_comm k i]
  rfl

/-- The element of a packed array. -/
theorem getD_ofWord {i n : ℕ} (hi : i < n) (w : BitVec (n * t.len)) :
    (arrayOfWord (ofWord t) n w).getD i (ofWord t 0) =
      ofWord t (w.extractLsb' (i * t.len) t.len) := by
  rw [List.getD_eq_getElem?_getD, getElem?_arrayOfWord (ofWord t) n i w hi, wordSelNShift_eq]
  rfl

theorem set_ofWord {i n : ℕ} (hi : i < n) (w : BitVec (n * t.len)) (v : BitVec t.len) :
    (arrayOfWord (ofWord t) n w).set i (ofWord t v) =
      arrayOfWord (ofWord t) n (splice (i * t.len) w v) := by
  rw [← arrayOfWord_wordUpdNShift (ofWord t) n i w v hi, wordUpdNShift_eq]

theorem ofWord_read : ∀ {t : Ty} (p : Path t u) (w : BitVec t.len),
    ofWord u (p.read w) = p.get (ofWord t w)
  | _, .here _, w => by
    have hw : w.extractLsb' 0 u.len = w := by
      ext i hi
      rw [BitVec.getElem_extractLsb', Nat.zero_add, BitVec.getLsbD_eq_getElem hi]
    exact congrArg (ofWord u) hw
  | _, .elem (t := t) (n := n) i hi p, w => by
    have ih := p.ofWord_read (w.extractLsb' (i * t.len) t.len)
    rw [read, extractLsb'_extractLsb' w p.offset_add_len_le] at ih
    exact ih.trans (congrArg p.get (getD_ofWord hi w).symm)
  | _, .field (t := t) f p, w => by
    have ih := p.ofWord_read (w.extractLsb' f.offset t.len)
    rw [read, extractLsb'_extractLsb' w p.offset_add_len_le] at ih
    exact ih.trans (congrArg p.get (recget_ofWordFields f w).symm)

theorem ofWord_write : ∀ {t : Ty} (p : Path t u) (w : BitVec t.len) (x : BitVec u.len),
    ofWord t (p.write w x) = p.set (ofWord t w) (ofWord u x)
  | _, .here _, w, x => by
    have hx : splice 0 w x = x := by
      apply BitVec.eq_of_getLsbD_eq
      intro i hi
      rw [getLsbD_splice 0 w x (Nat.zero_add _).le, if_pos (by omega), Nat.sub_zero]
    exact congrArg (ofWord u) hx
  | _, .elem (t := t) (n := n) i hi p, w, x => by
    have ih := p.ofWord_write (w.extractLsb' (i * t.len) t.len) x
    have hget := congrArg (fun v => p.set v (ofWord u x)) (getD_ofWord hi w).symm
    have hset := set_ofWord hi w (p.write (w.extractLsb' (i * t.len) t.len) x)
    have hupd : splice (i * t.len) w (p.write (w.extractLsb' (i * t.len) t.len) x) =
        splice (i * t.len + p.offset) w x :=
      splice_splice w x (elem_le hi t.len) p.offset_add_len_le
    refine (congrArg (arrayOfWord (ofWord t) n) hupd).symm.trans (hset.symm.trans ?_)
    exact congrArg ((arrayOfWord (ofWord t) n w).set i) (ih.trans hget)
  | _, @field t _ fs _ f p, w, x => by
    have ih := p.ofWord_write (w.extractLsb' f.offset t.len) x
    have hget := congrArg (fun v => p.set v (ofWord u x)) (recget_ofWordFields f w).symm
    have hset := recset_ofWordFields f w (p.write (w.extractLsb' f.offset t.len) x)
    have hupd : splice f.offset w (p.write (w.extractLsb' f.offset t.len) x) =
        splice (f.offset + p.offset) w x :=
      splice_splice w x f.offset_add_len_le p.offset_add_len_le
    refine (congrArg (ofWordFields fs) hupd).symm.trans (hset.symm.trans ?_)
    exact congrArg (recset f (ofWordFields fs w)) (ih.trans hget)

end Path

/-- Packing and unpacking are inverse to each other, also for a part that is read or replaced in
the packed value. -/
theorem codec_exact (t : Ty) :
    (∀ v, WellFormed t v → ofWord t (toWord t v) = v) ∧
    (∀ w, WellFormed t (ofWord t w) ∧ toWord t (ofWord t w) = w) ∧
    ∀ u (p : Path t u),
      (∀ w, ofWord u (p.read w) = p.get (ofWord t w)) ∧
      (∀ w x, ofWord t (p.write w x) = p.set (ofWord t w) (ofWord u x)) ∧
      (∀ v, WellFormed t v → p.read (toWord t v) = toWord u (p.get v)) ∧
      ∀ v x, WellFormed t v → WellFormed u x →
        p.write (toWord t v) (toWord u x) = toWord t (p.set v x) := by
  refine ⟨ofWord_toWord t, fun w => ⟨wellFormed_ofWord t w, toWord_ofWord t w⟩, fun u p =>
    ⟨p.ofWord_read, p.ofWord_write, fun v hv => ?_, fun v x hv hx => ?_⟩⟩
  · rw [← toWord_ofWord u (p.read _), p.ofWord_read, ofWord_toWord t v hv]
  · rw [← toWord_ofWord t (p.write _ _), p.ofWord_write, ofWord_toWord t v hv, ofWord_toWord u x hx]

end Rec

namespace Sample

open Rec

/-- A record with a number and an array of bytes. -/
def pairTy : Ty := .recF [("len", .wordF 4), ("bytes", .arrayF (.wordF 8) 3)]

/-- The way to the second byte. -/
def secondByte : Path pairTy (.wordF 8) :=
  .field (.FS "len" _ (by decide) (.FE "bytes" _ [])) (.elem 1 (by decide) (.here _))

def pair (b : BitVec 8) : pairTy.data := (3#4, [7#8, b, 9#8], ())

theorem wellFormed_pair (b : BitVec 8) : WellFormed pairTy (pair b) :=
  ⟨trivial, ⟨rfl, fun _ _ => trivial⟩, trivial⟩

theorem codec_exact_pair : secondByte.offset = 12 ∧
    ofWord pairTy (toWord pairTy (pair 8)) = pair 8 ∧
    secondByte.read (toWord pairTy (pair 8)) = 8#8 ∧
    secondByte.write (toWord pairTy (pair 8)) 5#8 = toWord pairTy (pair 5) := by
  obtain ⟨hof, -, hpath⟩ := codec_exact pairTy
  obtain ⟨-, -, hread, hwrite⟩ := hpath _ secondByte
  refine ⟨rfl, hof _ (wellFormed_pair 8), hread _ (wellFormed_pair 8), ?_⟩
  exact hwrite (pair 8) 5#8 (wellFormed_pair 8) trivial

end Sample

end Fscq
