import Fscq.Word

/-!
# Records packed into words

`Rec.Ty` describes the layout of a record: a word of a given width, an array of a fixed number of
elements, or a list of named fields.  `toWord` packs a value of the type into a word of length
`Ty.len`, the first element in the low bits, and `ofWord` unpacks it.  They are inverse to each
other on well-formed values (arrays of the right length).  `wordSelNShift` and `wordUpdNShift`
access an element of a packed array in place.
-/

namespace Fscq

namespace Rec

/-- Layouts of records. -/
inductive Ty
  | wordF (n : ℕ)
  | arrayF (t : Ty) (n : ℕ)
  | recF (fs : List (String × Ty))

mutual

/-- The number of bits of a packed value. -/
def Ty.len : Ty → ℕ
  | .wordF l => l
  | .arrayF t n => n * t.len
  | .recF fs => lenFields fs

def lenFields : List (String × Ty) → ℕ
  | [] => 0
  | (_, t) :: fs => t.len + lenFields fs

end

mutual

/-- The values of a layout. -/
def Ty.data : Ty → Type
  | .wordF l => BitVec l
  | .arrayF t _ => List t.data
  | .recF fs => dataFields fs

def dataFields : List (String × Ty) → Type
  | [] => Unit
  | (_, t) :: fs => t.data × dataFields fs

end

mutual

/-- All arrays inside the value have the length of their layout. -/
def WellFormed : (t : Ty) → t.data → Prop
  | .wordF _, _ => True
  | .arrayF t n, (v : List t.data) => v.length = n ∧ ∀ x ∈ v, WellFormed t x
  | .recF fs, v => WellFormedFields fs v

def WellFormedFields : (fs : List (String × Ty)) → dataFields fs → Prop
  | [], _ => True
  | (_, t) :: fs, (v, r) => WellFormed t v ∧ WellFormedFields fs r

end

/-- Pack at most `k` elements; missing ones are zero. -/
def arrayToWord {n : ℕ} {α : Type} (f : α → BitVec n) : (k : ℕ) → List α → BitVec (k * n)
  | 0, _ => 0
  | _ + 1, [] => 0
  | k + 1, v :: l => (combine (f v) (arrayToWord f k l)).cast (by ring)

/-- Unpack `k` elements. -/
def arrayOfWord {n : ℕ} {α : Type} (f : BitVec n → α) : (k : ℕ) → BitVec (k * n) → List α
  | 0, _ => []
  | k + 1, w =>
    f (split1 n (k * n) (w.cast (by ring))) ::
      arrayOfWord f k (split2 n (k * n) (w.cast (by ring)))

mutual

def toWord : (t : Ty) → t.data → BitVec t.len
  | .wordF _, v => v
  | .arrayF t n, v => arrayToWord (toWord t) n v
  | .recF fs, v => toWordFields fs v

def toWordFields : (fs : List (String × Ty)) → dataFields fs → BitVec (lenFields fs)
  | [], _ => 0
  | (_, t) :: fs, (v, r) => combine (toWord t v) (toWordFields fs r)

end

mutual

def ofWord : (t : Ty) → BitVec t.len → t.data
  | .wordF _, w => w
  | .arrayF t n, w => arrayOfWord (ofWord t) n w
  | .recF fs, w => ofWordFields fs w

def ofWordFields : (fs : List (String × Ty)) → BitVec (lenFields fs) → dataFields fs
  | [], _ => ()
  | (_, t) :: fs, w => (ofWord t (split1 _ _ w), ofWordFields fs (split2 _ _ w))

end

/-! ## Round trips -/

section Array

variable {n : ℕ} {α : Type} {f : α → BitVec n} {g : BitVec n → α}

theorem length_arrayOfWord (g : BitVec n → α) : ∀ (k : ℕ) (w : BitVec (k * n)),
    (arrayOfWord g k w).length = k
  | 0, _ => rfl
  | k + 1, w => by rw [arrayOfWord, List.length_cons, length_arrayOfWord]

theorem cast_cast_self {a b : ℕ} (h : a = b) (h' : b = a) (w : BitVec a) :
    (w.cast h).cast h' = w := by
  subst h; rfl

theorem arrayToWord_arrayOfWord (h : ∀ w, f (g w) = w) : ∀ (k : ℕ) (w : BitVec (k * n)),
    arrayToWord f k (arrayOfWord g k w) = w
  | 0, w => by
    ext i hi
    omega
  | k + 1, w => by
    rw [arrayOfWord, arrayToWord, h, arrayToWord_arrayOfWord h k, combine_split, cast_cast_self]

theorem arrayOfWord_arrayToWord {k : ℕ} {l : List α} (h : ∀ x ∈ l, g (f x) = x)
    (hl : l.length = k) : arrayOfWord g k (arrayToWord f k l) = l := by
  induction l generalizing k with
  | nil => subst hl; rfl
  | cons x l ih =>
    subst hl
    simp only [List.length_cons, arrayToWord, arrayOfWord, cast_cast_self, split1_combine,
      split2_combine]
    rw [h x List.mem_cons_self, ih (fun y hy => h y (List.mem_cons_of_mem _ hy)) rfl]

theorem arrayOfWord_zero (g : BitVec n → α) : ∀ k : ℕ,
    arrayOfWord g k 0 = List.replicate k (g 0)
  | 0 => rfl
  | k + 1 => by
    have h₁ : split1 n (k * n) (BitVec.cast (by ring) (0 : BitVec ((k + 1) * n))) = 0 := by
      ext i hi
      simp [split1]
    have h₂ : split2 n (k * n) (BitVec.cast (by ring) (0 : BitVec ((k + 1) * n))) = 0 := by
      ext i hi
      simp [split2]
    rw [arrayOfWord, h₁, h₂, arrayOfWord_zero g k, List.replicate_succ]

/-- A short array is unpacked with zero elements behind it. -/
theorem arrayOfWord_arrayToWord_of_le {k : ℕ} {l : List α} (h : ∀ x ∈ l, g (f x) = x)
    (hl : l.length ≤ k) :
    arrayOfWord g k (arrayToWord f k l) = l ++ List.replicate (k - l.length) (g 0) := by
  induction l generalizing k with
  | nil =>
    cases k with
    | zero => rfl
    | succ k => simpa [arrayToWord] using arrayOfWord_zero g (k + 1)
  | cons x l ih =>
    obtain ⟨k, rfl⟩ : ∃ j, k = j + 1 := ⟨k - 1, by simp at hl; omega⟩
    simp only [arrayToWord, arrayOfWord, cast_cast_self, split1_combine, split2_combine]
    rw [h x List.mem_cons_self,
      ih (fun y hy => h y (List.mem_cons_of_mem _ hy)) (by simpa using hl)]
    simp

end Array

mutual

theorem toWord_ofWord : ∀ (t : Ty) (w : BitVec t.len), toWord t (ofWord t w) = w
  | .wordF _, _ => rfl
  | .arrayF t n, w => by
    simp only [toWord, ofWord]
    exact arrayToWord_arrayOfWord (toWord_ofWord t) n w
  | .recF fs, w => by
    simp only [toWord, ofWord]
    exact toWordFields_ofWordFields fs w

theorem toWordFields_ofWordFields : ∀ (fs : List (String × Ty)) (w : BitVec (lenFields fs)),
    toWordFields fs (ofWordFields fs w) = w
  | [], w => by
    ext i hi
    simp [lenFields] at hi
  | (_, t) :: fs, w => by
    simp only [toWordFields, ofWordFields]
    rw [toWord_ofWord t, toWordFields_ofWordFields fs]
    exact combine_split (n := t.len) (m := lenFields fs) w

end

mutual

theorem ofWord_toWord : ∀ (t : Ty) (v : t.data), WellFormed t v → ofWord t (toWord t v) = v
  | .wordF _, _, _ => rfl
  | .arrayF t n, v, h => by
    simp only [WellFormed] at h
    simp only [toWord, ofWord]
    exact arrayOfWord_arrayToWord (fun x hx => ofWord_toWord t x (h.2 x hx)) h.1
  | .recF fs, v, h => by
    simp only [WellFormed] at h
    simp only [toWord, ofWord]
    exact ofWordFields_toWordFields fs v h

theorem ofWordFields_toWordFields : ∀ (fs : List (String × Ty)) (v : dataFields fs),
    WellFormedFields fs v → ofWordFields fs (toWordFields fs v) = v
  | [], _, _ => rfl
  | (_, t) :: fs, (v, r), h => by
    simp only [WellFormedFields] at h
    simp only [toWordFields, ofWordFields, split1_combine, split2_combine]
    rw [ofWord_toWord t v h.1, ofWordFields_toWordFields fs r h.2]

end

mutual

theorem wellFormed_ofWord : ∀ (t : Ty) (w : BitVec t.len), WellFormed t (ofWord t w)
  | .wordF _, _ => by simp only [WellFormed]
  | .arrayF t n, w => by
    simp only [WellFormed, ofWord]
    refine ⟨length_arrayOfWord _ n w, ?_⟩
    exact forall_mem_arrayOfWord t n w
  | .recF fs, w => by
    simp only [WellFormed, ofWord]
    exact wellFormedFields_ofWordFields fs w

theorem forall_mem_arrayOfWord (t : Ty) : ∀ (n : ℕ) (w : BitVec (n * t.len)),
    ∀ x ∈ arrayOfWord (ofWord t) n w, WellFormed t x
  | 0, _, x, hx => by simp [arrayOfWord] at hx
  | n + 1, w, x, hx => by
    rw [arrayOfWord, List.mem_cons] at hx
    rcases hx with rfl | hx
    · exact wellFormed_ofWord t _
    · exact forall_mem_arrayOfWord t n _ x hx

theorem wellFormedFields_ofWordFields : ∀ (fs : List (String × Ty)) (w : BitVec (lenFields fs)),
    WellFormedFields fs (ofWordFields fs w)
  | [], _ => by simp only [WellFormedFields]
  | (_, t) :: fs, w => by
    simp only [WellFormedFields, ofWordFields]
    exact ⟨wellFormed_ofWord t _, wellFormedFields_ofWordFields fs _⟩

end

theorem ofWord_recF_zero (s : String) (t : Ty) (fs : List (String × Ty)) :
    ofWord (.recF ((s, t) :: fs)) 0 = (ofWord t 0, ofWord (.recF fs) 0) := by
  have h₁ : split1 t.len (lenFields fs) 0 = 0 := by simp [split1]
  have h₂ : split2 t.len (lenFields fs) 0 = 0 := by simp [split2]
  exact Prod.ext (congrArg (ofWord t) h₁) (congrArg (ofWordFields fs) h₂)

/-! ## Elements of packed arrays

The run-time code reads and writes an element of an array by shifting and masking, without
unpacking the array. -/

def wordMask (l n idx : ℕ) : BitVec (l * n) := (BitVec.allOnes n).setWidth (l * n) <<< (idx * n)

def wordSelNShift (l n idx : ℕ) (w : BitVec (l * n)) : BitVec n := (w >>> (idx * n)).setWidth n

def wordUpdNShift (l n idx : ℕ) (w : BitVec (l * n)) (v : BitVec n) : BitVec (l * n) :=
  (w &&& ~~~ wordMask l n idx) ||| (v.setWidth (l * n) <<< (n * idx))

section Elements

variable {n : ℕ} {α : Type}

theorem wordSelNShift_zero (k : ℕ) (w : BitVec ((k + 1) * n)) :
    wordSelNShift (k + 1) n 0 w = split1 n (k * n) (w.cast (by ring)) := by
  ext i hi
  simp [wordSelNShift, split1, ← BitVec.getLsbD_eq_getElem, hi]

theorem wordSelNShift_succ (k idx : ℕ) (w : BitVec ((k + 1) * n)) (h : idx < k) :
    wordSelNShift (k + 1) n (idx + 1) w =
      wordSelNShift k n idx (split2 n (k * n) (w.cast (by ring))) := by
  have hk : idx * n + n ≤ k * n := by
    calc idx * n + n = (idx + 1) * n := by ring
      _ ≤ k * n := Nat.mul_le_mul_right n h
  have e : (idx + 1) * n = n + idx * n := by ring
  ext i hi
  simp [wordSelNShift, split2, ← BitVec.getLsbD_eq_getElem, hi, e, show idx * n + i < k * n by omega,
    Nat.add_assoc]

/-- The elements of a packed array, one by one. -/
theorem getElem?_arrayOfWord (g : BitVec n → α) (k idx : ℕ) (w : BitVec (k * n)) (h : idx < k) :
    (arrayOfWord g k w)[idx]? = some (g (wordSelNShift k n idx w)) := by
  induction k generalizing idx with
  | zero => omega
  | succ k ih =>
    cases idx with
    | zero => rw [arrayOfWord, List.getElem?_cons_zero, wordSelNShift_zero]
    | succ idx =>
      rw [arrayOfWord, List.getElem?_cons_succ, ih _ _ (by omega), wordSelNShift_succ k idx w (by omega)]

theorem getLsbD_wordSelNShift (l idx i : ℕ) (w : BitVec (l * n)) (hi : i < n) :
    (wordSelNShift l n idx w).getLsbD i = w.getLsbD (idx * n + i) := by
  simp [wordSelNShift, hi]

theorem getLsbD_wordMask (l idx p : ℕ) :
    (wordMask l n idx).getLsbD p =
      (decide (p < l * n) && (decide (idx * n ≤ p) && decide (p < idx * n + n))) := by
  rw [wordMask, BitVec.getLsbD_shiftLeft, BitVec.getLsbD_setWidth, BitVec.getLsbD_allOnes]
  by_cases h₁ : p < l * n
  · by_cases h₂ : idx * n ≤ p
    · have h₃ : p - idx * n < n ↔ p < idx * n + n := by omega
      simp [h₁, h₂, h₃, show p - idx * n < l * n by omega, show ¬ p < idx * n by omega]
    · simp [h₂, show p < idx * n by omega]
  · simp [h₁]

theorem wordSelNShift_wordUpdNShift (l idx idx' : ℕ) (w : BitVec (l * n)) (v : BitVec n)
    (h : idx < l) (h' : idx' < l) :
    wordSelNShift l n idx' (wordUpdNShift l n idx w v) =
      if idx' = idx then v else wordSelNShift l n idx' w := by
  have bound : ∀ x < l, x * n + n ≤ l * n := fun x hx => by
    calc x * n + n = (x + 1) * n := by ring
      _ ≤ l * n := Nat.mul_le_mul_right n hx
  have hl := bound idx h
  have hl' := bound idx' h'
  ext i hi
  rw [← BitVec.getLsbD_eq_getElem, ← BitVec.getLsbD_eq_getElem, getLsbD_wordSelNShift _ _ _ _ hi,
    wordUpdNShift, BitVec.getLsbD_or, BitVec.getLsbD_and, BitVec.getLsbD_not, getLsbD_wordMask,
    BitVec.getLsbD_shiftLeft, BitVec.getLsbD_setWidth, Nat.mul_comm n idx]
  rcases Nat.lt_trichotomy idx' idx with hlt | rfl | hgt
  · have : idx' * n + n ≤ idx * n := by
      calc idx' * n + n = (idx' + 1) * n := by ring
        _ ≤ idx * n := Nat.mul_le_mul_right n hlt
    rw [if_neg (by omega), getLsbD_wordSelNShift _ _ _ _ hi]
    simp [show idx' * n + i < l * n by omega, show idx' * n + i < idx * n by omega]
  · rw [if_pos rfl]
    simp [show idx' * n + i < l * n by omega, hi, show i < l * n by omega]
  · have : idx * n + n ≤ idx' * n := by
      calc idx * n + n = (idx + 1) * n := by ring
        _ ≤ idx' * n := Nat.mul_le_mul_right n hgt
    rw [if_neg (by omega), getLsbD_wordSelNShift _ _ _ _ hi]
    have hv : v.getLsbD (idx' * n + i - idx * n) = false := BitVec.getLsbD_of_ge _ _ (by omega)
    simp [show idx' * n + i < l * n by omega, show ¬ idx' * n + i < idx * n + n by omega, hv]

/-- Writing an element of a packed array. -/
theorem arrayOfWord_wordUpdNShift (g : BitVec n → α) (k idx : ℕ) (w : BitVec (k * n)) (v : BitVec n)
    (h : idx < k) : arrayOfWord g k (wordUpdNShift k n idx w v) = (arrayOfWord g k w).set idx (g v) := by
  apply List.ext_getElem?
  intro i
  rcases Nat.lt_or_ge i k with hi | hi
  · rw [getElem?_arrayOfWord g k i _ hi, wordSelNShift_wordUpdNShift k idx i w v h hi,
      List.getElem?_set]
    rcases eq_or_ne i idx with rfl | hne
    · rw [if_pos rfl, if_pos rfl, if_pos (by rw [length_arrayOfWord]; exact hi)]
    · rw [if_neg hne, if_neg hne.symm, getElem?_arrayOfWord g k i w hi]
  · rw [List.getElem?_eq_none (by rw [length_arrayOfWord]; exact hi),
      List.getElem?_eq_none (by rw [List.length_set, length_arrayOfWord]; exact hi)]

end Elements

end Rec

end Fscq
