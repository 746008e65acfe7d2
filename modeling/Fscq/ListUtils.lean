import Mathlib.Tactic

/-!
# Rounding and lists

The rounding functions and the list functions that the layers of the file system share.
-/

namespace Fscq

/-- The number of units of size `unitsz` that hold `n` elements. -/
def divup (n unitsz : ℕ) : ℕ := (n + unitsz - 1) / unitsz

/-- `n` rounded up to a multiple of `unitsz`. -/
def roundup (n unitsz : ℕ) : ℕ := divup n unitsz * unitsz

variable {α β : Type}

/-- Cut a list to length `n`, or pad it to that length. -/
def setlen (l : List α) (n : ℕ) (d : α) : List α := l.take n ++ List.replicate (n - l.length) d

@[simp] theorem divup_zero (k : ℕ) : divup 0 k = 0 := by
  rcases k with _ | k <;> simp [divup]

theorem divup_of_lt {n k : ℕ} (hn : 0 < n) (hk : n ≤ k) : divup n k = 1 := by
  have : n + k - 1 = k + (n - 1) := by omega
  rw [divup, this, Nat.add_div_left _ (by omega), Nat.div_eq_of_lt (by omega)]

theorem divup_add {n k : ℕ} (hk : 0 < k) : divup (k + n) k = divup n k + 1 := by
  have : k + n + k - 1 = (n + k - 1) + k := by omega
  rw [divup, this, Nat.add_div_right _ hk, divup]

theorem divup_le_iff {n k m : ℕ} (hk : 0 < k) : divup n k ≤ m ↔ n ≤ m * k := by
  have h : (n + k - 1) / k < m + 1 ↔ n + k - 1 < (m + 1) * k := Nat.div_lt_iff_lt_mul hk
  have e : (m + 1) * k = m * k + k := by ring
  unfold divup
  omega

theorem le_divup_mul {n k : ℕ} (hk : 0 < k) : n ≤ divup n k * k := (divup_le_iff hk).1 le_rfl

theorem divup_mul {n k : ℕ} (hk : 0 < k) : divup (n * k) k = n := by
  have : n * k + k - 1 = k - 1 + k * n := by
    have := Nat.mul_comm n k
    omega
  rw [divup, this, Nat.add_mul_div_left _ _ hk, Nat.div_eq_of_lt (by omega), zero_add]

@[simp] theorem divup_one (n : ℕ) : divup n 1 = n := by simp [divup]

@[simp] theorem length_setlen (l : List α) (n : ℕ) (d : α) : (setlen l n d).length = n := by
  simp only [setlen, List.length_append, List.length_take, List.length_replicate]
  omega

theorem setlen_of_le {l : List α} {n : ℕ} (h : l.length ≤ n) (d : α) :
    setlen l n d = l ++ List.replicate (n - l.length) d := by
  rw [setlen, List.take_of_length_le h]

/-- The first `nr` pieces of length `sz` of a list; the last piece may be shorter. -/
def nopadListChunk' (l : List α) (sz : ℕ) : ℕ → List (List α)
  | 0 => []
  | nr + 1 => l.take sz :: nopadListChunk' (l.drop sz) sz nr

/-- The first `nr` pieces of length `sz` of a list, padded with `d`. -/
def listChunk' (l : List α) (sz : ℕ) (d : α) : ℕ → List (List α)
  | 0 => []
  | nr + 1 => setlen l sz d :: listChunk' (l.drop sz) sz d nr

def nopadListChunk (l : List α) (sz : ℕ) : List (List α) := nopadListChunk' l sz (divup l.length sz)

def listChunk (l : List α) (sz : ℕ) (d : α) : List (List α) := listChunk' l sz d (divup l.length sz)

theorem length_nopadListChunk' (sz nr : ℕ) (l : List α) : (nopadListChunk' l sz nr).length = nr := by
  induction nr generalizing l with
  | zero => rfl
  | succ nr ih => rw [nopadListChunk', List.length_cons, ih]

@[simp] theorem length_nopadListChunk (l : List α) (sz : ℕ) :
    (nopadListChunk l sz).length = divup l.length sz := length_nopadListChunk' sz _ l

/-- What the pieces of a list hold when each is padded to its full length. -/
theorem flatMap_nopadListChunk {sz : ℕ} (hsz : 0 < sz) (d : α) (l : List α) :
    (nopadListChunk l sz).flatMap (fun c => setlen c sz d) =
      l ++ List.replicate (divup l.length sz * sz - l.length) d := by
  induction hn : l.length using Nat.strong_induction_on generalizing l with
  | _ n ih =>
    subst hn
    rcases Nat.eq_zero_or_pos l.length with h0 | hpos
    · obtain rfl : l = [] := List.eq_nil_of_length_eq_zero h0
      simp [nopadListChunk, nopadListChunk']
    rcases Nat.lt_or_ge sz l.length with hgt | hle
    · -- a full piece and the rest
      have hlen : l.length = sz + (l.drop sz).length := by simp; omega
      have hdiv : divup l.length sz = divup (l.drop sz).length sz + 1 := by
        rw [hlen, divup_add hsz]
      have ih' := ih (l.drop sz).length (by simp; omega) (l.drop sz) rfl
      rw [nopadListChunk, hdiv, nopadListChunk', List.flatMap_cons]
      rw [nopadListChunk] at ih'
      have htake : setlen (l.take sz) sz d = l.take sz := by
        have : sz - (l.take sz).length = 0 := by simp; omega
        rw [setlen_of_le (by simp), this, List.replicate_zero, List.append_nil]
      rw [ih', htake, ← List.append_assoc, List.take_append_drop]
      congr 2
      have : (divup (l.drop sz).length sz + 1) * sz = divup (l.drop sz).length sz * sz + sz := by
        ring
      omega
    · -- a single piece
      have hd : l.drop sz = [] := List.drop_eq_nil_of_le hle
      simp [nopadListChunk, divup_of_lt hpos hle, nopadListChunk', setlen_of_le hle,
        List.take_of_length_le hle]

/-- The pieces of length one of a list. -/
theorem nopadListChunk_one (l : List α) : nopadListChunk l 1 = l.map fun x => [x] := by
  unfold nopadListChunk
  rw [divup_one]
  induction l with
  | nil => rfl
  | cons x l ih => simp [nopadListChunk', ih]

/-- Overwrite `len` elements from `start` on. -/
def updRange (l : List α) (start : ℕ) : ℕ → α → List α
  | 0, _ => l
  | len + 1, v => (updRange l (start + 1) len v).set start v

/-- `updRange` in one pass over the list. -/
def updRangeFast : List α → ℕ → ℕ → α → List α
  | [], _, _, _ => []
  | v' :: vs, start + 1, len, v => v' :: updRangeFast vs start len v
  | v' :: vs, 0, 0, _ => v' :: vs
  | _ :: vs, 0, len + 1, v => v :: updRangeFast vs 0 len v

@[simp] theorem length_updRange (l : List α) (start len : ℕ) (v : α) :
    (updRange l start len v).length = l.length := by
  induction len generalizing start with
  | zero => rfl
  | succ len ih => rw [updRange, List.length_set, ih]

theorem getElem?_updRange (l : List α) (start len : ℕ) (v : α) (i : ℕ) :
    (updRange l start len v)[i]? =
      if start ≤ i ∧ i < start + len ∧ i < l.length then some v else l[i]? := by
  induction len generalizing start with
  | zero => rw [updRange, if_neg (by omega)]
  | succ len ih =>
    rw [updRange, List.getElem?_set, length_updRange, ih]
    split_ifs with h₁ h₂ h₃ h₄ h₅ h₆ <;>
      first
        | rfl
        | omega
        | (subst h₁; exact (List.getElem?_eq_none (by omega)).symm)

/-- `updRange` as a prefix, the new elements and a suffix. -/
theorem updRange_eq {α : Type} (l : List α) (q k : ℕ) (v : α) :
    updRange l q k v =
      l.take q ++ (List.replicate ((l.drop q).take k).length v ++ l.drop (q + k)) := by
  have hr : ((l.drop q).take k).length = min k (l.length - q) := by simp
  apply List.ext_getElem?
  intro i
  rw [getElem?_updRange, hr, List.getElem?_append, List.getElem?_append, List.length_take,
    List.length_replicate, List.getElem?_take, List.getElem?_replicate, List.getElem?_drop]
  rcases Nat.lt_or_ge i q with h₁ | h₁
  · rw [if_neg (by omega)]
    rcases Nat.lt_or_ge i l.length with h₂ | h₂
    · rw [if_pos (by omega), if_pos h₁]
    · rw [if_neg (by omega), if_neg (by omega), List.getElem?_eq_none h₂,
        List.getElem?_eq_none (by omega)]
  · rcases Nat.lt_or_ge i l.length with h₂ | h₂
    · rw [if_neg (by omega : ¬ i < min q l.length)]
      rcases Nat.lt_or_ge i (q + k) with h₃ | h₃
      · rw [if_pos ⟨h₁, h₃, h₂⟩, if_pos (by omega), if_pos (by omega)]
      · rw [if_neg (by omega), if_neg (by omega)]
        congr 1
        omega
    · rw [if_neg (by omega), if_neg (by omega), if_neg (by omega), List.getElem?_eq_none h₂,
        List.getElem?_eq_none (by omega)]
@[simp] theorem length_updRangeFast (l : List α) (start len : ℕ) (v : α) :
    (updRangeFast l start len v).length = l.length := by
  induction l generalizing start len with
  | nil => rfl
  | cons x l ih => cases start <;> cases len <;> simp [updRangeFast, ih]

theorem getElem?_updRangeFast (l : List α) (start len : ℕ) (v : α) (i : ℕ) :
    (updRangeFast l start len v)[i]? =
      if start ≤ i ∧ i < start + len ∧ i < l.length then some v else l[i]? := by
  induction l generalizing start len i with
  | nil => rw [updRangeFast, if_neg (by simp)]
  | cons x l ih =>
    cases start with
    | succ start =>
      rw [updRangeFast]
      cases i with
      | zero => rw [if_neg (by omega)]; rfl
      | succ i =>
        rw [List.getElem?_cons_succ, List.getElem?_cons_succ, ih, List.length_cons]
        simp only [Nat.add_le_add_iff_right, Nat.add_right_comm start 1 len,
          Nat.add_lt_add_iff_right]
    | zero =>
      cases len with
      | zero => rw [updRangeFast, if_neg (by omega)]
      | succ len =>
        rw [updRangeFast]
        cases i with
        | zero => rw [if_pos (by simp)]; rfl
        | succ i =>
          rw [List.getElem?_cons_succ, List.getElem?_cons_succ, ih, List.length_cons]
          simp only [Nat.zero_le, true_and, Nat.zero_add, Nat.add_lt_add_iff_right]

/-! ### Searching a list -/

/-- The first element that satisfies a condition, with its index counted from `start`. -/
def ifindList {α : Type} (cond : α → ℕ → Bool) : List α → ℕ → Option (ℕ × α)
  | [], _ => none
  | x :: rest, start => if cond x start then some (start, x) else ifindList cond rest (start + 1)

theorem ifindList_append {α : Type} (cond : α → ℕ → Bool) (l l' : List α) (start : ℕ) :
    ifindList cond (l ++ l') start =
      (ifindList cond l start).or (ifindList cond l' (start + l.length)) := by
  induction l generalizing start with
  | nil => rfl
  | cons x l ih =>
    rw [List.cons_append, ifindList, ifindList]
    split_ifs
    · rfl
    · rw [ih, List.length_cons, Nat.add_assoc, Nat.add_comm 1]

theorem ifindList_some {α : Type} {cond : α → ℕ → Bool} {l : List α} {start ix : ℕ} {x : α}
    (h : ifindList cond l start = some (ix, x)) :
    start ≤ ix ∧ l[ix - start]? = some x ∧ cond x ix := by
  induction l generalizing start with
  | nil => simp [ifindList] at h
  | cons y l ih =>
    rw [ifindList] at h
    split_ifs at h with hc
    · obtain ⟨rfl, rfl⟩ := Prod.mk.inj (Option.some.inj h)
      exact ⟨le_rfl, by simp, hc⟩
    · obtain ⟨h₁, h₂, h₃⟩ := ih h
      have e : ix - start = ix - (start + 1) + 1 := by omega
      exact ⟨by omega, by rw [e, List.getElem?_cons_succ, h₂], h₃⟩

theorem ifindList_eq_none {α : Type} {cond : α → ℕ → Bool} {l : List α} {start : ℕ} :
    ifindList cond l start = none ↔ ∀ i x, l[i]? = some x → cond x (start + i) = false := by
  induction l generalizing start with
  | nil => simp [ifindList]
  | cons y l ih =>
    rw [ifindList]
    split_ifs with hc
    · constructor
      · intro h
        cases h
      · intro h
        have h0 := h 0 y rfl
        rw [Nat.add_zero, hc] at h0
        cases h0
    · rw [ih]
      constructor
      · rintro h (_ | i) x hx
        · obtain rfl : y = x := by simpa using hx
          simpa using hc
        · rw [List.getElem?_cons_succ] at hx
          rw [Nat.add_comm i 1, ← Nat.add_assoc]
          exact h i x hx
      · intro h i x hx
        have h' := h (i + 1) x (by rwa [List.getElem?_cons_succ])
        rwa [Nat.add_comm i 1, ← Nat.add_assoc] at h'

theorem ifindList_none {α : Type} {cond : α → Bool} {l : List α} {start : ℕ} :
    ifindList (fun x _ => cond x) l start = none ↔ ∀ x ∈ l, cond x = false := by
  rw [ifindList_eq_none]
  constructor
  · intro h x hx
    obtain ⟨i, hi⟩ := List.mem_iff_getElem?.1 hx
    exact h i x hi
  · exact fun h i x hx => h x (List.mem_of_getElem? hx)

end Fscq
