import Fscq.Word

/-!
# The asynchronous disk

A disk maps addresses to value sets: the latest value of a block and the older values that a crash
may still bring back.  The hash function, the eviction policy of the buffer cache and the flushing
policy of the log come from outside the verified code; they are the fields of `Platform`.
-/

namespace Fscq

/-- The size of a block in bytes. -/
@[irreducible] def valubytes : ℕ := 4 * 1024

/-- The size of a block in bits. -/
@[irreducible] def valulen : ℕ := 4 * 1024 * 8

theorem valulen_is : valulen = 32768 := by
  unfold valulen
  rfl

abbrev addrlen : ℕ := 64

/-- A block is filled by addresses. -/
theorem valulen_eq_addrs : valulen = valulen / addrlen * addrlen := by
  rw [valulen_is]
  rfl

abbrev Waddr := BitVec addrlen

abbrev Valu := BitVec valulen

/-- An address as it is stored on disk. -/
def addr2w (a : ℕ) : Waddr := BitVec.ofNat addrlen a

theorem toNat_addr2w {a : ℕ} (h : a < 2 ^ addrlen) : (addr2w a).toNat = a := by
  rw [addr2w, BitVec.toNat_ofNat, Nat.mod_eq_of_lt h]

/-- The latest value of a block and the older values it may still hold after a crash. -/
abbrev Valuset := Valu × List Valu

abbrev Rawdisk := ℕ → Option Valuset

def vsmerge (vs : Valuset) : List Valu := vs.1 :: vs.2

/-- Every pending write reaches the platter. -/
def syncMem (m : Rawdisk) : Rawdisk := fun a => (m a).map fun vs => (vs.1, [])

/-- Some pending writes reach the platter in the background. -/
def PossibleSync (m m' : Rawdisk) : Prop :=
  ∀ a, (m a = none ∧ m' a = none) ∨
    ∃ v l l', m a = some (v, l) ∧ m' a = some (v, l') ∧ l' ⊆ l

/-- A crash leaves each block with one of the values of its value set. -/
def PossibleCrash (m m' : Rawdisk) : Prop :=
  ∀ a, (m a = none ∧ m' a = none) ∨
    ∃ vs v', m a = some vs ∧ m' a = some (v', []) ∧ v' ∈ vsmerge vs

theorem PossibleSync.refl (m : Rawdisk) : PossibleSync m m := by
  intro a
  cases h : m a with
  | none => exact .inl ⟨rfl, rfl⟩
  | some vs => exact .inr ⟨vs.1, vs.2, vs.2, rfl, rfl, fun _ => id⟩

theorem PossibleSync.trans {m₁ m₂ m₃ : Rawdisk} (h : PossibleSync m₁ m₂)
    (h' : PossibleSync m₂ m₃) : PossibleSync m₁ m₃ := by
  intro a
  rcases h a with ⟨h₁, h₂⟩ | ⟨v, l, l', h₁, h₂, hl⟩
  · rcases h' a with ⟨-, h₃⟩ | ⟨v', k, k', h₃, -, -⟩
    · exact .inl ⟨h₁, h₃⟩
    · rw [h₂] at h₃
      cases h₃
  · rcases h' a with ⟨h₃, -⟩ | ⟨v', k, k', h₃, h₄, hk⟩
    · rw [h₂] at h₃
      cases h₃
    · rw [h₂, Option.some.injEq, Prod.mk.injEq] at h₃
      obtain ⟨rfl, rfl⟩ := h₃
      exact .inr ⟨v, l, k', h₁, h₄, fun x hx => hl (hk hx)⟩

/-! ## Hashing -/

abbrev hashlen : ℕ := 32

/-- What the verified code gets from outside. -/
class Platform where
  /-- The hash function. -/
  hashFwd : ∀ {sz : ℕ}, BitVec sz → BitVec hashlen
  /-- The state of the eviction policy of the buffer cache. -/
  EvictionState : Type
  evictionInit : EvictionState
  evictionUpdate : EvictionState → ℕ → EvictionState
  evictionChoose : EvictionState → ℕ × EvictionState
  /-- Whether every commit flushes the log. -/
  shouldFlushall : Bool

/-- A platform with a simple hash, which evicts block zero first and does not flush eagerly. -/
@[reducible] def Sample.platform : Platform where
  hashFwd w := BitVec.ofNat hashlen (w.toNat % 4294967291)
  EvictionState := Unit
  evictionInit := ()
  evictionUpdate _ _ := ()
  evictionChoose _ := (0, ())
  shouldFlushall := false

export Platform (hashFwd EvictionState evictionInit evictionUpdate evictionChoose shouldFlushall)

def defaultValu : Valu := 0

variable [Platform]

def defaultHash : BitVec hashlen := hashFwd defaultValu

/-- The keys that have been hashed, under their hash values. -/
inductive Hashmap
  | empty
  | upd (hm : Hashmap) (h : BitVec hashlen) (k : Σ sz : ℕ, BitVec sz)

def Hashmap.get (h : BitVec hashlen) : Hashmap → Option (Σ sz : ℕ, BitVec sz)
  | .empty => if h = defaultHash then some ⟨_, defaultValu⟩ else none
  | .upd hm h' k =>
    if h = defaultHash then some ⟨_, defaultValu⟩ else if h' = h then some k else hm.get h

/-- No other key has been seen with this hash value. -/
def HashSafe (hm : Hashmap) (h : BitVec hashlen) {sz : ℕ} (k : BitVec sz) : Prop :=
  hm.get h = none ∨ hm.get h = some ⟨sz, k⟩

@[simp] theorem Hashmap.get_defaultHash (hm : Hashmap) :
    hm.get defaultHash = some ⟨_, defaultValu⟩ := by
  cases hm <;> simp [Hashmap.get]

/-- A hash map is only ever extended. -/
def Hashmap.Le (hm hm' : Hashmap) : Prop := ∀ h k, hm.get h = some k → hm'.get h = some k

theorem Hashmap.Le.refl (hm : Hashmap) : hm.Le hm := fun _ _ h => h

theorem Hashmap.Le.trans {hm₁ hm₂ hm₃ : Hashmap} (h : hm₁.Le hm₂) (h' : hm₂.Le hm₃) :
    hm₁.Le hm₃ := fun _ _ e => h' _ _ (h _ _ e)

theorem HashSafe.le_upd {hm : Hashmap} {h : BitVec hashlen} {sz : ℕ} {k : BitVec sz}
    (hs : HashSafe hm h k) : hm.Le (hm.upd h ⟨sz, k⟩) := by
  intro h' k' e
  by_cases hd : h' = defaultHash
  · subst hd
    simpa using e
  · by_cases hh : h = h'
    · subst hh
      rcases hs with hs | hs <;> simp_all [Hashmap.get]
    · simpa [Hashmap.get, hd, hh] using e

theorem HashSafe.get_upd {hm : Hashmap} {h : BitVec hashlen} {sz : ℕ} {k : BitVec sz}
    (hs : HashSafe hm h k) : (hm.upd h ⟨sz, k⟩).get h = some ⟨sz, k⟩ := by
  by_cases hd : h = defaultHash
  · subst hd
    rcases hs with hs | hs <;> simp_all [Hashmap.get]
  · simp [Hashmap.get, hd]

end Fscq
