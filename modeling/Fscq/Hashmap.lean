import Fscq.Prog

/-!
# Checksums of lists of blocks

`hashList` folds the hash over a list of blocks.  `HashListRep l h hm` says that `h` is the hash of
the list `l`, last block first, and that all keys on the way have been hashed.  As the semantics
rules out collisions among the keys hashed in a run, a checksum determines its list.
-/

namespace Fscq

open CrashProg

variable [Platform]

/-- Hash the blocks of a list in order, starting from a given checksum. -/
def hashList (h : BitVec hashlen) (values : List Valu) : Prog (BitVec hashlen) :=
  forEach (fun item hash => Prog.hash2 item hash) values h

/-- `h = hash (l₀ ‖ hash (l₁ ‖ … hash (lₙ ‖ default)))`, with all keys recorded in the hash map. -/
def HashListRep : List Valu → BitVec hashlen → Hashmap → Prop
  | [], h, _ => h = defaultHash
  | x :: l, h, hm => ∃ h', HashListRep l h' hm ∧ h = hashFwd (combine x h') ∧
      hm.get h = some ⟨_, combine x h'⟩

/-- The checksum of a list of blocks on top of a given checksum. -/
def hashFold (h : BitVec hashlen) (values : List Valu) : BitVec hashlen :=
  values.foldl (fun h x => hashFwd (combine x h)) h

variable {hm hm' : Hashmap} {h : BitVec hashlen} {l l' : List Valu}

theorem hashFold_append (h : BitVec hashlen) (l l' : List Valu) :
    hashFold h (l ++ l') = hashFold (hashFold h l) l' := List.foldl_append

theorem HashListRep.eq_hashFold (hl : HashListRep l.reverse h hm) : h = hashFold defaultHash l := by
  induction l using List.reverseRecOn generalizing h with
  | nil => exact hl
  | append_singleton l x ih =>
    rw [List.reverse_append] at hl
    obtain ⟨h', h₁, rfl, -⟩ := hl
    rw [hashFold_append, ← ih h₁]
    rfl

theorem HashListRep.mono (hl : HashListRep l h hm) (hle : hm.Le hm') : HashListRep l h hm' := by
  induction l generalizing h with
  | nil => exact hl
  | cons x l ih =>
    obtain ⟨h', h₁, h₂, h₃⟩ := hl
    exact ⟨h', ih h₁, h₂, hle _ _ h₃⟩

theorem HashListRep.inj (hl : HashListRep l h hm) (hl' : HashListRep l' h hm) : l = l' := by
  induction l generalizing h l' with
  | nil =>
    cases l' with
    | nil => rfl
    | cons x l' =>
      -- the default value is one block long, every other key is longer
      obtain ⟨h', -, -, h₃⟩ := hl'
      obtain rfl : h = defaultHash := hl
      rw [Hashmap.get_defaultHash, Option.some.injEq, Sigma.mk.injEq] at h₃
      have := h₃.1
      simp at this
  | cons x l ih =>
    obtain ⟨h₁, ha, -, hc⟩ := hl
    cases l' with
    | nil =>
      obtain rfl : h = defaultHash := hl'
      rw [Hashmap.get_defaultHash, Option.some.injEq, Sigma.mk.injEq] at hc
      have := hc.1
      simp at this
    | cons y l' =>
      obtain ⟨h₂, ha', -, hc'⟩ := hl'
      rw [hc, Option.some.injEq, Sigma.mk.injEq, heq_eq_eq] at hc'
      obtain ⟨rfl, rfl⟩ := combine_inj hc'.2
      rw [ih ha ha']

/-- The checksum of a list is determined by the list. -/
theorem HashListRep.unique {h' : BitVec hashlen} (hl : HashListRep l h hm)
    (hl' : HashListRep l h' hm) : h = h' := by
  induction l generalizing h h' with
  | nil =>
    obtain rfl : h = defaultHash := hl
    exact Eq.symm hl'
  | cons x l ih =>
    obtain ⟨k, h₁, rfl, -⟩ := hl
    obtain ⟨k', h₁', rfl, -⟩ := hl'
    rw [ih h₁ h₁']

/-- Hashing a list extends the hash map by its keys; the machine does not crash meanwhile. -/
theorem wp_hashList {C : St → Prop} {Q : BitVec hashlen → St → Prop} {s : St} {values : List Valu}
    (hl : HashListRep l h s.hm)
    (hQ : ∀ m hm h', PossibleSync s.disk m → s.hm.Le hm →
      HashListRep (values.reverse ++ l) h' hm → Q h' { s with disk := m, hm := hm }) :
    wp diskSem (hashList h values) Q C s := by
  unfold hashList
  induction values generalizing h l s with
  | nil => exact wp_pure (hQ s.disk s.hm h (.refl _) (.refl _) hl)
  | cons x values ih =>
    refine wp_bind (wp_hash2 fun m hm hm₁ hle hget => ?_)
    refine ih (l := x :: l) ⟨h, hl.mono hle, rfl, hget⟩ fun m' hm' h' hm₂ hle' hr => ?_
    refine hQ m' hm' h' (hm₁.trans hm₂) (hle.trans hle') ?_
    simpa using hr

/-! ### Hashing without collisions -/

/-- The hash map after hashing a list. -/
def hashKeys (hm : Hashmap) (h : BitVec hashlen) : List Valu → Hashmap
  | [] => hm
  | x :: l => hashKeys (hm.upd (hashFwd (combine x h)) ⟨_, combine x h⟩) (hashFwd (combine x h)) l

/-- None of the keys has the hash value of another key that has been seen. -/
def KeysSafe (hm : Hashmap) (h : BitVec hashlen) : List Valu → Prop
  | [] => True
  | x :: l => HashSafe hm (hashFwd (combine x h)) (combine x h) ∧
    KeysSafe (hm.upd (hashFwd (combine x h)) ⟨_, combine x h⟩) (hashFwd (combine x h)) l

theorem exec_hashList {s : St} {values : List Valu} (hs : KeysSafe s.hm h values) :
    Exec diskSem s (hashList h values)
      (.finished { s with hm := hashKeys s.hm h values } (hashFold h values)) := by
  induction values generalizing h s with
  | nil => exact .ret s h
  | cons x l ih =>
    have hstep : diskSem.step s (DiskOp.hash2 x h)
        { s with hm := s.hm.upd (hashFwd (combine x h)) ⟨_, combine x h⟩ } (hashFwd (combine x h)) :=
      .inl ⟨_, _, ⟨hs.1, rfl, rfl⟩, .refl _, rfl⟩
    exact .bindFinish (.step hstep) (ih hs.2)

end Fscq
