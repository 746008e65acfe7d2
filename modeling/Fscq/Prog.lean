import Fscq.Lib.CrashProg
import Fscq.AsyncDisk

/-!
# The programming language

The file system is written in a small language of disk, hash and variable operations.  This file
gives its operations and their semantics, as an instance of the programs of `CrashProg`.
-/

namespace Fscq

open CrashProg

abbrev VarType := ℕ

/-- A value of any type. -/
inductive VarValue : Type 1
  | any (T : Type) (v : T)

abbrev Varmem := VarType → Option VarValue

/-- The operations of the language. -/
inductive DiskOp : Type → Type 1
  | read (a : ℕ) : DiskOp Valu
  | write (a : ℕ) (v : Valu) : DiskOp Unit
  | sync : DiskOp Unit
  | trim (a : ℕ) : DiskOp Unit
  | varAlloc {T : Type} (v : T) : DiskOp VarType
  | varDelete (i : VarType) : DiskOp Unit
  | varGet (i : VarType) (T : Type) : DiskOp T
  | varSet (i : VarType) {T : Type} (v : T) : DiskOp Unit
  | alertModified : DiskOp Unit
  | debug (s : String) (n : ℕ) : DiskOp Unit
  | rdtsc : DiskOp ℕ
  | hash {sz : ℕ} (buf : BitVec sz) : DiskOp (BitVec hashlen)
  | hash2 {sz₁ sz₂ : ℕ} (buf₁ : BitVec sz₁) (buf₂ : BitVec sz₂) : DiskOp (BitVec hashlen)

abbrev Prog := CrashProg.Prog DiskOp

/-- The disk, the variables and the keys hashed so far. -/
structure St [Platform] : Type 1 where
  disk : Rawdisk
  vm : Varmem
  hm : Hashmap

variable [Platform]

/-- What each operation does, up to background syncing.  The three operations without an effect on
the state take no such step. -/
def Step (s : St) : ∀ {α : Type}, DiskOp α → St → α → Prop
  | _, .read a, s', v => ∃ x, s.disk a = some (v, x) ∧ s' = s
  | _, .write a v, s', _ => ∃ v₀ x, s.disk a = some (v₀, x) ∧
      s' = { s with disk := Function.update s.disk a (some (v, v₀ :: x)) }
  | _, .sync, s', _ => s' = { s with disk := syncMem s.disk }
  | _, .trim a, s', _ => ∃ vs vs', s.disk a = some vs ∧
      s' = { s with disk := Function.update s.disk a (some vs') }
  | _, @DiskOp.hash sz buf, s', h => HashSafe s.hm h buf ∧ hashFwd buf = h ∧
      s' = { s with hm := s.hm.upd h ⟨sz, buf⟩ }
  | _, .hash2 buf₁ buf₂, s', h => HashSafe s.hm h (combine buf₁ buf₂) ∧
      hashFwd (combine buf₁ buf₂) = h ∧ s' = { s with hm := s.hm.upd h ⟨_, combine buf₁ buf₂⟩ }
  | _, .varAlloc (T := T) v, s', i => s.vm i = none ∧
      s' = { s with vm := Function.update s.vm i (some (.any T v)) }
  | _, .varDelete i, s', _ => (∃ v, s.vm i = some v) ∧
      s' = { s with vm := Function.update s.vm i none }
  | _, .varGet i T, s', v => s.vm i = some (.any T v) ∧ s' = s
  | _, .varSet (T := T) i v, s', _ => (∃ v₀, s.vm i = some v₀) ∧
      s' = { s with vm := Function.update s.vm i (some (.any T v)) }
  | _, .alertModified, _, _ => False
  | _, .debug _ _, _, _ => False
  | _, .rdtsc, _, _ => False

/-- When an operation fails. -/
def FailStep (s : St) : ∀ {α : Type}, DiskOp α → Prop
  | _, .read a => s.disk a = none
  | _, .write a _ => s.disk a = none
  | _, .trim a => s.disk a = none
  | _, .varDelete i => s.vm i = none
  | _, .varGet i T => s.vm i = none ∨ ∃ (T' : Type) (v : T'), T ≠ T' ∧ s.vm i = some (.any T' v)
  | _, .varSet i _ => s.vm i = none
  | _, _ => False

/-- The operations before which the machine may crash. -/
def CrashStep : ∀ {α : Type}, DiskOp α → Prop
  | _, .read _ => True
  | _, .write _ _ => True
  | _, .sync => True
  | _, _ => False

/-- The operations that finish without a step. -/
def NoEffect : ∀ {α : Type}, DiskOp α → Prop
  | _, .alertModified => True
  | _, .debug _ _ => True
  | _, .rdtsc => True
  | _, _ => False

/-- How an operation finishes: a step and some background syncing, or, for the operations without
an effect, with any answer. -/
def ExecStep {α : Type} (s : St) (o : DiskOp α) (s' : St) (v : α) : Prop :=
  (∃ s₁ m, Step s o s₁ v ∧ PossibleSync s₁.disk m ∧ s' = { s₁ with disk := m }) ∨
    (NoEffect o ∧ s' = s)

/-- The semantics of the language. -/
def diskSem : Sem St DiskOp where
  step s o s' v := ExecStep s o s' v
  fail s o := FailStep s o
  crash o := CrashStep o

/-- The machine restarts with one of the disks that the crash can leave and without variables. -/
def Reboot (s s' : St) : Prop :=
  PossibleCrash s.disk s'.disk ∧ s'.vm = (fun _ => none) ∧ s'.hm = s.hm

namespace Prog

/-! ### The operations as programs -/

def read (a : ℕ) : Prog Valu := .op (.read a)

def write (a : ℕ) (v : Valu) : Prog Unit := .op (.write a v)

def sync : Prog Unit := .op .sync

def alertModified : Prog Unit := .op .alertModified

def debug (s : String) (n : ℕ) : Prog Unit := .op (.debug s n)

def hash {sz : ℕ} (buf : BitVec sz) : Prog (BitVec hashlen) := .op (.hash buf)

def hash2 {sz₁ sz₂ : ℕ} (buf₁ : BitVec sz₁) (buf₂ : BitVec sz₂) : Prog (BitVec hashlen) :=
  .op (.hash2 buf₁ buf₂)

end Prog

/-! ## Rules for the operations -/

variable {s : St} {C : St → Prop}

theorem wp_read {a : ℕ} {v : Valu} {x : List Valu} {Q : Valu → St → Prop}
    (h : s.disk a = some (v, x)) (hC : C s)
    (hQ : ∀ m, PossibleSync s.disk m → Q v { s with disk := m }) :
    wp diskSem (Prog.read a) Q C s := by
  refine wp_op (fun hf => by simp [diskSem, FailStep, h] at hf) (fun _ => hC) ?_
  rintro s' v' (⟨_, m, ⟨x', h', rfl⟩, hm, rfl⟩ | ⟨h', -⟩)
  · rw [h, Option.some.injEq, Prod.mk.injEq] at h'
    obtain ⟨rfl, rfl⟩ := h'
    exact hQ m hm
  · exact h'.elim

theorem wp_write {a : ℕ} {v v₀ : Valu} {x : List Valu} {Q : Unit → St → Prop}
    (h : s.disk a = some (v₀, x)) (hC : C s)
    (hQ : ∀ m, PossibleSync (Function.update s.disk a (some (v, v₀ :: x))) m →
      Q () { s with disk := m }) :
    wp diskSem (Prog.write a v) Q C s := by
  refine wp_op (fun hf => by simp [diskSem, FailStep, h] at hf) (fun _ => hC) ?_
  rintro s' v' (⟨_, m, ⟨v₁, x', h', rfl⟩, hm, rfl⟩ | ⟨h', -⟩)
  · rw [h, Option.some.injEq, Prod.mk.injEq] at h'
    obtain ⟨rfl, rfl⟩ := h'
    exact hQ m hm
  · exact h'.elim

theorem wp_sync {Q : Unit → St → Prop} (hC : C s)
    (hQ : ∀ m, PossibleSync (syncMem s.disk) m → Q () { s with disk := m }) :
    wp diskSem Prog.sync Q C s := by
  refine wp_op (fun hf => hf.elim) (fun _ => hC) ?_
  rintro s' v' (⟨_, m, rfl, hm, rfl⟩ | ⟨h', -⟩)
  · exact hQ m hm
  · exact h'.elim

theorem wp_alertModified {Q : Unit → St → Prop} (hQ : Q () s) :
    wp diskSem Prog.alertModified Q C s := by
  refine wp_op (fun hf => hf.elim) (fun hc => hc.elim) ?_
  rintro s' v' (⟨_, m, h', -, -⟩ | ⟨-, rfl⟩)
  · exact h'.elim
  · exact hQ

theorem wp_debug {str : String} {n : ℕ} {Q : Unit → St → Prop} (hQ : Q () s) :
    wp diskSem (Prog.debug str n) Q C s := by
  refine wp_op (fun hf => hf.elim) (fun hc => hc.elim) ?_
  rintro s' v' (⟨_, m, h', -, -⟩ | ⟨-, rfl⟩)
  · exact h'.elim
  · exact hQ

theorem wp_hash {sz : ℕ} {buf : BitVec sz} {Q : BitVec hashlen → St → Prop}
    (hQ : ∀ m hm, PossibleSync s.disk m → s.hm.Le hm → hm.get (hashFwd buf) = some ⟨sz, buf⟩ →
      Q (hashFwd buf) { s with disk := m, hm := hm }) :
    wp diskSem (Prog.hash buf) Q C s := by
  refine wp_op (fun hf => hf.elim) (fun hc => hc.elim) ?_
  rintro s' v' (⟨_, m, ⟨h, rfl, rfl⟩, hm, rfl⟩ | ⟨h', -⟩)
  · exact hQ m _ hm h.le_upd h.get_upd
  · exact h'.elim

theorem wp_hash2 {sz₁ sz₂ : ℕ} {buf₁ : BitVec sz₁} {buf₂ : BitVec sz₂}
    {Q : BitVec hashlen → St → Prop}
    (hQ : ∀ m hm, PossibleSync s.disk m → s.hm.Le hm →
      hm.get (hashFwd (combine buf₁ buf₂)) = some ⟨_, combine buf₁ buf₂⟩ →
      Q (hashFwd (combine buf₁ buf₂)) { s with disk := m, hm := hm }) :
    wp diskSem (Prog.hash2 buf₁ buf₂) Q C s := by
  refine wp_op (fun hf => hf.elim) (fun hc => hc.elim) ?_
  rintro s' v' (⟨_, m, ⟨h, rfl, rfl⟩, hm, rfl⟩ | ⟨h', -⟩)
  · exact hQ m _ hm h.le_upd h.get_upd
  · exact h'.elim

/-! ## Operations that can be carried out -/

theorem enabled_read (a : ℕ) : diskSem.Enabled (DiskOp.read a) := by
  intro s hs
  obtain ⟨⟨v, x⟩, h⟩ := Option.ne_none_iff_exists'.1 hs
  exact ⟨s, v, .inl ⟨s, s.disk, ⟨x, h, rfl⟩, .refl _, rfl⟩⟩

theorem enabled_write (a : ℕ) (v : Valu) : diskSem.Enabled (DiskOp.write a v) := by
  intro s hs
  obtain ⟨⟨v₀, x⟩, h⟩ := Option.ne_none_iff_exists'.1 hs
  exact ⟨_, (), .inl ⟨_, _, ⟨v₀, x, h, rfl⟩, .refl _, rfl⟩⟩

theorem enabled_sync : diskSem.Enabled DiskOp.sync :=
  fun _ _ => ⟨_, (), .inl ⟨_, _, rfl, .refl _, rfl⟩⟩

theorem enabled_alertModified : diskSem.Enabled DiskOp.alertModified :=
  fun s _ => ⟨s, (), .inr ⟨trivial, rfl⟩⟩

end Fscq
