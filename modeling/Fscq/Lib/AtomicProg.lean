import Fscq.Lib.CrashProg

/-!
# Programs with one visible step

What a crash can leave is a set of values that depends on the state (`see`).  A program is atomic when
a crash in the middle of it leaves what one before or after the program leaves.  A program that takes
one visible step is atomic: what comes before may only make the set smaller, and what comes after may
not change it.
-/

namespace CrashProg

variable {σ γ : Type*} {Op : Type → Type 1} {α β : Type} {S : Sem σ Op}
  {f : ∀ {α : Type}, Op α → σ → α × σ} {see : σ → Set γ}

/-- Wherever the program is interrupted, and at its end, a crash leaves what it leaves at the start. -/
def Silent (S : Sem σ Op) (f : ∀ {α : Type}, Op α → σ → α × σ) (see : σ → Set γ)
    (p : Prog Op α) : Prop :=
  ∀ s, see (run f p s).2 = see s ∧ ∀ s', Exec S s p (.crashed s') → see s' = see s

/-- A crash leaves no more than it leaves at the start. -/
def Shrinks (S : Sem σ Op) (f : ∀ {α : Type}, Op α → σ → α × σ) (see : σ → Set γ)
    (p : Prog Op α) : Prop :=
  ∀ s, see (run f p s).2 ⊆ see s ∧ ∀ s', Exec S s p (.crashed s') → see s' ⊆ see s

/-- A crash leaves what one before or after the program leaves. -/
def Atomic (S : Sem σ Op) (f : ∀ {α : Type}, Op α → σ → α × σ) (see : σ → Set γ)
    (p : Prog Op α) : Prop :=
  ∀ s s', Exec S s p (.crashed s') → see s' ⊆ see s ∪ see (run f p s).2

theorem Silent.shrinks {p : Prog Op α} (h : Silent S f see p) : Shrinks S f see p :=
  fun s => ⟨(h s).1.subset, fun s' e => ((h s).2 s' e).subset⟩

theorem Shrinks.atomic {p : Prog Op α} (h : Shrinks S f see p) : Atomic S f see p :=
  fun s s' e => ((h s).2 s' e).trans Set.subset_union_left

theorem silent_pure (v : α) : Silent S f see (pure v) :=
  fun _ => ⟨rfl, fun _ e => nomatch e⟩

theorem silent_op {o : Op α} (h : ∀ s, see (f o s).2 = see s) : Silent S f see (.op o) := by
  refine fun s => ⟨h s, fun s' e => ?_⟩
  cases e
  rfl

theorem shrinks_op {o : Op α} (h : ∀ s, see (f o s).2 ⊆ see s) : Shrinks S f see (.op o) := by
  refine fun s => ⟨h s, fun s' e => ?_⟩
  cases e
  exact subset_rfl

theorem atomic_op (o : Op α) : Atomic S f see (.op o) := by
  intro s s' e
  cases e
  exact Set.subset_union_left

section

variable (hf : ∀ {α : Type} (o : Op α) (s s' : σ) (v : α), S.step s o s' v → f o s = (v, s'))
  {p : Prog Op β} {q : β → Prog Op α}

include hf

theorem Silent.bind (hp : Silent S f see p) (hq : ∀ v, Silent S f see (q v)) :
    Silent S f see (p >>= q) := by
  intro s
  obtain ⟨h₁, h₂⟩ := hp s
  refine ⟨(hq _ _).1.trans h₁, fun s' e => ?_⟩
  cases e with
  | bindCrash e => exact h₂ s' e
  | bindFinish e e' =>
    rw [run_eq_of_exec hf e] at h₁
    exact ((hq _ _).2 s' e').trans h₁

theorem Shrinks.andThen (hp : Shrinks S f see p) (hq : ∀ v, Atomic S f see (q v)) :
    Atomic S f see (p >>= q) := by
  intro s s' e
  obtain ⟨h₁, h₂⟩ := hp s
  cases e with
  | bindCrash e => exact (h₂ s' e).trans Set.subset_union_left
  | bindFinish e e' =>
    have hrun := run_eq_of_exec hf e
    have hq := hq _ _ s' e'
    rw [hrun] at h₁
    rw [run_bind, hrun]
    exact hq.trans (Set.union_subset_union_left _ h₁)

theorem Atomic.andThen (hp : Atomic S f see p) (hq : ∀ v, Silent S f see (q v)) :
    Atomic S f see (p >>= q) := by
  intro s s' e
  rw [run_bind, (hq _ _).1]
  cases e with
  | bindCrash e => exact hp s s' e
  | bindFinish e e' =>
    rw [(hq _ _).2 s' e', run_eq_of_exec hf e]
    exact Set.subset_union_right

end

end CrashProg
