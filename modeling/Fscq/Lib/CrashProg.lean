import Mathlib.Tactic

/-!
# Programs that may fail or crash

A program over a signature of operations `Op` is a tree of operations whose continuations receive
the answers.  A semantics `Sem σ Op` says which steps an operation can take on a state of type `σ`,
when it fails, and whether the machine may crash just before it.  `Exec` is the execution relation,
`ExecRecover` the one of a program that is followed, after each crash, by a recovery program that
may itself crash.  `wp` is the weakest precondition for a postcondition and a crash condition, with
its rules for operations, sequencing and loops; `ExecRecover.sound` is the rule for recovery.
A program that does not fail can finish if its operations are enabled (`canFinish_of_wp`).
Where the operations are functions of the state, `run` computes the result of a program.
`Reaches` are the states of a client that calls programs one after the other and recovers after
crashes, and `Erases` says that a program is another one without a part of its answer.
-/

namespace CrashProg

/-- Programs over the operations `Op`; an operation of type `Op α` answers with an `α`. -/
inductive Prog (Op : Type → Type 1) : Type → Type 1
  | ret {α : Type} (v : α) : Prog Op α
  | op {α : Type} (o : Op α) : Prog Op α
  | bind {α β : Type} (p : Prog Op α) (k : α → Prog Op β) : Prog Op β

instance {Op : Type → Type 1} : Monad (Prog Op) where
  pure := .ret
  bind := .bind

/-- The end of an execution. -/
inductive Outcome (σ α : Type*)
  | failed
  | finished (s : σ) (v : α)
  | crashed (s : σ)

/-- What the operations do to states of type `σ`. -/
structure Sem (σ : Type*) (Op : Type → Type 1) where
  step : ∀ {α : Type}, σ → Op α → σ → α → Prop
  fail : ∀ {α : Type}, σ → Op α → Prop
  crash : ∀ {α : Type}, Op α → Prop

variable {σ : Type*} {Op : Type → Type 1} {α β ι : Type} (S : Sem σ Op)

/-- Executions of a program from a state. -/
inductive Exec : ∀ {α : Type}, σ → Prog Op α → Outcome σ α → Prop
  | ret {α : Type} (s : σ) (v : α) : Exec s (.ret v) (.finished s v)
  | step {α : Type} {s s' : σ} {o : Op α} {v : α} (h : S.step s o s' v) :
      Exec s (.op o) (.finished s' v)
  | fail {α : Type} {s : σ} {o : Op α} (h : S.fail s o) : Exec s (.op o) .failed
  | crash {α : Type} (s : σ) {o : Op α} (h : S.crash o) : Exec s (.op o) (.crashed s)
  | bindFinish {α β : Type} {s s' : σ} {p : Prog Op α} {k : α → Prog Op β} {v : α}
      {out : Outcome σ β} (h : Exec s p (.finished s' v)) (h' : Exec s' (k v) out) :
      Exec s (.bind p k) out
  | bindFail {α β : Type} {s : σ} {p : Prog Op α} {k : α → Prog Op β} (h : Exec s p .failed) :
      Exec s (.bind p k) .failed
  | bindCrash {α β : Type} {s s' : σ} {p : Prog Op α} {k : α → Prog Op β}
      (h : Exec s p (.crashed s')) : Exec s (.bind p k) (.crashed s')

/-- An outcome is good for a postcondition and a crash condition; a failure never is. -/
def Outcome.Sat (Q : α → σ → Prop) (C : σ → Prop) : Outcome σ α → Prop
  | .failed => False
  | .finished s v => Q v s
  | .crashed s => C s

/-- Every execution of `p` from `s` ends well. -/
def wp (p : Prog Op α) (Q : α → σ → Prop) (C : σ → Prop) (s : σ) : Prop :=
  ∀ out, Exec S s p out → out.Sat Q C

/-! ## Rules -/

variable {S} {Q Q' : α → σ → Prop} {C C' : σ → Prop} {s : σ}

theorem wp_mono {p : Prog Op α} (h : wp S p Q C s) (hQ : ∀ v s', Q v s' → Q' v s')
    (hC : ∀ s', C s' → C' s') : wp S p Q' C' s := by
  intro out e
  have := h out e
  cases out with
  | failed => exact this
  | finished s' v => exact hQ v s' this
  | crashed s' => exact hC s' this

/-- Nothing is asked of the states in which the program crashes. -/
theorem wp.anyCrash {p : Prog Op α} (h : wp S p Q C s) : wp S p Q (fun _ => True) s :=
  wp_mono h (fun _ _ => id) fun _ _ => trivial

theorem wp_and {p : Prog Op α} (h : wp S p Q C s) (h' : wp S p Q' C' s) :
    wp S p (fun v s' => Q v s' ∧ Q' v s') (fun s' => C s' ∧ C' s') s := by
  intro out e
  have h₁ := h out e
  have h₂ := h' out e
  cases out with
  | failed => exact h₁
  | finished s' v => exact ⟨h₁, h₂⟩
  | crashed s' => exact ⟨h₁, h₂⟩

theorem wp_ret {v : α} (h : Q v s) : wp S (.ret v) Q C s := by
  intro out e
  cases e
  exact h

theorem wp_pure {v : α} (h : Q v s) : wp S (pure v) Q C s := wp_ret h

theorem wp_op {o : Op α} (hf : ¬ S.fail s o) (hC : S.crash o → C s)
    (hQ : ∀ s' v, S.step s o s' v → Q v s') : wp S (.op o) Q C s := by
  intro out e
  cases e with
  | step h => exact hQ _ _ h
  | fail h => exact hf h
  | crash _ h => exact hC h

theorem wp_bind {p : Prog Op β} {k : β → Prog Op α}
    (h : wp S p (fun v => wp S (k v) Q C) C s) : wp S (p >>= k) Q C s := by
  intro out e
  cases e with
  | bindFinish e₁ e₂ => exact h _ e₁ _ e₂
  | bindFail e₁ => exact h _ e₁
  | bindCrash e₁ => exact h _ e₁

theorem wp_of_bind {p : Prog Op β} {k : β → Prog Op α} (h : wp S (.bind p k) Q C s) :
    wp S p (fun v => wp S (k v) Q C) C s := by
  intro out e
  cases out with
  | failed => exact h _ (.bindFail e)
  | crashed s' => exact h _ (.bindCrash e)
  | finished s' v => exact fun out' e' => h _ (.bindFinish e e')

/-- Sequencing, with a postcondition of the first program. -/
theorem wp_seq {p : Prog Op β} {k : β → Prog Op α} {R : β → σ → Prop} (h : wp S p R C s)
    (hk : ∀ v s', R v s' → wp S (k v) Q C s') : wp S (p >>= k) Q C s :=
  wp_bind (wp_mono h hk fun _ => id)

/-! ## Answers -/

/-- Wherever the program starts, its answer satisfies `R`. -/
def Returns (S : Sem σ Op) (p : Prog Op α) (R : α → Prop) : Prop :=
  ∀ s s' v, Exec S s p (.finished s' v) → R v

theorem returns_pure {R : α → Prop} {v : α} (h : R v) : Returns S (pure v) R := by
  intro s s' v' e
  cases e
  exact h

theorem returns_seq {R : β → Prop} {R' : α → Prop} {p : Prog Op β} {k : β → Prog Op α}
    (h : Returns S p R) (hk : ∀ v, R v → Returns S (k v) R') : Returns S (p >>= k) R' := by
  intro s s' v e
  cases e with
  | bindFinish e₁ e₂ => exact hk _ (h _ _ _ e₁) _ _ _ e₂

theorem returns_bind {R : α → Prop} {p : Prog Op β} {k : β → Prog Op α}
    (hk : ∀ v, Returns S (k v) R) : Returns S (p >>= k) R :=
  returns_seq (R := fun _ => True) (fun _ _ _ _ => trivial) fun v _ => hk v

theorem Returns.mono {R R' : α → Prop} {p : Prog Op α} (h : Returns S p R)
    (hR : ∀ v, R v → R' v) : Returns S p R' := fun s s' v e => hR v (h s s' v e)

/-- A weakest precondition together with what is known of the answer. -/
theorem wp_returns {R : α → Prop} {p : Prog Op α} (h : Returns S p R)
    (hp : wp S p (fun v s' => R v → Q v s') C s) : wp S p Q C s := by
  intro out e
  cases out with
  | failed => exact hp _ e
  | finished s' v => exact hp _ e (h _ _ _ e)
  | crashed s' => exact hp _ e

/-! ## Loops -/

/-- Run the body on the elements of a list in order, threading a value. -/
def forEach (f : ι → β → Prog Op β) : List ι → β → Prog Op β
  | [], x => pure x
  | a :: l, x => f a x >>= forEach f l

/-- Run the body for the indices `i, …, i + n - 1`, threading a value. -/
def forN (f : ℕ → β → Prog Op β) (i : ℕ) : ℕ → β → Prog Op β
  | 0, x => pure x
  | n + 1, x => f i x >>= forN f (i + 1) n

/-- The invariant of a list loop is indexed by the elements still to come. -/
theorem wp_forEach {f : ι → β → Prog Op β} (I : List ι → β → σ → Prop)
    (hf : ∀ a l x s, I (a :: l) x s → wp S (f a x) (I l) C s) :
    ∀ (l : List ι) (x : β) (s : σ), I l x s → wp S (forEach f l x) (I []) C s
  | [], _, _, h => wp_pure h
  | a :: l, x, s, h => wp_seq (hf a l x s h) fun x' s' h' => wp_forEach I hf l x' s' h'

/-- The invariant of a counting loop is indexed by the counter. -/
theorem wp_forN {f : ℕ → β → Prog Op β} (I : ℕ → β → σ → Prop) {N : ℕ}
    (hf : ∀ i x s, i < N → I i x s → wp S (f i x) (I (i + 1)) C s) :
    ∀ (n i : ℕ) (x : β) (s : σ), i + n = N → I i x s → wp S (forN f i n x) (I N) C s
  | 0, i, x, s, hi, h => by
    obtain rfl : i = N := hi
    exact wp_pure h
  | n + 1, i, x, s, hi, h =>
    wp_seq (hf i x s (by omega) h) fun x' s' h' => wp_forN I hf n (i + 1) x' s' (by omega) h'

/-! ## Programs that finish -/

/-- All operations that the program may come to satisfy `P`. -/
def Prog.All (P : ∀ {α : Type}, Op α → Prop) : ∀ {α : Type}, Prog Op α → Prop
  | _, .ret _ => True
  | _, .op o => P o
  | _, .bind p k => p.All P ∧ ∀ v, (k v).All P

section

variable {P : ∀ {α : Type}, Op α → Prop}

theorem all_forEach {f : ι → β → Prog Op β} (h : ∀ a x, (f a x).All P) :
    ∀ (l : List ι) (x : β), (forEach f l x).All P
  | [], _ => trivial
  | a :: l, x => ⟨h a x, fun x' => all_forEach h l x'⟩

theorem all_forN {f : ℕ → β → Prog Op β} (h : ∀ i x, (f i x).All P) :
    ∀ (i n : ℕ) (x : β), (forN f i n x).All P
  | _, 0, _ => trivial
  | i, n + 1, x => ⟨h i x, fun x' => all_forN h (i + 1) n x'⟩

theorem all_mapM' {f : ι → Prog Op β} (h : ∀ a, (f a).All P) : ∀ l : List ι, (l.mapM' f).All P
  | [] => trivial
  | a :: l => ⟨h a, fun _ => ⟨all_mapM' h l, fun _ => trivial⟩⟩

theorem all_ite {c : Prop} [Decidable c] {p q : Prog Op α} (hp : p.All P) (hq : q.All P) :
    (if c then p else q).All P := by
  split_ifs
  · exact hp
  · exact hq

end

/-- The operation can be carried out wherever it does not fail. -/
def Sem.Enabled (S : Sem σ Op) {α : Type} (o : Op α) : Prop :=
  ∀ s, ¬ S.fail s o → ∃ s' v, S.step s o s' v

/-- Some execution of the program from `s` finishes. -/
def CanFinish (S : Sem σ Op) (p : Prog Op α) (s : σ) : Prop := ∃ s' v, Exec S s p (.finished s' v)

theorem CanFinish.sat {p : Prog Op α} (h : CanFinish S p s) (hp : wp S p Q C s) :
    ∃ s' v, Exec S s p (.finished s' v) ∧ Q v s' := by
  obtain ⟨s', v, e⟩ := h
  exact ⟨s', v, e, hp _ e⟩

theorem canFinish_pure (v : α) (s : σ) : CanFinish S (pure v : Prog Op α) s := ⟨s, v, .ret s v⟩

/-- The second program is only asked to finish where the first one has finished. -/
theorem CanFinish.bind {p : Prog Op β} {k : β → Prog Op α} {R : β → σ → Prop}
    (h : CanFinish S p s) (hp : wp S p R C s) (hk : ∀ v s', R v s' → CanFinish S (k v) s') :
    CanFinish S (p >>= k) s := by
  obtain ⟨s', v, e, hR⟩ := h.sat hp
  obtain ⟨s'', w, e'⟩ := hk v s' hR
  exact ⟨s'', w, .bindFinish e e'⟩

/-- A program that does not fail can finish, if its operations are enabled. -/
theorem canFinish_of_wp {p : Prog Op α} (hp : p.All S.Enabled) (h : wp S p Q C s) :
    CanFinish S p s := by
  induction p generalizing s with
  | ret v => exact canFinish_pure v s
  | op o =>
    obtain ⟨s', v, hs⟩ := hp s fun hf => h _ (.fail hf)
    exact ⟨s', v, .step hs⟩
  | bind p k ihp ihk =>
    have hbind := wp_of_bind h
    exact (ihp hp.1 hbind).bind hbind fun v s' hv => ihk v (hp.2 v) hv

/-! ## Operations that are functions -/

/-- The answer of a program and the state it ends in, for operations that are functions. -/
def run {τ : Type*} (f : ∀ {α : Type}, Op α → τ → α × τ) : ∀ {α : Type}, Prog Op α → τ → α × τ
  | _, .ret v, s => (v, s)
  | _, .op o, s => f o s
  | _, .bind p k, s => run f (k (run f p s).1) (run f p s).2

theorem run_bind {τ : Type*} (f : ∀ {α : Type}, Op α → τ → α × τ) (p : Prog Op β)
    (k : β → Prog Op α) (s : τ) :
    run f (p >>= k) s = run f (k (run f p s).1) (run f p s).2 := rfl

/-- The result that `run` computes is that of an execution. -/
theorem exec_run {f : ∀ {α : Type}, Op α → σ → α × σ}
    (hf : ∀ {α : Type} (o : Op α) (s : σ), S.step s o (f o s).2 (f o s).1) (p : Prog Op α) (s : σ) :
    Exec S s p (.finished (run f p s).2 (run f p s).1) := by
  induction p generalizing s with
  | ret v => exact .ret s v
  | op o => exact .step (hf o s)
  | bind p k ihp ihk => exact .bindFinish (ihp s) (ihk _ _)

/-- What `wp` promises of a program holds of the result that `run` computes. -/
theorem wp_run {f : ∀ {α : Type}, Op α → σ → α × σ}
    (hf : ∀ {α : Type} (o : Op α) (s : σ), S.step s o (f o s).2 (f o s).1) {p : Prog Op α}
    (h : wp S p Q C s) : Q (run f p s).1 (run f p s).2 :=
  h _ (exec_run hf p s)

/-- An execution that finishes is the one that `run` computes. -/
theorem run_eq_of_exec {f : ∀ {α : Type}, Op α → σ → α × σ}
    (hf : ∀ {α : Type} (o : Op α) (s s' : σ) (v : α), S.step s o s' v → f o s = (v, s'))
    {p : Prog Op α} {s s' : σ} {v : α} (e : Exec S s p (.finished s' v)) :
    run f p s = (v, s') := by
  induction p generalizing s s' with
  | ret w =>
    cases e
    rfl
  | op o =>
    cases e with
    | step h => exact hf o s s' v h
  | bind p k ihp ihk =>
    cases e with
    | bindFinish e₁ e₂ =>
      have h₁ := ihp e₁
      have h₂ := ihk _ e₂
      have hrun : run f (.bind p k) s = run f (k (run f p s).1) (run f p s).2 := rfl
      rw [hrun, h₁, h₂]

/-! ## Recovery -/

/-- The end of a program that is recovered after each crash. -/
inductive RecOutcome (σ α β : Type*)
  | failed
  | finished (s : σ) (v : α)
  | recovered (s : σ) (v : β)

/-- Executions of `p`, with `r` started after every crash of `p` or of `r` itself.  The relation
`reboot` says which states the machine can restart in after it crashed in a given state. -/
inductive ExecRecover (S : Sem σ Op) (reboot : σ → σ → Prop) :
    ∀ {α β : Type}, σ → Prog Op α → Prog Op β → RecOutcome σ α β → Prop
  | fail {α β : Type} {s : σ} {p : Prog Op α} {r : Prog Op β} (h : Exec S s p .failed) :
      ExecRecover S reboot s p r .failed
  | finish {α β : Type} {s s' : σ} {v : α} {p : Prog Op α} {r : Prog Op β}
      (h : Exec S s p (.finished s' v)) : ExecRecover S reboot s p r (.finished s' v)
  | crashFail {α β : Type} {s s' s₀ : σ} {p : Prog Op α} {r : Prog Op β}
      (h : Exec S s p (.crashed s')) (hr : reboot s' s₀)
      (h' : ExecRecover S reboot s₀ r r .failed) : ExecRecover S reboot s p r .failed
  | crashFinish {α β : Type} {s s' s₀ s'' : σ} {v : β} {p : Prog Op α} {r : Prog Op β}
      (h : Exec S s p (.crashed s')) (hr : reboot s' s₀)
      (h' : ExecRecover S reboot s₀ r r (.finished s'' v)) :
      ExecRecover S reboot s p r (.recovered s'' v)
  | crashRecover {α β : Type} {s s' s₀ s'' : σ} {v : β} {p : Prog Op α} {r : Prog Op β}
      (h : Exec S s p (.crashed s')) (hr : reboot s' s₀)
      (h' : ExecRecover S reboot s₀ r r (.recovered s'' v)) :
      ExecRecover S reboot s p r (.recovered s'' v)

/-- A recovered outcome is good for the postconditions of the program and of its recovery. -/
def RecOutcome.Sat (Q : α → σ → Prop) (R : β → σ → Prop) : RecOutcome σ α β → Prop
  | .failed => False
  | .finished s v => Q v s
  | .recovered s v => R v s

/-- The recovery rule: `C` holds wherever the machine can crash, also during recovery, and from
every state that a reboot reaches from `C` the recovery program establishes `R`. -/
theorem ExecRecover.sound {reboot : σ → σ → Prop} {p : Prog Op α} {r : Prog Op β}
    {R : β → σ → Prop} {out : RecOutcome σ α β} (e : ExecRecover S reboot s p r out)
    (hp : wp S p Q C s) (hr : ∀ s₁ s₂, C s₁ → reboot s₁ s₂ → wp S r R C s₂) : out.Sat Q R := by
  induction e with
  | fail h => exact hp _ h
  | finish h => exact hp _ h
  | crashFail h hb _ ih => exact ih (hr _ _ (hp _ h) hb) hr
  | crashFinish h hb _ ih => exact ih (hr _ _ (hp _ h) hb) hr
  | crashRecover h hb _ ih => exact ih (hr _ _ (hp _ h) hb) hr

/-! ## Reachable states -/

/-- The execution has ended in the state `s` with the value `v`, with or without a crash. -/
def RecOutcome.Ends : RecOutcome σ β β → β → σ → Prop
  | .failed, _, _ => False
  | .finished s' v', v, s => v' = v ∧ s' = s
  | .recovered s' v', v, s => v' = v ∧ s' = s

theorem RecOutcome.Sat.of_ends {R : β → σ → Prop} {out : RecOutcome σ β β} {v : β}
    (h : out.Sat R R) (ho : out.Ends v s) : R v s := by
  cases out with
  | failed => exact ho.elim
  | finished s' v' =>
    obtain ⟨rfl, rfl⟩ := ho
    exact h
  | recovered s' v' =>
    obtain ⟨rfl, rfl⟩ := ho
    exact h

/-- What a client reaches that keeps a value of type `β` between its calls.  The machine may crash
during a call or between two calls, and is recovered by `r`. -/
inductive Reaches (S : Sem σ Op) (reboot : σ → σ → Prop) (init : β → σ → Prop)
    (valid : ι → Prop) (call : ι → β → Prog Op β) (r : Prog Op β) : β → σ → Prop
  | init {v : β} {s : σ} (h : init v s) : Reaches S reboot init valid call r v s
  | call {c : ι} {v v' : β} {s s' : σ} {out : RecOutcome σ β β}
      (h : Reaches S reboot init valid call r v s) (hc : valid c)
      (e : ExecRecover S reboot s (call c v) r out) (ho : out.Ends v' s') :
      Reaches S reboot init valid call r v' s'
  | stop {v v' : β} {s s₁ s' : σ} {out : RecOutcome σ β β}
      (h : Reaches S reboot init valid call r v s) (hb : reboot s s₁)
      (e : ExecRecover S reboot s₁ r r out) (ho : out.Ends v' s') :
      Reaches S reboot init valid call r v' s'

/-- The invariant rule for reachable states: the calls and the recovery establish `I` again, and
`C` holds wherever the machine can crash. -/
theorem Reaches.inv {reboot : σ → σ → Prop} {init : β → σ → Prop} {valid : ι → Prop}
    {call : ι → β → Prog Op β} {r : Prog Op β} {v : β} {I : β → σ → Prop}
    (h : Reaches S reboot init valid call r v s) (hinit : ∀ v s, init v s → I v s)
    (hcall : ∀ c v s, valid c → I v s → wp S (call c v) I C s)
    (hstop : ∀ v s, I v s → C s)
    (hr : ∀ s₁ s₂, C s₁ → reboot s₁ s₂ → wp S r I C s₂) : I v s := by
  induction h with
  | init h => exact hinit _ _ h
  | call _ hc e ho ih => exact (e.sound (hcall _ _ _ hc ih) hr).of_ends ho
  | stop _ hb e ho ih => exact (e.sound (hr _ _ (hstop _ _ ih) hb) hr).of_ends ho

theorem Reaches.mono {reboot : σ → σ → Prop} {init : β → σ → Prop} {valid valid' : ι → Prop}
    {call : ι → β → Prog Op β} {r : Prog Op β} {v : β}
    (h : Reaches S reboot init valid call r v s) (hv : ∀ c, valid c → valid' c) :
    Reaches S reboot init valid' call r v s := by
  induction h with
  | init h => exact .init h
  | call _ hc e ho ih => exact .call ih (hv _ hc) e ho
  | stop _ hb e ho ih => exact .stop ih hb e ho

/-! ## Equal behaviour -/

/-- The programs have the same executions. -/
def ExecEquiv (S : Sem σ Op) (p q : Prog Op α) : Prop := ∀ s out, Exec S s p out ↔ Exec S s q out

theorem ExecEquiv.refl (p : Prog Op α) : ExecEquiv S p p := fun _ _ => .rfl

theorem ExecEquiv.trans {p q r : Prog Op α} (h : ExecEquiv S p q) (h' : ExecEquiv S q r) : ExecEquiv S p r :=
  fun s out => (h s out).trans (h' s out)

theorem ExecEquiv.symm {p q : Prog Op α} (h : ExecEquiv S p q) : ExecEquiv S q p := fun s out => (h s out).symm

theorem execEquiv_pure_bind (v : β) (k : β → Prog Op α) : ExecEquiv S (pure v >>= k) (k v) := by
  intro s out
  constructor
  · intro e
    cases e with
    | bindFinish e₁ e₂ =>
      cases e₁
      exact e₂
    | bindFail e₁ => cases e₁
    | bindCrash e₁ => cases e₁
  · exact fun e => .bindFinish (.ret s v) e

theorem ExecEquiv.bind {p : Prog Op β} {k k' : β → Prog Op α} (hk : ∀ v, ExecEquiv S (k v) (k' v)) :
    ExecEquiv S (p >>= k) (p >>= k') := by
  -- one direction, for any two continuations
  have hle : ∀ {k k' : β → Prog Op α}, (∀ v, ExecEquiv S (k v) (k' v)) → ∀ s out,
      Exec S s (p >>= k) out → Exec S s (p >>= k') out := by
    intro k k' hk s out e
    cases e with
    | bindFinish e₁ e₂ => exact .bindFinish e₁ ((hk _ _ _).1 e₂)
    | bindFail e₁ => exact .bindFail e₁
    | bindCrash e₁ => exact .bindCrash e₁
  exact fun s out => ⟨hle hk s out, hle (fun v => (hk v).symm) s out⟩

theorem execEquiv_bind_assoc {γ : Type} (p : Prog Op γ) (k : γ → Prog Op β) (k' : β → Prog Op α) :
    ExecEquiv S ((p >>= k) >>= k') (p >>= fun v => k v >>= k') := by
  intro s out
  constructor
  · intro e
    cases e with
    | bindFinish e₁ e₂ =>
      cases e₁ with
      | bindFinish e₃ e₄ => exact .bindFinish e₃ (.bindFinish e₄ e₂)
    | bindFail e₁ =>
      cases e₁ with
      | bindFinish e₃ e₄ => exact .bindFinish e₃ (.bindFail e₄)
      | bindFail e₃ => exact .bindFail e₃
    | bindCrash e₁ =>
      cases e₁ with
      | bindFinish e₃ e₄ => exact .bindFinish e₃ (.bindCrash e₄)
      | bindCrash e₃ => exact .bindCrash e₃
  · intro e
    cases e with
    | bindFinish e₁ e₂ =>
      cases e₂ with
      | bindFinish e₃ e₄ => exact .bindFinish (.bindFinish e₁ e₃) e₄
      | bindFail e₃ => exact .bindFail (.bindFinish e₁ e₃)
      | bindCrash e₃ => exact .bindCrash (.bindFinish e₁ e₃)
    | bindFail e₁ => exact .bindFail (.bindFail e₁)
    | bindCrash e₁ => exact .bindCrash (.bindCrash e₁)

/-! ## Answers that are dropped -/

def Outcome.map (f : α → β) : Outcome σ α → Outcome σ β
  | .failed => .failed
  | .finished s v => .finished s (f v)
  | .crashed s => .crashed s

/-- Every execution of `p` is one of `q` whose answer is mapped by `f`. -/
def Erases (S : Sem σ Op) (f : α → β) (q : Prog Op α) (p : Prog Op β) : Prop :=
  ∀ s out, Exec S s p out → ∃ out', Exec S s q out' ∧ out = out'.map f

theorem Erases.wp {f : α → β} {q : Prog Op α} {p : Prog Op β} {R : β → σ → Prop}
    (h : Erases S f q p) (hq : wp S q (fun v => R (f v)) C s) : wp S p R C s := by
  intro out e
  obtain ⟨out', e', rfl⟩ := h s out e
  have := hq out' e'
  cases out' <;> exact this

theorem Erases.refl (p : Prog Op α) : Erases S id p p := by
  intro s out e
  refine ⟨out, e, ?_⟩
  cases out <;> rfl

theorem Erases.pure {f : α → β} (v : α) : Erases S f (pure v : Prog Op α) (pure (f v)) := by
  intro s out e
  cases e
  exact ⟨_, .ret s v, rfl⟩

theorem Erases.bind {γ δ : Type} {f : α → β} {g : γ → δ} {q : Prog Op γ} {p : Prog Op δ}
    {k' : γ → Prog Op α} {k : δ → Prog Op β} (h : Erases S g q p)
    (hk : ∀ v, Erases S f (k' v) (k (g v))) : Erases S f (q >>= k') (p >>= k) := by
  intro s out e
  cases e with
  | bindFinish e₁ e₂ =>
    obtain ⟨out₁, e₁', h₁⟩ := h _ _ e₁
    cases out₁ with
    | finished s' v =>
      cases h₁
      obtain ⟨out₂, e₂', h₂⟩ := hk v _ _ e₂
      exact ⟨out₂, .bindFinish e₁' e₂', h₂⟩
    | failed => cases h₁
    | crashed s' => cases h₁
  | bindFail e₁ =>
    obtain ⟨out₁, e₁', h₁⟩ := h _ _ e₁
    cases out₁ with
    | failed => exact ⟨.failed, .bindFail e₁', rfl⟩
    | finished s' v => cases h₁
    | crashed s' => cases h₁
  | bindCrash e₁ =>
    obtain ⟨out₁, e₁', h₁⟩ := h _ _ e₁
    cases out₁ with
    | crashed s' =>
      cases h₁
      exact ⟨.crashed _, .bindCrash e₁', rfl⟩
    | failed => cases h₁
    | finished s' v => cases h₁

/-- A program with something added to its answer. -/
theorem Erases.tag {f : α → β} {w : β → α} (hw : ∀ v, f (w v) = v) (p : Prog Op β) :
    Erases S f (p >>= fun v => Pure.pure (w v)) p := by
  intro s out e
  cases out with
  | failed => exact ⟨.failed, .bindFail e, rfl⟩
  | crashed s' => exact ⟨.crashed s', .bindCrash e, rfl⟩
  | finished s' v =>
    refine ⟨.finished s' (w v), .bindFinish e (.ret _ _), ?_⟩
    rw [Outcome.map, hw]

theorem Erases.forN {f : α → β} {q : ℕ → α → Prog Op α} {p : ℕ → β → Prog Op β}
    (h : ∀ i x, Erases S f (q i x) (p i (f x))) :
    ∀ (n i : ℕ) (x : α), Erases S f (forN q i n x) (forN p i n (f x))
  | 0, _, x => .pure x
  | n + 1, i, x => (h i x).bind fun x' => Erases.forN h n (i + 1) x'

end CrashProg
