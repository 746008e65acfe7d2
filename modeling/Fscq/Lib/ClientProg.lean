import Fscq.Lib.CrashProg

/-!
# Programs that call programs

The operations of a client are programs themselves, which pass along a value; `compile` puts these
programs in place of the operations.  If every operation does what an abstract semantics says, and a
crash in the middle of it leaves what one before or after the operation leaves, then what is proved of
the client in the abstract semantics holds of its program (`Implements.wp_compile`).
-/

namespace CrashProg

variable {σ τ τ' γ : Type*} {Op Op' : Type → Type 1} {α β : Type}

/-- The programs of the operations in place of the operations. -/
def compile (f : ∀ {α : Type}, Op α → β → Prog Op' (β × α)) :
    ∀ {α : Type}, Prog Op α → β → Prog Op' (β × α)
  | _, .ret v, b => .ret (b, v)
  | _, .op o, b => f o b
  | _, .bind p k, b => .bind (compile f p b) fun r => compile f (k r.2) r.1

/-! ## Rules for all programs -/

variable {T : Sem τ Op} {Q : α → τ → Prop} {C : τ → Prop} {t : τ} {p : Prog Op α}

/-- When the machine may crash before every operation, a program either can crash at once, or has
nothing to do. -/
theorem wp.start (hc : ∀ {α : Type} (o : Op α), T.crash o) (h : wp T p Q C t) :
    C t ∨ ∃ v, Q v t := by
  induction p with
  | ret v => exact .inr ⟨v, h _ (.ret t v)⟩
  | op o => exact .inl (h _ (.crash t (hc o)))
  | bind p k ihp ihk =>
    rcases ihp (wp_of_bind h) with hC | ⟨v, hv⟩
    · exact .inl hC
    · exact ihk v hv

/-- What all operations keep holds wherever the program ends or crashes. -/
theorem wp.keeps {I : τ → Prop}
    (hI : ∀ {α : Type} (o : Op α) (t t' : τ) (v : α), I t → ¬ T.fail t o → T.step t o t' v → I t')
    (h : wp T p Q C t) (hi : I t) :
    wp T p (fun v t' => Q v t' ∧ I t') (fun t' => C t' ∧ I t') t := by
  induction p generalizing t with
  | ret v => exact wp_ret ⟨h _ (.ret t v), hi⟩
  | op o =>
    have hf : ¬ T.fail t o := fun hf => h _ (.fail hf)
    exact wp_op hf (fun hc => ⟨h _ (.crash t hc), hi⟩)
      fun t' v hs => ⟨h _ (.step hs), hI o t t' v hi hf hs⟩
  | bind p k ihp ihk =>
    apply wp_bind
    apply wp_mono (ihp (wp_of_bind h) hi)
    · exact fun v t' ⟨hk, hi'⟩ => ihk v hk hi'
    · exact fun _ => id

/-- The operations also fail where `C` does not hold. -/
def Sem.check (T : Sem τ Op) (C : τ → Prop) : Sem τ Op :=
  { T with fail := fun t o => T.fail t o ∨ ¬ C t }

/-- What holds wherever the machine may crash holds before every operation. -/
theorem wp.check (hc : ∀ {α : Type} (o : Op α), T.crash o) (h : wp T p Q C t) :
    wp (T.check C) p Q C t := by
  induction p generalizing t with
  | ret v => exact wp_ret (h _ (.ret t v))
  | op o =>
    have hC := h _ (.crash t (hc o))
    refine wp_op (fun hf => ?_) (fun _ => hC) fun t' v hs => h _ (.step hs)
    exact hf.elim (fun hf => h _ (.fail hf)) fun hf => hf hC
  | bind p k ihp ihk =>
    apply wp_bind
    apply wp_mono (ihp (wp_of_bind h))
    · exact fun v t' hk => ihk v hk
    · exact fun _ => id

/-- Another semantics of the same operations, in which those that the program may come to fail only
where they did before. -/
theorem wp.map {T' : Sem τ' Op} {f : τ' → τ} {P : ∀ {α : Type}, Op α → Prop}
    (hstep : ∀ {α : Type} (o : Op α) (t t' : τ') (v : α), T'.step t o t' v →
      T.step (f t) o (f t') v)
    (hfail : ∀ {α : Type} (o : Op α) (t : τ'), P o → T'.fail t o → T.fail (f t) o)
    (hcrash : ∀ {α : Type} (o : Op α), T'.crash o → T.crash o) {t : τ'} (hp : p.All P)
    (h : wp T p Q C (f t)) : wp T' p (fun v t' => Q v (f t')) (fun t' => C (f t')) t := by
  induction p generalizing t with
  | ret v => exact wp_ret (h _ (.ret (f t) v))
  | op o =>
    refine wp_op (fun hf => ?_) (fun hc => h _ (.crash _ (hcrash o hc))) fun t' v hs => ?_
    · exact h _ (.fail (hfail o t hp hf))
    · exact h _ (.step (hstep o t t' v hs))
  | bind p k ihp ihk =>
    apply wp_bind
    apply wp_mono (ihp hp.1 (wp_of_bind h))
    · exact fun v t' hk => ihk v (hp.2 v) hk
    · exact fun _ => id

/-! ## Answers that say less -/

/-- Every execution of `p` is one of `q`, whose answer is the one of `p` mapped by `f`. -/
def Forgets {β : Type} (S : Sem τ Op) (f : α → β) (p : Prog Op α) (q : Prog Op β) : Prop :=
  ∀ s out, Exec S s p out → Exec S s q (out.map f)

section

variable {δ : Type} {g : α → δ}

theorem forgets_id (p : Prog Op α) : Forgets T id p p := by
  intro s out e
  cases out <;> exact e

theorem forgets_pure (v : α) : Forgets T g (pure v : Prog Op α) (pure (g v)) := by
  intro s out e
  cases e
  exact .ret s (g v)

theorem forgets_bind {ε : Type} {q : Prog Op ε} {k : ε → Prog Op α} {k' : ε → Prog Op δ}
    (hk : ∀ v, Forgets T g (k v) (k' v)) : Forgets T g (q >>= k) (q >>= k') := by
  intro s out e
  cases e with
  | bindFinish e e' => exact .bindFinish e (hk _ _ _ e')
  | bindFail e => exact .bindFail e
  | bindCrash e => exact .bindCrash e

/-- The program goes on with what it forgets. -/
theorem forgets_map {k : α → Prog Op δ} (hk : ∀ v, k v = pure (g v)) : Forgets T g p (p >>= k) := by
  intro s out e
  cases out with
  | failed => exact .bindFail e
  | crashed s' => exact .bindCrash e
  | finished s' v =>
    refine .bindFinish e ?_
    rw [hk]
    exact .ret s' (g v)

theorem Forgets.run_eq {f : ∀ {α : Type}, Op α → τ → α × τ} {q : Prog Op δ} (h : Forgets T g p q)
    (hf : ∀ {α : Type} (o : Op α) (s : τ), T.step s o (f o s).2 (f o s).1)
    (hf' : ∀ {α : Type} (o : Op α) (s s' : τ) (v : α), T.step s o s' v → f o s = (v, s')) (s : τ) :
    run f q s = (g (run f p s).1, (run f p s).2) :=
  run_eq_of_exec hf' (h s _ (exec_run hf p s))

end

/-! ## Clients -/

/-- The programs `f` of the operations do what `T` says, where `R` relates the states.  What a crash
leaves of a state is the set `see` of it, and `seen` of an abstract one. -/
structure Implements (S : Sem σ Op') (T : Sem τ Op) (f : ∀ {α : Type}, Op α → β → Prog Op' (β × α))
    (R : τ → β → σ → Prop) (see : σ → Set γ) (seen : τ → Set γ) : Prop where
  op {α : Type} {o : Op α} {t : τ} {b : β} {s : σ} (h : R t b s) (hf : ¬ T.fail t o) :
    wp S (f o b) (fun r s' => ∃ t', T.step t o t' r.2 ∧ R t' r.1 s')
      (fun s' => ∀ x ∈ see s', x ∈ seen t ∨ ∃ t' v, T.step t o t' v ∧ x ∈ seen t') s
  crash {α : Type} (o : Op α) : T.crash o

variable {S : Sem σ Op'} {f : ∀ {α : Type}, Op α → β → Prog Op' (β × α)} {R : τ → β → σ → Prop}
  {see : σ → Set γ} {seen : τ → Set γ} {b : β} {s : σ}

/-- A crash of the program leaves what one between two operations of the client leaves. -/
theorem Implements.wp_compile (hi : Implements S T f R see seen) (h : wp T p Q C t) (hR : R t b s) :
    wp S (compile f p b) (fun r s' => ∃ t', R t' r.1 s' ∧ Q r.2 t')
      (fun s' => ∀ x ∈ see s', ∃ t', (C t' ∨ ∃ v, Q v t') ∧ x ∈ seen t') s := by
  induction p generalizing t b s with
  | ret v => exact wp_ret ⟨t, hR, h _ (.ret t v)⟩
  | op o =>
    have hf : ¬ T.fail t o := fun hf => h _ (.fail hf)
    apply wp_mono (hi.op hR hf)
    · rintro r s' ⟨t', hs, hR'⟩
      exact ⟨t', hR', h _ (.step hs)⟩
    · intro s' hs' x hx
      rcases hs' x hx with hx | ⟨t', v, hs, hx⟩
      · exact ⟨t, .inl (h _ (.crash t (hi.crash o))), hx⟩
      · exact ⟨t', .inr ⟨v, h _ (.step hs)⟩, hx⟩
  | bind p k ihp ihk =>
    apply wp_bind
    apply wp_mono (ihp (wp_of_bind h) hR)
    · rintro r s' ⟨t', hR', hk⟩
      exact ihk r.2 hk hR'
    · intro s' hs' x hx
      obtain ⟨t', ht', hx⟩ := hs' x hx
      refine ⟨t', ?_, hx⟩
      rcases ht' with hC | ⟨v, hk⟩
      · exact .inl hC
      · exact wp.start hi.crash hk

end CrashProg
