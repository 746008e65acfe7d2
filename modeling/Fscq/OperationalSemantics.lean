import Fscq.Prog

/-!
# The physical disk

The semantics of the language keeps for every block the set of its possible values and lets a crash
choose among them.  A physical disk keeps a queue of buffered values for every block, flushes some
of the oldest ones at any time, and loses what is buffered when it crashes.  This file shows that
every execution of a program with recovery on the physical disk is one of the language, up to
background syncing, and that background syncing itself cannot be observed.
-/

namespace Fscq

open CrashProg

section

variable [Platform] {α β : Type}

/-! ## Executions with a given background activity -/

/-- The semantics of the language, where `R` says what happens in the background of each step. -/
def semWith (R : Rawdisk → Rawdisk → Prop) : Sem St DiskOp where
  step s o s' v := (∃ s₁ m, Step s o s₁ v ∧ R s₁.disk m ∧ s' = { s₁ with disk := m }) ∨
    (NoEffect o ∧ s' = s)
  fail s o := FailStep s o
  crash o := CrashStep o

theorem semWith_possibleSync : semWith PossibleSync = diskSem := rfl

theorem exec_semWith_mono {R R' : Rawdisk → Rawdisk → Prop} (hR : ∀ m m', R m m' → R' m m')
    {s : St} {p : Prog α} {out : Outcome St α} (e : Exec (semWith R) s p out) :
    Exec (semWith R') s p out := by
  induction e with
  | ret s v => exact .ret s v
  | step h =>
    refine .step ?_
    rcases h with ⟨s₁, m, h₁, h₂, h₃⟩ | h
    · exact .inl ⟨s₁, m, h₁, hR _ _ h₂, h₃⟩
    · exact .inr h
  | fail h => exact .fail h
  | crash s h => exact .crash s h
  | bindFinish _ _ ih₁ ih₂ => exact .bindFinish ih₁ ih₂
  | bindFail _ ih => exact .bindFail ih
  | bindCrash _ ih => exact .bindCrash ih

/-- Two states that differ in their disks only, which are related by `R`. -/
structure DiskRel (R : Rawdisk → Rawdisk → Prop) (s s' : St) : Prop where
  disk : R s.disk s'.disk
  vm : s'.vm = s.vm
  hm : s'.hm = s.hm

/-- The same outcome, on disks related by `R`. -/
inductive OutcomeDiskR (R : Rawdisk → Rawdisk → Prop) : Outcome St α → Outcome St α → Prop
  | failed : OutcomeDiskR R .failed .failed
  | finished {s s' : St} (h : DiskRel R s s') (v : α) :
      OutcomeDiskR R (.finished s v) (.finished s' v)
  | crashed {s s' : St} (h : DiskRel R s s') : OutcomeDiskR R (.crashed s) (.crashed s')

/-- The same outcome of a program with recovery, on disks related by `R`. -/
inductive RoutcomeDiskR (R : Rawdisk → Rawdisk → Prop) :
    RecOutcome St α β → RecOutcome St α β → Prop
  | failed : RoutcomeDiskR R .failed .failed
  | finished {s s' : St} (h : DiskRel R s s') (v : α) :
      RoutcomeDiskR R (.finished s v) (.finished s' v)
  | recovered {s s' : St} (h : DiskRel R s s') (v : β) :
      RoutcomeDiskR R (.recovered s v) (.recovered s' v)

/-- The state in which the machine restarts with the disk `d`. -/
def restart (s : St) (d : Rawdisk) : St := ⟨d, fun _ => none, s.hm⟩

/-- Executions with recovery, over any execution relation and any relation between the disk at a
crash and the one after it. -/
inductive ExecRecoverR (exec : ∀ α : Type, St → Prog α → Outcome St α → Prop)
    (crash : Rawdisk → Rawdisk → Prop) :
    ∀ {α β : Type}, St → Prog α → Prog β → RecOutcome St α β → Prop
  | fail {α β : Type} {s : St} {p : Prog α} {r : Prog β} (h : exec α s p .failed) :
      ExecRecoverR exec crash s p r .failed
  | finish {α β : Type} {s s' : St} {v : α} {p : Prog α} {r : Prog β}
      (h : exec α s p (.finished s' v)) : ExecRecoverR exec crash s p r (.finished s' v)
  | crashFail {α β : Type} {s s' : St} {d : Rawdisk} {p : Prog α} {r : Prog β}
      (h : exec α s p (.crashed s')) (hd : crash s'.disk d)
      (h' : ExecRecoverR exec crash (restart s' d) r r .failed) :
      ExecRecoverR exec crash s p r .failed
  | crashFinish {α β : Type} {s s' s'' : St} {d : Rawdisk} {v : β} {p : Prog α} {r : Prog β}
      (h : exec α s p (.crashed s')) (hd : crash s'.disk d)
      (h' : ExecRecoverR exec crash (restart s' d) r r (.finished s'' v)) :
      ExecRecoverR exec crash s p r (.recovered s'' v)
  | crashRecover {α β : Type} {s s' s'' : St} {d : Rawdisk} {v : β} {p : Prog α} {r : Prog β}
      (h : exec α s p (.crashed s')) (hd : crash s'.disk d)
      (h' : ExecRecoverR exec crash (restart s' d) r r (.recovered s'' v)) :
      ExecRecoverR exec crash s p r (.recovered s'' v)

theorem reboot_restart {s : St} {d : Rawdisk} (h : PossibleCrash s.disk d) :
    Reboot s (restart s d) := ⟨h, rfl, rfl⟩

theorem eq_restart {s s' : St} (h : Reboot s s') : s' = restart s s'.disk := by
  obtain ⟨d, vm, hm⟩ := s'
  obtain ⟨-, rfl, rfl⟩ := h
  rfl

/-- The executions with recovery of the language, in this form. -/
theorem execRecover_iff {s : St} {p : Prog α} {r : Prog β} {out : RecOutcome St α β} :
    ExecRecover diskSem Reboot s p r out ↔
      ExecRecoverR (fun _ s p out => Exec diskSem s p out) PossibleCrash s p r out := by
  constructor
  · intro e
    induction e with
    | fail h => exact .fail h
    | finish h => exact .finish h
    | crashFail h hr _ ih =>
      rw [eq_restart hr] at ih
      exact .crashFail h hr.1 ih
    | crashFinish h hr _ ih =>
      rw [eq_restart hr] at ih
      exact .crashFinish h hr.1 ih
    | crashRecover h hr _ ih =>
      rw [eq_restart hr] at ih
      exact .crashRecover h hr.1 ih
  · intro e
    induction e with
    | fail h => exact .fail h
    | finish h => exact .finish h
    | crashFail h hd _ ih => exact .crashFail h (reboot_restart hd) ih
    | crashFinish h hd _ ih => exact .crashFinish h (reboot_restart hd) ih
    | crashRecover h hd _ ih => exact .crashRecover h (reboot_restart hd) ih

/-! ## The physical semantics -/

/-- Some of the oldest buffered values of each block reach the platter.  In `(v, vs)` the value `v`
is the current one and the last of `v :: vs` is on the platter. -/
def FlushDisk (d d' : Rawdisk) : Prop := ∀ a, match d a with
  | none => d' a = none
  | some (v, vs) => ∃ n, d' a = some (v, vs.take n)

/-- The value on the platter. -/
def diskval (v : Valu) : List Valu → Valu
  | [] => v
  | v' :: vs => diskval v' vs

/-- The buffered values are lost. -/
def DiscardBuffers (d d' : Rawdisk) : Prop := ∀ a, match d a with
  | none => d' a = none
  | some (v, vs) => d' a = some (diskval v vs, [])

/-- Executions on the physical disk, with some flushing after the last step. -/
def PExec (s : St) (p : Prog α) (out : Outcome St α) : Prop :=
  ∃ out', Exec (semWith FlushDisk) s p out' ∧ OutcomeDiskR FlushDisk out' out

def PExecRecover (s : St) (p : Prog α) (r : Prog β) (out : RecOutcome St α β) : Prop :=
  ExecRecoverR (fun _ => PExec) DiscardBuffers s p r out

omit [Platform] in
theorem FlushDisk.possibleSync {d d' : Rawdisk} (h : FlushDisk d d') : PossibleSync d d' := by
  intro a
  have ha := h a
  cases hd : d a with
  | none =>
    rw [hd] at ha
    exact .inl ⟨rfl, ha⟩
  | some vs =>
    obtain ⟨v, l⟩ := vs
    rw [hd] at ha
    obtain ⟨n, ha⟩ := ha
    exact .inr ⟨v, l, l.take n, rfl, ha, List.take_subset n l⟩

omit [Platform] in
theorem diskval_take_mem (v : Valu) (l : List Valu) (n : ℕ) : diskval v (l.take n) ∈ v :: l := by
  induction l generalizing v n with
  | nil => simp [diskval]
  | cons w l ih =>
    cases n with
    | zero => simp [diskval]
    | succ n => exact List.mem_cons_of_mem _ (ih w n)

omit [Platform] in
/-- What is left after a flush and the loss of the buffers is a crash disk. -/
theorem FlushDisk.possibleCrash {d d' d'' : Rawdisk} (h : FlushDisk d d')
    (h' : DiscardBuffers d' d'') : PossibleCrash d d'' := by
  intro a
  have ha := h a
  have ha' := h' a
  cases hd : d a with
  | none =>
    rw [hd] at ha
    rw [ha] at ha'
    exact .inl ⟨rfl, ha'⟩
  | some vs =>
    obtain ⟨v, l⟩ := vs
    rw [hd] at ha
    obtain ⟨n, ha⟩ := ha
    rw [ha] at ha'
    exact .inr ⟨(v, l), _, rfl, ha', diskval_take_mem v l n⟩

theorem DiskRel.mono {R R' : Rawdisk → Rawdisk → Prop} (hR : ∀ m m', R m m' → R' m m')
    {s s' : St} (h : DiskRel R s s') : DiskRel R' s s' := ⟨hR _ _ h.disk, h.vm, h.hm⟩

theorem PExec.exec {s : St} {p : Prog α} {out : Outcome St α} (h : PExec s p out) :
    ∃ out', Exec diskSem s p out' ∧ OutcomeDiskR FlushDisk out' out := by
  obtain ⟨out', e, ho⟩ := h
  exact ⟨out', exec_semWith_mono (fun _ _ => FlushDisk.possibleSync) e, ho⟩

/-- A crash of the physical disk is a crash of the language that restarts in the same state. -/
theorem PExec.crashed {s s' : St} {d : Rawdisk} {p : Prog α} (h : PExec s p (.crashed s'))
    (hd : DiscardBuffers s'.disk d) :
    ∃ s₁, Exec diskSem s p (.crashed s₁) ∧ Reboot s₁ (restart s' d) := by
  obtain ⟨out, e, ho⟩ := h.exec
  cases ho with
  | crashed h' => exact ⟨_, e, h'.disk.possibleCrash hd, rfl, h'.hm⟩

/-- Every execution with recovery on the physical disk is one of the language, with the same answer,
variables and hashes and with a final disk that some syncing brings to the physical one. -/
theorem pexecRecover_to_execRecover {s : St} {p : Prog α} {r : Prog β} {out : RecOutcome St α β}
    (h : PExecRecover s p r out) : ∃ out', ExecRecover diskSem Reboot s p r out' ∧
      RoutcomeDiskR PossibleSync out' out := by
  have hsync : ∀ d d' : Rawdisk, FlushDisk d d' → PossibleSync d d' :=
    fun _ _ => FlushDisk.possibleSync
  induction h with
  | fail h =>
    obtain ⟨out', e, ho⟩ := PExec.exec h
    cases ho
    exact ⟨_, .fail e, .failed⟩
  | finish h =>
    obtain ⟨out', e, ho⟩ := PExec.exec h
    cases ho with
    | finished h' => exact ⟨_, .finish e, .finished (h'.mono hsync) _⟩
  | crashFail h hd _ ih =>
    obtain ⟨s₁, e, hr⟩ := PExec.crashed h hd
    obtain ⟨out', e', ho⟩ := ih
    cases ho
    exact ⟨_, .crashFail e hr e', .failed⟩
  | crashFinish h hd _ ih =>
    obtain ⟨s₁, e, hr⟩ := PExec.crashed h hd
    obtain ⟨out', e', ho⟩ := ih
    cases ho with
    | finished h' => exact ⟨_, .crashFinish e hr e', .recovered h' _⟩
  | crashRecover h hd _ ih =>
    obtain ⟨s₁, e, hr⟩ := PExec.crashed h hd
    obtain ⟨out', e', ho⟩ := ih
    cases ho with
    | recovered h' => exact ⟨_, .crashRecover e hr e', .recovered h' _⟩

/-! ## Background syncing -/

omit [Platform] in
theorem PossibleSync.of_some {d d' : Rawdisk} {a : ℕ} {v : Valu} {l' : List Valu}
    (h : PossibleSync d d') (ha : d' a = some (v, l')) : ∃ l, d a = some (v, l) ∧ l' ⊆ l := by
  rcases h a with ⟨-, h'⟩ | ⟨v', k, k', h₁, h₂, hk⟩
  · rw [ha] at h'
    cases h'
  · rw [ha, Option.some.injEq, Prod.mk.injEq] at h₂
    obtain ⟨rfl, rfl⟩ := h₂
    exact ⟨k, h₁, hk⟩

omit [Platform] in
theorem PossibleSync.of_none {d d' : Rawdisk} {a : ℕ} (h : PossibleSync d d')
    (ha : d' a = none) : d a = none := by
  rcases h a with ⟨h', -⟩ | ⟨v, k, k', -, h₂, -⟩
  · exact h'
  · rw [ha] at h₂
    cases h₂

omit [Platform] in
theorem PossibleSync.update {d d' : Rawdisk} {a : ℕ} {v : Valu} {l l' : List Valu}
    (h : PossibleSync d d') (hl : l' ⊆ l) :
    PossibleSync (Function.update d a (some (v, l))) (Function.update d' a (some (v, l'))) := by
  intro b
  by_cases hb : b = a
  · subst hb
    exact .inr ⟨v, l, l', by simp, by simp, hl⟩
  · simpa [hb] using h b

omit [Platform] in
theorem PossibleSync.syncMem {d d' : Rawdisk} (h : PossibleSync d d') :
    PossibleSync (syncMem d) (syncMem d') := by
  intro a
  rcases h a with ⟨h₁, h₂⟩ | ⟨v, k, k', h₁, h₂, -⟩
  · exact .inl ⟨by simp [Fscq.syncMem, h₁], by simp [Fscq.syncMem, h₂]⟩
  · exact .inr ⟨v, [], [], by simp [Fscq.syncMem, h₁], by simp [Fscq.syncMem, h₂], fun _ => id⟩

omit [Platform] in
theorem PossibleSync.possibleCrash {d d' d'' : Rawdisk} (h : PossibleSync d d')
    (h' : PossibleCrash d' d'') : PossibleCrash d d'' := by
  intro a
  rcases h' a with ⟨h₁, h₂⟩ | ⟨⟨v, l'⟩, v', h₁, h₂, hv⟩
  · exact .inl ⟨h.of_none h₁, h₂⟩
  · obtain ⟨l, h₃, hl⟩ := h.of_some h₁
    refine .inr ⟨(v, l), v', h₃, h₂, ?_⟩
    rcases List.mem_cons.1 hv with rfl | hv
    · exact List.mem_cons_self
    · exact List.mem_cons_of_mem _ (hl hv)

/-- A step after some syncing can be taken before it. -/
theorem step_sync_later {s s₁ s₂ : St} {o : DiskOp α} {v : α} (hs : DiskRel PossibleSync s s₁)
    (h : Step s₁ o s₂ v) : ∃ s', Step s o s' v ∧ DiskRel PossibleSync s' s₂ := by
  obtain ⟨d, vm, hm⟩ := s
  obtain ⟨d₁, vm₁, hm₁⟩ := s₁
  obtain ⟨hd, rfl, rfl⟩ := hs
  dsimp only at hd
  cases o with
  | read a =>
    obtain ⟨x, hx, rfl⟩ := h
    obtain ⟨l, hl, -⟩ := hd.of_some hx
    exact ⟨_, ⟨l, hl, rfl⟩, hd, rfl, rfl⟩
  | write a w =>
    obtain ⟨v₀, x, hx, rfl⟩ := h
    obtain ⟨l, hl, hsub⟩ := hd.of_some hx
    exact ⟨_, ⟨v₀, l, hl, rfl⟩, hd.update (List.cons_subset_cons v₀ hsub), rfl, rfl⟩
  | sync =>
    obtain rfl := h
    exact ⟨_, rfl, hd.syncMem, rfl, rfl⟩
  | trim a =>
    obtain ⟨⟨v₀, x⟩, vs', hx, rfl⟩ := h
    obtain ⟨l, hl, -⟩ := hd.of_some hx
    exact ⟨_, ⟨_, vs', hl, rfl⟩, hd.update fun _ => id, rfl, rfl⟩
  | varAlloc w =>
    obtain ⟨h₁, rfl⟩ := h
    exact ⟨_, ⟨h₁, rfl⟩, hd, rfl, rfl⟩
  | varDelete i =>
    obtain ⟨h₁, rfl⟩ := h
    exact ⟨_, ⟨h₁, rfl⟩, hd, rfl, rfl⟩
  | varGet i T =>
    obtain ⟨h₁, rfl⟩ := h
    exact ⟨_, ⟨h₁, rfl⟩, hd, rfl, rfl⟩
  | varSet i w =>
    obtain ⟨h₁, rfl⟩ := h
    exact ⟨_, ⟨h₁, rfl⟩, hd, rfl, rfl⟩
  | alertModified => exact h.elim
  | debug str n => exact h.elim
  | rdtsc => exact h.elim
  | hash buf =>
    obtain ⟨h₁, h₂, rfl⟩ := h
    exact ⟨_, ⟨h₁, h₂, rfl⟩, hd, rfl, rfl⟩
  | hash2 buf₁ buf₂ =>
    obtain ⟨h₁, h₂, rfl⟩ := h
    exact ⟨_, ⟨h₁, h₂, rfl⟩, hd, rfl, rfl⟩

theorem failStep_sync_later {s s₁ : St} {o : DiskOp α} (hs : DiskRel PossibleSync s s₁)
    (h : FailStep s₁ o) : FailStep s o := by
  obtain ⟨d, vm, hm⟩ := s
  obtain ⟨d₁, vm₁, hm₁⟩ := s₁
  obtain ⟨hd, rfl, rfl⟩ := hs
  cases o with
  | read a => exact hd.of_none h
  | write a v => exact hd.of_none h
  | trim a => exact hd.of_none h
  | _ => exact h

theorem DiskRel.trans {s₁ s₂ s₃ : St} (h : DiskRel PossibleSync s₁ s₂)
    (h' : DiskRel PossibleSync s₂ s₃) : DiskRel PossibleSync s₁ s₃ :=
  ⟨h.disk.trans h'.disk, h'.vm.trans h.vm, h'.hm.trans h.hm⟩

/-- An execution without background syncing that starts after some syncing can start before it. -/
theorem exec_eq_sync_later {s s₁ : St} {p : Prog α} {out : Outcome St α}
    (e : Exec (semWith Eq) s₁ p out) (hs : DiskRel PossibleSync s s₁) :
    ∃ out', Exec (semWith Eq) s p out' ∧ OutcomeDiskR PossibleSync out' out := by
  induction e generalizing s with
  | ret s₁ v => exact ⟨_, .ret s v, .finished hs v⟩
  | step h =>
    rcases h with ⟨s₂, m, h₁, rfl, rfl⟩ | ⟨hn, rfl⟩
    · obtain ⟨s', h', hs'⟩ := step_sync_later hs h₁
      exact ⟨_, .step (.inl ⟨s', _, h', rfl, rfl⟩), .finished hs' _⟩
    · exact ⟨_, .step (.inr ⟨hn, rfl⟩), .finished hs _⟩
  | fail h => exact ⟨_, .fail (failStep_sync_later hs h), .failed⟩
  | crash s₁ h => exact ⟨_, .crash s h, .crashed hs⟩
  | bindFinish _ _ ih₁ ih₂ =>
    obtain ⟨out₁, e₁, ho₁⟩ := ih₁ hs
    cases ho₁ with
    | finished hs' =>
      obtain ⟨out₂, e₂, ho₂⟩ := ih₂ hs'
      exact ⟨_, .bindFinish e₁ e₂, ho₂⟩
  | bindFail _ ih =>
    obtain ⟨out₁, e₁, ho₁⟩ := ih hs
    cases ho₁
    exact ⟨_, .bindFail e₁, .failed⟩
  | bindCrash _ ih =>
    obtain ⟨out₁, e₁, ho₁⟩ := ih hs
    cases ho₁ with
    | crashed hs' => exact ⟨_, .bindCrash e₁, .crashed hs'⟩

theorem OutcomeDiskR.trans {o₁ o₂ o₃ : Outcome St α} (h : OutcomeDiskR PossibleSync o₁ o₂)
    (h' : OutcomeDiskR PossibleSync o₂ o₃) : OutcomeDiskR PossibleSync o₁ o₃ := by
  cases h with
  | failed => exact h'
  | finished hs v =>
    cases h' with
    | finished hs' => exact .finished (hs.trans hs') v
  | crashed hs =>
    cases h' with
    | crashed hs' => exact .crashed (hs.trans hs')

theorem DiskRel.refl (s : St) : DiskRel PossibleSync s s := ⟨.refl s.disk, rfl, rfl⟩

/-- All background syncing of an execution can wait until its end. -/
theorem exec_sync_obs_irrelevant {s : St} {p : Prog α} {out : Outcome St α}
    (e : Exec diskSem s p out) :
    ∃ out', Exec (semWith Eq) s p out' ∧ OutcomeDiskR PossibleSync out' out := by
  induction e with
  | ret s v => exact ⟨_, .ret s v, .finished (.refl s) v⟩
  | step h =>
    rcases h with ⟨s₁, m, h₁, hm, rfl⟩ | ⟨hn, rfl⟩
    · have hs : DiskRel PossibleSync s₁ { s₁ with disk := m } := ⟨hm, rfl, rfl⟩
      exact ⟨_, .step (.inl ⟨s₁, _, h₁, rfl, rfl⟩), .finished hs _⟩
    · exact ⟨_, .step (.inr ⟨hn, rfl⟩), .finished (.refl _) _⟩
  | fail h => exact ⟨_, .fail h, .failed⟩
  | crash s h => exact ⟨_, .crash s h, .crashed (.refl s)⟩
  | bindFinish _ _ ih₁ ih₂ =>
    obtain ⟨out₁, e₁, ho₁⟩ := ih₁
    obtain ⟨out₂, e₂, ho₂⟩ := ih₂
    cases ho₁ with
    | finished hs =>
      -- the syncing of the first part moves past the second one
      obtain ⟨out₃, e₃, ho₃⟩ := exec_eq_sync_later e₂ hs
      exact ⟨_, .bindFinish e₁ e₃, ho₃.trans ho₂⟩
  | bindFail _ ih =>
    obtain ⟨out₁, e₁, ho₁⟩ := ih
    cases ho₁
    exact ⟨_, .bindFail e₁, .failed⟩
  | bindCrash _ ih =>
    obtain ⟨out₁, e₁, ho₁⟩ := ih
    cases ho₁ with
    | crashed hs => exact ⟨_, .bindCrash e₁, .crashed hs⟩

/-- Nor can it be observed by a program with recovery. -/
theorem execRecover_without_sync {s : St} {p : Prog α} {r : Prog β} {out : RecOutcome St α β}
    (e : ExecRecover diskSem Reboot s p r out) :
    ∃ out', ExecRecover (semWith Eq) Reboot s p r out' ∧ RoutcomeDiskR PossibleSync out' out := by
  have hcrash : ∀ {γ : Type} {s s' s₀ : St} {p : Prog γ}, Exec diskSem s p (.crashed s') →
      Reboot s' s₀ → ∃ s₁, Exec (semWith Eq) s p (.crashed s₁) ∧ Reboot s₁ s₀ := by
    intro γ s s' s₀ p e hr
    obtain ⟨out', e', ho⟩ := exec_sync_obs_irrelevant e
    cases ho with
    | crashed hs => exact ⟨_, e', hs.disk.possibleCrash hr.1, hr.2.1, hr.2.2.trans hs.hm⟩
  induction e with
  | fail h =>
    obtain ⟨out', e', ho⟩ := exec_sync_obs_irrelevant h
    cases ho
    exact ⟨_, .fail e', .failed⟩
  | finish h =>
    obtain ⟨out', e', ho⟩ := exec_sync_obs_irrelevant h
    cases ho with
    | finished hs => exact ⟨_, .finish e', .finished hs _⟩
  | crashFail h hr _ ih =>
    obtain ⟨s₁, e₁, hr₁⟩ := hcrash h hr
    obtain ⟨out', e', ho⟩ := ih
    cases ho
    exact ⟨_, .crashFail e₁ hr₁ e', .failed⟩
  | crashFinish h hr _ ih =>
    obtain ⟨s₁, e₁, hr₁⟩ := hcrash h hr
    obtain ⟨out', e', ho⟩ := ih
    cases ho with
    | finished hs => exact ⟨_, .crashFinish e₁ hr₁ e', .recovered hs _⟩
  | crashRecover h hr _ ih =>
    obtain ⟨s₁, e₁, hr₁⟩ := hcrash h hr
    obtain ⟨out', e', ho⟩ := ih
    cases ho with
    | recovered hs => exact ⟨_, .crashRecover e₁ hr₁ e', .recovered hs _⟩

end

namespace Sample

local instance physicalPlatform : Platform := platform

/-- A disk of one block, which holds `v` and has the values `vs` buffered. -/
def oneBlock (v : Valu) (vs : List Valu) : St :=
  ⟨fun a => if a = 0 then some (v, vs) else none, fun _ => none, .empty⟩

/-- A write is flushed, the machine crashes before the sync, and recovery reads the block. -/
theorem pexecRecover_to_execRecover_write :
    ∃ out', ExecRecover diskSem Reboot (oneBlock 0 [])
      (Prog.write 0 7 >>= fun _ => Prog.sync) (Prog.read 0) out' ∧
      RoutcomeDiskR PossibleSync out' (.recovered (oneBlock 7 []) (7 : Valu)) := by
  have hupd : Function.update (oneBlock 0 []).disk 0 (some (7, [0])) = (oneBlock 7 [0]).disk := by
    funext a
    by_cases ha : a = 0 <;> simp [oneBlock, ha]
  have hflush : ∀ vs : List Valu, FlushDisk (oneBlock 7 vs).disk (oneBlock 7 []).disk := by
    intro vs a
    by_cases ha : a = 0
    · simp only [oneBlock, ha, if_true]
      exact ⟨0, rfl⟩
    · simp [oneBlock, ha]
  have hw : Exec (semWith FlushDisk) (oneBlock 0 []) (Prog.write 0 7)
      (.finished (oneBlock 7 []) ()) :=
    .step (.inl ⟨oneBlock 7 [0], _, ⟨0, [], rfl, by rw [hupd]; rfl⟩, hflush [0], rfl⟩)
  have hr : Exec (semWith FlushDisk) (oneBlock 7 []) (Prog.read 0)
      (.finished (oneBlock 7 []) 7) :=
    .step (.inl ⟨oneBlock 7 [], _, ⟨[], rfl, rfl⟩, hflush [], rfl⟩)
  have hd : DiscardBuffers (oneBlock 7 []).disk (oneBlock 7 []).disk := by
    intro a
    by_cases ha : a = 0 <;> simp [oneBlock, ha, diskval]
  have hcrash : PExec (oneBlock 0 []) (Prog.write 0 7 >>= fun _ => Prog.sync)
      (.crashed (oneBlock 7 [])) :=
    ⟨_, .bindFinish hw (.crash _ trivial), .crashed ⟨hflush [], rfl, rfl⟩⟩
  refine pexecRecover_to_execRecover (.crashFinish hcrash hd ?_)
  exact .finish ⟨_, hr, .finished ⟨hflush [], rfl, rfl⟩ _⟩

end Sample

end Fscq
