import Fscq.Txn

/-!
# Programs over the log

Programs of the file system as they see the log: they read and write in the active transaction,
commit or drop it, and write and sync blocks past the log.  The state of the log is the abstract one,
`LogSt`; `wp_compile` carries what is proved here over to the programs on the disk.
-/

namespace Fscq

open CrashProg

/-- The operations of the log.  `getTxn` and `setTxn` stand for programs that keep a state of the
log and go back to it. -/
inductive LogOp : Type → Type 1
  | read (a : ℕ) : LogOp Valu
  | write (a : ℕ) (v : Valu) : LogOp Unit
  | getTxn : LogOp Valumap
  | setTxn (t : Valumap) : LogOp Unit
  | submit : LogOp Bool
  | flushall : LogOp Unit
  | flushsync : LogOp Unit
  | dwrite (a : ℕ) (v : Valu) : LogOp Unit
  | dsyncVecs (al : List ℕ) : LogOp Unit
  | syncCache : LogOp Unit

abbrev LogProg := CrashProg.Prog LogOp

namespace LogSt

/-- One more pending transaction. -/
def push (A : LogSt) (t : Valumap) : LogSt := { A with pend := A.pend ++ [t.toList], txn := ∅ }

/-- The pending transactions may have been flushed. -/
inductive Flushed (A : LogSt) : LogSt → Prop
  | same : Flushed A A
  | flushed : Flushed A A.flushall

variable {A B : LogSt}

theorem disk_push (A : LogSt) (t : Valumap) : (A.push t).disk = A.disk.install t := by
  rw [LogSt.disk, push, GLog.installAll_append, replayMem_toList]
  rfl

theorem disk_push_txn (A : LogSt) : (A.push A.txn).disk.cur = A.read := by
  rw [disk_push]
  rfl

theorem Flushed.disk (h : Flushed A B) : B.disk = A.disk := by
  cases h <;> rfl

theorem Flushed.txn (h : Flushed A B) : B.txn = A.txn := by
  cases h <;> rfl

end LogSt

namespace LogProg

variable {α β : Type}

/-- A program in the active transaction. -/
def lift : ∀ {α : Type}, TxnProg α → LogProg α
  | _, .ret v => .ret v
  | _, .op (.read a) => .op (.read a)
  | _, .op (.write a v) => .op (.write a v)
  | _, .bind p k => .bind (lift p) fun v => lift (k v)

def begin : LogProg Valumap := .op .getTxn

def use (t : Valumap) : LogProg Unit := .op (.setTxn t)

def abort : LogProg Unit := .op (.setTxn ∅)

/-- Like abort, for transactions without writes. -/
def commitRo : LogProg Unit := abort

def commit [Platform] : LogProg Bool := do
  let r ← .op .submit
  if shouldFlushall then do
    .op .flushall
    pure r
  else pure r

def dwrite (a : ℕ) (v : Valu) : LogProg Unit := .op (.dwrite a v)

def dsyncVecs (al : List ℕ) : LogProg Unit := .op (.dsyncVecs al)

def flushall : LogProg Unit := .op .flushall

def flushsync : LogProg Unit := .op .flushsync

def syncCache : LogProg Unit := .op .syncCache

/-! ### The meaning of a program -/

def apply (xp : LogXparams) : ∀ {α : Type}, LogOp α → LogSt → α × LogSt
  | _, .read a, A => (A.read a, A)
  | _, .write a v, A => ((), A.write a v)
  | _, .getTxn, A => (A.txn, A)
  | _, .setTxn t, A => ((), { A with txn := t })
  | _, .submit, A => ((A.submit xp).2, (A.submit xp).1)
  | _, .flushall, A => ((), A.flushall)
  | _, .flushsync, A => ((), A.flushall)
  | _, .dwrite a v, A => ((), A.dwrite a v)
  | _, .dsyncVecs al, A => ((), A.dsyncVecs al)
  | _, .syncCache, A => ((), A.syncCache)

/-- The result of a program and the state it ends in. -/
def run (xp : LogXparams) (p : LogProg α) (A : LogSt) : α × LogSt := CrashProg.run (apply xp) p A

theorem run_bind {β : Type} (xp : LogXparams) (p : LogProg α) (q : α → LogProg β) (A : LogSt) :
    run xp (p >>= q) A = run xp (q (run xp p A).1) (run xp p A).2 := rfl

/-- An operation fails outside of the data section, which has `n` blocks, and a write at address
zero; the machine may crash before every operation. -/
def sem (n : ℕ) (xp : LogXparams) : Sem LogSt LogOp where
  step A o A' v := apply xp o A = (v, A')
  fail _ o := match o with
    | .read a => n ≤ a
    | .write a _ => a = 0 ∨ n ≤ a
    | .dwrite a _ => a = 0 ∨ n ≤ a
    | .setTxn t => ∃ e ∈ t.toList, e.1 = 0 ∨ n ≤ e.1
    | _ => False
  crash _ := True

/-- The program ends with `Q`, crashes in `C`, and all its addresses are below `n`. -/
abbrev wp (n : ℕ) (xp : LogXparams) (p : LogProg α) (Q : α → LogSt → Prop) (C : LogSt → Prop)
    (A : LogSt) : Prop := CrashProg.wp (sem n xp) p Q C A

section

variable {n a : ℕ} {xp : LogXparams} {v : Valu} {t : Valumap} {A : LogSt} {C : LogSt → Prop}

theorem wp_run {p : LogProg α} {Q : α → LogSt → Prop} (h : wp n xp p Q C A) :
    Q (run xp p A).1 (run xp p A).2 :=
  CrashProg.wp_run (f := apply xp) (fun _ _ => rfl) h

theorem exists_run {p : LogProg α} {Q : α → LogSt → Prop} (h : wp n xp p Q C A) :
    ∃ v A', run xp p A = (v, A') ∧ Q v A' :=
  ⟨_, _, rfl, wp_run h⟩

theorem wp_of_apply {o : LogOp α} {Q : α → LogSt → Prop} (hf : ¬ (sem n xp).fail A o) (hC : C A)
    (hQ : Q (apply xp o A).1 (apply xp o A).2) : wp n xp (.op o) Q C A := by
  apply wp_op hf fun _ => hC
  intro A' v h
  have h : apply xp o A = (v, A') := h
  rw [h] at hQ
  exact hQ

theorem wp_begin {Q : Valumap → LogSt → Prop} (hC : C A) (hQ : Q A.txn A) :
    wp n xp begin Q C A := wp_of_apply not_false hC hQ

theorem wp_use {Q : Unit → LogSt → Prop} (hC : C A) (ht : ∀ e ∈ t.toList, e.1 ≠ 0 ∧ e.1 < n)
    (hQ : Q () { A with txn := t }) : wp n xp (use t) Q C A := by
  apply wp_of_apply _ hC hQ
  rintro ⟨e, he, h⟩
  have := ht e he
  omega

theorem wp_abort {Q : Unit → LogSt → Prop} (hC : C A) (hQ : Q () A.abort) :
    wp n xp abort Q C A := by
  apply wp_use hC _ hQ
  intro e he
  rw [Std.ExtTreeMap.mem_toList_iff_getElem?_eq_some] at he
  simp at he

theorem commit_eq [Platform] (A : LogSt) (xp : LogXparams) : A.commit xp =
    if shouldFlushall then ((A.submit xp).1.flushall, (A.submit xp).2) else A.submit xp := by
  rw [LogSt.commit]

theorem wp_commit [Platform] {Q : Bool → LogSt → Prop} (hC : C A) (hC' : C (A.submit xp).1)
    (hQ : Q (A.commit xp).2 (A.commit xp).1) : wp n xp commit Q C A := by
  rw [commit_eq] at hQ
  refine wp_bind (wp_of_apply (o := .submit) (fun h => h) hC ?_)
  by_cases hf : shouldFlushall = true
  · rw [if_pos hf] at hQ ⊢
    exact wp_bind (wp_of_apply (o := .flushall) (fun h => h) hC' (wp_pure hQ))
  · rw [if_neg hf] at hQ ⊢
    exact wp_pure hQ

/-- A commit of a transaction that fits into the log. -/
theorem wp_commit_fits [Platform] {Q : Bool → LogSt → Prop} (hC : C A) (hC₁ : C (A.push A.txn))
    (hlen : A.txn.toList.length ≤ xp.logLen)
    (hQ : ∀ A', LogSt.Flushed (A.push A.txn) A' → Q true A') : wp n xp commit Q C A := by
  have e : A.submit xp = (A.push A.txn, true) := by
    rw [LogSt.submit, if_pos hlen]
    rfl
  apply wp_commit hC
  · rw [e]
    exact hC₁
  · rw [commit_eq, e]
    split_ifs
    · exact hQ _ .flushed
    · exact hQ _ .same

/-- A commit adds a transaction to the pending ones if it fits into the log, and else drops it;
either way it may then flush. -/
theorem wp_commit_of [Platform] {Q : Bool → LogSt → Prop} (hC : C A) (hC₁ : C (A.push A.txn))
    (hC₀ : C A.abort)
    (hQ₁ : A.txn.toList.length ≤ xp.logLen → ∀ A', LogSt.Flushed (A.push A.txn) A' → Q true A')
    (hQ₀ : xp.logLen < A.txn.toList.length → ∀ A', LogSt.Flushed A.abort A' → Q false A') :
    wp n xp commit Q C A := by
  by_cases hlen : A.txn.toList.length ≤ xp.logLen
  · exact wp_commit_fits hC hC₁ hlen (hQ₁ hlen)
  · have hQ₀ := hQ₀ (Nat.not_le.1 hlen)
    have e : A.submit xp = (A.abort, false) := by
      rw [LogSt.submit, if_neg hlen]
      rfl
    apply wp_commit hC
    · rw [e]
      exact hC₀
    · rw [commit_eq, e]
      split_ifs
      · exact hQ₀ _ .flushed
      · exact hQ₀ _ .same

theorem wp_dwrite {Q : Unit → LogSt → Prop} (hC : C A) (h0 : a ≠ 0) (ha : a < n)
    (hQ : Q () (A.dwrite a v)) : wp n xp (dwrite a v) Q C A := by
  apply wp_of_apply _ hC hQ
  rintro (h | h)
  · exact h0 h
  · exact Nat.not_le.2 ha h

theorem wp_dsyncVecs {al : List ℕ} {Q : Unit → LogSt → Prop} (hC : C A)
    (hQ : Q () (A.dsyncVecs al)) : wp n xp (dsyncVecs al) Q C A := wp_of_apply not_false hC hQ

theorem wp_flushall {Q : Unit → LogSt → Prop} (hC : C A) (hQ : Q () A.flushall) :
    wp n xp flushall Q C A := wp_of_apply not_false hC hQ

theorem wp_flushsync {Q : Unit → LogSt → Prop} (hC : C A) (hQ : Q () A.flushall) :
    wp n xp flushsync Q C A := wp_of_apply not_false hC hQ

theorem wp_syncCache {Q : Unit → LogSt → Prop} (hC : C A) (hQ : Q () A.syncCache) :
    wp n xp syncCache Q C A := wp_of_apply not_false hC hQ

/-- A program in the transaction changes the transaction only. -/
theorem wp_lift {p : TxnProg α} {Q : α → LogSt → Prop} (hC : ∀ t, C { A with txn := t })
    (hp : Txn.wp n p (fun v m => ∀ t, Txn.Logs p A t m → Q v { A with txn := t }) A.read) :
    wp n xp (lift p) Q C A := by
  induction p generalizing A with
  | ret v =>
    have := Txn.wp_run hp A.txn ⟨rfl, fun a => by simp [Txn.writes]⟩
    exact wp_ret this
  | op o =>
    cases o with
    | read a =>
      have ha : a < n := Nat.not_le.1 fun hf => hp _ (.fail hf)
      have := Txn.wp_run hp A.txn ⟨rfl, fun a => by simp [Txn.writes]⟩
      exact wp_of_apply (Nat.not_le.2 ha) (hC A.txn) this
    | write a v =>
      have ha : ¬ (a = 0 ∨ n ≤ a) := fun hf => hp _ (.fail hf)
      have := Txn.wp_run hp (A.write a v).txn ⟨A.read_write a v, fun b => by
        rw [LogSt.write, Std.ExtTreeMap.mem_insert, compare_eq_iff_eq, Txn.writes,
          List.mem_singleton, or_comm, eq_comm]⟩
      exact wp_of_apply ha (hC A.txn) this
  | bind p k ihp ihk =>
    apply wp_bind
    apply ihp hC
    apply Txn.wp_post (Txn.wp_run_eq (wp_of_bind hp))
    rintro v m ⟨hrun, hk⟩ t ht
    apply ihk v (A := { A with txn := t }) hC
    rw [ht.read]
    apply Txn.wp_post hk
    intro w m' hQ t' ht'
    refine hQ t' ⟨ht'.read, fun a => ?_⟩
    rw [ht'.dom, ht.dom, ht.read, Txn.writes, hrun, List.mem_append, or_assoc]

end

/-! ### The addresses of a program -/

/-- The addresses that an operation writes. -/
def writesOf : ∀ {α : Type}, LogOp α → List ℕ
  | _, .write a _ => [a]
  | _, .dwrite a _ => [a]
  | _, _ => []

/-- The addresses that a program writes, in order. -/
def writes (xp : LogXparams) : ∀ {α : Type}, LogProg α → LogSt → List ℕ
  | _, .ret _, _ => []
  | _, .op o, _ => writesOf o
  | _, .bind p k, A => writes xp p A ++ writes xp (k (run xp p A).1) (run xp p A).2

/-- The writes of a program go to the data section and not to block zero. -/
theorem writes_of_wp {n : ℕ} {xp : LogXparams} {p : LogProg α} {Q : α → LogSt → Prop}
    {C : LogSt → Prop} {A : LogSt} (h : wp n xp p Q C A) : ∀ a ∈ writes xp p A, a ≠ 0 ∧ a < n := by
  induction p generalizing A with
  | ret v => exact fun a ha => absurd ha List.not_mem_nil
  | op o =>
    have hf : ¬ (sem n xp).fail A o := fun hf => h _ (.fail hf)
    cases o with
    | write b v =>
      have hf : ¬ (b = 0 ∨ n ≤ b) := hf
      intro a ha
      obtain rfl := List.mem_singleton.1 ha
      omega
    | dwrite b v =>
      have hf : ¬ (b = 0 ∨ n ≤ b) := hf
      intro a ha
      obtain rfl := List.mem_singleton.1 ha
      omega
    | _ => exact fun a ha => absurd ha List.not_mem_nil
  | bind p k ihp ihk =>
    have hp := wp_of_bind h
    intro a ha
    rcases List.mem_append.1 ha with ha | ha
    · exact ihp hp a ha
    · exact ihk _ (wp_run hp) a ha

end LogProg

namespace LogSt

variable {A : LogSt} {xp : LogXparams} {a : ℕ} {v : Valu}

theorem read_of_txn (h : A.txn = ∅) : A.read = A.disk.cur := by
  funext b
  simp [LogSt.read, h]

theorem disk_flushall (A : LogSt) : A.flushall.disk = A.disk := rfl

theorem submit_txn (A : LogSt) (xp : LogXparams) : (A.submit xp).1.txn = ∅ := by
  rw [submit]
  split_ifs <;> rfl

theorem submit_base (A : LogSt) (xp : LogXparams) : (A.submit xp).1.base = A.base := by
  rw [submit]
  split_ifs <;> rfl

/-- What the transaction saw is on the disk once it is committed. -/
theorem disk_submit_of_true (h : (A.submit xp).2 = true) : (A.submit xp).1.disk.cur = A.read := by
  rw [submit] at h ⊢
  split_ifs at h ⊢
  funext b
  have hdisk : ({ A with pend := A.pend ++ [A.txn.toList], txn := ∅ } : LogSt).disk =
      A.disk.install A.txn := by
    rw [LogSt.disk, GLog.installAll_append, replayMem_toList]
    rfl
  rw [hdisk]
  rfl

theorem submit_of_false (h : (A.submit xp).2 = false) : (A.submit xp).1 = A.abort := by
  rw [submit] at h ⊢
  split_ifs at h ⊢
  rfl

section

variable [Platform]

theorem commit_fst (A : LogSt) (xp : LogXparams) : (A.commit xp).1 =
    if shouldFlushall then (A.submit xp).1.flushall else (A.submit xp).1 := by
  rw [commit]
  split_ifs <;> rfl

theorem commit_snd (A : LogSt) (xp : LogXparams) : (A.commit xp).2 = (A.submit xp).2 := by
  rw [commit]
  split_ifs <;> rfl

theorem commit_txn (A : LogSt) (xp : LogXparams) : (A.commit xp).1.txn = ∅ := by
  rw [commit_fst]
  split_ifs <;> exact A.submit_txn xp

end

theorem disk_dwrite (A : LogSt) (a : ℕ) (v : Valu) :
    (A.dwrite a v).disk = A.disk.write a v := by
  rw [dwrite]
  split_ifs with ha
  · rfl
  · show GLog.installAll (A.base.write a v) A.pend = _
    rw [LogSt.disk, GLog.installAll_eq, GLog.installAll_eq]
    exact ADisk.install_write A.base (Std.ExtTreeMap.getElem?_eq_none ha) v

theorem installAll_sync_cur (B : ADisk) (S : Set ℕ) (pend : List PaddedLog.Contents) :
    (GLog.installAll (B.sync S) pend).cur = (GLog.installAll B pend).cur := by
  rw [GLog.installAll_eq, GLog.installAll_eq]
  rfl

theorem disk_dsyncVecs_cur (A : LogSt) (al : List ℕ) : (A.dsyncVecs al).disk.cur = A.disk.cur :=
  installAll_sync_cur A.base _ A.pend

theorem disk_syncCache_cur (A : LogSt) : A.syncCache.disk.cur = A.disk.cur :=
  installAll_sync_cur A.base _ A.pend

theorem syncedAt_dsyncVecs {al : List ℕ} (h : A.disk.SyncedAt a ∨ a ∈ al) :
    (A.dsyncVecs al).disk.SyncedAt a := by
  rw [LogSt.disk, GLog.installAll_eq] at h ⊢
  exact ADisk.syncedAt_install_sync h

theorem syncedAt_syncCache (A : LogSt) (a : ℕ) : A.syncCache.disk.SyncedAt a := by
  rw [LogSt.disk, GLog.installAll_eq]
  exact ADisk.syncedAt_install_sync (.inr (Set.mem_univ a))

theorem syncedAt_dwrite {b : ℕ} (hne : a ≠ b) (h : A.disk.SyncedAt a) :
    (A.dwrite b v).disk.SyncedAt a := by
  rw [disk_dwrite]
  exact (ADisk.sameAt_write hne).syncedAt h

/-- Two states of the log that differ in what is pending only. -/
structure Same (A B : LogSt) : Prop where
  cur : A.disk.cur = B.disk.cur
  txn : A.txn = B.txn

theorem Same.read {B : LogSt} (h : A.Same B) : A.read = B.read := by
  funext a
  rw [LogSt.read, LogSt.read, h.cur, h.txn]

/-- What is pending cannot be observed by the operations. -/
theorem Same.apply {α : Type} {B : LogSt} (h : A.Same B) (o : LogOp α) :
    (LogProg.apply xp o A).1 = (LogProg.apply xp o B).1 ∧
      (LogProg.apply xp o A).2.Same (LogProg.apply xp o B).2 := by
  have hr := h.read
  obtain ⟨hc, ht⟩ := h
  cases o with
  | read a => exact ⟨congrFun hr a, hc, ht⟩
  | write a v => exact ⟨rfl, hc, congrArg (fun t => t.insert a v) ht⟩
  | getTxn => exact ⟨ht, hc, ht⟩
  | setTxn t => exact ⟨rfl, hc, rfl⟩
  | submit =>
    have hok : (A.submit xp).2 = (B.submit xp).2 := by
      rw [submit, submit, ht]
      split_ifs <;> rfl
    refine ⟨hok, ?_, by rw [LogProg.apply, LogProg.apply, submit_txn, submit_txn]⟩
    show (A.submit xp).1.disk.cur = (B.submit xp).1.disk.cur
    cases hb : (B.submit xp).2 with
    | true => rw [disk_submit_of_true hb, disk_submit_of_true (hok.trans hb), hr]
    | false => rw [submit_of_false hb, submit_of_false (hok.trans hb)]; exact hc
  | flushall => exact ⟨rfl, hc, ht⟩
  | flushsync => exact ⟨rfl, hc, ht⟩
  | dwrite a v =>
    refine ⟨rfl, ?_, ?_⟩
    · show (A.dwrite a v).disk.cur = (B.dwrite a v).disk.cur
      rw [disk_dwrite, disk_dwrite, ADisk.write, ADisk.write, hc]
    · show (A.dwrite a v).txn = (B.dwrite a v).txn
      rw [dwrite, dwrite]
      split_ifs <;> exact congrArg (fun t => t.erase a) ht
  | dsyncVecs al =>
    refine ⟨rfl, ?_, ht⟩
    exact (A.disk_dsyncVecs_cur al).trans (hc.trans (B.disk_dsyncVecs_cur al).symm)
  | syncCache =>
    refine ⟨rfl, ?_, ht⟩
    exact A.disk_syncCache_cur.trans (hc.trans B.disk_syncCache_cur.symm)

/-- Nor by programs. -/
theorem Same.run {α : Type} {B : LogSt} (h : A.Same B) (p : LogProg α) :
    (LogProg.run xp p A).1 = (LogProg.run xp p B).1 ∧
      (LogProg.run xp p A).2.Same (LogProg.run xp p B).2 := by
  induction p generalizing A B with
  | ret v => exact ⟨rfl, h⟩
  | op o => exact h.apply o
  | bind p k ihp ihk =>
    obtain ⟨h₁, h₂⟩ := ihp h
    have hrun : ∀ A : LogSt, LogProg.run xp (.bind p k) A =
        LogProg.run xp (k (LogProg.run xp p A).1) (LogProg.run xp p A).2 := fun _ => rfl
    rw [hrun A, hrun B, h₁]
    exact ihk _ h₂

end LogSt

/-! ## Programs over the disk -/

namespace LogProg

variable [Platform] {α : Type}

/-- The program over the disk, with the memory state of the log explicit. -/
def compile (xp : LogXparams) :
    ∀ {α : Type}, LogProg α → LOG.MemState → Prog (LOG.MemState × α)
  | _, .ret v, ms => pure (ms, v)
  | _, .op (.read a), ms => LOG.read xp a ms
  | _, .op (.write a v), ms => do
    let ms ← LOG.write xp a v ms
    pure (ms, ())
  | _, .op .getTxn, ms => do
    let ms ← LOG.begin xp ms
    pure (ms, ms.msTxn)
  | _, .op (.setTxn t), ms => pure (⟨t, ms.msLL⟩, ())
  | _, .op .submit, ms => do
    let (mm, r) ← GLog.submit xp ms.msTxn.toList ms.msLL
    pure (⟨∅, mm⟩, r)
  | _, .op .flushall, ms => do
    let ms ← LOG.flushallNoop xp ms
    pure (ms, ())
  | _, .op .flushsync, ms => do
    let ms ← LOG.flushsync xp ms
    pure (ms, ())
  | _, .op (.dwrite a v), ms => do
    let ms ← LOG.dwrite xp a v ms
    pure (ms, ())
  | _, .op (.dsyncVecs al), ms => do
    let ms ← LOG.dsyncVecs xp al ms
    pure (ms, ())
  | _, .op .syncCache, ms => do
    let ms ← LOG.syncCache xp ms
    pure (ms, ())
  | _, .bind p k, ms => do
    let r ← compile xp p ms
    compile xp (k r.2) r.1

variable {N : ℕ} {xp : LogXparams} {D : Set Mem} {C : LogSt → Prop} {A : LogSt}
  {ms : LOG.MemState} {s : St}

theorem lstate_submit {mm : GLog.MemState}
    (h' : GLog.GState N xp A.base (A.submit xp).1.pend mm s) :
    LOG.LState N xp (A.submit xp).1 ⟨∅, mm⟩ s := by
  refine ⟨?_, (A.submit_txn xp).symm, ?_⟩
  · rw [A.submit_base]
    exact h'
  · rw [A.submit_txn]
    exact LOG.txnRange_empty

/-- One operation of the log, over the disk. -/
theorem wp_compile_op (hl : PaddedLog.Layout N xp) (h : LOG.LState N xp A ms s) {o : LogOp α}
    (hf : ¬ (sem (MLog.dataSize xp) xp).fail A o) (hD : A.crashes xp ⊆ D) :
    CrashProg.wp diskSem (compile xp (.op o) ms)
      (fun r s' => r.2 = (apply xp o A).1 ∧ LOG.LState N xp (apply xp o A).2 r.1 s')
      (LOG.LCrash N xp D) s := by
  cases o with
  | read a => exact LOG.wp_read hl h (Nat.not_le.1 hf) hD fun ms' s' h' => ⟨rfl, h'⟩
  | write a v =>
    have hf : ¬ (a = 0 ∨ MLog.dataSize xp ≤ a) := hf
    exact wp_bind (LOG.wp_write h (by omega) (by omega) fun ms' h' => wp_pure ⟨rfl, h'⟩)
  | getTxn => exact wp_bind (LOG.wp_begin h fun h' => wp_pure ⟨h.txn, h'⟩)
  | setTxn t =>
    refine wp_pure ⟨rfl, h.glog, rfl, fun e he => ?_⟩
    have hf : ¬ ∃ e ∈ t.toList, e.1 = 0 ∨ MLog.dataSize xp ≤ e.1 := hf
    have hne : ¬ (e.1 = 0 ∨ MLog.dataSize xp ≤ e.1) := fun h' => hf ⟨e, he, h'⟩
    exact ⟨by omega, by omega⟩
  | submit =>
    refine wp_bind ?_
    rw [h.txn]
    refine GLog.wp_submit h.glog h.range (fun mm hlen h' => wp_pure ?_) fun hlen => wp_pure ?_
    · have e : A.submit xp = ({ A with pend := A.pend ++ [A.txn.toList], txn := ∅ }, true) := by
        rw [LogSt.submit, if_pos hlen]
      refine ⟨by rw [apply, e], lstate_submit ?_⟩
      rw [e]
      exact h'
    · have e : A.submit xp = ({ A with txn := ∅ }, false) := by
        rw [LogSt.submit, if_neg (by omega)]
      refine ⟨by rw [apply, e], lstate_submit ?_⟩
      rw [e]
      exact h.glog
  | flushall => exact wp_bind (LOG.wp_flushall hl h hD fun ms' s' h' => wp_pure ⟨rfl, h'⟩)
  | flushsync => exact wp_bind (LOG.wp_flushsync hl h hD fun ms' s' h' => wp_pure ⟨rfl, h'⟩)
  | dwrite a v =>
    have hf : ¬ (a = 0 ∨ MLog.dataSize xp ≤ a) := hf
    exact wp_bind (LOG.wp_dwrite hl h (by omega) hD fun ms' s' h' => wp_pure ⟨rfl, h'⟩)
  | dsyncVecs al => exact wp_bind (LOG.wp_dsyncVecs hl h hD fun ms' s' h' => wp_pure ⟨rfl, h'⟩)
  | syncCache => exact wp_bind (LOG.wp_syncCache hl h hD fun ms' s' h' => wp_pure ⟨rfl, h'⟩)

/-- The compiled program does to the log what the program does. -/
theorem wp_compile (hl : PaddedLog.Layout N xp) {p : LogProg α} {Q : α → LogSt → Prop}
    (h : LOG.LState N xp A ms s) (hp : wp (MLog.dataSize xp) xp p Q C A)
    (hD : ∀ A', C A' → A'.crashes xp ⊆ D) :
    CrashProg.wp diskSem (compile xp p ms)
      (fun r s' => r.2 = (run xp p A).1 ∧ LOG.LState N xp (run xp p A).2 r.1 s')
      (LOG.LCrash N xp D) s := by
  induction p generalizing A ms s with
  | ret v => exact wp_pure ⟨rfl, h⟩
  | op o =>
    have hC : C A := hp _ (.crash A trivial)
    exact wp_compile_op hl h (fun hf => hp _ (.fail hf)) (hD A hC)
  | bind p k ihp ihk =>
    have hp' := wp_of_bind hp
    refine wp_seq (ihp h hp') ?_
    rintro ⟨ms', v⟩ s' ⟨rfl, h'⟩
    exact ihk _ h' (wp_run hp')

end LogProg

end Fscq
