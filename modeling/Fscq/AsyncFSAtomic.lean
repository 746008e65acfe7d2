import Fscq.AsyncFSRollback
import Fscq.Lib.AtomicProg

/-!
# Calls are atomic

Every call takes one step that a crash can see: it commits one transaction, writes one block past the
log, or syncs.  So a crash in the middle of a call leaves what a crash before or after the call leaves.
-/

namespace Fscq

open CrashProg

open BFILE (MemState)

open LogSt (Flushed)

namespace LogSt

variable {L L' : LogSt} {xp : LogXparams}

theorem crashes_congr (hb : L'.base = L.base) (hp : L'.pend = L.pend) :
    L'.crashes xp = L.crashes xp := by
  rw [crashes, hb, hp, crashes]

/-- A crash keeps the last transaction or not. -/
theorem crashes_push (L : LogSt) (t : Valumap) :
    (L.push t).crashes xp ⊆ L.crashes xp ∪ (L.push t).flushall.crashes xp := by
  rintro D ⟨k, hk, hD⟩
  have hlen : (L.push t).pend.length = L.pend.length + 1 := List.length_append
  rcases Nat.lt_or_ge L.pend.length k with hlt | hle
  · obtain rfl : k = (L.push t).pend.length := by omega
    rw [List.take_length] at hD
    exact .inr ⟨0, le_rfl, hD⟩
  · have htake : (L.push t).pend.take k = L.pend.take k := List.take_append_of_le_length hle
    rw [htake] at hD
    exact .inl ⟨k, hle, hD⟩

end LogSt

namespace LogProg

variable {α β : Type} {n : ℕ} {xp : LogXparams}

/-- Nothing that a crash can see. -/
abbrev Silent (n : ℕ) (xp : LogXparams) (p : LogProg α) : Prop :=
  CrashProg.Silent (sem n xp) (apply xp) (LogSt.crashes · xp) p

/-- A crash leaves what one before or after the program leaves. -/
abbrev Atomic (n : ℕ) (xp : LogXparams) (p : LogProg α) : Prop :=
  CrashProg.Atomic (sem n xp) (apply xp) (LogSt.crashes · xp) p

theorem Silent.bind {p : LogProg β} {q : β → LogProg α} (hp : Silent n xp p)
    (hq : ∀ v, Silent n xp (q v)) : Silent n xp (p >>= q) :=
  CrashProg.Silent.bind (fun _ _ _ _ => id) hp hq

theorem Silent.andThen {p : LogProg β} {q : β → LogProg α} (hp : Silent n xp p)
    (hq : ∀ v, Atomic n xp (q v)) : Atomic n xp (p >>= q) :=
  CrashProg.Shrinks.andThen (fun _ _ _ _ => id) (CrashProg.Silent.shrinks hp) hq

theorem Silent.atomic {p : LogProg α} (hp : Silent n xp p) : Atomic n xp p :=
  (CrashProg.Silent.shrinks hp).atomic

theorem Atomic.andThen {p : LogProg β} {q : β → LogProg α} (hp : Atomic n xp p)
    (hq : ∀ v, Silent n xp (q v)) : Atomic n xp (p >>= q) :=
  CrashProg.Atomic.andThen (fun _ _ _ _ => id) hp hq

theorem silent_begin : Silent n xp begin := silent_op fun _ => rfl

theorem silent_use (t : Valumap) : Silent n xp (use t) := silent_op fun _ => rfl

theorem silent_abort : Silent n xp abort := silent_use ∅

/-- A program in the active transaction. -/
theorem silent_lift (p : TxnProg α) : Silent n xp (lift p) := by
  induction p with
  | ret v => exact silent_pure v
  | op o =>
    cases o with
    | read a => exact silent_op fun _ => rfl
    | write a v => exact silent_op fun _ => rfl
  | bind p k ihp ihk => exact Silent.bind ihp ihk

/-- A commit that flushes takes two steps, but what lies between them is also seen before or after. -/
theorem atomic_commit [Platform] : Atomic n xp commit := by
  intro L M e
  have hrun : run xp commit L = ((L.commit xp).2, (L.commit xp).1) := run_commit xp L
  rw [run] at hrun
  rw [hrun]
  rw [LogProg.commit] at e
  cases e with
  | bindCrash e =>
    cases e
    exact Set.subset_union_left
  | bindFinish e e' =>
    cases e with
    | step h =>
      have h : apply xp .submit L = _ := h
      obtain ⟨rfl, rfl⟩ := Prod.mk.inj h
      dsimp only at e'
      by_cases hf : shouldFlushall = true
      · rw [if_pos hf] at e'
        cases e' with
        | bindFinish _ e' => cases e'
        | bindCrash e' =>
          cases e'
          rw [LogSt.commit_fst, if_pos hf, LogSt.submit]
          split_ifs
          · exact L.crashes_push L.txn
          · exact Set.subset_union_left
      · rw [if_neg hf] at e'
        cases e'

end LogProg

namespace AFS

open LogProg (Silent Atomic silent_begin silent_abort silent_use silent_lift atomic_commit)

variable {α : Type} {n : ℕ} {fsxp : FsXparams} {xp : LogXparams} {L : LogSt} {ams : MemState}

theorem silent_readonly (p : MemState → TxnProg (MemState × α)) (ams : MemState) :
    Silent n xp (readonly p ams) :=
  silent_begin.bind fun _ => (silent_lift _).bind fun r => silent_abort.bind fun _ => silent_pure r

section

variable [Platform]

/-- A commit, after which the program only says what happened. -/
theorem atomic_commit_then {q : Bool → LogProg α} (hq : ∀ b, Silent n xp (q b)) :
    Atomic n xp (LogProg.commit >>= q) := atomic_commit.andThen hq

omit [Platform] in
theorem silent_ite {c : Bool} {x y : α} : Silent n xp (if c then pure x else pure y) := by
  cases c <;> exact silent_pure _

theorem atomic_transact (p : MemState → TxnProg (MemState × Res α)) (ams : MemState) :
    Atomic n xp (transact p ams) := by
  refine silent_begin.andThen fun _ => (silent_lift _).andThen ?_
  rintro ⟨ams', e | v⟩
  · exact (silent_abort.bind fun _ => silent_pure _).atomic
  · exact atomic_commit_then fun _ => silent_ite

theorem atomic_rebind (p : MemState → TxnProg (MemState × Res α)) (ams : MemState) :
    Atomic n xp (rebind p ams) := by
  refine silent_begin.andThen fun _ => (silent_lift _).andThen ?_
  rintro ⟨ams', e | v⟩
  · exact (silent_abort.bind fun _ => silent_pure _).atomic
  · exact atomic_commit_then fun _ => silent_ite

theorem atomic_fileSetSz (inum : ℕ) (sz : BitVec 64) (ams : MemState) :
    Atomic n xp (fileSetSz fsxp inum sz ams) := by
  refine silent_begin.andThen fun _ => (silent_lift _).andThen fun ams' =>
    silent_begin.andThen fun t => atomic_commit_then ?_
  rintro (_ | _)
  · exact (silent_use t).bind fun _ => silent_pure _
  · exact silent_pure _

theorem atomic_ftruncate (inum sz : ℕ) (ams : MemState) :
    Atomic n xp (ftruncate fsxp inum sz ams) := by
  refine silent_begin.andThen fun t => (silent_lift _).andThen ?_
  rintro ⟨ams', e | v⟩
  · exact (silent_abort.bind fun _ => silent_pure _).atomic
  · exact (silent_use t).andThen fun _ => (silent_lift _).andThen fun _ =>
      atomic_commit_then fun _ => silent_ite

omit [Platform] in
/-- A write past the log is one step. -/
theorem atomic_updateFblockD (inum off : ℕ) (v : Valu) (ams : MemState) :
    Atomic n xp (updateFblockD fsxp inum off v ams) := by
  refine silent_begin.andThen fun _ => Atomic.andThen ?_ fun ams' =>
    silent_abort.bind fun _ => silent_pure _
  exact (silent_lift _).andThen fun _ => Atomic.andThen (atomic_op _) fun _ => silent_pure _

omit [Platform] in
theorem atomic_fileSync (inum : ℕ) (ams : MemState) : Atomic n xp (fileSync inum ams) :=
  silent_begin.andThen fun _ =>
    Atomic.andThen (Atomic.andThen (atomic_op _) fun _ => silent_pure _) fun _ =>
      silent_abort.bind fun _ => silent_pure _

omit [Platform] in
theorem shrinks_flushall : CrashProg.Shrinks (LogProg.sem n xp) (LogProg.apply xp)
    (LogSt.crashes · xp) LogProg.flushall :=
  shrinks_op fun _ => crashes_flushed .flushed

omit [Platform] in
/-- A flush leaves less to a crash. -/
theorem atomic_umount (ams : MemState) : Atomic n xp (umount ams) := by
  refine CrashProg.Shrinks.andThen (fun _ _ _ _ => id) ?_ fun _ =>
    Atomic.andThen (atomic_op _) fun _ => silent_pure _
  refine fun L => ⟨(shrinks_flushall (n := n) L).1, fun M e => ?_⟩
  cases e with
  | bindCrash e => exact (shrinks_flushall L).2 M e
  | bindFinish _ e => cases e

/-- Every call is atomic, whatever its arguments and whether or not it succeeds. -/
theorem Call.atomic (c : Call) (ams : MemState) : Atomic n xp (c.exec fsxp ams) := by
  cases c with
  | fileGetAttr inum =>
    exact ((silent_readonly _ ams).bind fun _ => silent_pure _).atomic
  | fileGetSz inum =>
    exact (((silent_readonly _ ams).bind fun _ => silent_pure _).bind fun _ => silent_pure _).atomic
  | readFblock inum off =>
    exact ((silent_readonly _ ams).bind fun _ => silent_pure _).atomic
  | lookup dnum names =>
    exact ((silent_readonly _ ams).bind fun _ => silent_pure _).atomic
  | readdir dnum =>
    exact ((silent_readonly _ ams).bind fun _ => silent_pure _).atomic
  | statfs =>
    exact ((silent_begin.bind fun _ => silent_abort.bind fun _ => silent_pure _).bind
      fun _ => silent_pure _).atomic
  | fileSetAttr inum attr =>
    rw [exec, AFS.fileSetAttr]
    exact atomic_transact _ ams
  | fileTruncate inum sz => exact atomic_transact _ ams
  | create dnum name => exact (atomic_transact _ ams).andThen fun _ => silent_pure _
  | delete dnum name => exact atomic_transact _ ams
  | rename dnum srcpath srcname dstpath dstname => exact atomic_transact _ ams
  | fileSetSz inum sz => exact atomic_fileSetSz inum sz ams
  | mksock dnum name => exact (atomic_rebind _ ams).andThen fun _ => silent_pure _
  | mkdir dnum name => exact (atomic_rebind _ ams).andThen fun _ => silent_pure _
  | ftruncate inum sz => exact atomic_ftruncate inum sz ams
  | updateFblock inum off v =>
    exact Atomic.andThen (silent_begin.andThen fun _ => (silent_lift _).andThen fun _ =>
      atomic_commit_then fun _ => silent_pure _) fun _ => silent_pure _
  | updateFblockD inum off v =>
    exact (atomic_updateFblockD inum off v ams).andThen fun _ => silent_pure _
  | fileSync inum => exact (atomic_fileSync inum ams).andThen fun _ => silent_pure _
  | treeSync =>
    exact Atomic.andThen (Atomic.andThen (atomic_op _) fun _ => silent_pure _)
      fun _ => silent_pure _
  | umount => exact (atomic_umount ams).andThen fun _ => silent_pure _

end

end AFS

end Fscq
