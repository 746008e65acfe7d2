import Fscq.Log

/-!
# Runs of the transaction log

A run is a sequence of commands: transactions with their reads and writes, commits, aborts and
flushes, in any order.  The history of a run lists the transactions that have been committed and
counts those that were committed before the last flush.  Wherever the machine crashes, recovery ends
with the disk after some first transactions of the history, and at least the flushed ones.
-/

namespace Fscq

open CrashProg

open PaddedLog (Contents)

namespace LOG

/-- The commands of a client of the log. -/
inductive Cmd
  | begin
  | read (a : ℕ)
  | write (a : ℕ) (v : Valu)
  | commit
  | abort
  | flushall
  | flushsync

/-- Commands access blocks of the data section; they do not write block zero. -/
def Cmd.Valid (xp : LogXparams) : Cmd → Prop
  | .read a => a < MLog.dataSize xp
  | .write a _ => a ≠ 0 ∧ a < MLog.dataSize xp
  | _ => True

/-- The transactions committed so far, the number of those that a flush has made durable, and the
writes of the active transaction. -/
structure History where
  committed : List Contents
  durable : ℕ
  txn : Valumap

namespace History

def empty : History := ⟨[], 0, ∅⟩

/-- How a command that answered `ok` extends the history. -/
def step (h : History) (ok : Bool) : Cmd → History
  | .begin => h
  | .read _ => h
  | .write a v => { h with txn := h.txn.insert a v }
  | .commit => ⟨if ok then h.committed ++ [h.txn.toList] else h.committed, h.durable, ∅⟩
  | .abort => { h with txn := ∅ }
  | .flushall => { h with durable := h.committed.length }
  | .flushsync => { h with durable := h.committed.length }

/-- The history after a list of commands with their answers. -/
def run (h : History) : List Cmd → List Bool → History
  | c :: cs, ok :: oks => (h.step ok c).run cs oks
  | _, _ => h

end History

/-- The disk after a list of transactions. -/
def diskAfter (d : ℕ → Valu) (txns : List Contents) : ℕ → Valu :=
  txns.foldl (fun d ents => replayDisk ents d) d

/-- The disks after at least `lo` first transactions of `txns`. -/
def Allowed (xp : LogXparams) (d₀ : ℕ → Valu) (lo : ℕ) (txns : List Contents) :
    Set (ℕ → Valu) :=
  {d | ∃ k, lo ≤ k ∧ k ≤ txns.length ∧
    ∀ a < MLog.dataSize xp, d a = diskAfter d₀ (txns.take k) a}

/-- The abstract log after a run with the history `h` from the disk `d₀`: some first transactions
are on disk, at least the durable ones, and the others are pending. -/
structure Matches (d₀ : ℕ → Valu) (h : History) (A : LogSt) : Prop where
  txn : A.txn = h.txn
  split : ∃ j, h.durable ≤ j ∧ j ≤ h.committed.length ∧
    A.base = ADisk.synced (diskAfter d₀ (h.committed.take j)) ∧ A.pend = h.committed.drop j

section

variable {xp : LogXparams} {d₀ : ℕ → Valu} {h : History} {A : LogSt}

theorem install_synced (d : ℕ → Valu) (ents : Contents) :
    (ADisk.synced d).install (replayMem ents ∅) = ADisk.synced (replayDisk ents d) := by
  unfold ADisk.install ADisk.synced
  congr 1
  · funext a
    exact (replayDisk_eq ents d a).symm
  · funext a
    rw [replayDisk_eq]
    cases (replayMem ents ∅)[a]? <;> rfl

theorem installAll_synced (d : ℕ → Valu) (txns : List Contents) :
    GLog.installAll (ADisk.synced d) txns = ADisk.synced (diskAfter d txns) := by
  induction txns generalizing d with
  | nil => rfl
  | cons ents txns ih =>
    have := ih (replayDisk ents d)
    simp only [GLog.installAll, diskAfter, List.foldl_cons, install_synced] at this ⊢
    exact this

theorem diskAfter_append (d : ℕ → Valu) (txns txns' : List Contents) :
    diskAfter d (txns ++ txns') = diskAfter (diskAfter d txns) txns' := by simp [diskAfter]

/-- The crash disks of a matching log. -/
theorem Matches.crashes_subset (hm : Matches d₀ h A) :
    A.crashes xp ⊆ Allowed xp d₀ h.durable h.committed := by
  rintro d ⟨k, hk, hd⟩
  obtain ⟨j, h₁, h₂, hb, hp⟩ := hm.split
  rw [hp, List.length_drop] at hk
  refine ⟨j + k, by omega, by omega, fun a ha => ?_⟩
  have := hd a
  rw [if_pos ha, hb, hp, installAll_synced, ← diskAfter_append, ← List.take_add] at this
  exact this

theorem Allowed.mono {lo lo' : ℕ} {txns txns' : List Contents} (hlo : lo' ≤ lo)
    (ht : txns <+: txns') : Allowed xp d₀ lo txns ⊆ Allowed xp d₀ lo' txns' := by
  rintro d ⟨k, h₁, h₂, hd⟩
  obtain ⟨rest, rfl⟩ := ht
  refine ⟨k, by omega, by simp; omega, fun a ha => ?_⟩
  rw [List.take_append_of_le_length h₂]
  exact hd a ha

theorem matches_empty (d₀ : ℕ → Valu) : Matches d₀ History.empty (LogSt.ofDisk d₀) :=
  ⟨rfl, 0, le_rfl, le_rfl, rfl, rfl⟩

theorem Matches.disk_eq (hm : Matches d₀ h A) :
    A.disk = ADisk.synced (diskAfter d₀ h.committed) := by
  obtain ⟨j, -, -, hb, hp⟩ := hm.split
  rw [LogSt.disk, hb, hp, installAll_synced, ← diskAfter_append, List.take_append_drop]

theorem Matches.flushall (hm : Matches d₀ h A) :
    Matches d₀ { h with durable := h.committed.length } A.flushall where
  txn := hm.txn
  split := ⟨h.committed.length, le_rfl, le_rfl, by simp [LogSt.flushall, hm.disk_eq], by
    simp [LogSt.flushall]⟩

theorem Matches.weaken (lo : ℕ) (hm : Matches d₀ h A) (hlo : lo ≤ h.durable) :
    Matches d₀ { h with durable := lo } A := by
  obtain ⟨j, h₁, h₂, hb, hp⟩ := hm.split
  exact ⟨hm.txn, j, hlo.trans h₁, h₂, hb, hp⟩

theorem Matches.submit (xp : LogXparams) (hm : Matches d₀ h A) :
    Matches d₀ (h.step (A.submit xp).2 .commit) (A.submit xp).1 := by
  obtain ⟨j, h₁, h₂, hb, hp⟩ := hm.split
  unfold LogSt.submit
  split_ifs
  · refine ⟨rfl, j, h₁, ?_, ?_, ?_⟩
    · simp [History.step]
      omega
    · simp [History.step, hb, List.take_append_of_le_length h₂]
    · simp [History.step, hp, hm.txn, List.drop_append_of_le_length h₂]
  · exact ⟨rfl, j, h₁, h₂, hb, hp⟩

theorem Matches.commit [Platform] (hm : Matches d₀ h A) :
    Matches d₀ (h.step (A.commit xp).2 .commit) (A.commit xp).1 := by
  have hs := hm.submit xp
  unfold LogSt.commit
  generalize A.submit xp = r at *
  obtain ⟨A', ok⟩ := r
  dsimp only
  split_ifs
  · refine hs.flushall.weaken h.durable ?_
    obtain ⟨j, h₁, h₂, -⟩ := hs.split
    exact h₁.trans h₂
  · exact hs

theorem prefix_step (h : History) (ok : Bool) (c : Cmd) :
    (h.step ok c).committed <+: (h.step true c).committed := by
  cases c <;> simp [History.step]
  split_ifs <;> simp

end

variable [Platform]

/-! ### The programs of a run -/

/-- A command as a program; a commit answers whether it succeeded. -/
def runCmd (xp : LogXparams) (ms : MemState) : Cmd → Prog (MemState × Bool)
  | .begin => do
    let ms ← begin xp ms
    pure (ms, true)
  | .read a => do
    let (ms, _) ← read xp a ms
    pure (ms, true)
  | .write a v => do
    let ms ← write xp a v ms
    pure (ms, true)
  | .commit => commit xp ms
  | .abort => do
    let ms ← abort xp ms
    pure (ms, true)
  | .flushall => do
    let ms ← flushall xp ms
    pure (ms, true)
  | .flushsync => do
    let ms ← flushsync xp ms
    pure (ms, true)

def runCmds (xp : LogXparams) : List Cmd → MemState → Prog (MemState × List Bool)
  | [], ms => pure (ms, [])
  | c :: cs, ms => do
    let (ms, ok) ← runCmd xp ms c
    let (ms, oks) ← runCmds xp cs ms
    pure (ms, ok :: oks)

variable {n : ℕ} {xp : LogXparams} {d₀ : ℕ → Valu} {h : History} {A : LogSt} {ms : MemState}
  {s : St}

/-- One command extends the history; a crash during it leaves an allowed disk. -/
theorem wp_runCmd (hl : PaddedLog.Layout n xp) (hA : LState n xp A ms s) (hm : Matches d₀ h A)
    {c : Cmd} (hc : c.Valid xp) :
    wp diskSem (runCmd xp ms c)
      (fun r s' => ∃ A', LState n xp A' r.1 s' ∧ Matches d₀ (h.step r.2 c) A')
      (LCrash n xp (Allowed xp d₀ h.durable (h.step true c).committed)) s := by
  cases c with
  | begin => exact wp_bind (wp_begin hA fun h' => wp_pure ⟨A, h', hm⟩)
  | read a =>
    apply wp_bind
    apply wp_read hl hA hc hm.crashes_subset
    intro ms' s' h'
    exact wp_pure ⟨A, h', hm⟩
  | write a v =>
    apply wp_bind
    apply wp_write hA hc.1 hc.2
    intro ms' h'
    apply wp_pure
    refine ⟨_, h', ?_, hm.split⟩
    simp [LogSt.write, History.step, hm.txn]
  | commit =>
    apply wp_commit hl hA
    · exact (hm.submit xp).crashes_subset.trans (Allowed.mono le_rfl (prefix_step h _ _))
    · intro ms' s' h'
      exact ⟨_, h', hm.commit⟩
  | abort =>
    apply wp_bind
    apply wp_abort hA
    intro ms' h'
    exact wp_pure ⟨_, h', rfl, hm.split⟩
  | flushall =>
    apply wp_bind
    apply wp_flushall hl hA hm.crashes_subset
    intro ms' s' h'
    exact wp_pure ⟨_, h', hm.flushall⟩
  | flushsync =>
    apply wp_bind
    apply wp_flushsync hl hA hm.crashes_subset
    intro ms' s' h'
    exact wp_pure ⟨_, h', hm.flushall⟩

/-- A run that has finished matches its history, and no command fails. -/
theorem wp_runCmds (hl : PaddedLog.Layout n xp) {cmds : List Cmd} (hc : ∀ c ∈ cmds, c.Valid xp)
    (hA : LState n xp A ms s) (hm : Matches d₀ h A) :
    wp diskSem (runCmds xp cmds ms)
      (fun r s' => ∃ A', LState n xp A' r.1 s' ∧ Matches d₀ (h.run cmds r.2) A')
      (fun _ => True) s := by
  induction cmds generalizing h A ms s with
  | nil => exact wp_pure ⟨A, hA, hm⟩
  | cons c cmds ih =>
    apply wp_bind
    refine wp_mono (wp_runCmd hl hA hm (hc c List.mem_cons_self)) ?_ fun _ _ => trivial
    rintro ⟨ms', ok⟩ s' ⟨A', hA', hm'⟩
    apply wp_bind
    refine wp_mono (ih (fun c hc' => hc c (List.mem_cons_of_mem _ hc')) hA' hm') ?_ fun _ => id
    rintro ⟨ms'', oks⟩ s'' ⟨A'', hA'', hm''⟩
    exact wp_pure ⟨A'', hA'', hm''⟩

/-- A crash of a run is a crash of one of its commands, after the commands before it. -/
theorem runCmds_crashed {cmds : List Cmd} {s₂ : St}
    (e : Exec diskSem s (runCmds xp cmds ms) (.crashed s₂)) :
    ∃ pre c post ms₁ oks s₁, cmds = pre ++ c :: post ∧
      Exec diskSem s (runCmds xp pre ms) (.finished s₁ (ms₁, oks)) ∧
      Exec diskSem s₁ (runCmd xp ms₁ c) (.crashed s₂) := by
  induction cmds generalizing ms s with
  | nil => cases e
  | cons c cmds ih =>
    cases e with
    | bindCrash e => exact ⟨[], c, cmds, ms, [], s, rfl, .ret _ _, e⟩
    | @bindFinish _ _ _ s₁ _ _ r _ e e' =>
      obtain ⟨ms₁, ok⟩ := r
      cases e' with
      | bindCrash e' =>
        obtain ⟨pre, c', post, ms₂, oks, s₂', rfl, e₁, e₂⟩ := ih e'
        exact ⟨c :: pre, c', post, ms₂, ok :: oks, s₂', rfl,
          .bindFinish e (.bindFinish e₁ (.ret _ _)), e₂⟩
      | bindFinish _ e'' => cases e''

/-- Only the blocks of the data section matter. -/
theorem lstate_ofDisk_congr {d d' : ℕ → Valu} (hA : LState n xp (LogSt.ofDisk d) ms s)
    (hd : ∀ a < MLog.dataSize xp, d a = d' a) : LState n xp (LogSt.ofDisk d') ms s := by
  obtain ⟨⟨⟨m, hm, l, h, hr⟩, htx, hv, hrg, hln⟩, ht, htr⟩ := hA
  refine ⟨⟨⟨m, hm, l, h, hr.synced, hr.inLog, hr.range, ?_, ?_⟩, htx, hv, hrg, hln⟩, ht, htr⟩
  · intro a v hv'
    have ha : a < MLog.dataSize xp := by
      rw [hr.inLog] at hv'
      exact (hr.range _ (mem_of_getElem?_replayMem hv')).2
    have := (hr.logged a v hv').1
    exact ⟨(hd a ha).symm.trans this, ((hd a ha).symm.trans this).symm⟩
  · intro a ha hv'
    obtain ⟨h₁, h₂⟩ := hr.home a ha hv'
    refine ⟨(hd a ha).symm.trans h₁, fun x hx => ?_⟩
    exact (show x = d a from h₂ hx).trans (hd a ha)

/-- The log has been recovered to the disk after some first transactions, at least `lo` of them. -/
def RecoveredTo (n : ℕ) (xp : LogXparams) (d₀ : ℕ → Valu) (lo : ℕ) (txns : List Contents)
    (ms : MemState) (s : St) : Prop :=
  ∃ k, lo ≤ k ∧ k ≤ txns.length ∧
    LState n xp (LogSt.ofDisk (diskAfter d₀ (txns.take k))) ms s

/-- Recovery from a crash ends in a state that represents one of the crash disks. -/
theorem sat_of_crash (k : ℕ) (hl : PaddedLog.Layout n xp) {D : Set (ℕ → Valu)}
    {R : MemState → St → Prop} (hc : LCrash n xp D s) {s' : St} (hr : Reboot s s')
    (hR : ∀ d ∈ D, ∀ ms s, LState n xp (LogSt.ofDisk d) ms s → R ms s)
    {out : RecOutcome St MemState MemState}
    (e : ExecRecover diskSem Reboot s' (recoverBoot k xp) (recoverBoot k xp) out) : out.Sat R R := by
  have hrec : ∀ s₁ s₂, LCrash n xp D s₁ → Reboot s₁ s₂ →
      wp diskSem (recoverBoot k xp) R (LCrash n xp D) s₂ := by
    intro s₁ s₂ hc hr
    refine wp_mono (wp_recoverBoot k hl hc hr) ?_ fun _ => id
    rintro ms' s'' ⟨d, hd, hA⟩
    exact hR d hd ms' s'' hA
  exact e.sound (hrec s s' hc hr) hrec

theorem recoveredTo_of_crash (k : ℕ) (hl : PaddedLog.Layout n xp) {lo : ℕ}
    {txns : List Contents} (hc : LCrash n xp (Allowed xp d₀ lo txns) s) {s' : St}
    (hr : Reboot s s') {out : RecOutcome St MemState MemState}
    (e : ExecRecover diskSem Reboot s' (recoverBoot k xp) (recoverBoot k xp) out) :
    out.Sat (RecoveredTo n xp d₀ lo txns) (RecoveredTo n xp d₀ lo txns) := by
  refine sat_of_crash k hl hc hr ?_ e
  rintro d ⟨j, h₁, h₂, hd⟩ ms' s'' hA
  exact ⟨j, h₁, h₂, lstate_ofDisk_congr hA hd⟩

/-- Crash consistency of the log.  A run from the disk `d₀` does not fail.  If it crashes, it does so
in some command `c` after commands `pre` with a history, and recovery ends with the disk after
some first committed transactions, at least those committed before the last flush; only a commit
that was interrupted may have added its own transaction.  The same holds for a crash after the
run. -/
theorem runCmds_crash_consistent (k : ℕ) (hl : PaddedLog.Layout n xp) (cmds : List Cmd)
    (hc : ∀ c ∈ cmds, c.Valid xp) (hA : LState n xp (LogSt.ofDisk d₀) ms s) :
    ¬ Exec diskSem s (runCmds xp cmds ms) .failed ∧
    (∀ s₂, Exec diskSem s (runCmds xp cmds ms) (.crashed s₂) →
      ∃ pre c post ms₁ oks s₁, cmds = pre ++ c :: post ∧
        Exec diskSem s (runCmds xp pre ms) (.finished s₁ (ms₁, oks)) ∧
        Exec diskSem s₁ (runCmd xp ms₁ c) (.crashed s₂) ∧
        ∀ s₃ out, Reboot s₂ s₃ →
          ExecRecover diskSem Reboot s₃ (recoverBoot k xp) (recoverBoot k xp) out →
          out.Sat (RecoveredTo n xp d₀ (History.empty.run pre oks).durable
              ((History.empty.run pre oks).step true c).committed)
            (RecoveredTo n xp d₀ (History.empty.run pre oks).durable
              ((History.empty.run pre oks).step true c).committed)) ∧
    (∀ s₁ ms₁ oks, Exec diskSem s (runCmds xp cmds ms) (.finished s₁ (ms₁, oks)) →
      ∀ s₃ out, Reboot s₁ s₃ →
        ExecRecover diskSem Reboot s₃ (recoverBoot k xp) (recoverBoot k xp) out →
        out.Sat (RecoveredTo n xp d₀ (History.empty.run cmds oks).durable
            (History.empty.run cmds oks).committed)
          (RecoveredTo n xp d₀ (History.empty.run cmds oks).durable
            (History.empty.run cmds oks).committed)) := by
  refine ⟨fun e => wp_runCmds hl hc hA (matches_empty d₀) _ e, ?_, ?_⟩
  · intro s₂ e
    obtain ⟨pre, c, post, ms₁, oks, s₁, rfl, e₁, e₂⟩ := runCmds_crashed e
    refine ⟨pre, c, post, ms₁, oks, s₁, rfl, e₁, e₂, fun s₃ out hr e' => ?_⟩
    obtain ⟨A', hA', hm'⟩ := wp_runCmds hl (fun c' hc' => hc c' (by simp [hc'])) hA
      (matches_empty d₀) _ e₁
    exact recoveredTo_of_crash k hl (wp_runCmd hl hA' hm' (hc c (by simp)) _ e₂) hr e'
  · intro s₁ ms₁ oks e s₃ out hr e'
    obtain ⟨A', hA', hm'⟩ := wp_runCmds hl hc hA (matches_empty d₀) _ e
    exact recoveredTo_of_crash k hl (hA'.crash hl hm'.crashes_subset) hr e'

/-- A machine that has booted from a disk with an empty log. -/
theorem lstate_of_booted {f : ℕ → Valu} {hm : Hashmap} (k : ℕ) (hb : Booted n f hm s)
    (hf : f xp.logHeader = PaddedLog.Hdr.empty.encode) :
    LState n xp (LogSt.ofDisk fun a => f (xp.dataStart + a)) ⟨∅, ⟨∅, [], ⟨∅, BufCache.cache0 k⟩⟩⟩
      s := by
  have hs : PaddedLog.Synced xp (ADisk.synced f) hm [] :=
    ⟨ADisk.syncedAt_synced f _, PaddedLog.Hdr.empty, PaddedLog.Hdr.empty_good, hf,
      PaddedLog.holds_nil xp _ hm⟩
  refine ⟨GLog.gstate_nil ⟨_, hm, [], hb.cstate, hs, rfl, ?_, ?_, ?_⟩, rfl, txnRange_empty⟩
  · exact fun e he => (List.not_mem_nil he).elim
  · intro a v hv
    simp at hv
  · exact fun a _ _ => ⟨rfl, subset_rfl⟩

end LOG

namespace Sample

local instance : Platform := platform

/-- One transaction on the sample disk, followed by a flush. -/
def cmds : List LOG.Cmd := [.begin, .write 1 7, .read 1, .commit, .flushall]

theorem runCmds_crash_consistent_boot :
    ¬ Exec diskSem boot (LOG.runCmds xp cmds ⟨∅, ⟨∅, [], ⟨∅, BufCache.cache0 10⟩⟩⟩) .failed ∧
    (∀ s₁ ms₁ oks, Exec diskSem boot (LOG.runCmds xp cmds ⟨∅, ⟨∅, [], ⟨∅, BufCache.cache0 10⟩⟩⟩)
      (.finished s₁ (ms₁, oks)) →
      ∀ s₃ out, Reboot s₁ s₃ →
        ExecRecover diskSem Reboot s₃ (LOG.recoverBoot 10 xp) (LOG.recoverBoot 10 xp) out →
        out.Sat (LOG.RecoveredTo 518 xp (fun a => disk (0 + a))
            (LOG.History.empty.run cmds oks).durable (LOG.History.empty.run cmds oks).committed)
          (LOG.RecoveredTo 518 xp (fun a => disk (0 + a))
            (LOG.History.empty.run cmds oks).durable
            (LOG.History.empty.run cmds oks).committed)) := by
  have h := LOG.runCmds_crash_consistent 10 layout cmds
    (by simp [cmds, LOG.Cmd.Valid, MLog.dataSize, xp]) (LOG.lstate_of_booted 10 booted rfl)
  exact ⟨h.1, h.2.2⟩

end Sample

end Fscq
