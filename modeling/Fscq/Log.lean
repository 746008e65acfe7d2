import Fscq.GroupLog

/-!
# The transaction log

Transactions read and write blocks of the data section; their writes stay in memory until they are
committed to the group log.  `LogSt` is the abstract state of the log: the disk below the pending
transactions, the pending transactions and the writes of the active transaction, and its operations
say what the log is for.  The programs below refine them: `LState n xp A ms s` relates the memory
state `ms` and the state of the machine to the abstract state `A`, and every operation is proved to
take it from one abstract state to the next, with a crash leading to one of the disks of `A`.
-/

namespace Fscq

open CrashProg

open PaddedLog (Contents)

/-- The abstract state of the log. -/
structure LogSt where
  base : ADisk
  pend : List Contents
  txn : Valumap

namespace LogSt

/-- The disk with all committed transactions. -/
def disk (A : LogSt) : ADisk := GLog.installAll A.base A.pend

/-- The block that a read returns. -/
def read (A : LogSt) (a : ℕ) : Valu := (A.txn[a]?).getD (A.disk.cur a)

def abort (A : LogSt) : LogSt := { A with txn := ∅ }

def write (A : LogSt) (a : ℕ) (v : Valu) : LogSt := { A with txn := A.txn.insert a v }

def flushall (A : LogSt) : LogSt := { A with base := A.disk, pend := [] }

/-- The active transaction joins the pending ones, if it fits into the log. -/
def submit (A : LogSt) (xp : LogXparams) : LogSt × Bool :=
  if A.txn.toList.length ≤ xp.logLen then
    ({ A with pend := A.pend ++ [A.txn.toList], txn := ∅ }, true)
  else ({ A with txn := ∅ }, false)

def commit [Platform] (A : LogSt) (xp : LogXparams) : LogSt × Bool :=
  let (A, r) := A.submit xp
  if shouldFlushall then (A.flushall, r) else (A, r)

/-- A write past the log.  No pending transaction holds the block afterwards. -/
def dwrite (A : LogSt) (a : ℕ) (v : Valu) : LogSt :=
  let A := if a ∈ GLog.collapse A.pend then A.flushall else A
  { A with base := A.base.write a v, txn := A.txn.erase a }

/-- Writes past the log, which drop the active transaction. -/
def dwriteVecs (A : LogSt) (avl : List (ℕ × Valu)) : LogSt :=
  let A := if overlap (avl.map Prod.fst) (GLog.collapse A.pend) then A.flushall else A
  { A with base := A.base.writes avl, txn := ∅ }

/-- Sync a block past the log. -/
def dsync (A : LogSt) (a : ℕ) : LogSt := { A with base := A.base.sync {b | b = a} }

def dsyncVecs (A : LogSt) (al : List ℕ) : LogSt := { A with base := A.base.sync {b | b ∈ al} }

/-- Sync all blocks. -/
def syncCache (A : LogSt) : LogSt := { A with base := A.base.sync Set.univ }

/-- The disks that a crash may leave. -/
def crashes (A : LogSt) (xp : LogXparams) : Set (ℕ → Valu) := GLog.crashAll xp A.base A.pend

/-- A log without pending or active transactions over the disk `f`. -/
def ofDisk (f : ℕ → Valu) : LogSt := ⟨ADisk.synced f, [], ∅⟩

end LogSt

namespace LOG

/-- The addresses of the active transaction are in the data section. -/
def TxnRange (xp : LogXparams) (mp : Valumap) : Prop := MLog.InRange xp mp.toList

section

variable {xp : LogXparams} {a : ℕ} {v : Valu}

theorem txnRange_empty : TxnRange xp ∅ := by
  rintro ⟨a, v⟩ h
  rw [Std.ExtTreeMap.mem_toList_iff_getElem?_eq_some] at h
  simp at h

theorem txnRange_insert {mp : Valumap} (h : TxnRange xp mp) (h0 : a ≠ 0)
    (ha : a < MLog.dataSize xp) : TxnRange xp (mp.insert a v) := by
  rintro ⟨b, w⟩ hb
  rw [Std.ExtTreeMap.mem_toList_iff_getElem?_eq_some, Std.ExtTreeMap.getElem?_insert] at hb
  by_cases e : a = b
  · subst e
    exact ⟨h0, ha⟩
  · rw [if_neg (by simpa using e)] at hb
    exact h (b, w) (Std.ExtTreeMap.mem_toList_iff_getElem?_eq_some.2 hb)

theorem txnRange_erase {mp : Valumap} (h : TxnRange xp mp) : TxnRange xp (mp.erase a) := by
  rintro ⟨b, w⟩ hb
  rw [Std.ExtTreeMap.mem_toList_iff_getElem?_eq_some, Std.ExtTreeMap.getElem?_erase] at hb
  split_ifs at hb
  exact h (b, w) (Std.ExtTreeMap.mem_toList_iff_getElem?_eq_some.2 hb)

end

variable [Platform]

/-- The writes of the active transaction and the state of the group log. -/
structure MemState where
  msTxn : Valumap
  msLL : GLog.MemState

/-! ### The programs -/

def begin (_xp : LogXparams) (ms : MemState) : Prog MemState := pure ms

def abort (_xp : LogXparams) (ms : MemState) : Prog MemState := pure ⟨∅, ms.msLL⟩

def write (_xp : LogXparams) (a : ℕ) (v : Valu) (ms : MemState) : Prog MemState :=
  pure ⟨ms.msTxn.insert a v, ms.msLL⟩

def read (xp : LogXparams) (a : ℕ) (ms : MemState) : Prog (MemState × Valu) :=
  match ms.msTxn[a]? with
  | some v => pure (ms, v)
  | none => do
    let (mm, v) ← GLog.read xp a ms.msLL
    pure (⟨ms.msTxn, mm⟩, v)

def commit (xp : LogXparams) (ms : MemState) : Prog (MemState × Bool) := do
  let (mm, r) ← GLog.submit xp ms.msTxn.toList ms.msLL
  if shouldFlushall then do
    let mm ← GLog.flushallNoop xp mm
    pure (⟨∅, mm⟩, r)
  else pure (⟨∅, mm⟩, r)

/-- Like abort, for transactions without writes. -/
def commitRo (_xp : LogXparams) (ms : MemState) : Prog MemState := pure ⟨∅, ms.msLL⟩

def dwrite (xp : LogXparams) (a : ℕ) (v : Valu) (ms : MemState) : Prog MemState := do
  let mm ← GLog.dwrite xp a v ms.msLL
  pure ⟨ms.msTxn.erase a, mm⟩

/-- Write blocks past the log; this drops the active transaction. -/
def dwriteVecs (xp : LogXparams) (avl : List (ℕ × Valu)) (ms : MemState) : Prog MemState := do
  let mm ← GLog.dwriteVecs xp avl ms.msLL
  pure ⟨∅, mm⟩

def dsyncVecs (xp : LogXparams) (al : List ℕ) (ms : MemState) : Prog MemState := do
  let mm ← GLog.dsyncVecs xp al ms.msLL
  pure ⟨ms.msTxn, mm⟩

def dsync (xp : LogXparams) (a : ℕ) (ms : MemState) : Prog MemState := do
  let mm ← GLog.dsync xp a ms.msLL
  pure ⟨ms.msTxn, mm⟩

def flushsync (xp : LogXparams) (ms : MemState) : Prog MemState := do
  let mm ← GLog.flushsync xp ms.msLL
  pure ⟨ms.msTxn, mm⟩

def flushall (xp : LogXparams) (ms : MemState) : Prog MemState := do
  let mm ← GLog.flushall xp ms.msLL
  pure ⟨ms.msTxn, mm⟩

def flushallNoop : LogXparams → MemState → Prog MemState := flushall

def flushsyncNoop : LogXparams → MemState → Prog MemState := flushsync

def syncCache (xp : LogXparams) (ms : MemState) : Prog MemState := do
  let mm ← GLog.syncCache xp ms.msLL
  pure ⟨ms.msTxn, mm⟩

def recover (xp : LogXparams) (cs : CacheState) : Prog MemState := do
  let mm ← GLog.recover xp cs
  pure ⟨∅, mm⟩

def init (xp : LogXparams) (cs : CacheState) : Prog MemState := do
  let mm ← GLog.init xp cs
  pure ⟨∅, mm⟩

/-- Recovery after a reboot, with a fresh cache. -/
def recoverBoot (k : ℕ) (xp : LogXparams) : Prog MemState := do
  let cs ← BufCache.initRecover k
  recover xp cs

/-! ## The programs refine the abstract operations -/

/-- The log in a state of the machine represents the abstract state `A`. -/
structure LState (n : ℕ) (xp : LogXparams) (A : LogSt) (ms : MemState) (s : St) : Prop where
  glog : GLog.GState n xp A.base A.pend ms.msLL s
  txn : ms.msTxn = A.txn
  range : TxnRange xp A.txn

/-- A crash state from which recovery ends with a disk in `D`. -/
abbrev LCrash := @MLog.MCrash

variable {n : ℕ} {xp : LogXparams} {A : LogSt} {ms : MemState} {s : St} {D : Set (ℕ → Valu)}
  {a : ℕ} {v : Valu} {Q : MemState → St → Prop} {C : St → Prop}

theorem wp_begin (h : LState n xp A ms s) (hQ : LState n xp A ms s → Q ms s) :
    wp diskSem (begin xp ms) Q C s := wp_pure (hQ h)

theorem wp_abort (h : LState n xp A ms s) (hQ : ∀ ms', LState n xp A.abort ms' s → Q ms' s) :
    wp diskSem (abort xp ms) Q C s :=
  wp_pure (hQ _ ⟨h.glog, rfl, txnRange_empty⟩)

theorem wp_commitRo (h : LState n xp A ms s) (hQ : ∀ ms', LState n xp A.abort ms' s → Q ms' s) :
    wp diskSem (commitRo xp ms) Q C s :=
  wp_pure (hQ _ ⟨h.glog, rfl, txnRange_empty⟩)

theorem wp_write (h : LState n xp A ms s) (h0 : a ≠ 0) (ha : a < MLog.dataSize xp)
    (hQ : ∀ ms', LState n xp (A.write a v) ms' s → Q ms' s) :
    wp diskSem (write xp a v ms) Q C s := by
  apply wp_pure
  exact hQ _ ⟨h.glog, by rw [h.txn]; rfl, txnRange_insert h.range h0 ha⟩

theorem wp_read {Q : MemState × Valu → St → Prop} (hl : PaddedLog.Layout n xp)
    (h : LState n xp A ms s) (ha : a < MLog.dataSize xp) (hD : A.crashes xp ⊆ D)
    (hQ : ∀ ms' s', LState n xp A ms' s' → Q (ms', A.read a) s') :
    wp diskSem (read xp a ms) Q (LCrash n xp D) s := by
  unfold read
  rw [h.txn]
  split
  next v hv =>
    apply wp_pure
    have : A.read a = v := by simp [LogSt.read, hv]
    rw [← this]
    exact hQ ms s h
  next hv =>
    apply wp_bind
    apply GLog.wp_read hl h.glog ha hD
    intro mm s' h'
    apply wp_pure
    have : A.read a = (GLog.installAll A.base A.pend).cur a := by
      simp [LogSt.read, hv, LogSt.disk]
    rw [← this]
    exact hQ _ _ ⟨h', rfl, h.range⟩

theorem wp_flushall (hl : PaddedLog.Layout n xp) (h : LState n xp A ms s) (hD : A.crashes xp ⊆ D)
    (hQ : ∀ ms' s', LState n xp A.flushall ms' s' → Q ms' s') :
    wp diskSem (flushall xp ms) Q (LCrash n xp D) s := by
  apply wp_bind
  apply GLog.wp_flushall hl h.glog hD
  intro mm s' h'
  exact wp_pure (hQ _ _ ⟨h', h.txn, h.range⟩)

theorem wp_flushsync (hl : PaddedLog.Layout n xp) (h : LState n xp A ms s) (hD : A.crashes xp ⊆ D)
    (hQ : ∀ ms' s', LState n xp A.flushall ms' s' → Q ms' s') :
    wp diskSem (flushsync xp ms) Q (LCrash n xp D) s := by
  apply wp_bind
  apply GLog.wp_flushsync hl h.glog hD
  intro mm s' h'
  exact wp_pure (hQ _ _ ⟨h', h.txn, h.range⟩)

theorem wp_syncCache (hl : PaddedLog.Layout n xp) (h : LState n xp A ms s)
    (hD : A.crashes xp ⊆ D) (hQ : ∀ ms' s', LState n xp A.syncCache ms' s' → Q ms' s') :
    wp diskSem (syncCache xp ms) Q (LCrash n xp D) s := by
  apply wp_bind
  apply GLog.wp_syncCache hl h.glog hD
  intro mm s' h'
  exact wp_pure (hQ _ _ ⟨h', h.txn, h.range⟩)

/-- A commit can only crash while it flushes, and then its own transaction may be durable. -/
theorem wp_commit {Q : MemState × Bool → St → Prop} (hl : PaddedLog.Layout n xp)
    (h : LState n xp A ms s) (hD : (A.submit xp).1.crashes xp ⊆ D)
    (hQ : ∀ ms' s', LState n xp (A.commit xp).1 ms' s' → Q (ms', (A.commit xp).2) s') :
    wp diskSem (commit xp ms) Q (LCrash n xp D) s := by
  -- what is left to do after the transaction has been submitted
  have hrest : ∀ mm r, A.submit xp = ((A.submit xp).1, r) →
      LState n xp (A.submit xp).1 ⟨∅, mm⟩ s →
      wp diskSem (if shouldFlushall then do
        let mm ← GLog.flushallNoop xp mm
        pure (⟨∅, mm⟩, r)
      else pure (⟨∅, mm⟩, r)) Q (LCrash n xp D) s := by
    intro mm r hr h'
    rw [LogSt.commit, hr] at hQ
    split_ifs with hf
    · apply wp_bind
      apply GLog.wp_flushall hl h'.glog hD
      intro mm' s' h''
      simp only [hf] at hQ
      exact wp_pure (hQ _ _ ⟨h'', h'.txn, h'.range⟩)
    · simp only [hf] at hQ
      exact wp_pure (hQ _ _ h')
  apply wp_bind
  rw [h.txn]
  apply GLog.wp_submit h.glog h.range
  · intro mm hlen h'
    have e : A.submit xp = ({ A with pend := A.pend ++ [A.txn.toList], txn := ∅ }, true) := by
      rw [LogSt.submit, if_pos hlen]
    refine hrest mm true (by rw [e]) ?_
    rw [e]
    exact ⟨h', rfl, txnRange_empty⟩
  · intro hlen
    have e : A.submit xp = ({ A with txn := ∅ }, false) := by
      rw [LogSt.submit, if_neg (by omega)]
    refine hrest ms.msLL false (by rw [e]) ?_
    rw [e]
    exact ⟨h.glog, rfl, txnRange_empty⟩

theorem wp_dwrite (hl : PaddedLog.Layout n xp) (h : LState n xp A ms s)
    (ha : a < MLog.dataSize xp) (hD : A.crashes xp ⊆ D)
    (hQ : ∀ ms' s', LState n xp (A.dwrite a v) ms' s' → Q ms' s') :
    wp diskSem (dwrite xp a v ms) Q (LCrash n xp D) s := by
  apply wp_bind
  apply GLog.wp_dwrite hl h.glog ha hD
  · intro mm s' hmem h'
    apply wp_pure
    apply hQ
    rw [LogSt.dwrite, if_pos hmem]
    exact ⟨h', by rw [h.txn]; rfl, txnRange_erase h.range⟩
  · intro mm s' hmem h'
    apply wp_pure
    apply hQ
    rw [LogSt.dwrite, if_neg hmem]
    exact ⟨h', by rw [h.txn], txnRange_erase h.range⟩

theorem wp_dwriteVecs {avl : List (ℕ × Valu)} (hl : PaddedLog.Layout n xp)
    (h : LState n xp A ms s) (ha : ∀ av ∈ avl, av.1 < MLog.dataSize xp) (hD : A.crashes xp ⊆ D)
    (hD' : (A.dwriteVecs avl).crashes xp ⊆ D)
    (hQ : ∀ ms' s', LState n xp (A.dwriteVecs avl) ms' s' → Q ms' s') :
    wp diskSem (dwriteVecs xp avl ms) Q (LCrash n xp D) s := by
  unfold LogSt.dwriteVecs at hD' hQ
  apply wp_bind
  apply GLog.wp_dwriteVecs hl h.glog ha hD
  · intro hov
    rw [if_pos hov] at hD'
    exact hD'
  · intro hov
    rw [hov] at hD'
    exact hD'
  · intro mm s' hov h'
    apply wp_pure
    apply hQ
    rw [if_pos hov]
    exact ⟨h', rfl, txnRange_empty⟩
  · intro mm s' hov h'
    apply wp_pure
    apply hQ
    rw [hov]
    exact ⟨h', rfl, txnRange_empty⟩

theorem wp_dsyncVecs {al : List ℕ} (hl : PaddedLog.Layout n xp) (h : LState n xp A ms s)
    (hD : A.crashes xp ⊆ D)
    (hQ : ∀ ms' s', LState n xp (A.dsyncVecs al) ms' s' → Q ms' s') :
    wp diskSem (dsyncVecs xp al ms) Q (LCrash n xp D) s := by
  apply wp_bind
  apply GLog.wp_dsyncVecs hl h.glog hD
  intro mm s' h'
  exact wp_pure (hQ _ _ ⟨h', h.txn, h.range⟩)

theorem wp_dsync (hl : PaddedLog.Layout n xp) (h : LState n xp A ms s) (hD : A.crashes xp ⊆ D)
    (hQ : ∀ ms' s', LState n xp (A.dsync a) ms' s' → Q ms' s') :
    wp diskSem (dsync xp a ms) Q (LCrash n xp D) s := by
  apply wp_bind
  apply GLog.wp_dsync hl h.glog hD
  intro mm s' h'
  exact wp_pure (hQ _ _ ⟨h', h.txn, h.range⟩)

/-- A machine that stops while nothing is running leaves one of the disks of the log. -/
theorem LState.crash (h : LState n xp A ms s) (hl : PaddedLog.Layout n xp)
    (hD : A.crashes xp ⊆ D) : LCrash n xp D s :=
  h.glog.mlog.crash hl (h.glog.crashSet_subset.trans hD)

/-- Recovery ends with one of the disks that the crash condition names, however often it is
interrupted. -/
theorem wp_recoverBoot {s' : St} (k : ℕ) (hl : PaddedLog.Layout n xp) (hc : LCrash n xp D s)
    (hr : Reboot s s') :
    wp diskSem (recoverBoot k xp) (fun ms s => ∃ d ∈ D, LState n xp (LogSt.ofDisk d) ms s)
      (LCrash n xp D) s' := by
  apply BufCache.wp_boot hc hr fun m hm f hL hf => hL.crash hl hf
  intro cs f hm s h hL
  apply wp_bind
  apply wp_bind
  apply MLog.wp_recover hl h hL
  intro mm s' d hd h'
  apply wp_pure
  apply wp_pure
  exact ⟨d, hd, GLog.gstate_nil h', rfl, txnRange_empty⟩

end LOG

end Fscq
