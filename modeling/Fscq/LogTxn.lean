import Fscq.LogRun
import Fscq.LogProg

/-!
# What transactions mean

The first part is about the group log: its map is the replay of all transactions submitted to it, and
a flush has the same effect whether it merges them or flushes one after the other.  The second part
is about the log: a transaction reads its own writes and else the committed disk, a commit installs
its writes exactly when they fit into the log, and a transaction that has been refused or aborted
leaves nothing behind.
-/

namespace Fscq

open CrashProg

open PaddedLog (Contents)

namespace GLog

theorem collapse_eq_replayMem (pend : List Contents) :
    collapse pend = replayMem pend.flatten ∅ := by
  rw [collapse, replayMem, List.foldl_flatten]
  rfl

/-- The transactions that fit into the log. -/
def accepted (xp : LogXparams) (txns : List Contents) : List Contents :=
  txns.filter fun ents => ents.length ≤ xp.logLen

variable [Platform]

/-- Submit transactions one after the other. -/
def submitAll (xp : LogXparams) : List Contents → MemState → Prog (MemState × List Bool)
  | [], ms => pure (ms, [])
  | ents :: txns, ms => do
    let (ms, ok) ← submit xp ents ms
    let (ms, oks) ← submitAll xp txns ms
    pure (ms, ok :: oks)

variable {n : ℕ} {xp : LogXparams} {B : ADisk} {pend txns : List Contents} {ms : MemState}
  {mm : MLog.MemState} {s : St}

/-- Transactions that are submitted join the pending ones if they fit into the log. -/
theorem wp_submitAll {C : St → Prop} (h : GState n xp B pend ms s)
    (hr : ∀ ents ∈ txns, MLog.InRange xp ents) :
    wp diskSem (submitAll xp txns ms) (fun r s' => s' = s ∧
      r.2 = txns.map (fun ents => decide (ents.length ≤ xp.logLen)) ∧
      GState n xp B (pend ++ accepted xp txns) r.1 s') C s := by
  induction txns generalizing pend ms with
  | nil =>
    apply wp_pure
    rw [accepted, List.filter_nil, List.append_nil]
    exact ⟨rfl, rfl, h⟩
  | cons ents txns ih =>
    have hr' : ∀ ents ∈ txns, MLog.InRange xp ents := fun e he => hr e (List.mem_cons_of_mem _ he)
    apply wp_bind
    apply wp_submit h (hr ents List.mem_cons_self)
    · intro ms' hlen h'
      have hacc : pend ++ accepted xp (ents :: txns) = (pend ++ [ents]) ++ accepted xp txns := by
        simp [accepted, hlen]
      apply wp_bind
      refine wp_mono (ih h' hr') ?_ fun _ => id
      rintro ⟨ms'', oks⟩ s' ⟨hs, hoks, hg⟩
      obtain rfl : oks = _ := hoks
      apply wp_pure
      rw [hacc]
      exact ⟨hs, by simp [hlen], hg⟩
    · intro hlen
      have hacc : pend ++ accepted xp (ents :: txns) = pend ++ accepted xp txns := by
        simp [accepted, Nat.not_le.2 hlen]
      apply wp_bind
      refine wp_mono (ih h hr') ?_ fun _ => id
      rintro ⟨ms'', oks⟩ s' ⟨hs, hoks, hg⟩
      obtain rfl : oks = _ := hoks
      apply wp_pure
      rw [hacc]
      exact ⟨hs, by simp [Nat.not_le.2 hlen], hg⟩

/-- The maps of the group log are empty, and the disk holds what replaying the transactions on it in
their order leaves. -/
def FlushedTo (n : ℕ) (xp : LogXparams) (B : ADisk) (pend : List Contents) (ms : MemState)
    (s : St) : Prop :=
  ms.msVMap = ∅ ∧ ms.msTxns = [] ∧
    MLog.MState n xp (B.install (replayMem pend.flatten ∅)) ms.msLL s

theorem GState.flushedTo {ms' : MemState} {s' : St} (h : GState n xp (installAll B pend) [] ms' s') :
    FlushedTo n xp B pend ms' s' := by
  refine ⟨h.vmap, h.txns, ?_⟩
  rw [← collapse_eq_replayMem, ← installAll_eq]
  exact h.mlog

/-- Merged and one-by-one flushes are equivalent.  Submit any transactions to an empty group log over
the disk `B`.  Then its map is the replay of those that fit into the log, in their order; a read
returns the last value of its block; and `flushall`, `flushallNomerge` and, where the map fits into
the log, one flush of the elements of the map all leave the disk on which the transactions have been
replayed in their order. -/
theorem flush_merge_equiv (hl : PaddedLog.Layout n xp) (h : MLog.MState n xp B mm s)
    (hr : ∀ ents ∈ txns, MLog.InRange xp ents) :
    wp diskSem (submitAll xp txns ⟨∅, [], mm⟩) (fun r s' =>
      r.2 = txns.map (fun ents => decide (ents.length ≤ xp.logLen)) ∧
      r.1.msVMap = replayMem (accepted xp txns).flatten ∅ ∧
      (∀ a < MLog.dataSize xp, wp diskSem (read xp a r.1) (fun r' s'' =>
        r'.2 = replayDisk (accepted xp txns).flatten B.cur a ∧
        r'.1.msVMap = r.1.msVMap ∧ r'.1.msTxns = r.1.msTxns ∧ MLog.MState n xp B r'.1.msLL s'')
        (fun _ => True) s') ∧
      wp diskSem (flushall xp r.1) (FlushedTo n xp B (accepted xp txns)) (fun _ => True) s' ∧
      wp diskSem (flushallNomerge xp r.1) (FlushedTo n xp B (accepted xp txns)) (fun _ => True) s' ∧
      (r.1.msVMap.size ≤ xp.logLen → wp diskSem (MLog.flush xp r.1.msVMap.toList r.1.msLL)
        (fun r' s'' => r'.2 = true ∧ FlushedTo n xp B (accepted xp txns) ⟨∅, [], r'.1⟩ s'')
        (fun _ => True) s')) (fun _ => True) s := by
  refine wp_mono (wp_submitAll (gstate_nil h) hr) ?_ fun _ => id
  rintro ⟨ms, oks⟩ s' ⟨rfl, hoks, hg⟩
  rw [List.nil_append] at hg
  have hD := Set.subset_univ (crashAll xp B (accepted xp txns))
  have hvm : ms.msVMap = replayMem (accepted xp txns).flatten ∅ := by
    rw [hg.vmap, collapse_eq_replayMem]
  refine ⟨hoks, hvm, fun a ha => ?_, ?_, ?_, fun hsize => ?_⟩
  · have hcur : (installAll B (accepted xp txns)).cur a =
        replayDisk (accepted xp txns).flatten B.cur a := by
      rw [replayDisk_eq, ← collapse_eq_replayMem, installAll_eq, ADisk.install]
    refine (wp_read hl hg ha hD fun ms' s'' h' => ?_).anyCrash
    exact ⟨hcur, h'.vmap.trans hg.vmap.symm, h'.txns.trans hg.txns.symm, h'.mlog⟩
  · exact (wp_flushall hl hg hD fun ms' s'' h' => h'.flushedTo).anyCrash
  · exact (wp_flushallNomerge hl hg hD fun ms' s'' h' => h'.flushedTo).anyCrash
  · have hlen : (collapse (accepted xp txns)).toList.length ≤ xp.logLen := by
      rw [Std.ExtTreeMap.length_toList, ← hg.vmap]
      exact hsize
    rw [hg.vmap]
    refine (MLog.wp_flush hl hg.mlog hg.collapse_range hlen (Set.subset_univ _)
      (Set.subset_univ _) fun mm' s'' h' => ⟨rfl, ?_⟩).anyCrash
    rw [replayMem_toList, ← installAll_eq] at h'
    exact (gstate_nil h').flushedTo

end GLog

namespace LOG

/-- What a transaction does. -/
inductive TxnOp
  | read (a : ℕ)
  | write (a : ℕ) (v : Valu)

/-- Transactions access blocks of the data section; they do not write block zero. -/
def TxnOp.Valid (xp : LogXparams) : TxnOp → Prop
  | .read a => a < MLog.dataSize xp
  | .write a _ => a ≠ 0 ∧ a < MLog.dataSize xp

/-- The values that the reads of a transaction see on the disk `d`. -/
def seen (d : ℕ → Valu) : List TxnOp → List Valu
  | [] => []
  | .read a :: ops => d a :: seen d ops
  | .write a v :: ops => seen (Function.update d a v) ops

/-- The disk `d` with the writes of a transaction. -/
def installed (d : ℕ → Valu) : List TxnOp → ℕ → Valu
  | [] => d
  | .read _ :: ops => installed d ops
  | .write a v :: ops => installed (Function.update d a v) ops

/-- The addresses that a transaction writes. -/
def written : List TxnOp → Finset ℕ
  | [] => ∅
  | .read _ :: ops => written ops
  | .write a _ :: ops => insert a (written ops)

/-- A transaction of a client, which is committed or aborted at its end. -/
structure ClientTxn where
  ops : List TxnOp
  commits : Bool

namespace ClientTxn

/-- The transaction is committed and fits into the log. -/
def succeeds (xp : LogXparams) (t : ClientTxn) : Bool :=
  t.commits && decide ((written t.ops).card ≤ xp.logLen)

/-- The committed disk after the transaction. -/
def after (xp : LogXparams) (t : ClientTxn) (d : ℕ → Valu) : ℕ → Valu :=
  if t.succeeds xp then installed d t.ops else d

/-- What a list of transactions answers: the values read by each, and whether it was committed. -/
def answers (xp : LogXparams) (d : ℕ → Valu) : List ClientTxn → List (List Valu × Bool)
  | [] => []
  | t :: ts => (seen d t.ops, t.succeeds xp) :: answers xp (t.after xp d) ts

/-- The committed disk after a list of transactions. -/
def afterAll (xp : LogXparams) (d : ℕ → Valu) (ts : List ClientTxn) : ℕ → Valu :=
  ts.foldl (fun d t => t.after xp d) d

end ClientTxn

/-! ### The writes of a transaction as a map -/

/-- The map of the active transaction after some of its operations. -/
def txnMap (mp : Valumap) : List TxnOp → Valumap
  | [] => mp
  | .read _ :: ops => txnMap mp ops
  | .write a v :: ops => txnMap (mp.insert a v) ops

section

variable {ops : List TxnOp} {mp : Valumap} {a : ℕ}

theorem mem_txnMap : a ∈ txnMap mp ops ↔ a ∈ mp ∨ a ∈ written ops := by
  induction ops generalizing mp with
  | nil => simp [txnMap, written]
  | cons op ops ih =>
    cases op with
    | read b => exact ih
    | write b v =>
      rw [txnMap, ih, written, Finset.mem_insert, Std.ExtTreeMap.mem_insert, compare_eq_iff_eq,
        eq_comm, or_assoc, or_left_comm]

/-- The map has one entry for each address that the transaction writes. -/
theorem length_txnMap (ops : List TxnOp) :
    (txnMap ∅ ops).toList.length = (written ops).card := by
  have hkeys : (txnMap ∅ ops).keys.toFinset = written ops := by
    ext a
    rw [List.mem_toFinset, Std.ExtTreeMap.mem_keys, mem_txnMap]
    simp
  rw [← hkeys, List.toFinset_card_of_nodup Std.ExtTreeMap.nodup_keys,
    Std.ExtTreeMap.length_toList, Std.ExtTreeMap.length_keys]

theorem read_txnMap (A : LogSt) (ops : List TxnOp) :
    LogSt.read { A with txn := txnMap A.txn ops } = installed A.read ops := by
  induction ops generalizing A with
  | nil => rfl
  | cons op ops ih =>
    cases op with
    | read a => exact ih A
    | write a v =>
      have h := ih (A.write a v)
      rw [A.read_write a v] at h
      exact h

/-- What a commit does, whether or not it flushes. -/
theorem commit_spec [Platform] (A : LogSt) (xp : LogXparams) :
    (A.commit xp).2 = decide (A.txn.toList.length ≤ xp.logLen) ∧ (A.commit xp).1.txn = ∅ ∧
    (A.commit xp).1.disk.cur = if A.txn.toList.length ≤ xp.logLen then A.read else A.disk.cur := by
  have hdisk : (A.commit xp).1.disk = (A.submit xp).1.disk := by
    rw [LogSt.commit_fst]
    split_ifs <;> rfl
  refine ⟨?_, LogSt.commit_txn A xp, ?_⟩
  · rw [LogSt.commit_snd, LogSt.submit]
    split_ifs with h
    · exact (decide_eq_true h).symm
    · exact (decide_eq_false h).symm
  · rw [hdisk]
    split_ifs with h
    · exact LogSt.disk_submit_of_true (by rw [LogSt.submit, if_pos h])
    · rw [LogSt.submit, if_neg h]
      rfl

end

variable [Platform]

/-! ### The programs of a client -/

/-- The operations of a transaction in order; the answer lists the values that were read. -/
def runOps (xp : LogXparams) : List TxnOp → MemState → Prog (MemState × List Valu)
  | [], ms => pure (ms, [])
  | .read a :: ops, ms => do
    let (ms, v) ← read xp a ms
    let (ms, vs) ← runOps xp ops ms
    pure (ms, v :: vs)
  | .write a v :: ops, ms => do
    let ms ← write xp a v ms
    runOps xp ops ms

def ClientTxn.exec (xp : LogXparams) (t : ClientTxn) (ms : MemState) :
    Prog (MemState × List Valu × Bool) := do
  let ms ← begin xp ms
  let (ms, vs) ← runOps xp t.ops ms
  if t.commits then do
    let (ms, ok) ← commit xp ms
    pure (ms, vs, ok)
  else do
    let ms ← abort xp ms
    pure (ms, vs, false)

def runTxns (xp : LogXparams) : List ClientTxn → MemState →
    Prog (MemState × List (List Valu × Bool))
  | [], ms => pure (ms, [])
  | t :: ts, ms => do
    let (ms, r) ← t.exec xp ms
    let (ms, rs) ← runTxns xp ts ms
    pure (ms, r :: rs)

variable {n : ℕ} {xp : LogXparams} {A : LogSt} {ms : MemState} {s : St}

/-- Reads see the writes of their transaction before them, and else what was there before. -/
theorem wp_runOps {ops : List TxnOp} (hl : PaddedLog.Layout n xp) (h : LState n xp A ms s)
    (hv : ∀ op ∈ ops, op.Valid xp) :
    wp diskSem (runOps xp ops ms) (fun r s' => r.2 = seen A.read ops ∧
      LState n xp { A with txn := txnMap A.txn ops } r.1 s') (LCrash n xp Set.univ) s := by
  induction ops generalizing A ms s with
  | nil => exact wp_pure ⟨rfl, h⟩
  | cons op ops ih =>
    have hv' : ∀ op ∈ ops, op.Valid xp := fun op ho => hv op (List.mem_cons_of_mem _ ho)
    have hop := hv op List.mem_cons_self
    cases op with
    | read a =>
      apply wp_bind
      apply wp_read hl h hop (Set.subset_univ _)
      intro ms' s' h'
      apply wp_bind
      refine wp_mono (ih h' hv') ?_ fun _ => id
      rintro ⟨ms'', vs⟩ s'' ⟨hvs, h''⟩
      obtain rfl : vs = _ := hvs
      exact wp_pure ⟨rfl, h''⟩
    | write a v =>
      apply wp_bind
      apply wp_write h hop.1 hop.2
      intro ms' h'
      refine wp_mono (ih h' hv') ?_ fun _ => id
      rintro ⟨ms'', vs⟩ s'' ⟨hvs, h''⟩
      rw [A.read_write a v] at hvs
      exact ⟨hvs, h''⟩

/-- One transaction of a client. -/
theorem wp_exec {t : ClientTxn} (hl : PaddedLog.Layout n xp) (h : LState n xp A ms s)
    (ht : A.txn = ∅) (hv : ∀ op ∈ t.ops, op.Valid xp) :
    wp diskSem (t.exec xp ms) (fun r s' => r.2 = (seen A.disk.cur t.ops, t.succeeds xp) ∧
      ∃ A', LState n xp A' r.1 s' ∧ A'.txn = ∅ ∧ A'.disk.cur = t.after xp A.disk.cur)
      (LCrash n xp Set.univ) s := by
  have hread : A.read = A.disk.cur := LogSt.read_of_txn ht
  apply wp_bind
  apply wp_begin h
  intro h
  apply wp_bind
  refine wp_mono (wp_runOps hl h hv) ?_ fun _ => id
  rintro ⟨ms₁, vs⟩ s₁ ⟨hvs, h₁⟩
  obtain rfl : vs = seen A.read t.ops := hvs
  obtain ⟨hok, htxn, hdisk⟩ := commit_spec { A with txn := txnMap A.txn t.ops } xp
  rw [read_txnMap] at hdisk
  have hlen : (txnMap A.txn t.ops).toList.length = (written t.ops).card := by
    rw [ht, length_txnMap]
  dsimp only at hok hdisk ⊢
  rw [hlen] at hok hdisk
  rw [hread] at hdisk ⊢
  split_ifs with hc
  · apply wp_bind
    apply wp_commit hl h₁ (Set.subset_univ _)
    intro ms₂ s₂ h₂
    apply wp_pure
    refine ⟨?_, _, h₂, htxn, ?_⟩
    · dsimp only
      rw [hok, ClientTxn.succeeds, hc, Bool.true_and]
    · rw [hdisk, ClientTxn.after, ClientTxn.succeeds, hc, Bool.true_and]
      simp only [decide_eq_true_eq]
      rfl
  · apply wp_bind
    apply wp_abort h₁
    intro ms₂ h₂
    apply wp_pure
    have hns : t.succeeds xp = false := by simp [ClientTxn.succeeds, hc]
    refine ⟨by rw [hns], _, h₂, rfl, ?_⟩
    rw [ClientTxn.after, hns]
    rfl

theorem wp_runTxns {ts : List ClientTxn} (hl : PaddedLog.Layout n xp) (h : LState n xp A ms s)
    (ht : A.txn = ∅) (hv : ∀ t ∈ ts, ∀ op ∈ t.ops, op.Valid xp) :
    wp diskSem (runTxns xp ts ms) (fun r s' => r.2 = ClientTxn.answers xp A.disk.cur ts ∧
      ∃ A', LState n xp A' r.1 s' ∧ A'.txn = ∅ ∧
        A'.disk.cur = ClientTxn.afterAll xp A.disk.cur ts) (LCrash n xp Set.univ) s := by
  induction ts generalizing A ms s with
  | nil => exact wp_pure ⟨rfl, A, h, ht, rfl⟩
  | cons t ts ih =>
    apply wp_bind
    refine wp_mono (wp_exec hl h ht (hv t List.mem_cons_self)) ?_ fun _ => id
    rintro ⟨ms₁, r⟩ s₁ ⟨hr, A₁, h₁, ht₁, hd₁⟩
    obtain rfl : r = _ := hr
    apply wp_bind
    refine wp_mono (ih h₁ ht₁ fun t' h' => hv t' (List.mem_cons_of_mem _ h')) ?_ fun _ => id
    rintro ⟨ms₂, rs⟩ s₂ ⟨hrs, A₂, h₂, ht₂, hd₂⟩
    obtain rfl : rs = _ := hrs
    rw [hd₁] at hd₂ ⊢
    exact wp_pure ⟨rfl, A₂, h₂, ht₂, hd₂⟩

/-- A commit of too many writes is an abort, except that it flushes where every commit does. -/
theorem commit_refused (hlen : xp.logLen < ms.msTxn.toList.length) :
    ExecEquiv diskSem (commit xp ms) (do
      let ms ← abort xp ms
      let ms ← if shouldFlushall then flushallNoop xp ms else pure ms
      pure (ms, false)) := by
  unfold commit GLog.submit abort
  rw [if_neg (Nat.not_le.2 hlen)]
  refine (execEquiv_pure_bind _ _).trans (ExecEquiv.trans ?_ (execEquiv_pure_bind _ _).symm)
  apply ExecEquiv.symm
  dsimp only
  split_ifs
  · refine (execEquiv_bind_assoc _ _ _).trans ?_
    exact .bind fun mm => execEquiv_pure_bind _ _
  · exact execEquiv_pure_bind _ _

/-- The semantics of transactions.  A client that starts without an active transaction runs any
transactions one after the other.  Each of their reads returns the last value that its transaction
wrote to the block, and else the committed value; a commit succeeds exactly when the number of
distinct addresses is at most the length of the log, and then installs the writes; nothing else
changes the committed disk, so that transactions which are aborted or refused leave no trace in any
later read.  A commit that is refused has the executions of an abort, followed by the flush of every
commit where the platform asks for it. -/
theorem transaction_semantics (hl : PaddedLog.Layout n xp) (h : LState n xp A ms s)
    (ht : A.txn = ∅) {ts : List ClientTxn} (hv : ∀ t ∈ ts, ∀ op ∈ t.ops, op.Valid xp) :
    wp diskSem (runTxns xp ts ms) (fun r s' => r.2 = ClientTxn.answers xp A.disk.cur ts ∧
      ∃ A', LState n xp A' r.1 s' ∧ A'.txn = ∅ ∧
        A'.disk.cur = ClientTxn.afterAll xp A.disk.cur ts) (fun _ => True) s ∧
    ∀ t ∈ ts, xp.logLen < (written t.ops).card → wp diskSem (runOps xp t.ops ms) (fun r _ =>
      ExecEquiv diskSem (commit xp r.1) (do
        let ms ← abort xp r.1
        let ms ← if shouldFlushall then flushallNoop xp ms else pure ms
        pure (ms, false))) (fun _ => True) s := by
  refine ⟨(wp_runTxns hl h ht hv).anyCrash, fun t hmem hlen => ?_⟩
  refine (wp_mono (wp_runOps hl h (hv t hmem)) ?_ fun _ => id).anyCrash
  rintro ⟨ms₁, vs⟩ s₁ ⟨-, h₁⟩
  apply commit_refused
  rw [h₁.txn, ht, length_txnMap]
  exact hlen

end LOG

namespace Sample

local instance logTxnPlatform : Platform := platform

theorem lstate_boot : LOG.LState 518 xp (LogSt.ofDisk fun a => disk (xp.dataStart + a))
    ⟨∅, ⟨∅, [], ⟨∅, BufCache.cache0 10⟩⟩⟩ boot := LOG.lstate_of_booted 10 booted rfl

/-- Two overlapping transactions in the group log of the sample disk. -/
theorem flush_merge_equiv_boot :
    wp diskSem (GLog.submitAll xp [[(1, 7), (2, 8)], [(1, 9)]] ⟨∅, [], ⟨∅, BufCache.cache0 10⟩⟩)
      (fun r s' =>
        wp diskSem (GLog.flushall xp r.1)
          (GLog.FlushedTo 518 xp (ADisk.synced fun a => disk (xp.dataStart + a))
            (GLog.accepted xp [[(1, 7), (2, 8)], [(1, 9)]])) (fun _ => True) s' ∧
        wp diskSem (GLog.flushallNomerge xp r.1)
          (GLog.FlushedTo 518 xp (ADisk.synced fun a => disk (xp.dataStart + a))
            (GLog.accepted xp [[(1, 7), (2, 8)], [(1, 9)]])) (fun _ => True) s')
      (fun _ => True) boot := by
  have hr : ∀ ents ∈ [[(1, 7), (2, 8)], [(1, 9)]], MLog.InRange xp ents := by
    simp only [List.forall_mem_cons, MLog.InRange, MLog.dataSize, xp]
    decide
  have h := GLog.flush_merge_equiv layout lstate_boot.glog.mlog hr
  exact wp_mono h (fun r s' h' => ⟨h'.2.2.2.1, h'.2.2.2.2.1⟩) fun _ => id

/-- The second transaction does not see the aborted one. -/
theorem transaction_semantics_boot :
    wp diskSem (LOG.runTxns xp [⟨[.write 1 7, .read 1], false⟩, ⟨[.read 1, .write 1 9], true⟩]
      ⟨∅, ⟨∅, [], ⟨∅, BufCache.cache0 10⟩⟩⟩) (fun r _ => r.2 =
        LOG.ClientTxn.answers xp (fun a => disk (xp.dataStart + a))
          [⟨[.write 1 7, .read 1], false⟩, ⟨[.read 1, .write 1 9], true⟩]) (fun _ => True) boot := by
  have hv : ∀ t ∈ ([⟨[.write 1 7, .read 1], false⟩, ⟨[.read 1, .write 1 9], true⟩] :
      List LOG.ClientTxn), ∀ op ∈ t.ops, op.Valid xp := by
    simp [LOG.TxnOp.Valid, MLog.dataSize, xp]
  have h := LOG.transaction_semantics layout lstate_boot rfl hv
  exact wp_mono h.1 (fun r s' h' => h'.1) fun _ => id

end Sample

end Fscq
