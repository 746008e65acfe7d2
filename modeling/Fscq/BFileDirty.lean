import Fscq.AsyncFSRebind
import Fscq.BFileRun

/-!
# The dirty blocks of a run

Blocks that are written past the log are durable only after a sync, so that the file layer keeps a
set of them for each file.  A run follows the blocks that have been written past the log, with the
values written last, the blocks that have been written through the log since, and the blocks that
have not been synced since: of these each one that belongs to a file is in the dirty set of that
file, whatever files have lost and got since.
-/

namespace Fscq

open CrashProg

open LogSt (Flushed)

namespace BFILE

/-! ### Operations in a transaction -/

/-- An operation on a file that is part of a transaction. -/
inductive FileOp
  | write (off : ℕ) (v : Valu)
  | grow (v : Valu)
  | shrink (nr : ℕ)
  | truncate (newsz : ℕ)
  | reset

/-- A write needs a block to write to. -/
def FileOp.Valid (fsxp : FsXparams) (inum : ℕ) (m : Mem) : FileOp → Prop
  | .write off _ => off < (blocks fsxp m inum).length
  | _ => True

def FileOp.exec (fsxp : FsXparams) (inum : ℕ) (ms : MemState) :
    FileOp → TxnProg (MemState × Res Unit)
  | .write off v => do
    let ms ← BFILE.write fsxp.inode inum off v ms
    pure (ms, .ok ())
  | .grow v => BFILE.grow fsxp.inode inum fsxp.blockAlloc v ms
  | .shrink nr => do
    let ms ← BFILE.shrink fsxp.inode inum fsxp.blockAlloc nr ms
    pure (ms, .ok ())
  | .truncate newsz => BFILE.truncate fsxp.inode inum fsxp.blockAlloc newsz ms
  | .reset => do
    let ms ← BFILE.reset fsxp.inode inum fsxp.blockAlloc ms
    pure (ms, .ok ())

variable {n inum a j : ℕ} {fsxp : FsXparams} {m m' : Mem} {ms ms' : MemState} {o : FileOp}
  {v : Valu} {U U' : Set ℕ}

/-- Whatever succeeds moves blocks of this file only. -/
theorem FileOp.wp_exec (hx : fsxp.Ok n) (h : Inv fsxp m ms) (hi : inum < INODE.ninodes fsxp.inode)
    (ho : o.Valid fsxp inum m) : Txn.wp n (o.exec fsxp inum ms)
      (fun r m' => r.2 = .ok () → Inv fsxp m' r.1 ∧ Moves fsxp {inum} m ms m' r.1) m := by
  cases o with
  | write off v =>
    have ho : off < (file fsxp m inum).data.length := by
      rw [length_data]
      exact ho
    refine wp_bind (BFILE.wp_write hx h hi ho fun c m' hinv hst _ _ => wp_pure fun _ => ?_)
    exact ⟨hinv, hst.toMoves⟩
  | grow v =>
    exact BFILE.wp_grow hx h hi (fun _ _ _ _ _ _ he => nomatch he)
      fun _ ms' m' hinv hst _ _ _ _ => ⟨hinv, hst.toMoves⟩
  | shrink nr =>
    refine wp_bind (BFILE.wp_shrink hx h hi fun ms' m' hinv hst _ _ _ => wp_pure fun _ => ?_)
    exact ⟨hinv, hst.toMoves⟩
  | truncate newsz =>
    exact BFILE.wp_truncate hx h hi (fun _ _ _ _ _ _ he => nomatch he)
      fun ms' m' hinv hst _ _ _ _ _ => ⟨hinv, hst.toMoves⟩
  | reset =>
    refine wp_bind (BFILE.wp_reset hx h hi fun ms' m' hinv hst _ _ _ _ => wp_pure fun _ => ?_)
    exact ⟨hinv, hst.toMoves⟩

/-! ### Runs -/

/-- The state of a run: the log, the caches and the caches at the start of the transaction.  For each
block there is the value that has been written to it last past the log, whether it has been written
through the log since, and whether it has not been synced since. -/
structure Trace where
  log : LogSt
  ms : MemState
  saved : MemState
  last : ℕ → Option Valu
  logged : Set ℕ
  unsynced : Set ℕ

namespace Trace

/-- The transaction is dropped, and its caches with it. -/
def rollback (s : Trace) : Trace := { s with log := s.log.abort, ms := s.saved }

/-- A step of a run.  A transaction is dropped when one of its operations fails or when it does not
fit into the log; blocks are written and synced past the log only when no transaction is active. -/
inductive Step [Platform] (fsxp : FsXparams) (xp : LogXparams) (s : Trace) : Trace → Prop
  | op {inum : ℕ} {o : FileOp} {ms' : MemState} {L' : LogSt}
      (hi : inum < INODE.ninodes fsxp.inode) (ho : o.Valid fsxp inum s.log.read)
      (hr : LogProg.run xp (LogProg.lift (o.exec fsxp inum s.ms)) s.log = ((ms', .ok ()), L')) :
      Step fsxp xp s { s with log := L', ms := ms' }
  | opFailed {inum : ℕ} {o : FileOp} {ms' : MemState} {L' : LogSt} {e : Errno}
      (hi : inum < INODE.ninodes fsxp.inode) (ho : o.Valid fsxp inum s.log.read)
      (hr : LogProg.run xp (LogProg.lift (o.exec fsxp inum s.ms)) s.log = ((ms', .error e), L')) :
      Step fsxp xp s s.rollback
  | commit {L' : LogSt} (hr : LogProg.run xp LogProg.commit s.log = (true, L')) :
      Step fsxp xp s { s with
        log := L', saved := s.ms, logged := s.logged ∪ {a | a ∈ s.log.txn} }
  | commitFailed {L' : LogSt} (hr : LogProg.run xp LogProg.commit s.log = (false, L')) :
      Step fsxp xp s { s with log := L', ms := s.saved }
  | abort : Step fsxp xp s s.rollback
  | flush {L' : LogSt} (hr : LogProg.run xp LogProg.flushall s.log = ((), L')) :
      Step fsxp xp s { s with log := L' }
  | dwrite {inum off : ℕ} {v : Valu} {ms' : MemState} {L' : LogSt} (ht : s.log.txn = ∅)
      (hi : inum < INODE.ninodes fsxp.inode)
      (ho : off < (blocks fsxp s.log.disk.cur inum).length)
      (hr : LogProg.run xp (BFILE.dwrite fsxp.inode inum off v s.ms) s.log = (ms', L')) :
      Step fsxp xp s ⟨L', ms', ms',
        Function.update s.last (blocks fsxp s.log.disk.cur inum)[off] (some v),
        s.logged \ {(blocks fsxp s.log.disk.cur inum)[off]},
        insert (blocks fsxp s.log.disk.cur inum)[off] s.unsynced⟩
  | datasync {inum : ℕ} {ms' : MemState} {L' : LogSt} (ht : s.log.txn = ∅)
      (hr : LogProg.run xp (BFILE.datasync inum s.ms) s.log = (ms', L')) :
      Step fsxp xp s { s with
        log := L', ms := ms', saved := ms'
        unsynced := s.unsynced \ {a | a ∈ getDirty inum s.ms.msDBlocks} }
  | sync {ms' : MemState} {L' : LogSt} (ht : s.log.txn = ∅)
      (hr : LogProg.run xp (BFILE.sync s.ms) s.log = (ms', L')) :
      Step fsxp xp s { s with log := L', ms := ms', saved := ms' }

/-- The states of the runs from one where nothing is pending.  A block that a crash may leave with an
older value is dirty there; nothing is known of what has been written past the log. -/
inductive Reach [Platform] (fsxp : FsXparams) (xp : LogXparams) : Trace → Prop
  | start {L : LogSt} {ms : MemState} (ht : L.txn = ∅) (hp : L.pend = [])
      (h : Inv fsxp L.disk.cur ms) (hm : Marked fsxp L.disk.cur ms)
      (hd : ∀ j < INODE.ninodes fsxp.inode, ∀ a ∈ blocks fsxp L.disk.cur j,
        ¬ L.disk.SyncedAt a → a ∈ getDirty j ms.msDBlocks) :
      Reach fsxp xp ⟨L, ms, ms, fun _ => none, ∅, {a | ¬ L.disk.SyncedAt a}⟩
  | step {s s' : Trace} (h : Reach fsxp xp s) (hs : Step fsxp xp s s') : Reach fsxp xp s'

end Trace

/-! ### The invariant -/

/-- The dirty sets are right: they have blocks of their files only, and all of those that have not
been synced. -/
structure Tracked (fsxp : FsXparams) (U : Set ℕ) (m : Mem) (ms : MemState) : Prop where
  inv : Inv fsxp m ms
  marked : Marked fsxp m ms
  dirty : ∀ j < INODE.ninodes fsxp.inode, ∀ a ∈ blocks fsxp m j, a ∈ U →
    a ∈ getDirty j ms.msDBlocks

theorem Tracked.moves (h : Tracked fsxp U m ms) {S : Set ℕ} (hinv : Inv fsxp m' ms')
    (hmv : Moves fsxp S m ms m' ms') : Tracked fsxp U m' ms' where
  inv := hinv
  marked := hmv.marked h.marked
  dirty j hj a ha hU := by
    by_contra hnot
    obtain ⟨ha', hnot'⟩ := hmv.dirty j hj a ha hnot
    exact hnot' (h.dirty j hj a ha' hU)

/-- What holds in a run. -/
structure Trace.Ok (fsxp : FsXparams) (s : Trace) : Prop where
  committed : Tracked fsxp s.unsynced s.log.disk.cur s.saved
  active : Tracked fsxp s.unsynced s.log.read s.ms
  synced : s.log.Every fun D => ∀ a ∉ s.unsynced, D.SyncedAt a
  last : s.log.Every fun D => ∀ a v, s.last a = some v → a ∉ s.logged → D.cur a = v

section

variable {L L' : LogSt} {s s' : Trace} {xp : LogXparams}

/-- A block belongs to one file. -/
theorem Inv.block_unique (h : Inv fsxp m ms) (hi : inum < INODE.ninodes fsxp.inode)
    (hj : j < INODE.ninodes fsxp.inode) (ha : a ∈ blocks fsxp m inum) (ha' : a ∈ blocks fsxp m j) :
    j = inum := by
  by_contra hne
  exact h.not_mem (b := true) hi hj hne (Multiset.mem_add.2 (.inr ha'))
    (Multiset.mem_add.2 (.inl (Multiset.mem_add.2 (.inr ha))))

/-- A block that is written past the log gets into the dirty set. -/
theorem Tracked.dwrite (h : Tracked fsxp U m ms) (hi : inum < INODE.ninodes fsxp.inode) {b : ℕ}
    {c : INODE.Cache} (hb : b ∈ blocks fsxp m inum) (hinv : Inv fsxp m' (AFS.dwritten inum b c ms))
    (hmv : Moves fsxp {inum} m ms m' (AFS.dwritten inum b c ms)) :
    Tracked fsxp (insert b U) m' (AFS.dwritten inum b c ms) where
  inv := hinv
  marked := hmv.marked h.marked
  dirty j hj a ha hU := by
    by_contra hnot
    obtain ⟨ha', hnot'⟩ := hmv.dirty j hj a ha hnot
    rcases hU with rfl | hU
    · obtain rfl := h.inv.block_unique hi hj hb ha'
      apply hnot
      change a ∈ getDirty j (putDirty j a ms.msDBlocks)
      rw [getDirty_putDirty, if_pos rfl]
      exact Std.ExtTreeSet.mem_insert_self
    · exact hnot' (h.dirty j hj a ha' hU)

/-- Once the dirty blocks of a file are synced, its dirty set can be dropped. -/
theorem Tracked.datasync (h : Tracked fsxp U m ms) (inum : ℕ) :
    Tracked fsxp (U \ {a | a ∈ getDirty inum ms.msDBlocks}) m
      { ms with msDBlocks := clearDirty inum ms.msDBlocks } where
  inv := ⟨h.inv.icache, h.inv.len, h.inv.own⟩
  marked j hj a ha := by
    rw [getDirty_clearDirty] at ha
    split_ifs at ha with hji
    · exact absurd ha Std.ExtTreeSet.not_mem_empty
    · exact h.marked j hj a ha
  dirty j hj a ha hU := by
    have hd := h.dirty j hj a ha hU.1
    have hne : j ≠ inum := by
      rintro rfl
      exact hU.2 hd
    rw [getDirty_clearDirty, if_neg hne]
    exact hd

/-- The allocators are exchanged. -/
theorem Tracked.sync (h : Tracked fsxp U m ms) :
    Tracked fsxp U m { ms with msAlloc := !ms.msAlloc } :=
  ⟨⟨h.inv.icache, h.inv.len, h.inv.own⟩, h.marked, h.dirty⟩

/-- An operation changes the active transaction only. -/
theorem Trace.Ok.op (h : s.Ok fsxp) (hb : L'.base = s.log.base) (hp : L'.pend = s.log.pend)
    (hinv : Inv fsxp L'.read ms') (hmv : Moves fsxp {inum} s.log.read s.ms L'.read ms') :
    Trace.Ok fsxp { s with log := L', ms := ms' } where
  committed := by
    change Tracked fsxp s.unsynced L'.disk.cur s.saved
    rw [LogSt.disk_congr hb hp]
    exact h.committed
  active := h.active.moves hinv hmv
  synced := h.synced.congr hb hp
  last := h.last.congr hb hp

theorem Trace.Ok.rollback (h : s.Ok fsxp) : s.rollback.Ok fsxp :=
  ⟨h.committed, h.committed, h.synced, h.last⟩

/-- The log may be flushed. -/
theorem Trace.Ok.flushed (h : s.Ok fsxp) (hL : Flushed s.log L') :
    Trace.Ok fsxp { s with log := L' } := by
  cases hL with
  | same => exact h
  | flushed => exact ⟨h.committed, h.active, h.synced.flushed .flushed, h.last.flushed .flushed⟩

/-- The active transaction joins the pending ones. -/
theorem Trace.Ok.push (h : s.Ok fsxp) : Trace.Ok fsxp { s with
    log := s.log.push s.log.txn, saved := s.ms, logged := s.logged ∪ {a | a ∈ s.log.txn} } where
  committed := by
    change Tracked fsxp s.unsynced (s.log.push s.log.txn).disk.cur s.ms
    rw [s.log.disk_push_txn]
    exact h.active
  active := by
    change Tracked fsxp s.unsynced (s.log.push s.log.txn).disk.cur s.ms
    rw [s.log.disk_push_txn]
    exact h.active
  synced := by
    apply h.synced.push
    intro a ha
    rw [LogSt.disk_push]
    exact (h.synced.disk a ha).install _
  last := by
    have hold : s.log.Every fun D => ∀ a v, s.last a = some v →
        a ∉ s.logged ∪ {a | a ∈ s.log.txn} → D.cur a = v :=
      h.last.mono fun D hD a v hv ha => hD a v hv fun hl => ha (.inl hl)
    refine hold.push fun a v hv ha => ?_
    rw [LogSt.disk_push]
    change (s.log.txn[a]?).getD (s.log.disk.cur a) = v
    rw [Std.ExtTreeMap.getElem?_eq_none fun hat => ha (.inr hat)]
    exact h.last.disk a v hv fun hl => ha (.inl hl)

/-- A write past the log. -/
theorem Trace.Ok.dwrite (h : s.Ok fsxp) (ht : s.log.txn = ∅) {b : ℕ}
    (htr : Tracked fsxp (insert b s.unsynced) (Function.update s.log.disk.cur b v) ms') :
    Trace.Ok fsxp ⟨s.log.dwrite b v, ms', ms', Function.update s.last b (some v), s.logged \ {b},
      insert b s.unsynced⟩ := by
  have hcur : (s.log.dwrite b v).disk.cur = Function.update s.log.disk.cur b v := by
    rw [LogSt.disk_dwrite]
    rfl
  have htxn := txn_dwrite ht b v
  rw [← hcur] at htr
  refine ⟨htr, ?_, ?_, ?_⟩
  · rw [LogSt.read_of_txn htxn]
    exact htr
  · refine LogSt.Every.dwrite h.synced fun D hD a ha => ?_
    have hne : a ≠ b := fun he => ha (.inl he)
    exact (ADisk.sameAt_write hne).syncedAt (hD a fun hU => ha (.inr hU))
  · refine LogSt.Every.dwrite h.last fun D hD a w hw ha => ?_
    dsimp only at hw
    rcases eq_or_ne a b with rfl | hne
    · rw [Function.update_self] at hw
      obtain rfl : v = w := Option.some.inj hw
      exact Function.update_self ..
    · rw [Function.update_of_ne hne] at hw
      rw [(ADisk.sameAt_write hne).1]
      exact hD a w hw fun hl => ha ⟨hl, hne⟩

/-- A sync of the dirty blocks of a file. -/
theorem Trace.Ok.datasync (h : s.Ok fsxp) (ht : s.log.txn = ∅) (inum : ℕ) :
    Trace.Ok fsxp ⟨s.log.dsyncVecs (getDirty inum s.ms.msDBlocks).toList,
      { s.ms with msDBlocks := clearDirty inum s.ms.msDBlocks },
      { s.ms with msDBlocks := clearDirty inum s.ms.msDBlocks }, s.last, s.logged,
      s.unsynced \ {a | a ∈ getDirty inum s.ms.msDBlocks}⟩ := by
  have htr := h.active.datasync inum
  rw [s.log.read_of_txn ht] at htr
  have hcur := s.log.disk_dsyncVecs_cur (getDirty inum s.ms.msDBlocks).toList
  rw [← hcur] at htr
  refine ⟨htr, ?_, ?_, ?_⟩
  · rw [LogSt.read_of_txn (show (s.log.dsyncVecs _).txn = ∅ from ht)]
    exact htr
  · refine LogSt.Every.sync h.synced fun D hD a ha => ?_
    by_cases hd : a ∈ getDirty inum s.ms.msDBlocks
    · exact ADisk.syncedAt_sync (Std.ExtTreeSet.mem_toList.2 hd)
    · exact (hD a fun hU => ha ⟨hU, hd⟩).sync
  · exact LogSt.Every.sync h.last fun D hD => hD

variable [Platform]

/-- Every step keeps the invariant. -/
theorem Trace.Step.ok (hx : fsxp.Ok n) (hs : Trace.Step fsxp xp s s') (h : s.Ok fsxp) :
    s'.Ok fsxp := by
  cases hs with
  | @op inum o ms' L' hi ho hr =>
    have hin : LogProg.wp n xp (LogProg.lift (o.exec fsxp inum s.ms)) _ _ s.log :=
      wp_inTxn (FileOp.wp_exec hx h.active.inv hi ho)
    have hrun := LogProg.wp_run hin
    rw [hr] at hrun
    obtain ⟨⟨hb, hp, -⟩, hQ⟩ := hrun
    obtain ⟨hinv, hmv⟩ := hQ rfl
    exact h.op hb hp hinv hmv
  | opFailed => exact h.rollback
  | commit hr => exact h.push.flushed (flushed_of_commit hr)
  | commitFailed hr => exact h.rollback.flushed (flushed_of_commit hr)
  | abort => exact h.rollback
  | flush hr =>
    cases hr
    exact h.flushed .flushed
  | @dwrite inum off v ms' L' ht hi ho hr =>
    have htr := h.active
    rw [s.log.read_of_txn ht] at htr
    obtain ⟨b, c, hb, rfl, rfl, hinv, hmv⟩ := run_dwrite hx htr.inv ht hi ho hr
    rw [← hb]
    exact h.dwrite ht (htr.dwrite hi (hb ▸ List.getElem_mem ho) hinv hmv)
  | datasync ht hr =>
    cases hr
    exact h.datasync ht _
  | sync ht hr =>
    cases hr
    have htr := h.active.sync
    have hfl := h.flushed .flushed
    have hread : s.log.flushall.read = s.log.disk.cur := s.log.flushall.read_of_txn ht
    rw [s.log.read_of_txn ht] at htr
    exact ⟨htr, hread ▸ htr, hfl.synced, hfl.last⟩

theorem Trace.Reach.ok (hx : fsxp.Ok n) (h : Trace.Reach fsxp xp s) : s.Ok fsxp := by
  induction h with
  | @start L ms ht hp h hm hd =>
    have htr : Tracked fsxp {a | ¬ L.disk.SyncedAt a} L.disk.cur ms := ⟨h, hm, hd⟩
    refine ⟨htr, ?_, ?_, ?_⟩
    · rw [LogSt.read_of_txn ht]
      exact htr
    · exact LogSt.every_of_pend hp fun a ha => not_not.1 ha
    · exact LogSt.every_of_pend hp fun a v hv => nomatch hv
  | step _ hs ih => exact hs.ok hx ih

/-- A block that has not been synced since it was written past the log is in the dirty set of its
file, and the dirty set of a file has only blocks of that file.  After a sync of a file every crash
leaves in each of its blocks the value that has been written to it last past the log, unless a
committed transaction has written the block since. -/
theorem dirty_exact (hx : fsxp.Ok (MLog.dataSize xp)) (h : Trace.Reach fsxp xp s) :
    (∀ j < INODE.ninodes fsxp.inode, ∀ a ∈ blocks fsxp s.log.read j, a ∈ s.unsynced →
      a ∈ getDirty j s.ms.msDBlocks) ∧
    (∀ j < INODE.ninodes fsxp.inode, ∀ a ∈ getDirty j s.ms.msDBlocks,
      a ∈ blocks fsxp s.log.read j) ∧
    ∀ inum < INODE.ninodes fsxp.inode, ∀ ms' L', s.log.txn = ∅ →
      LogProg.run xp (BFILE.datasync inum s.ms) s.log = (ms', L') →
      ∀ D ∈ L'.crashes xp, ∀ a ∈ blocks fsxp s.log.disk.cur inum, ∀ v,
        s.last a = some v → a ∉ s.logged → D a = v := by
  have hok := h.ok hx
  refine ⟨hok.active.dirty, hok.active.marked, ?_⟩
  intro inum hi ms' L' ht hr D hD a ha v hv hl
  have hok' := (Trace.Step.datasync ht hr).ok hx hok
  have htr := hok.active
  rw [s.log.read_of_txn ht] at htr
  have hsync : a ∉ s.unsynced \ {a | a ∈ getDirty inum s.ms.msDBlocks} :=
    fun hU => hU.2 (htr.dirty inum hi a ha hU.1)
  obtain ⟨k, hk, hD⟩ := hD
  have hposs := hD a
  rw [if_pos (htr.inv.block_lt hx hi a ha).2] at hposs
  rw [hok'.synced k hk a hsync _ hposs]
  exact hok'.last k hk a v hv hl

/-! ### Runs that write a block -/

variable {b : ℕ}

/-- A block of a file is written past the log. -/
theorem Trace.Reach.exists_dwritten (hx : fsxp.Ok n) (h : Trace.Reach fsxp xp s)
    (ht : s.log.txn = ∅) (hi : inum < INODE.ninodes fsxp.inode)
    (ha : a ∈ blocks fsxp s.log.disk.cur inum) (v : Valu) :
    ∃ s', Trace.Reach fsxp xp s' ∧ s'.log = s.log.dwrite a v ∧
      blocks fsxp s'.log.disk.cur inum = blocks fsxp s.log.disk.cur inum ∧
      s'.last a = some v ∧ a ∉ s'.logged := by
  obtain ⟨off, ho, rfl⟩ := List.getElem_of_mem ha
  have htr := (h.ok hx).active
  rw [s.log.read_of_txn ht] at htr
  generalize hr : LogProg.run xp (BFILE.dwrite fsxp.inode inum off v s.ms) s.log = x
  obtain ⟨ms', L'⟩ := x
  obtain ⟨a, c, rfl, -, rfl, -, -⟩ := run_dwrite hx htr.inv ht hi ho hr
  refine ⟨_, h.step (.dwrite ht hi ho hr), rfl, ?_, Function.update_self .., fun hl => hl.2 rfl⟩
  dsimp only
  rw [LogSt.disk_dwrite]
  exact ((htr.inv.older s.ms).layout_write htr.inv hi ha hi hx v).2.2

/-- The file has one block, which is written in a transaction. -/
theorem Trace.Reach.exists_written (hx : fsxp.Ok n) (h : Trace.Reach fsxp xp s)
    (ht : s.log.txn = ∅) (hlog : 0 < xp.logLen) (hi : inum < INODE.ninodes fsxp.inode)
    (hb : blocks fsxp s.log.disk.cur inum = [b]) (hlatest : s.log.disk.Latest) (w : Valu) :
    ∃ s', Trace.Reach fsxp xp s' ∧ s'.last = s.last ∧ s'.log.txn = ∅ ∧ s'.log.disk.Latest ∧
      blocks fsxp s'.log.disk.cur inum = [b] ∧ s'.log.disk.cur b = w := by
  have hinv := (h.ok hx).active.inv
  rw [← s.log.read_of_txn ht] at hb
  have ho : FileOp.Valid fsxp inum s.log.read (.write 0 w) := by
    change 0 < (blocks fsxp s.log.read inum).length
    rw [hb]
    exact Nat.one_pos
  have hwrite : Txn.wp n (FileOp.exec fsxp inum s.ms (.write 0 w))
      (fun r m => r.2 = .ok () ∧ blocks fsxp m inum = [b] ∧ m b = w) s.log.read := by
    have ho' : 0 < (file fsxp s.log.read inum).data.length := by
      rw [length_data]
      exact ho
    refine wp_bind (BFILE.wp_write hx hinv hi ho' fun c m' _ _ hkept hfile => wp_pure ?_)
    have hblocks : blocks fsxp m' inum = [b] := by rw [hkept.blocks, hb]
    have hdata : (blocks fsxp m' inum).map m' =
        ((blocks fsxp s.log.read inum).map s.log.read).set 0 w := congrArg BFile.data hfile
    rw [hblocks, hb] at hdata
    exact ⟨rfl, hblocks, (List.cons.inj hdata).1⟩
  have hsize : Txn.AtMost 1 (FileOp.exec fsxp inum s.ms (.write 0 w)) :=
    (BFILE.atMost_write _ inum 0 w s.ms).bind fun _ => Txn.atMost_pure 0 _
  have hlift : LogProg.wp n xp (LogProg.lift (FileOp.exec fsxp inum s.ms (.write 0 w)))
      (fun r L' => r.2 = .ok () ∧ (L'.base = s.log.base ∧ L'.pend = s.log.pend) ∧
        (blocks fsxp L'.read inum = [b] ∧ L'.read b = w) ∧ L'.txn.toList.length ≤ 1)
      (fun _ => True) s.log := by
    apply LogProg.wp_lift fun _ => trivial
    apply Txn.wp_post hwrite
    rintro r m ⟨hr, hQ⟩ t hlogs
    exact ⟨hr, ⟨rfl, rfl⟩, hlogs.read.symm ▸ hQ, hlogs.length_le ht hsize⟩
  have hrun := LogProg.wp_run hlift
  generalize hr : LogProg.run xp (LogProg.lift (FileOp.exec fsxp inum s.ms (.write 0 w))) s.log = x
    at hrun
  obtain ⟨⟨ms₁, r₁⟩, L₁⟩ := x
  obtain ⟨hr₁, ⟨hbase, hpend⟩, ⟨hb₁, hw₁⟩, hlen⟩ := hrun
  obtain rfl : r₁ = .ok () := hr₁
  have hcommit : LogProg.wp 0 xp LogProg.commit (fun r _ => r = true) (fun _ => True) L₁ :=
    LogProg.wp_commit_of trivial trivial trivial (fun _ _ _ => rfl)
      fun hlt => absurd (hlen.trans hlog) (Nat.not_le.2 hlt)
  have hrun₂ := LogProg.wp_run hcommit
  generalize hc : LogProg.run xp LogProg.commit L₁ = y at hrun₂
  obtain ⟨r, L₂⟩ := y
  obtain rfl : r = true := hrun₂
  have hfl : Flushed (L₁.push L₁.txn) L₂ := flushed_of_commit hc
  refine ⟨_, (h.step (.op hi ho hr)).step (.commit hc), rfl, hfl.txn, ?_, ?_, ?_⟩
  · change L₂.disk.Latest
    rw [hfl.disk, LogSt.disk_push, LogSt.disk_congr hbase hpend]
    exact hlatest.install _
  · change blocks fsxp L₂.disk.cur inum = [b]
    rw [hfl.disk, L₁.disk_push_txn, hb₁]
  · change L₂.disk.cur b = w
    rw [hfl.disk, L₁.disk_push_txn, hw₁]

end

end BFILE

namespace Sample

open BFILE

local instance dirtyPlatform : Platform := platform

/-- A file with one block, which is written past the log. -/
theorem exists_dwritten : ∃ s i b, Trace.Reach geometry.fsxp geometry.fsxp.log s ∧
    s.log.txn = ∅ ∧ s.log.disk.Latest ∧ i < INODE.ninodes geometry.fsxp.inode ∧
    blocks geometry.fsxp s.log.disk.cur i = [b] ∧ s.last b = some 1 ∧ b ∉ s.logged := by
  obtain ⟨L, ams, i, -, hone⟩ := exists_block
  obtain ⟨K, hok, -⟩ := hone.ok
  obtain ⟨b, hb⟩ := List.length_eq_one_iff.1 hone.length_blocks
  have hlt := hok.tree.lt (Finset.mem_insert_self i _)
  have hinv := hok.tree.inv
  have hdirty : ∀ j, getDirty j (∅ : AddrMap AddrSet) = ∅ := by
    intro j
    simp [getDirty]
  have hreach : Trace.Reach geometry.fsxp geometry.fsxp.log ⟨.ofDisk L.disk.cur,
      { ams with msDBlocks := ∅ }, { ams with msDBlocks := ∅ }, fun _ => none, ∅,
      {a | ¬ (LogSt.ofDisk L.disk.cur).disk.SyncedAt a}⟩ := by
    refine .start rfl rfl ⟨hinv.icache, hinv.len, hinv.own⟩ ?_ ?_
    · intro j _ a ha
      rw [hdirty] at ha
      exact absurd ha Std.ExtTreeSet.not_mem_empty
    · exact fun j _ a _ ha => absurd (ADisk.syncedAt_synced L.disk.cur a) ha
  obtain ⟨s, hs, hlog, hblocks, hlast, hlogged⟩ :=
    hreach.exists_dwritten geometry.ok rfl hlt (hb ▸ List.mem_singleton_self b) 1
  refine ⟨s, i, b, hs, hlog ▸ txn_dwrite rfl b 1, ?_, hlt, hblocks.trans hb, hlast, hlogged⟩
  rw [hlog, LogSt.disk_dwrite]
  exact (ADisk.latest_synced L.disk.cur).write b 1

/-- After a sync every crash leaves the value of the block. -/
theorem dirty_exact_dwritten : ∃ s i b, Trace.Reach geometry.fsxp geometry.fsxp.log s ∧
    b ∈ blocks geometry.fsxp s.log.disk.cur i ∧ s.last b = some 1 ∧ ∀ ms' L',
      LogProg.run geometry.fsxp.log (BFILE.datasync i s.ms) s.log = (ms', L') →
      ∀ D ∈ L'.crashes geometry.fsxp.log, D b = 1 := by
  obtain ⟨s, i, b, hreach, ht, -, hi, hb, hlast, hlogged⟩ := exists_dwritten
  have hmem : b ∈ blocks geometry.fsxp s.log.disk.cur i := hb ▸ List.mem_singleton_self b
  refine ⟨s, i, b, hreach, hmem, hlast, fun ms' L' hr D hD => ?_⟩
  exact (dirty_exact geometry.ok hreach).2.2 i hi ms' L' ht hr D hD b hmem 1 hlast hlogged

/-- When a transaction has written the block since, a crash may leave that value. -/
theorem datasync_logged : ∃ s i ms' L', Trace.Reach geometry.fsxp geometry.fsxp.log s ∧
    i < INODE.ninodes geometry.fsxp.inode ∧ s.log.txn = ∅ ∧
    LogProg.run geometry.fsxp.log (BFILE.datasync i s.ms) s.log = (ms', L') ∧
    ∃ D ∈ L'.crashes geometry.fsxp.log, ∃ b ∈ blocks geometry.fsxp s.log.disk.cur i,
      ∃ v, s.last b = some v ∧ D b ≠ v := by
  obtain ⟨s, i, b, hreach, ht, hlatest, hi, hb, hlast, -⟩ := exists_dwritten
  have hlen : geometry.fsxp.log.logLen = 3 * PaddedLog.descSig.itemsPerVal := rfl
  have hlog : 0 < geometry.fsxp.log.logLen := by
    rw [hlen, AFS.itemsPerVal_descSig]
    decide
  obtain ⟨s', hreach', hlast', ht', hlatest', hb', hval⟩ :=
    hreach.exists_written geometry.ok ht hlog hi hb hlatest 0
  have hne : (0 : Valu) ≠ 1 := by
    intro he
    have hbit : valulen = 0 := by simpa using congrArg (fun v : Valu => v.getLsbD 0) he
    rw [valulen_is] at hbit
    cases hbit
  let L' := s'.log.dsyncVecs (getDirty i s'.ms.msDBlocks).toList
  have hL : L'.disk.Latest := by
    rw [LogSt.disk_dsyncVecs]
    exact hlatest'.sync _
  refine ⟨s', i, _, L', hreach', hi, ht', rfl, _, LogSt.cur_mem_crashes hL _, b, ?_, 1, ?_, ?_⟩
  · exact hb' ▸ List.mem_singleton_self b
  · rw [hlast', hlast]
  · split_ifs
    · rw [s'.log.disk_dsyncVecs_cur, hval]
      exact hne
    · exact hne

end Sample

end Fscq
