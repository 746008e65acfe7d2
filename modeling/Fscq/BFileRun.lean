import Fscq.AsyncFSRun
import Fscq.LogHistory

/-!
# Runs of the file layer

Files grow and shrink in transactions, which are committed or dropped with their caches; between
transactions blocks are written and synced past the log, and a sync exchanges the two allocators.
The disks below the pending transactions are what a crash may leave: a block that one of their files
has is still a block of that file, or free on the side that is not used for growing
(`BFILE.Older`).  So no block is used again before its release is durable, and a write past the log
cannot reach another file on any of these disks.
-/

namespace Fscq

open CrashProg

open LogSt (Flushed)

namespace BFILE

variable {n inum : ℕ} {fsxp : FsXparams} {m m' m₀ : Mem} {ms ms' : MemState} {S : Set ℕ}

/-- The disk `m₀` is older than `m`: since then its files have only given blocks to the allocator
that is not used for growing. -/
structure Older (fsxp : FsXparams) (m₀ m : Mem) (ms : MemState) : Prop where
  len : ∀ j < INODE.ninodes fsxp.inode, (blocks fsxp m₀ j).length ≤ INODE.nBlocks
  data : ∀ j < INODE.ninodes fsxp.inode, ∀ a ∈ blocks fsxp m₀ j,
    a ∈ blocks fsxp m j ∨ a ∈ freeOf fsxp m ms.msAllocC (!ms.msAlloc)
  nodes : ∀ j < INODE.ninodes fsxp.inode, ∀ a ∈ nodes fsxp m₀ j,
    a ∈ BFILE.nodes fsxp m j ∨ a ∈ freeOf fsxp m ms.msAllocC (!ms.msAlloc)

theorem Inv.older (h : Inv fsxp m ms) (ms' : MemState) : Older fsxp m m ms' :=
  ⟨h.len, fun _ _ _ ha => .inl ha, fun _ _ _ ha => .inl ha⟩

theorem Older.moves (h : Older fsxp m₀ m ms) (hmv : Moves fsxp S m ms m' ms') :
    Older fsxp m₀ m' ms' where
  len := h.len
  data j hj a ha := by
    rw [hmv.msAlloc]
    exact (h.data j hj a ha).elim (hmv.giveData j hj a) fun hf => .inr (hmv.free a hf)
  nodes j hj a ha := by
    rw [hmv.msAlloc]
    exact (h.nodes j hj a ha).elim (hmv.giveNodes j hj a) fun hf => .inr (hmv.free a hf)

/-- A free block is not a block of a file. -/
theorem Inv.not_owned (h : Inv fsxp m ms) {a : ℕ} {b : Bool} (ha : a ∈ freeOf fsxp m ms.msAllocC b)
    {j : ℕ} (hj : j < INODE.ninodes fsxp.inode) : a ∉ owned fsxp m j := by
  have hnd := h.nodup_total
  rw [total_split fsxp m ms hj b] at hnd
  have hd := (Multiset.nodup_add.1 (Multiset.nodup_add.1 hnd).1).2.2
  exact fun ho => Multiset.disjoint_left.1 hd ho ha

/-- Nor is it free on the other side. -/
theorem Inv.not_free (h : Inv fsxp m ms) {a : ℕ} {b : Bool}
    (ha : a ∈ freeOf fsxp m ms.msAllocC (!b)) : a ∉ freeOf fsxp m ms.msAllocC b := by
  have hd := (Multiset.nodup_add.1 (Multiset.nodup_add.1 h.nodup_total).1).2.2
  intro ha'
  cases b with
  | false => exact Multiset.disjoint_left.1 hd ha ha'
  | true => exact Multiset.disjoint_left.1 hd ha' ha

/-- A data block of a file is not an index block of a file. -/
theorem Inv.not_node (h : Inv fsxp m ms) {a j : ℕ} (hi : inum < INODE.ninodes fsxp.inode)
    (ha : a ∈ blocks fsxp m inum) (hj : j < INODE.ninodes fsxp.inode) : a ∉ nodes fsxp m j := by
  intro hn
  rcases eq_or_ne j inum with rfl | hne
  · have hnd := (Multiset.nodup_add.1 (h.nodup_total)).2.1
    have hown : (owned fsxp m j).Nodup :=
      Multiset.nodup_of_le (Finset.single_le_sum (f := owned fsxp m) (fun _ _ => bot_le)
        (Finset.mem_range.2 hi)) hnd
    exact Multiset.disjoint_left.1 (Multiset.nodup_add.1 hown).2.2 hn ha
  · exact h.not_mem (b := true) hi hj hne (Multiset.mem_add.2 (.inl hn))
      (Multiset.mem_add.2 (.inl (Multiset.mem_add.2 (.inr ha))))

section

variable (h : Older fsxp m₀ m ms) (hinv : Inv fsxp m ms) (hi : inum < INODE.ninodes fsxp.inode)
  {b j : ℕ} (hb : b ∈ blocks fsxp m inum) (hj : j < INODE.ninodes fsxp.inode)

include h hinv hi hb hj

/-- A data block of a file is not an index block on an older disk. -/
theorem Older.not_node : b ∉ BFILE.nodes fsxp m₀ j := by
  intro hn
  rcases h.nodes j hj b hn with hn | hf
  · exact hinv.not_node hi hb hj hn
  · exact hinv.not_owned hf hi (Multiset.mem_add.2 (.inr hb))

/-- It belongs to no other file on an older disk. -/
theorem Older.not_owned (hne : j ≠ inum) : b ∉ owned fsxp m₀ j := by
  intro ho
  rcases Multiset.mem_add.1 ho with hn | hd
  · exact h.not_node hinv hi hb hj hn
  · rcases h.data j hj b hd with hd | hf
    · exact hinv.not_mem (b := true) hi hj hne (Multiset.mem_add.2 (.inr hd))
        (Multiset.mem_add.2 (.inl (Multiset.mem_add.2 (.inr hb))))
    · exact hinv.not_owned hf hi (Multiset.mem_add.2 (.inr hb))

/-- A write to it leaves the inodes and index blocks of the older disk alone. -/
theorem Older.layout_write (hx : fsxp.Ok n) (v : Valu) :
    INODE.irec fsxp.inode j (Function.update m₀ b v) = INODE.irec fsxp.inode j m₀ ∧
      BFILE.nodes fsxp (Function.update m₀ b v) j = BFILE.nodes fsxp m₀ j ∧
      blocks fsxp (Function.update m₀ b v) j = blocks fsxp m₀ j := by
  have hrec : INODE.irec fsxp.inode j (Function.update m₀ b v) = INODE.irec fsxp.inode j m₀ := by
    apply INODE.irec_congr hj
    intro a ha
    have h₁ := (mem_region_inode hx.toParts ha).1
    have h₂ := (hinv.mem_allBlocks_of_owned hi (Multiset.mem_add.2 (.inr hb))).2
    apply Function.update_of_ne
    omega
  refine ⟨hrec, layout_congr (h.len j hj) hrec fun a ha => ?_⟩
  apply Function.update_of_ne
  rintro rfl
  exact h.not_node hinv hi hb hj ha

omit hj in
/-- After a write to it the older disk is still older than what moves lead to. -/
theorem Older.write (hx : fsxp.Ok n) (v : Valu) (h' : Older fsxp m₀ m' ms') :
    Older fsxp (Function.update m₀ b v) m' ms' where
  len j hj := by
    rw [(h.layout_write hinv hi hb hj hx v).2.2]
    exact h'.len j hj
  data j hj := by
    rw [(h.layout_write hinv hi hb hj hx v).2.2]
    exact h'.data j hj
  nodes j hj := by
    rw [(h.layout_write hinv hi hb hj hx v).2.1]
    exact h'.nodes j hj

/-- The other files of the older disk are not changed. -/
theorem Older.file_write (hx : fsxp.Ok n) (v : Valu) (hne : j ≠ inum) :
    file fsxp (Function.update m₀ b v) j = file fsxp m₀ j := by
  apply (view_congr (h.len j hj) (h.layout_write hinv hi hb hj hx v).1 fun a ha => ?_).2.2.2
  apply Function.update_of_ne
  rintro rfl
  exact h.not_owned hinv hi hb hj hne ha

end

/-! ### Commands -/

/-- The blocks that a file has on the first disk and does not have on the second one. -/
def losses (fsxp : FsXparams) (m m' : Mem) : Set ℕ :=
  {a | ∃ j < INODE.ninodes fsxp.inode, a ∈ owned fsxp m j ∧ a ∉ owned fsxp m' j}

/-- The state of a run: the log, the caches and the caches at the start of the transaction.  The
run also keeps track of the blocks that files have lost in the active transaction, and in committed
ones that are not durable. -/
structure RunSt where
  log : LogSt
  ms : MemState
  saved : MemState
  lost : Set ℕ
  pending : Set ℕ

/-- Once nothing is pending, what has been released is durable. -/
def unflushed (L : LogSt) (P : Set ℕ) : Set ℕ := {a | a ∈ P ∧ L.pend ≠ []}

/-- The transaction is dropped, and its caches with it. -/
def RunSt.rollback (s : RunSt) : RunSt := ⟨s.log.abort, s.saved, s.saved, ∅, s.pending⟩

/-- A command of a run.  A transaction is dropped when one of its programs fails or when it does not
fit into the log; blocks are written and synced past the log only when no transaction is active. -/
inductive RunStep [Platform] (fsxp : FsXparams) (xp : LogXparams) (s : RunSt) : RunSt → Prop
  | grow {inum : ℕ} {v : Valu} {ms' : MemState} {L' : LogSt}
      (hi : inum < INODE.ninodes fsxp.inode)
      (hr : LogProg.run xp (LogProg.lift (grow fsxp.inode inum fsxp.blockAlloc v s.ms)) s.log =
        ((ms', .ok ()), L')) :
      RunStep fsxp xp s
        { s with log := L', ms := ms', lost := s.lost ∪ losses fsxp s.log.read L'.read }
  | growFailed {inum : ℕ} {v : Valu} {ms' : MemState} {L' : LogSt} {e : Errno}
      (hi : inum < INODE.ninodes fsxp.inode)
      (hr : LogProg.run xp (LogProg.lift (grow fsxp.inode inum fsxp.blockAlloc v s.ms)) s.log =
        ((ms', .error e), L')) : RunStep fsxp xp s s.rollback
  | shrink {inum nr : ℕ} {ms' : MemState} {L' : LogSt} (hi : inum < INODE.ninodes fsxp.inode)
      (hr : LogProg.run xp (LogProg.lift (shrink fsxp.inode inum fsxp.blockAlloc nr s.ms)) s.log =
        (ms', L')) :
      RunStep fsxp xp s
        { s with log := L', ms := ms', lost := s.lost ∪ losses fsxp s.log.read L'.read }
  | commit {L' : LogSt} (hr : LogProg.run xp LogProg.commit s.log = (true, L')) :
      RunStep fsxp xp s ⟨L', s.ms, s.ms, ∅, unflushed L' (s.pending ∪ s.lost)⟩
  | commitFailed {L' : LogSt} (hr : LogProg.run xp LogProg.commit s.log = (false, L')) :
      RunStep fsxp xp s ⟨L', s.saved, s.saved, ∅, unflushed L' s.pending⟩
  | abort : RunStep fsxp xp s s.rollback
  | flush {L' : LogSt} (hr : LogProg.run xp LogProg.flushall s.log = ((), L')) :
      RunStep fsxp xp s { s with log := L', pending := unflushed L' s.pending }
  | dwrite {inum off : ℕ} {v : Valu} {ms' : MemState} {L' : LogSt} (ht : s.log.txn = ∅)
      (hi : inum < INODE.ninodes fsxp.inode)
      (ho : off < (blocks fsxp s.log.disk.cur inum).length)
      (hr : LogProg.run xp (dwrite fsxp.inode inum off v s.ms) s.log = (ms', L')) :
      RunStep fsxp xp s ⟨L', ms', ms', s.lost, unflushed L' s.pending⟩
  | datasync {inum : ℕ} {ms' : MemState} {L' : LogSt} (ht : s.log.txn = ∅)
      (hr : LogProg.run xp (datasync inum s.ms) s.log = (ms', L')) :
      RunStep fsxp xp s ⟨L', ms', ms', s.lost, unflushed L' s.pending⟩
  | sync {ms' : MemState} {L' : LogSt} (ht : s.log.txn = ∅)
      (hr : LogProg.run xp (sync s.ms) s.log = (ms', L')) :
      RunStep fsxp xp s ⟨L', ms', ms', s.lost, unflushed L' s.pending⟩

/-- The states that the file layer gets into, from one where nothing is pending. -/
inductive Reach [Platform] (fsxp : FsXparams) (xp : LogXparams) : RunSt → Prop
  | start {L : LogSt} {ms : MemState} (ht : L.txn = ∅) (hp : L.pend = [])
      (h : Inv fsxp L.disk.cur ms) : Reach fsxp xp ⟨L, ms, ms, ∅, ∅⟩
  | step {s s' : RunSt} (h : Reach fsxp xp s) (hs : RunStep fsxp xp s s') : Reach fsxp xp s'

/-! ### The invariant -/

/-- What holds in a run: the active transaction has only moved blocks since its start, the disks
that a crash may leave are older than what is committed, and the blocks that files have lost are
free on the side that is not used for growing. -/
structure Safe (fsxp : FsXparams) (s : RunSt) : Prop where
  committed : Inv fsxp s.log.disk.cur s.saved
  inv : Inv fsxp s.log.read s.ms
  moves : Moves fsxp Set.univ s.log.disk.cur s.saved s.log.read s.ms
  older : s.log.Every fun D => Older fsxp D.cur s.log.disk.cur s.saved
  pending : ∀ a ∈ s.pending, a ∈ freeOf fsxp s.log.disk.cur s.saved.msAllocC (!s.saved.msAlloc)
  lost : ∀ a ∈ s.lost, a ∈ freeOf fsxp s.log.read s.ms.msAllocC (!s.ms.msAlloc)
  idle : s.log.txn = ∅ → s.lost = ∅

section

variable {L L' : LogSt} {P : Set ℕ} {s s' : RunSt}

theorem unflushed_of_pend (h : L.pend = []) : unflushed L P = ∅ :=
  Set.eq_empty_of_forall_notMem fun _ ha => ha.2 h

/-- A state between two transactions. -/
theorem Inv.safe (h : Inv fsxp L.disk.cur ms) (ht : L.txn = ∅)
    (hold : L.Every fun D => Older fsxp D.cur L.disk.cur ms)
    (hP : ∀ a ∈ P, a ∈ freeOf fsxp L.disk.cur ms.msAllocC (!ms.msAlloc)) :
    Safe fsxp ⟨L, ms, ms, ∅, P⟩ where
  committed := h
  inv := (L.read_of_txn ht).symm ▸ h
  moves := (L.read_of_txn ht).symm ▸ (Step.refl fsxp _ L.disk.cur ms).toMoves
  older := hold
  pending := hP
  lost _ ha := absurd ha (Set.notMem_empty _)
  idle _ := rfl

/-- Nothing is pending once the log is flushed. -/
theorem Inv.safe_flushed (h : Inv fsxp L.disk.cur ms) (ht : L.txn = ∅) (hp : L.pend = []) :
    Safe fsxp ⟨L, ms, ms, ∅, unflushed L P⟩ := by
  apply h.safe ht (LogSt.every_of_pend hp (h.older ms))
  rw [unflushed_of_pend hp]
  exact fun a ha => absurd ha (Set.notMem_empty a)

/-- A program in the transaction moves blocks; what files lose by it is free afterwards. -/
theorem Safe.advance (h : Safe fsxp s) (hb : L'.base = s.log.base) (hp : L'.pend = s.log.pend)
    (ht : L'.txn = ∅ → s.log.txn = ∅) (hinv : Inv fsxp L'.read ms')
    (hmv : Moves fsxp {inum} s.log.read s.ms L'.read ms') :
    Safe fsxp { s with log := L', ms := ms', lost := s.lost ∪ losses fsxp s.log.read L'.read } := by
  have hdisk : L'.disk = s.log.disk := LogSt.disk_congr hb hp
  refine ⟨?_, hinv, ?_, ?_, ?_, ?_, ?_⟩
  · rw [hdisk]
    exact h.committed
  · rw [hdisk]
    exact h.moves.trans_self h.committed (hmv.mono (Set.subset_univ _))
  · rw [hdisk]
    exact h.older.congr hb hp
  · rw [hdisk]
    exact h.pending
  · rintro a (ha | ⟨j, hj, ho, hno⟩)
    · rw [hmv.msAlloc]
      exact hmv.free a (h.lost a ha)
    · rw [hmv.msAlloc]
      rcases Multiset.mem_add.1 ho with hn | hd
      · exact (hmv.giveNodes j hj a hn).resolve_left fun h' => hno (Multiset.mem_add.2 (.inl h'))
      · exact (hmv.giveData j hj a hd).resolve_left fun h' => hno (Multiset.mem_add.2 (.inr h'))
  · intro ht'
    have hread : L'.read = s.log.read := by
      rw [L'.read_of_txn ht', s.log.read_of_txn (ht ht'), hdisk]
    have hnone : losses fsxp s.log.read s.log.read = ∅ := by
      apply Set.eq_empty_of_forall_notMem
      rintro a ⟨j, hj, ho, hno⟩
      exact hno ho
    rw [hread, h.idle (ht ht'), hnone, Set.union_self]

/-- The transaction is dropped. -/
theorem Safe.rollback (h : Safe fsxp s) : Safe fsxp s.rollback :=
  Inv.safe (L := s.log.abort) h.committed rfl h.older h.pending

/-- It does not fit into the log. -/
theorem Safe.commitFailed (h : Safe fsxp s) (hL : Flushed s.log.abort L') :
    Safe fsxp ⟨L', s.saved, s.saved, ∅, unflushed L' s.pending⟩ := by
  cases hL with
  | same => exact Inv.safe (L := s.log.abort) h.committed rfl h.older fun a ha => h.pending a ha.1
  | flushed => exact Inv.safe_flushed (L := s.log.abort.flushall) h.committed rfl rfl

/-- The transaction is committed. -/
theorem Safe.commit (h : Safe fsxp s) (hL : Flushed (s.log.push s.log.txn) L') :
    Safe fsxp ⟨L', s.ms, s.ms, ∅, unflushed L' (s.pending ∪ s.lost)⟩ := by
  have hcur := s.log.disk_push_txn
  have hinv : Inv fsxp (s.log.push s.log.txn).disk.cur s.ms := hcur ▸ h.inv
  cases hL with
  | same =>
    apply hinv.safe rfl
    · rw [hcur]
      apply LogSt.Every.push (h.older.mono fun D hD => hD.moves h.moves)
      rw [hcur]
      exact h.inv.older s.ms
    · rw [hcur]
      rintro a ⟨ha | ha, -⟩
      · have hf := h.moves.free a (h.pending a ha)
        rwa [← h.moves.msAlloc] at hf
      · exact h.lost a ha
  | flushed => exact Inv.safe_flushed (L := (s.log.push s.log.txn).flushall) hinv rfl rfl

/-- A program in the transaction changes nothing but the transaction. -/
theorem wp_inTxn {α : Type} {xp : LogXparams} {p : TxnProg α} {Q : α → Mem → Prop}
    (hp : Txn.wp n p Q L.read) :
    LogProg.wp n xp (LogProg.lift p) (fun r L' => (L'.base = L.base ∧ L'.pend = L.pend ∧
      (L'.txn = ∅ → L.txn = ∅)) ∧ Q r L'.read) (fun _ => True) L := by
  apply LogProg.wp_lift fun _ => trivial
  apply Txn.wp_post hp
  intro r m hQ t ht
  refine ⟨⟨rfl, rfl, fun (he : t = ∅) => ?_⟩, ht.read.symm ▸ hQ⟩
  apply Std.ExtTreeMap.ext_getElem?
  intro a
  rw [Std.ExtTreeMap.getElem?_empty]
  apply Std.ExtTreeMap.getElem?_eq_none
  intro ha
  have hat := (ht.dom a).2 (.inl ha)
  rw [he] at hat
  exact Std.ExtTreeMap.not_mem_empty hat

/-- A write past the log does not start a transaction. -/
theorem txn_dwrite (ht : L.txn = ∅) (b : ℕ) (v : Valu) : (L.dwrite b v).txn = ∅ := by
  rw [← AFS.abort_dwrite ht]
  rfl

/-- A write past the log, on all disks that a crash may leave. -/
theorem Safe.dwrite (hx : fsxp.Ok n) (h : Safe fsxp s) (ht : s.log.txn = ∅)
    (hi : inum < INODE.ninodes fsxp.inode) {b : ℕ} {v : Valu}
    (hb : b ∈ blocks fsxp s.log.disk.cur inum)
    (hinv : Inv fsxp (Function.update s.log.disk.cur b v) ms')
    (hmv : Moves fsxp {inum} s.log.disk.cur s.ms (Function.update s.log.disk.cur b v) ms') :
    Safe fsxp ⟨s.log.dwrite b v, ms', ms', s.lost, unflushed (s.log.dwrite b v) s.pending⟩ := by
  have hmv₀ := h.moves
  have hinv₀ := h.inv
  rw [s.log.read_of_txn ht] at hmv₀ hinv₀
  have hcur : (s.log.dwrite b v).disk.cur = Function.update s.log.disk.cur b v := by
    rw [LogSt.disk_dwrite]
    rfl
  have htxn := txn_dwrite ht b v
  rw [h.idle ht]
  rw [← hcur] at hinv hmv
  apply hinv.safe htxn
  · refine LogSt.Every.dwrite h.older fun D hD => ?_
    exact (hD.moves hmv₀).write hinv₀ hi hb hx v ((hD.moves hmv₀).moves hmv)
  · rintro a ⟨ha, -⟩
    have hf := hmv₀.free a (h.pending a ha)
    rw [← hmv₀.msAlloc] at hf
    rw [hmv.msAlloc]
    exact hmv.free a hf

theorem Safe.datasync (h : Safe fsxp s) (ht : s.log.txn = ∅) (al : List ℕ) (db : AddrMap AddrSet) :
    Safe fsxp ⟨s.log.dsyncVecs al, { s.ms with msDBlocks := db }, { s.ms with msDBlocks := db },
      s.lost, unflushed (s.log.dsyncVecs al) s.pending⟩ := by
  have hcur := s.log.disk_dsyncVecs_cur al
  have hmv := h.moves
  have hinv := h.inv
  rw [s.log.read_of_txn ht] at hmv hinv
  rw [h.idle ht]
  apply Inv.safe (L := s.log.dsyncVecs al) (hcur ▸ ⟨hinv.icache, hinv.len, hinv.own⟩) ht
  · refine LogSt.Every.sync h.older fun D hD => ?_
    have hold := hD.moves hmv
    rw [hcur]
    exact ⟨hold.len, hold.data, hold.nodes⟩
  · rintro a ⟨ha, -⟩
    have hf := hmv.free a (h.pending a ha)
    rw [← hmv.msAlloc] at hf
    rw [hcur]
    exact hf

variable [Platform] {xp : LogXparams}

omit [Platform] in
/-- What a write past the log does. -/
theorem run_dwrite (hx : fsxp.Ok n) (h : Inv fsxp L.disk.cur ms) (ht : L.txn = ∅) {off : ℕ}
    {v : Valu} (hi : inum < INODE.ninodes fsxp.inode)
    (ho : off < (blocks fsxp L.disk.cur inum).length)
    (hr : LogProg.run xp (dwrite fsxp.inode inum off v ms) L = (ms', L')) :
    ∃ b c, b = (blocks fsxp L.disk.cur inum)[off] ∧ ms' = AFS.dwritten inum b c ms ∧
      L' = L.dwrite b v ∧ Inv fsxp (Function.update L.disk.cur b v) ms' ∧
      Moves fsxp {inum} L.disk.cur ms (Function.update L.disk.cur b v) ms' := by
  have hwp : LogProg.wp n xp (dwrite fsxp.inode inum off v ms)
      (fun ms' L' => ∃ b c, b = (blocks fsxp L.disk.cur inum)[off] ∧
        ms' = AFS.dwritten inum b c ms ∧ L' = L.dwrite b v ∧
        Inv fsxp (Function.update L.disk.cur b v) ms' ∧
        Moves fsxp {inum} L.disk.cur ms (Function.update L.disk.cur b v) ms')
      (AFS.crashIn fun _ _ => True) L := by
    apply AFS.wp_dwrite hx ht h hi ho trivial
    exact fun b c hb hinv hst _ => ⟨b, c, hb, rfl, rfl, hinv, hst.toMoves⟩
  have hrun := LogProg.wp_run hwp
  rwa [hr] at hrun

theorem flushed_of_commit {r : Bool} (hr : LogProg.run xp LogProg.commit L = (r, L')) :
    Flushed (if r then L.push L.txn else L.abort) L' := by
  have hwp : LogProg.wp 0 xp LogProg.commit
      (fun r L' => Flushed (if r then L.push L.txn else L.abort) L') (fun _ => True) L :=
    LogProg.wp_commit_of trivial trivial trivial (fun _ L' hL => hL) fun _ L' hL => hL
  have hrun := LogProg.wp_run hwp
  rwa [hr] at hrun

/-- Every command keeps the invariant. -/
theorem RunStep.safe (hx : fsxp.Ok n) (hs : RunStep fsxp xp s s') (h : Safe fsxp s) :
    Safe fsxp s' := by
  cases hs with
  | @grow inum v ms' L' hi hr =>
    have hgrow : Txn.wp n (BFILE.grow fsxp.inode inum fsxp.blockAlloc v s.ms) (fun r m' =>
        r.2 = .ok () → Inv fsxp m' r.1 ∧ Moves fsxp {inum} s.log.read s.ms m' r.1) s.log.read :=
      wp_grow hx h.inv hi (fun _ _ _ _ _ _ he => nomatch he)
        fun _ ms' m' hinv hst _ _ _ _ => ⟨hinv, hst.toMoves⟩
    have hin : LogProg.wp n xp _ _ _ s.log := wp_inTxn hgrow
    have hrun := LogProg.wp_run hin
    rw [hr] at hrun
    obtain ⟨⟨hb, hp, ht⟩, hQ⟩ := hrun
    obtain ⟨hinv, hmv⟩ := hQ rfl
    exact h.advance hb hp ht hinv hmv
  | growFailed => exact h.rollback
  | @shrink inum nr ms' L' hi hr =>
    have hshrink : Txn.wp n (BFILE.shrink fsxp.inode inum fsxp.blockAlloc nr s.ms) (fun r m' =>
        Inv fsxp m' r ∧ Moves fsxp {inum} s.log.read s.ms m' r) s.log.read :=
      wp_shrink hx h.inv hi fun ms' m' hinv hst _ _ _ => ⟨hinv, hst.toMoves⟩
    have hin : LogProg.wp n xp _ _ _ s.log := wp_inTxn hshrink
    have hrun := LogProg.wp_run hin
    rw [hr] at hrun
    obtain ⟨⟨hb, hp, ht⟩, hinv, hmv⟩ := hrun
    exact h.advance hb hp ht hinv hmv
  | commit hr => exact h.commit (flushed_of_commit hr)
  | commitFailed hr => exact h.commitFailed (flushed_of_commit hr)
  | abort => exact h.rollback
  | flush hr =>
    cases hr
    rw [unflushed_of_pend rfl]
    refine ⟨h.committed, h.inv, h.moves, ?_, ?_, h.lost, h.idle⟩
    · exact LogSt.every_of_pend (A := s.log.flushall) rfl (h.committed.older s.saved)
    · exact fun a ha => absurd ha (Set.notMem_empty a)
  | dwrite ht hi ho hr =>
    have hinv := h.inv
    rw [s.log.read_of_txn ht] at hinv
    obtain ⟨b, c, rfl, rfl, rfl, hinv', hmv⟩ := run_dwrite hx hinv ht hi ho hr
    exact h.dwrite hx ht hi (List.getElem_mem ho) hinv' hmv
  | datasync ht hr =>
    cases hr
    exact h.datasync ht _ _
  | sync ht hr =>
    cases hr
    have hinv := h.inv
    rw [s.log.read_of_txn ht] at hinv
    rw [h.idle ht]
    exact Inv.safe_flushed (L := s.log.flushall) ⟨hinv.icache, hinv.len, hinv.own⟩ ht rfl

theorem Reach.safe (hx : fsxp.Ok n) (h : Reach fsxp xp s) : Safe fsxp s := by
  induction h with
  | start ht hp h =>
    apply h.safe ht (LogSt.every_of_pend hp (h.older _))
    exact fun a ha => absurd ha (Set.notMem_empty a)
  | step _ hs ih => exact hs.safe hx ih

/-- No block is used again before its release is durable: a block that a file has lost in a
transaction that is not durable belongs to no file and is not free for growing.  A write past the log
is a write to a block that belongs to no other file on any of the disks that a crash may leave, and
changes no other file there. -/
theorem reuse_safe (hx : fsxp.Ok n) (h : Reach fsxp xp s) :
    (∀ a ∈ s.lost ∪ s.pending, a ∉ freeOf fsxp s.log.read s.ms.msAllocC s.ms.msAlloc ∧
      ∀ j < INODE.ninodes fsxp.inode, a ∉ owned fsxp s.log.read j) ∧
    ∀ inum off v ms' L', s.log.txn = ∅ → inum < INODE.ninodes fsxp.inode →
      off < (blocks fsxp s.log.disk.cur inum).length →
      LogProg.run xp (dwrite fsxp.inode inum off v s.ms) s.log = (ms', L') →
      ∃ b, L' = s.log.dwrite b v ∧
        (∀ k ≤ L'.pend.length, ∃ l ≤ s.log.pend.length, L'.upto k = (s.log.upto l).write b v) ∧
        ∀ l ≤ s.log.pend.length, ∀ j < INODE.ninodes fsxp.inode, j ≠ inum →
          b ∉ owned fsxp (s.log.upto l).cur j ∧
          file fsxp ((s.log.upto l).write b v).cur j = file fsxp (s.log.upto l).cur j := by
  have hs := h.safe hx
  constructor
  · intro a ha
    have hf : a ∈ freeOf fsxp s.log.read s.ms.msAllocC (!s.ms.msAlloc) := by
      rcases ha with ha | ha
      · exact hs.lost a ha
      · rw [hs.moves.msAlloc]
        exact hs.moves.free a (hs.pending a ha)
    exact ⟨hs.inv.not_free hf, fun j hj => hs.inv.not_owned hf hj⟩
  · intro inum off v ms' L' ht hi ho hr
    have hmv := hs.moves
    have hinv := hs.inv
    rw [s.log.read_of_txn ht] at hmv hinv
    obtain ⟨b, c, hb, rfl, rfl, -, -⟩ := run_dwrite hx hinv ht hi ho hr
    have hb : b ∈ blocks fsxp s.log.disk.cur inum := hb ▸ List.getElem_mem ho
    refine ⟨b, rfl, ?_, ?_⟩
    · have hevery : s.log.Every fun D => ∃ l ≤ s.log.pend.length, D = s.log.upto l :=
        fun k hk => ⟨k, hk, rfl⟩
      have hwrite : (s.log.dwrite b v).Every fun D => ∃ l ≤ s.log.pend.length,
          D = (s.log.upto l).write b v := by
        refine LogSt.Every.dwrite hevery ?_
        rintro D ⟨l, hl, rfl⟩
        exact ⟨l, hl, rfl⟩
      exact hwrite
    · intro l hl j hj hne
      have hold := (hs.older l hl).moves hmv
      exact ⟨hold.not_owned hinv hi hb hj hne, hold.file_write hinv hi hb hj hx v hne⟩

end

end BFILE

namespace Sample

open BFILE

local instance reusePlatform : Platform := platform

/-- A file grows by a block and shrinks again: the block is not used again. -/
theorem reuse_safe_shrink : ∃ s a, Reach geometry.fsxp geometry.fsxp.log s ∧ a ∈ s.lost ∧
    a ∉ freeOf geometry.fsxp s.log.read s.ms.msAllocC s.ms.msAlloc ∧
    ∀ j < INODE.ninodes geometry.fsxp.inode, a ∉ owned geometry.fsxp s.log.read j := by
  obtain ⟨ams, L, hmk⟩ := exists_new fun _ => 0
  have hnew := AFS.new_of_mkfs hmk
  have hread := L.read_of_txn hnew.txn
  have hinv : Inv geometry.fsxp L.read ams := hread.symm ▸ hnew.tree.inv
  have hroot := hnew.tree.lt (Finset.mem_singleton_self _)
  have hlen : (blocks geometry.fsxp L.read geometry.fsxp.rootInum).length = 0 := by
    rw [hread, ← length_data, hnew.root]
    rfl
  have hcan : CanGrow geometry.fsxp L.read ams geometry.fsxp.rootInum :=
    canGrow_of_direct (by rw [hlen]; decide) (hread.symm ▸ hnew.room _)
  have hin₁ : LogProg.wp geometry.dataSize geometry.fsxp.log _ _ _ L := wp_inTxn (wp_grow geometry.ok hinv hroot (v := 0)
    (Q := fun r m => r.2 = .ok () ∧ Inv geometry.fsxp m r.1 ∧
      (blocks geometry.fsxp m geometry.fsxp.rootInum).length = 1)
    (fun h => absurd hcan h) fun _ ms' m' hinv' _ _ _ hf => ⟨rfl, hinv', by
      rw [← length_data, hf, List.length_append, length_data, hlen]
      rfl⟩)
  obtain ⟨⟨ms₁, r₁⟩, L₁, hx₁, -, rfl, hinv₁, hlen₁⟩ := LogProg.exists_run hin₁
  have hreach₁ := Reach.step (.start hnew.txn hnew.pend hnew.tree.inv) (.grow hroot hx₁)
  obtain ⟨a, ha⟩ := List.exists_mem_of_length_pos (l := blocks geometry.fsxp L₁.read
    geometry.fsxp.rootInum) (hlen₁ ▸ Nat.one_pos)
  have hshrink : Txn.wp geometry.dataSize
      (BFILE.shrink geometry.fsxp.inode geometry.fsxp.rootInum geometry.fsxp.blockAlloc 1 ms₁)
      (fun _ m => a ∉ owned geometry.fsxp m geometry.fsxp.rootInum) L₁.read := by
    apply wp_shrink geometry.ok hinv₁ hroot
    intro ms' m' hinv' hst _ _ hf
    have hnil : blocks geometry.fsxp m' geometry.fsxp.rootInum = [] := by
      apply List.eq_nil_of_length_eq_zero
      rw [← length_data, hf, List.length_take, length_data, hlen₁]
      rfl
    rcases hst.giveData _ hroot a ha with hb | hfree
    · rw [hnil] at hb
      exact absurd hb List.not_mem_nil
    · exact hinv'.not_owned hfree hroot
  have hin₂ : LogProg.wp geometry.dataSize geometry.fsxp.log _ _ _ L₁ := wp_inTxn hshrink
  obtain ⟨ms₂, L₂, hx₂, -, hout⟩ := LogProg.exists_run hin₂
  have hreach₂ := hreach₁.step (.shrink hroot hx₂)
  have hlost : a ∈ losses geometry.fsxp L₁.read L₂.read :=
    ⟨_, hroot, Multiset.mem_add.2 (.inr ha), hout⟩
  exact ⟨_, a, hreach₂, .inr hlost, (reuse_safe geometry.ok hreach₂).1 a (.inl (.inr hlost))⟩

end Sample

end Fscq
