import Fscq.AsyncFSAtomic
import Fscq.AsyncFSDisk
import Fscq.AsyncFSTaken

/-!
# The life of a file system

A file system is made, used, interrupted by crashes and used again.  Whenever the machine crashes, in
the middle of a call or between two of them, recovery finds a tree that the file system had between
two calls since the last sync, or at the end of the interrupted call, and everything that holds
between two calls holds again.
-/

namespace Fscq

open CrashProg

open BFILE (MemState)

namespace LogSt

variable {L : LogSt} {xp : LogXparams} {d : Mem}

/-- Where a disk below the pending transactions is synced, a crash leaves its value. -/
theorem exists_of_crashes (hd : d ∈ L.crashes xp) : ∃ k ≤ L.pend.length,
    ∀ a < MLog.dataSize xp, (L.upto k).SyncedAt a → d a = (L.upto k).cur a := by
  obtain ⟨k, hk, hd⟩ := hd
  refine ⟨k, hk, fun a ha hs => hs _ ?_⟩
  have hda := hd a
  rwa [if_pos ha] at hda

end LogSt

namespace AFS

variable {n : ℕ} {fsxp : FsXparams} {A : Finset ℕ} {K : ℕ → Bool} {L : LogSt} {ams : MemState}
  {T : Set Mem} {m d : Mem} {a : ℕ} {D : ADisk}

theorem Tree.lt_of_mem_metaBlocks (hx : fsxp.Ok n) (h : Tree fsxp A K m)
    (ha : a ∈ metaBlocks n fsxp m) : a < n := by
  rcases ha with (⟨-, ha⟩ | ⟨j, hj, ha⟩) | ⟨j, hj, ha⟩
  · exact ha
  · exact h.inv.inv.node_lt hx hj a ha
  · exact (h.inv.inv.block_lt hx (h.lt hj) a ha).2

/-- A crash leaves the tree of an older disk. -/
theorem Past.tree_crash (hx : fsxp.Ok n) (hD : Past n fsxp D m ams)
    (hd : ∀ a < n, D.SyncedAt a → d a = D.cur a) :
    (∃ A K, Tree fsxp A K d) ∧ SameTree fsxp D.cur d := by
  obtain ⟨A, K, htree⟩ := hD.tree
  have hagree : ∀ a ∈ metaBlocks n fsxp D.cur, d a = D.cur a :=
    fun a ha => hd a (htree.lt_of_mem_metaBlocks hx ha) (hD.synced a ha)
  exact ⟨⟨A, K, htree.of_agree hx hagree⟩, sameTree_of_agree hx htree hagree⟩

/-- A crash leaves one of the trees. -/
theorem Settled.crash {xp : LogXparams} (hx : fsxp.Ok (MLog.dataSize xp))
    (hs : Settled (MLog.dataSize xp) fsxp T L ams) (hd : d ∈ L.crashes xp) :
    (∃ A K, Tree fsxp A K d) ∧ ∃ m ∈ T, SameTree fsxp m d := by
  obtain ⟨k, hk, hd⟩ := L.exists_of_crashes hd
  obtain ⟨hD, m, hm, hsame⟩ := hs k hk
  obtain ⟨htree, hsame'⟩ := hD.tree_crash hx hd
  exact ⟨htree, m, hm, hsame.trans hsame'⟩

/-! ### A new file system is synced -/

/-- No block has another possible value. -/
def IsSynced (D : ADisk) : Prop := D = .synced D.cur

theorem IsSynced.install {t : Valumap} (h : IsSynced D) : IsSynced (D.install t) := by
  rw [IsSynced] at h ⊢
  rw [h]
  unfold ADisk.install ADisk.synced
  dsimp only
  congr 1
  funext a
  cases t[a]? <;> rfl

/-- The disk below is synced after the program if it was before. -/
def StaysSynced {α : Type} (xp : LogXparams) (p : LogProg α) : Prop :=
  ∀ L, IsSynced L.base → IsSynced (LogProg.run xp p L).2.base

section

variable {α β : Type} {xp : LogXparams}

theorem staysSynced_of_base {p : LogProg α} (h : ∀ L, (LogProg.run xp p L).2.base = L.base) :
    StaysSynced xp p := by
  intro L hL
  rwa [h]

theorem staysSynced_pure (v : α) : StaysSynced xp (pure v) := fun _ => id

theorem staysSynced_bind {p : LogProg β} {q : β → LogProg α} (hp : StaysSynced xp p)
    (hq : ∀ v, StaysSynced xp (q v)) : StaysSynced xp (p >>= q) := fun L hL => hq _ _ (hp L hL)

theorem isSynced_disk (h : IsSynced L.base) : IsSynced L.disk := by
  rw [LogSt.disk, GLog.installAll_eq]
  exact h.install

theorem staysSynced_lift (p : TxnProg α) : StaysSynced xp (LogProg.lift p) := by
  apply staysSynced_of_base
  intro L
  rw [LogProg.run_lift]
  exact (Txn.exec_eq p L).2.2.1

theorem staysSynced_flushsync : StaysSynced xp LogProg.flushsync := fun _ => isSynced_disk

variable [Platform]

theorem staysSynced_commit : StaysSynced xp LogProg.commit := by
  intro L hL
  rw [LogProg.run_commit]
  dsimp only
  have hsubmit : IsSynced (L.submit xp).1.base := by
    rwa [L.submit_base]
  rw [LogSt.commit_fst]
  split_ifs
  · exact isSynced_disk hsubmit
  · exact hsubmit

theorem staysSynced_mkfs : StaysSynced xp (mkfs fsxp) := by
  have habort : ∀ r : Res MemState, StaysSynced xp (do
      LogProg.abort
      pure r) := fun r => staysSynced_of_base fun _ => rfl
  refine staysSynced_bind (staysSynced_of_base fun _ => rfl) fun _ =>
    staysSynced_bind (staysSynced_lift _) fun ms => staysSynced_bind (staysSynced_lift _) ?_
  rintro ⟨ialc, _ | inum⟩
  · exact habort _
  · dsimp only
    split_ifs
    · refine staysSynced_bind staysSynced_commit ?_
      rintro (_ | _)
      · exact staysSynced_pure _
      · exact staysSynced_bind staysSynced_flushsync fun _ => staysSynced_pure _
    · exact habort _

/-- A new file system is on the disk, with nothing left to be synced. -/
theorem eq_ofDisk_of_mkfs {g : Geometry} {d₀ : Mem}
    (hr : LogProg.run g.fsxp.log (mkfs g.fsxp) (.ofDisk d₀) = (.ok ams, L)) :
    L = .ofDisk L.disk.cur := by
  have hnew := new_of_mkfs hr
  have hs : IsSynced (LogProg.run g.fsxp.log (mkfs g.fsxp) (.ofDisk d₀)).2.base :=
    staysSynced_mkfs (.ofDisk d₀) rfl
  rw [hr] at hs
  have hdisk : L.disk = L.base := by
    rw [LogSt.disk, hnew.pend]
    rfl
  rw [hdisk]
  obtain ⟨base, pend, txn⟩ := L
  obtain rfl : txn = ∅ := hnew.txn
  obtain rfl : pend = [] := hnew.pend
  exact congrArg (fun D => (⟨D, [], ∅⟩ : LogSt)) hs

end

/-! ### Lives -/

/-- The calls that flush everything that is pending. -/
def Call.Syncs : Call → Bool
  | .treeSync => true
  | .umount => true
  | _ => false

/-- The disks that a crash may fall back to after a call that has led to the disk `m`. -/
def Call.committed (c : Call) (T : Set Mem) (m : Mem) : Set Mem := if c.Syncs then {m} else insert m T

/-- What a file system can come to: it is made, a call does no harm, or the machine crashes in the
middle of such a call and recovery finds one of the disks that this leaves.  Along with it go the
disks between two calls since the last sync. -/
inductive Life [Platform] (g : Geometry) : Set Mem → LogSt → MemState → Prop
  | mkfs {d₀ : Mem} {L : LogSt} {ams : MemState}
      (h : LogProg.run g.fsxp.log (mkfs g.fsxp) (.ofDisk d₀) = (.ok ams, L)) :
      Life g {L.disk.cur} L ams
  | call {T : Set Mem} {L L' : LogSt} {ams ams' : MemState} {c : Call} {r : Res Unit}
      (h : Life g T L ams)
      (hr : LogProg.run g.fsxp.log (c.exec g.fsxp ams) L = ((ams', r), L'))
      (hc : HarmlessCall g.fsxp L ams c r) : Life g (c.committed T L'.disk.cur) L' ams'
  | crash {T : Set Mem} {L M : LogSt} {ams : MemState} {c : Call} {d : Mem} (h : Life g T L ams)
      (hc : HarmlessCall g.fsxp L ams c (LogProg.run g.fsxp.log (c.exec g.fsxp ams) L).1.2)
      (hM : Exec (LogProg.sem g.dataSize g.fsxp.log) L (c.exec g.fsxp ams) (.crashed M))
      (hd : d ∈ M.crashes g.fsxp.log) : Life g {d} (.ofDisk d) BFILE.msEmpty

section

variable [Platform] {g : Geometry} {L' : LogSt} {ams' : MemState} {c : Call} {r : MemState × Res Unit}

/-- What holds between two calls, and of all disks that a crash can leave then. -/
structure Sound (g : Geometry) (T : Set Mem) (L : LogSt) (ams : MemState) : Prop where
  ok : ∃ A K, Ok g.dataSize g.fsxp A K L ams
  settled : Settled g.dataSize g.fsxp T L ams
  log : 0 < g.fsxp.log.logLen

theorem Sound.call (h : Sound g T L ams)
    (hr : LogProg.run g.fsxp.log (c.exec g.fsxp ams) L = (r, L'))
    (hc : HarmlessCall g.fsxp L ams c r.2) : Sound g (insert L'.disk.cur T) L' r.1 := by
  obtain ⟨A, K, hok⟩ := h.ok
  obtain ⟨A', K', heff⟩ := effect_of_harmless hok h.log hr hc
  exact ⟨⟨A', K', heff.ok hok⟩, heff.settled hok g.ok h.settled (taken_of_run hok h.log hr hc), h.log⟩

/-- Nothing is pending after a sync. -/
theorem pend_of_syncs (hs : c.Syncs = true)
    (hr : LogProg.run g.fsxp.log (c.exec g.fsxp ams) L = (r, L')) : L'.pend = [] := by
  cases c with
  | treeSync =>
    obtain ⟨-, rfl⟩ := Prod.mk.inj hr
    rfl
  | umount =>
    obtain ⟨-, rfl⟩ := Prod.mk.inj hr
    rfl
  | _ => cases hs

theorem Sound.committed (h : Sound g T L ams)
    (hr : LogProg.run g.fsxp.log (c.exec g.fsxp ams) L = (r, L'))
    (hc : HarmlessCall g.fsxp L ams c r.2) : Sound g (c.committed T L'.disk.cur) L' r.1 := by
  have h' := h.call hr hc
  rw [Call.committed]
  split_ifs with hs
  · obtain ⟨A, K, hok⟩ := h'.ok
    have hone := hok.toTree.settled (pend_of_syncs hs hr) h'.settled.disk.1.synced r.1
    exact ⟨h'.ok, hone, h'.log⟩
  · exact h'

/-- A crash in the middle of a call leaves a tree from before the call, or the one after it. -/
theorem Sound.crash {M : LogSt} (h : Sound g T L ams)
    (hc : HarmlessCall g.fsxp L ams c (LogProg.run g.fsxp.log (c.exec g.fsxp ams) L).1.2)
    (hM : Exec (LogProg.sem g.dataSize g.fsxp.log) L (c.exec g.fsxp ams) (.crashed M))
    (hd : d ∈ M.crashes g.fsxp.log) : (∃ A K, Tree g.fsxp A K d) ∧
      ∃ m ∈ insert (LogProg.run g.fsxp.log (c.exec g.fsxp ams) L).2.disk.cur T,
        SameTree g.fsxp m d := by
  rcases c.atomic ams L M hM hd with hd | hd
  · obtain ⟨htree, m, hm, hsame⟩ := h.settled.crash g.ok hd
    exact ⟨htree, m, .inr hm, hsame⟩
  · exact (h.call rfl hc).settled.crash g.ok hd

omit [Platform] in
/-- Recovery finds a file system between two calls. -/
theorem Tree.sound (h : Tree g.fsxp A K d) (hlog : 0 < g.fsxp.log.logLen) :
    Sound g {d} (.ofDisk d) BFILE.msEmpty :=
  ⟨⟨A, K, h.ok⟩, h.settled (L := .ofDisk d) rfl (fun a _ => ADisk.syncedAt_synced d a) _, hlog⟩

theorem Life.sound (h : Life g T L ams) : Sound g T L ams := by
  induction h with
  | @mkfs d₀ L ams h =>
    have hnew := new_of_mkfs h
    have hok : Ok g.dataSize g.fsxp _ _ L ams := hnew.ok
    have hsync : ∀ a, L.disk.SyncedAt a := by
      rw [eq_ofDisk_of_mkfs h]
      exact ADisk.syncedAt_synced L.disk.cur
    exact ⟨⟨_, _, hok⟩, hok.toTree.settled hnew.pend (fun a _ => hsync a) ams, hnew.log⟩
  | call _ hr hc ih => exact ih.committed hr hc
  | crash _ hc hM hd ih =>
    obtain ⟨⟨A, K, htree⟩, -⟩ := ih.crash hc hM hd
    exact htree.sound ih.log

/-- A crash may leave the latest values of all blocks. -/
theorem Life.latest (h : Life g T L ams) : L.base.Latest := by
  induction h with
  | @mkfs d₀ L ams h =>
    have hbase : (LogProg.run g.fsxp.log (AFS.mkfs g.fsxp) (.ofDisk d₀)).2.base.Latest :=
      LogSt.latest_run _ (ADisk.latest_synced d₀)
    rwa [h] at hbase
  | @call T L L' ams ams' c r _ hr _ ih =>
    have hbase : (LogProg.run g.fsxp.log (c.exec g.fsxp ams) L).2.base.Latest :=
      LogSt.latest_run _ ih
    rwa [hr] at hbase
  | crash _ _ _ _ _ => exact ADisk.latest_synced _

/-- A run of calls without crashes is a life. -/
theorem Reach.life (h : Reach g (Call.exec g.fsxp) (SoundCall g.fsxp) L ams) : ∃ T, Life g T L ams := by
  induction h with
  | mkfs h => exact ⟨_, .mkfs h⟩
  | step _ hr hc ih =>
    obtain ⟨T, hlife⟩ := ih
    exact ⟨_, hlife.call hr (.inr hc)⟩

/-- A crash may come just before a transaction is committed or aborted. -/
theorem exec_transact_crashed {α : Type} (p : MemState → TxnProg (MemState × Res α)) :
    Exec (LogProg.sem n xp) L (transact p ams)
      (.crashed (LogProg.run xp (LogProg.lift (p ams)) L).2) := by
  have hrun : Exec (LogProg.sem n xp) L (LogProg.lift (p ams))
      (.finished (LogProg.run xp (LogProg.lift (p ams)) L).2
        (LogProg.run xp (LogProg.lift (p ams)) L).1) :=
    exec_run (f := LogProg.apply xp) (fun _ _ => rfl) (LogProg.lift (p ams)) L
  generalize LogProg.run xp (LogProg.lift (p ams)) L = x at hrun ⊢
  obtain ⟨⟨ms, _ | v⟩, L₁⟩ := x
  · exact .bindFinish (.step rfl) (.bindFinish hrun (.bindCrash (.crash _ trivial)))
  · exact .bindFinish (.step rfl) (.bindFinish hrun (.bindCrash (.bindCrash (.crash _ trivial))))

/-- What has been committed is pending, unless every commit flushes the log. -/
theorem pend_commit (hlazy : shouldFlushall = false) (h : L.commit xp = (L', true)) : L'.pend ≠ [] := by
  rw [LogProg.commit_eq, hlazy, if_neg Bool.false_ne_true, LogSt.submit] at h
  split_ifs at h
  · cases h
    exact List.concat_ne_nil _ _
  · cases h

theorem pend_transact {α : Type} {p : MemState → TxnProg (MemState × Res α)} {v : α}
    (hlazy : shouldFlushall = false)
    (h : LogProg.run xp (transact p ams) L = ((ams', .ok v), L')) : L'.pend ≠ [] := by
  rw [transact, LogProg.run_bind, LogProg.run_begin, LogProg.run_bind] at h
  generalize LogProg.run xp (LogProg.lift (p ams)) L = x at h
  obtain ⟨⟨ams₁, r⟩, L₁⟩ := x
  cases r with
  | error e => cases h
  | ok w =>
    dsimp only at h
    rw [LogProg.run_bind, LogProg.run_commit] at h
    generalize hc : L₁.commit xp = c at h
    obtain ⟨L₂, ok⟩ := c
    cases ok with
    | false => cases h
    | true =>
      cases h
      exact pend_commit hlazy hc

theorem pend_updateFblock {i off : ℕ} {v : Valu} (hlazy : shouldFlushall = false)
    (h : LogProg.run xp (updateFblock fsxp i off v ams) L = ((ams', true), L')) : L'.pend ≠ [] := by
  rw [updateFblock, LogProg.run_bind, LogProg.run_begin, LogProg.run_bind, LogProg.run_bind,
    LogProg.run_commit] at h
  generalize hc : (LogProg.run xp (LogProg.lift (DIRTREE.write fsxp i off v ams)) L).2.commit xp = c
    at h
  obtain ⟨L₂, ok⟩ := c
  cases h
  exact pend_commit hlazy hc

/-- Wherever a crash interrupts a call, recovery finds the tree after one of the calls since the last
sync, or after the interrupted one: the same directories with the same entries, and the same files
with the same attributes and blocks.  All that holds between two calls holds again. -/
theorem crash_shows_committed {M : LogSt} (h : Life g T L ams)
    (hc : HarmlessCall g.fsxp L ams c (LogProg.run g.fsxp.log (c.exec g.fsxp ams) L).1.2)
    (hM : Exec (LogProg.sem g.dataSize g.fsxp.log) L (c.exec g.fsxp ams) (.crashed M))
    (hd : d ∈ M.crashes g.fsxp.log) :
    (∃ m ∈ insert (LogProg.run g.fsxp.log (c.exec g.fsxp ams) L).2.disk.cur T,
      SameTree g.fsxp m d ∧ ∀ names, DIRTREE.walk g.fsxp d g.fsxp.rootInum true names =
        DIRTREE.walk g.fsxp m g.fsxp.rootInum true names) ∧
      ∃ A K, Ok g.dataSize g.fsxp A K (.ofDisk d) BFILE.msEmpty := by
  obtain ⟨⟨A, K, htree⟩, m, hm, hsame⟩ := h.sound.crash hc hM hd
  exact ⟨⟨m, hm, hsame, fun names => hsame.walk .root names⟩, A, K, htree.ok⟩

end

end AFS

namespace Sample

open AFS

local instance recoverPlatform : Platform := platform

theorem exists_life : ∃ f ams, Life geometry {f} (.ofDisk f) ams := by
  obtain ⟨ams, L, hmk⟩ := exists_new fun _ => 0
  have hlife : Life geometry {L.disk.cur} L ams := .mkfs hmk
  exact ⟨L.disk.cur, ams, eq_ofDisk_of_mkfs hmk ▸ hlife⟩

/-- The attributes of a file of one byte. -/
def attrs : INODE.IAttr := INODE.iattrUpd INODE.iattr0 (.uBytes 1)

theorem attrs_ne : attrs ≠ INODE.iattr0 := by
  intro h
  have h0 : INODE.aBytes INODE.iattr0 = 0 := by decide +kernel
  have h1 := congrArg INODE.aBytes h
  rw [h0] at h1
  cases h1

/-- The machine crashes while it sets the attributes of a file, just before the transaction is
committed. -/
theorem exists_interrupted {L : LogSt} {ams : MemState} {i : ℕ} {f : BFILE.BFile}
    (h : OneFile L ams i f) (hf : f.attr = INODE.iattr0) :
    ∃ M, Exec (LogProg.sem geometry.dataSize geometry.fsxp.log) L
        ((Call.fileSetAttr i attrs).exec geometry.fsxp ams) (.crashed M) ∧
      M.base = L.base ∧ M.pend = L.pend ∧ M.txn ≠ ∅ := by
  obtain ⟨K, hok, hK⟩ := h.ok
  let p : MemState → TxnProg (MemState × Res Unit) := fun ams => do
    let ams ← DIRTREE.setattr geometry.fsxp i attrs ams
    pure (ams, .ok ())
  refine ⟨_, exec_transact_crashed p, ?_⟩
  have hwp : LogProg.wp geometry.dataSize geometry.fsxp.log (LogProg.lift (p ams))
      (fun _ M => M.base = L.base ∧ M.pend = L.pend ∧ M.txn ≠ ∅) (fun _ => True) L := by
    apply LogProg.wp_lift fun _ => trivial
    rw [L.read_of_txn hok.txn]
    apply wp_bind
    apply DIRTREE.wp_setattr geometry.ok hok.tree (Finset.mem_insert_self i _) hK
    intro ms' m' _ _ hfile
    apply wp_pure
    intro t ht
    refine ⟨rfl, rfl, ?_⟩
    rintro rfl
    have hread : L.disk.cur = m' := (LogSt.read_of_txn (A := { L with txn := ∅ }) rfl).symm.trans
      ht.read
    rw [← hread, h.file] at hfile
    exact attrs_ne ((congrArg BFILE.BFile.attr hfile).symm.trans hf)
  exact LogProg.wp_run hwp

/-- A file has been created in a new file system, and its transaction is pending, when the machine
crashes in the middle of the next one. -/
theorem crash_shows_committed_pending : ∃ f i L ams M d, Life geometry {L.disk.cur, f} L ams ∧
    ¬ InTree geometry.fsxp f i false ∧ InTree geometry.fsxp L.disk.cur i false ∧ L.pend ≠ [] ∧
    Exec (LogProg.sem geometry.dataSize geometry.fsxp.log) L
      ((Call.fileSetAttr i attrs).exec geometry.fsxp ams) (.crashed M) ∧
    M.pend = L.pend ∧ M.txn ≠ ∅ ∧ d ∈ M.crashes geometry.fsxp.log ∧
    (∃ m ∈ insert (LogProg.run geometry.fsxp.log
        ((Call.fileSetAttr i attrs).exec geometry.fsxp ams) L).2.disk.cur ({L.disk.cur, f} : Set Mem),
      SameTree geometry.fsxp m d ∧
        ∀ names, DIRTREE.walk geometry.fsxp d geometry.fsxp.rootInum true names =
          DIRTREE.walk geometry.fsxp m geometry.fsxp.rootInum true names) ∧
    ∃ A K, Ok geometry.dataSize geometry.fsxp A K (.ofDisk d) BFILE.msEmpty := by
  obtain ⟨ams₀, L₀, ams, i, L, hmk, hrun, hone, -⟩ := exists_create
  obtain ⟨K, hok, hK⟩ := hone.ok
  have hnew := new_of_mkfs hmk
  have hr : LogProg.run geometry.fsxp.log ((Call.create 1 [97]).exec geometry.fsxp ams₀) L₀ =
      ((ams, .ok ()), L) := run_create hrun
  have hlife : Life geometry {L.disk.cur, L₀.disk.cur} L ams :=
    (Life.mkfs hmk).call hr (.inr ⟨.root, trivial⟩)
  obtain ⟨M, hM, hbase, hpend, htxn⟩ := exists_interrupted hone rfl
  have hd := LogSt.cur_mem_crashes (LogSt.latest_disk (Life.latest hlife)) geometry.fsxp.log
  rw [← LogSt.crashes_congr hbase hpend] at hd
  have hok₀ : Ok geometry.dataSize geometry.fsxp _ _ L₀ ams₀ := hnew.ok
  have hnot : ¬ InTree geometry.fsxp L₀.disk.cur i false :=
    fun h => hone.ne (Finset.mem_singleton.1 (hok₀.inTree_iff.1 h).1)
  have h := crash_shows_committed hlife (c := .fileSetAttr i attrs) (.inl ⟨hone.inTree, trivial⟩) hM hd
  exact ⟨L₀.disk.cur, i, L, ams, M, _, hlife, hnot, hone.inTree, pend_transact rfl hrun, hM, hpend, htxn,
    hd, h⟩

end Sample

end Fscq
