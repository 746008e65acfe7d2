import Fscq.AsyncFSDurable

/-!
# Files that are only written through the log

A call that writes nothing past the log adds at most one disk below the pending transactions: the one
that it commits.  Files that are not written past the log are therefore, on every disk that a crash
can leave, as they were at the same moment as the tree (`AFS.logged_files_atomic`).
-/

namespace Fscq

open CrashProg

open BFILE (MemState)

open LogSt (Flushed)

theorem ADisk.sync_empty (D : ADisk) : D.sync ∅ = D := by
  obtain ⟨cur, poss⟩ := D
  refine congrArg (ADisk.mk cur) (funext fun a => ?_)
  ext x
  exact ⟨And.left, fun hx => ⟨hx, fun ha => absurd ha (Set.notMem_empty a)⟩⟩

namespace LogSt

variable {L L' L'' : LogSt} {P : ADisk → Prop}

/-- The disks below the pending transactions are old ones, with some more blocks synced, and the one
that is committed; what has been synced stays synced. -/
structure Extends (L L' : LogSt) : Prop where
  upto : ∀ k ≤ L'.pend.length, L'.upto k = L'.disk ∨
    ∃ S, ∃ j ≤ L.pend.length, L'.upto k = (L.upto j).sync S
  synced : ∀ a, L.disk.SyncedAt a → L'.disk.SyncedAt a

/-- The two differ in the active transaction only. -/
def Alike (L L' : LogSt) : Prop := L'.base = L.base ∧ L'.pend = L.pend

theorem Alike.upto (h : L.Alike L') (k : ℕ) : L'.upto k = L.upto k := by
  rw [LogSt.upto, h.1, h.2, LogSt.upto]

theorem Alike.disk (h : L.Alike L') : L'.disk = L.disk := disk_congr h.1 h.2

theorem Alike.extends (h : L.Alike L') : L.Extends L' := by
  constructor
  case upto =>
    intro k hk
    rw [h.2] at hk
    refine .inr ⟨∅, k, hk, ?_⟩
    rw [h.upto, ADisk.sync_empty]
  case synced =>
    intro a ha
    rwa [h.disk]

theorem Alike.trans_extends (h : L.Alike L') (h' : L'.Extends L'') : L.Extends L'' := by
  constructor
  case upto =>
    intro k hk
    refine (h'.upto k hk).imp_right fun ⟨S, j, hj, he⟩ => ⟨S, j, h.2 ▸ hj, ?_⟩
    rw [he, h.upto]
  case synced => exact fun a ha => h'.synced a (h.disk ▸ ha)

theorem Extends.trans_alike (h : L.Extends L') (h' : L'.Alike L'') : L.Extends L'' := by
  constructor
  case upto =>
    intro k hk
    rw [h'.upto, h'.disk]
    exact h.upto k (h'.2 ▸ hk)
  case synced =>
    intro a ha
    rw [h'.disk]
    exact h.synced a ha

theorem extends_of_pend (h : L'.pend = []) (hs : ∀ a, L.disk.SyncedAt a → L'.disk.SyncedAt a) :
    L.Extends L' := by
  refine ⟨fun k hk => .inl ?_, hs⟩
  rw [h, List.length_nil] at hk
  obtain rfl : k = 0 := Nat.le_zero.1 hk
  rw [LogSt.upto, List.take_zero, LogSt.disk, h]

theorem extends_push (L : LogSt) (t : Valumap) : L.Extends (L.push t) := by
  constructor
  case upto =>
    intro k hk
    have hlen : (L.push t).pend.length = L.pend.length + 1 := List.length_append
    rcases Nat.lt_or_ge L.pend.length k with hlt | hle
    · obtain rfl : k = (L.push t).pend.length := by omega
      exact .inl (upto_length _)
    · have htake : (L.push t).pend.take k = L.pend.take k := List.take_append_of_le_length hle
      refine .inr ⟨∅, k, hle, ?_⟩
      rw [LogSt.upto, htake, ADisk.sync_empty]
      rfl
  case synced =>
    intro a ha
    rw [disk_push]
    exact ha.install t

theorem extends_flushall (L : LogSt) : L.Extends L.flushall := extends_of_pend rfl fun _ => id

/-- Commits may be flushed. -/
theorem Extends.flushall (h : L.Extends L') : L.Extends L'.flushall := extends_of_pend rfl h.synced

theorem extends_sync (L : LogSt) (S : Set ℕ) : L.Extends { L with base := L.base.sync S } := by
  constructor
  case upto =>
    intro k hk
    refine .inr ⟨S, k, hk, ?_⟩
    rw [LogSt.upto, LogSt.upto, GLog.installAll_eq, GLog.installAll_eq, ADisk.install_sync]
  case synced =>
    intro a ha
    rw [LogSt.disk, GLog.installAll_eq] at ha ⊢
    exact ADisk.syncedAt_install_sync (.inl ha)

/-- What holds of the old disks and of the committed one holds of all. -/
theorem Every.of_extends (h : L.Every P) (he : L.Extends L')
    (hs : ∀ D S, P D → P (D.sync S)) (hd : P L'.disk) : L'.Every P := by
  intro k hk
  rcases he.upto k hk with heq | ⟨S, j, hj, heq⟩
  · rwa [heq]
  · rw [heq]
    exact hs _ S (h j hj)

end LogSt

namespace LogProg

variable {α β : Type} {xp : LogXparams}

/-- The program works in the active transaction only. -/
def Idles (xp : LogXparams) (p : LogProg α) : Prop := ∀ L : LogSt, L.Alike (run xp p L).2

/-- The program commits at most once. -/
def Extends (xp : LogXparams) (p : LogProg α) : Prop :=
  ∀ L : LogSt, L.Extends (run xp p L).2

theorem idles_pure (v : α) : Idles xp (pure v) := fun _ => ⟨rfl, rfl⟩

theorem idles_begin : Idles xp begin := fun _ => ⟨rfl, rfl⟩

theorem idles_use (t : Valumap) : Idles xp (use t) := fun _ => ⟨rfl, rfl⟩

theorem idles_abort : Idles xp abort := idles_use ∅

theorem idles_lift (p : TxnProg α) : Idles xp (lift p) := by
  intro L
  rw [run_lift]
  exact (Txn.exec_eq p L).2.2

theorem Idles.bind {p : LogProg β} {q : β → LogProg α} (hp : Idles xp p) (hq : ∀ v, Idles xp (q v)) :
    Idles xp (p >>= q) := by
  intro L
  obtain ⟨hb, hpend⟩ := hp L
  obtain ⟨hb', hpend'⟩ := hq (run xp p L).1 (run xp p L).2
  exact ⟨hb'.trans hb, hpend'.trans hpend⟩

theorem Idles.extends {p : LogProg α} (h : Idles xp p) : Extends xp p := fun L => (h L).extends

theorem Idles.andThen {p : LogProg β} {q : β → LogProg α} (hp : Idles xp p)
    (hq : ∀ v, Extends xp (q v)) : Extends xp (p >>= q) :=
  fun L => (hp L).trans_extends (hq _ _)

theorem Extends.andThen {p : LogProg β} {q : β → LogProg α} (hp : Extends xp p)
    (hq : ∀ v, Idles xp (q v)) : Extends xp (p >>= q) :=
  fun L => (hp L).trans_alike (hq _ _)

theorem extends_flushall : Extends xp flushall := fun L => L.extends_flushall

theorem extends_commit [Platform] : Extends xp commit := by
  intro L
  have hsubmit : L.Extends (L.submit xp).1 := by
    rw [LogSt.submit]
    split_ifs
    · exact L.extends_push L.txn
    · exact LogSt.Alike.extends ⟨rfl, rfl⟩
  rw [run_commit, LogSt.commit_fst]
  split_ifs
  · exact hsubmit.flushall
  · exact hsubmit

end LogProg

namespace AFS

open LogProg (Idles Extends idles_pure idles_begin idles_use idles_abort idles_lift extends_commit)

section

variable {α : Type} {fsxp : FsXparams} {xp : LogXparams} {ams : MemState}

theorem idles_readonly (p : MemState → TxnProg (MemState × α)) (ams : MemState) :
    Idles xp (readonly p ams) :=
  idles_begin.bind fun _ => (idles_lift _).bind fun r => idles_abort.bind fun _ => idles_pure r

variable [Platform]

/-- A program that ends in a commit, and then only says what happened. -/
theorem extends_commit_ite {x y : α} :
    Extends xp (LogProg.commit >>= fun ok => if ok then pure x else pure y) := by
  refine extends_commit.andThen ?_
  rintro (_ | _) <;> exact idles_pure _

theorem extends_transact (p : MemState → TxnProg (MemState × Res α)) (ams : MemState) :
    Extends xp (transact p ams) := by
  refine idles_begin.andThen fun _ => (idles_lift _).andThen ?_
  rintro ⟨ams', e | v⟩
  · exact (idles_abort.bind fun _ => idles_pure _).extends
  · exact extends_commit_ite

theorem extends_rebind (p : MemState → TxnProg (MemState × Res α)) (ams : MemState) :
    Extends xp (rebind p ams) := by
  refine idles_begin.andThen fun _ => (idles_lift _).andThen ?_
  rintro ⟨ams', e | v⟩
  · exact (idles_abort.bind fun _ => idles_pure _).extends
  · exact extends_commit_ite

theorem extends_fileSetSz (inum : ℕ) (sz : BitVec 64) (ams : MemState) :
    Extends xp (fileSetSz fsxp inum sz ams) := by
  refine idles_begin.andThen fun _ => (idles_lift _).andThen fun ams' => idles_begin.andThen fun t =>
    extends_commit.andThen ?_
  rintro (_ | _)
  · exact (idles_use t).bind fun _ => idles_pure _
  · exact idles_pure _

theorem extends_ftruncate (inum sz : ℕ) (ams : MemState) :
    Extends xp (ftruncate fsxp inum sz ams) := by
  refine idles_begin.andThen fun t => (idles_lift _).andThen ?_
  rintro ⟨ams', e | v⟩
  · exact (idles_abort.bind fun _ => idles_pure _).extends
  · exact (idles_use t).andThen fun _ => (idles_lift _).andThen fun _ => extends_commit_ite

omit [Platform] in
theorem extends_fileSync (inum : ℕ) (ams : MemState) : Extends xp (fileSync inum ams) := by
  refine idles_begin.andThen fun _ => Extends.andThen (Extends.andThen ?_ fun _ => idles_pure _)
    fun _ => idles_abort.bind fun _ => idles_pure _
  exact fun L => L.extends_sync _

/-- A call commits at most once, unless it writes past the log. -/
theorem Call.extends {c : Call} (hc : ∀ i off v, c ≠ .updateFblockD i off v) (ams : MemState) :
    Extends xp (c.exec fsxp ams) := by
  cases c with
  | fileGetAttr inum => exact ((idles_readonly _ ams).bind fun _ => idles_pure _).extends
  | fileGetSz inum =>
    exact (((idles_readonly _ ams).bind fun _ => idles_pure _).bind fun _ => idles_pure _).extends
  | readFblock inum off => exact ((idles_readonly _ ams).bind fun _ => idles_pure _).extends
  | lookup dnum names => exact ((idles_readonly _ ams).bind fun _ => idles_pure _).extends
  | readdir dnum => exact ((idles_readonly _ ams).bind fun _ => idles_pure _).extends
  | statfs =>
    exact (Idles.bind (idles_begin.bind fun _ => idles_abort.bind fun _ => idles_pure _)
      fun _ => idles_pure _).extends
  | fileSetAttr inum attr =>
    rw [exec, AFS.fileSetAttr]
    exact extends_transact _ ams
  | fileTruncate inum sz => exact extends_transact _ ams
  | create dnum name => exact (extends_transact _ ams).andThen fun _ => idles_pure _
  | delete dnum name => exact extends_transact _ ams
  | rename dnum srcpath srcname dstpath dstname => exact extends_transact _ ams
  | fileSetSz inum sz => exact extends_fileSetSz inum sz ams
  | mksock dnum name => exact (extends_rebind _ ams).andThen fun _ => idles_pure _
  | mkdir dnum name => exact (extends_rebind _ ams).andThen fun _ => idles_pure _
  | ftruncate inum sz => exact extends_ftruncate inum sz ams
  | updateFblock inum off v =>
    exact (idles_begin.andThen fun _ => (idles_lift _).andThen fun _ =>
      extends_commit.andThen fun _ => idles_pure _).andThen fun _ => idles_pure _
  | updateFblockD inum off v => exact absurd rfl (hc inum off v)
  | fileSync inum => exact (extends_fileSync inum ams).andThen fun _ => idles_pure _
  | treeSync =>
    exact Extends.andThen (Extends.andThen LogProg.extends_flushall fun _ => idles_pure _)
      fun _ => idles_pure _
  | umount => exact fun L => LogSt.extends_of_pend rfl fun a _ => L.flushall.syncedAt_syncCache a

end

/-! ### Files on all disks -/

variable {n : ℕ} {fsxp : FsXparams} {A : Finset ℕ} {K : ℕ → Bool} {m : Mem} {D : ADisk}
  {L L' : LogSt} {ams ams' : MemState} {i j a off : ℕ} {F : Set ℕ} {T : Set Mem}

/-- The disk has the tree of `m` and its files in `F`, whose blocks are all synced. -/
structure Exact (fsxp : FsXparams) (F : Set ℕ) (m : Mem) (D : ADisk) : Prop where
  tree : SameTree fsxp m D.cur
  file : ∀ i ∈ F, i < INODE.ninodes fsxp.inode →
    BFILE.file fsxp D.cur i = BFILE.file fsxp m i
  synced : ∀ i ∈ F, i < INODE.ninodes fsxp.inode →
    ∀ a ∈ BFILE.blocks fsxp D.cur i, D.SyncedAt a

/-- All disks below the pending transactions are exact. -/
def Recorded (fsxp : FsXparams) (F : Set ℕ) (T : Set Mem) (L : LogSt) : Prop :=
  L.Every fun D => ∃ m ∈ T, Exact fsxp F m D

theorem Exact.sync {S : Set ℕ} (h : Exact fsxp F m D) : Exact fsxp F m (D.sync S) :=
  ⟨h.tree, h.file, fun i hi hlt a ha => (h.synced i hi hlt a ha).sync⟩

/-- A call that does not write past the log. -/
theorem Recorded.extends (h : Recorded fsxp F T L) (he : L.Extends L')
    (hs : Settled n fsxp T L ams) (ht : Taken fsxp L L') :
    Recorded fsxp F (insert L'.disk.cur T) L' := by
  have hold : L.Every fun D => ∃ m ∈ insert L'.disk.cur T, Exact fsxp F m D :=
    LogSt.Every.mono h fun D ⟨m, hm, hD⟩ => ⟨m, .inr hm, hD⟩
  refine LogSt.Every.of_extends hold he (fun D S ⟨m, hm, hD⟩ => ⟨m, hm, hD.sync⟩)
    ⟨_, .inl rfl, .refl fsxp _, fun _ _ _ => rfl, fun i hi hlt a ha => ?_⟩
  -- a block that the file had was synced before, and one that it has taken has been written
  rcases ht i hlt a (Multiset.mem_add.2 (.inr ha)) with ho | hsync
  · apply he.synced
    rcases Multiset.mem_add.1 ho with hn | hd
    · exact hs.disk.1.synced a (.inl (.inr ⟨i, hlt, hn⟩))
    · obtain ⟨m, -, hD⟩ := LogSt.Every.disk h
      exact hD.synced i hi hlt a hd
  · exact hsync

/-- A write past the log to another file. -/
theorem Recorded.dwrite (h : Ok n fsxp A K L ams) (hx : fsxp.Ok n) (hr : Recorded fsxp F T L)
    (hs : Settled n fsxp T L ams) (hj : j ∈ A) (hKj : K j = false) (hF : j ∉ F)
    (ha : a ∈ BFILE.blocks fsxp L.disk.cur j) (v : Valu) : Recorded fsxp F T (L.dwrite a v) := by
  have hjlt := h.tree.lt hj
  refine LogSt.Every.dwrite (LogSt.Every.and hs hr) fun D ⟨⟨hD, _⟩, m, hm, hexact⟩ => ⟨m, hm, ?_⟩
  have hne : ∀ i ∈ F, i ≠ j := fun i hi e => hF (e ▸ hi)
  constructor
  case tree => exact hexact.tree.trans (hD.write h hx hj hKj ha hD v).2
  case file =>
    intro i hi hlt
    exact (hD.older.file_write h.tree.inv hjlt ha hlt hx v (hne i hi)).trans (hexact.file i hi hlt)
  case synced =>
    intro i hi hlt b hb
    have hb' : b ∈ BFILE.blocks fsxp D.cur i :=
      (hD.older.layout_write h.tree.inv hjlt ha hlt hx v).2.2 ▸ hb
    have hba : b ≠ a := by
      rintro rfl
      exact hD.older.not_owned h.tree.inv hjlt ha hlt (hne i hi) (Multiset.mem_add.2 (.inr hb'))
    exact (ADisk.sameAt_write hba).syncedAt (hexact.synced i hi hlt b hb')

/-- A crash leaves a tree and the files that it had at the same moment. -/
theorem Recorded.crash {xp : LogXparams} {d : Mem} (hx : fsxp.Ok (MLog.dataSize xp))
    (hs : Settled (MLog.dataSize xp) fsxp T L ams) (hr : Recorded fsxp F T L)
    (hd : d ∈ L.crashes xp) : ∃ m ∈ T, SameTree fsxp m d ∧
      ∀ i ∈ F, i < INODE.ninodes fsxp.inode → BFILE.file fsxp d i = BFILE.file fsxp m i := by
  obtain ⟨k, hk, hd⟩ := L.exists_of_crashes hd
  obtain ⟨hD, -⟩ := hs k hk
  obtain ⟨m, hm, hexact⟩ := hr k hk
  refine ⟨m, hm, hexact.tree.trans (hD.tree_crash hx hd).2, fun i hi hlt => ?_⟩
  exact (hD.file_crash hx hlt hd (hexact.synced i hi hlt)).trans (hexact.file i hi hlt)

/-! ### Runs -/

section

variable [Platform] {g : Geometry} {c : Call} {s s₀ s' : Moment} {d : Mem}

/-- A call that does not write to these files past the log. -/
def LogsFiles (F : Set ℕ) (c : Call) (_ : Moment) : Prop :=
  ∀ i off v, c = .updateFblockD i off v → i ∉ F

omit [Platform] in
/-- When nothing is pending, there is only one disk. -/
theorem Recorded.last (h : Recorded fsxp F T L) (hp : L.pend = []) :
    Recorded fsxp F {L.disk.cur} L := by
  obtain ⟨m, -, hD⟩ := LogSt.Every.disk h
  exact LogSt.every_of_pend hp ⟨_, rfl, .refl fsxp _, fun _ _ _ => rfl, hD.synced⟩

theorem Moment.Lives.recorded (h : s.Lives g) (hr : Recorded g.fsxp F s.disks s.log)
    (hc : s.Harmless g c) (hF : LogsFiles F c s) :
    Recorded g.fsxp F (s.after g c).disks (s.after g c).log := by
  have hsound := h.sound
  obtain ⟨A, K, hok⟩ := hsound.ok
  have hins : Recorded g.fsxp F (insert (s.after g c).log.disk.cur s.disks) (s.after g c).log := by
    by_cases hd : ∃ i off v, c = .updateFblockD i off v
    · obtain ⟨i, off, v, rfl⟩ := hd
      obtain ⟨hi, ho⟩ := hc.valid
      obtain ⟨hi, hK⟩ := hok.inTree_iff.1 hi
      have hwp : LogProg.wp g.dataSize g.fsxp.log (updateFblockD g.fsxp i off v s.ams)
          (fun _ L' => Recorded g.fsxp F s.disks L') (crashIn fun _ _ => True) s.log := by
        apply wp_updateFblockD g.ok hok.txn hok.tree hi hK ho trivial
        intro b c hb _ _ _
        refine ⟨trivial, hr.dwrite hok g.ok hsound.settled hi hK (hF i off v rfl) ?_ v⟩
        exact hb ▸ List.getElem_mem ho
      exact (LogProg.wp_run hwp).mono fun D ⟨m, hm, hD⟩ => ⟨m, .inr hm, hD⟩
    · push Not at hd
      exact hr.extends (Call.extends hd s.ams s.log) hsound.settled
        (taken_of_run hok hsound.log rfl hc)
  change Recorded g.fsxp F (c.committed s.disks (s.after g c).log.disk.cur) (s.after g c).log
  rw [Call.committed]
  split_ifs with hs
  · exact hins.last (pend_of_syncs hs rfl)
  · exact hins

theorem Later.recorded (h : Later g (LogsFiles F) s₀ s) (h₀ : s₀.Lives g)
    (hr : Recorded g.fsxp F s₀.disks s₀.log) : Recorded g.fsxp F s.disks s.log := by
  induction h with
  | refl => exact hr
  | call h hc hF ih => exact (h.lives h₀).recorded ih hc hF

/-- After a sync of everything there is one disk, with the files that have no dirty blocks. -/
theorem Moment.Lives.recorded_treeSync (h : s.Lives g)
    (hF : ∀ i ∈ F, i < INODE.ninodes g.fsxp.inode → BFILE.getDirty i s.ams.msDBlocks = ∅) :
    Recorded g.fsxp F (s.after g .treeSync).disks (s.after g .treeSync).log := by
  obtain ⟨A, K, hok⟩ := h.ok
  refine LogSt.every_of_pend rfl
    ⟨_, rfl, .refl g.fsxp _, fun _ _ _ => rfl, fun i hi hlt a ha => ?_⟩
  refine hok.dirty i hlt a ha ?_
  rw [hF i hi hlt]
  exact Std.ExtTreeSet.not_mem_empty

/-- When the tree has been synced and some files have no dirty blocks, a crash after calls that do not
write to these files past the log leaves the tree and these files as they were at one moment: what
one call has done to the tree and to the files is there as a whole or not at all, and in the order
of the calls. -/
theorem logged_files_atomic (h : s.Lives g)
    (hF : ∀ i ∈ F, i < INODE.ninodes g.fsxp.inode → BFILE.getDirty i s.ams.msDBlocks = ∅)
    (hl : Later g (LogsFiles F) (s.after g .treeSync) s') (hc : s'.Harmless g c)
    (hP : LogsFiles F c s') (hd : s'.CrashesTo g c d) :
    ∃ s₁, Later g (LogsFiles F) (s.after g .treeSync) s₁ ∧ SameTree g.fsxp s₁.log.disk.cur d ∧
      ∀ i ∈ F, InTree g.fsxp d i false →
        BFILE.file g.fsxp d i = BFILE.file g.fsxp s₁.log.disk.cur i := by
  have h₀ : (s.after g .treeSync).Lives g := h.after (.inl ⟨trivial, trivial⟩)
  have hr₀ := h.recorded_treeSync hF
  obtain ⟨s₁, h₁, hd⟩ : ∃ s₁, Later g (LogsFiles F) (s.after g .treeSync) s₁ ∧
      d ∈ s₁.log.crashes g.fsxp.log := by
    rcases hd.mem with hd | hd
    · exact ⟨s', hl, hd⟩
    · exact ⟨_, hl.call hc hP, hd⟩
  have hsound := (h₁.lives h₀).sound
  obtain ⟨m, hm, hsame, hfile⟩ := (h₁.recorded h₀ hr₀).crash g.ok hsound.settled hd
  obtain ⟨s₂, h₂, rfl⟩ := h₁.disks rfl hm
  obtain ⟨A₂, K₂, hok₂⟩ := (h₂.lives h₀).ok
  refine ⟨s₂, h₂, hsame, fun i hi hin => hfile i hi ?_⟩
  exact hok₂.lt ((hsame.inTree i false).1 hin)

end

end AFS

namespace Sample

open AFS

local instance loggedPlatform : Platform := platform

/-- The block of the file is written in a transaction, which is pending then. -/
theorem OneFile.updateFblock {s : Moment} {i : ℕ} (h : OneFile s.log s.ams i ⟨[0], INODE.iattr0⟩) :
    OneFile (s.after geometry (.updateFblock i 0 1)).log (s.after geometry (.updateFblock i 0 1)).ams i
        ⟨[1], INODE.iattr0⟩ ∧
      (s.after geometry (.updateFblock i 0 1)).log.pend ≠ [] := by
  obtain ⟨K, hok, hK⟩ := h.ok
  have hi : i ∈ ({i, geometry.fsxp.rootInum} : Finset ℕ) := Finset.mem_insert_self i _
  have hwp : LogProg.wp geometry.dataSize geometry.fsxp.log
      (AFS.updateFblock geometry.fsxp i 0 1 s.ams)
      (fun r L' => r.2 = true ∧ OneFile L' r.1 i ⟨[1], INODE.iattr0⟩) (crashIn fun _ _ => True)
      s.log := by
    apply wp_updateFblock hok.txn trivial ((Nat.zero_lt_succ _).trans_le le_logLen_geometry)
    apply DIRTREE.wp_write geometry.ok hok.tree hi hK (by rw [h.file]; decide)
    intro ms' m' hinv hmv hfile t ht hr
    refine ⟨trivial, fun L' hL => ⟨rfl, ?_⟩⟩
    have heff : Effect geometry.dataSize geometry.fsxp {i, geometry.fsxp.rootInum} K s.log s.ams
        {i, geometry.fsxp.rootInum} K L' ms' :=
      Effect.logged_of_logs (.of_kind hinv hmv) ht hr hL
    have hcur : L'.disk.cur = m' := by
      rw [hL.disk, disk_push_of_logs ht]
    have hroot := hok.tree.lt (Finset.mem_insert_of_mem (Finset.mem_singleton_self _))
    refine ⟨⟨K, heff.ok hok, hK⟩, h.ne, ?_, ?_⟩
    · rw [hcur, hmv.file hok.tree.inv hroot h.ne.symm, h.dents]
    · rw [hcur, hfile, h.file]
      rfl
  obtain ⟨⟨ams', r⟩, L', hx, rfl, hone⟩ := LogProg.exists_run hwp
  have hcall : LogProg.run geometry.fsxp.log ((Call.updateFblock i 0 1).exec geometry.fsxp s.ams)
      s.log = ((ams', .ok ()), L') := by
    rw [Call.exec, LogProg.run_bind, hx]
    rfl
  rw [Moment.after_of_run geometry hcall]
  exact ⟨hone, pend_updateFblock rfl hx⟩

/-- The machine crashes in the middle of a transaction, with the write still pending. -/
theorem logged_files_atomic_pending : ∃ (s s₁ s' : Moment) (i : ℕ) (M : LogSt) (d : Mem),
    s.Lives geometry ∧ s₁ = s.after geometry .treeSync ∧
    s' = s₁.after geometry (.updateFblock i 0 1) ∧
    BFILE.file geometry.fsxp s.log.disk.cur i = ⟨[0], INODE.iattr0⟩ ∧
    BFILE.file geometry.fsxp s'.log.disk.cur i = ⟨[1], INODE.iattr0⟩ ∧ s'.log.pend ≠ [] ∧
    Exec (LogProg.sem geometry.dataSize geometry.fsxp.log) s'.log
      ((Call.fileSetAttr i attrs).exec geometry.fsxp s'.ams) (.crashed M) ∧
    M.pend = s'.log.pend ∧ M.txn ≠ ∅ ∧ d ∈ M.crashes geometry.fsxp.log ∧
    ∃ s₂, Later geometry (LogsFiles {i}) s₁ s₂ ∧ SameTree geometry.fsxp s₂.log.disk.cur d ∧
      ∀ j ∈ ({i} : Set ℕ), InTree geometry.fsxp d j false →
        BFILE.file geometry.fsxp d j = BFILE.file geometry.fsxp s₂.log.disk.cur j := by
  obtain ⟨s₀, i, hlife₀, hone₀⟩ := exists_moment
  have hlife := hlife₀.after (c := .fileSync i) (.inl ⟨trivial, trivial⟩)
  have hone := hone₀.fileSync
  have hdirty : BFILE.getDirty i (s₀.after geometry (.fileSync i)).ams.msDBlocks = ∅ := by
    change BFILE.getDirty i (BFILE.clearDirty i s₀.ams.msDBlocks) = ∅
    rw [BFILE.getDirty_clearDirty, if_pos rfl]
  generalize s₀.after geometry (.fileSync i) = s at *
  have hlife₁ := hlife.after (c := .treeSync) (.inl ⟨trivial, trivial⟩)
  have hone₁ := hone.treeSync
  have h := fun s' d (hl : Later geometry _ _ s') => logged_files_atomic (F := {i}) (d := d) hlife
    (fun j hj _ => hj ▸ hdirty) hl (c := .fileSetAttr i attrs)
  generalize hs₁ : s.after geometry .treeSync = s₁ at *
  have hharm : s₁.Harmless geometry (.updateFblock i 0 1) := by
    refine .inl ⟨⟨hone₁.inTree, ?_⟩, trivial⟩
    rw [hone₁.length_blocks]
    exact Nat.one_pos
  have hlife₂ := hlife₁.after hharm
  obtain ⟨hone₂, hpend⟩ := hone₁.updateFblock
  have hlater : Later geometry (LogsFiles {i}) s₁ _ := .call .refl hharm nofun
  generalize hs' : s₁.after geometry (.updateFblock i 0 1) = s' at *
  obtain ⟨M, hM, hbase, hpend', htxn⟩ := exists_interrupted hone₂ rfl
  have hd := LogSt.cur_mem_crashes (LogSt.latest_disk (Life.latest hlife₂)) geometry.fsxp.log
  rw [← LogSt.crashes_congr hbase hpend'] at hd
  exact ⟨s, s₁, s', i, M, _, hlife, hs₁.symm, hs'.symm, hone.file, hone₂.file, hpend, hM, hpend',
    htxn, hd, h s' _ hlater (.inl ⟨hone₂.inTree, trivial⟩) nofun ⟨M, hM, hd⟩⟩

end Sample

end Fscq
