import Fscq.AsyncFSFrame
import Fscq.AsyncFSRecover

/-!
# What a sync makes durable

After `fileSync` and `treeSync` a crash leaves a file as it was then, whatever is done to the other
files (`AFS.fsync_durable`); `fileSync` alone is enough for blocks that have been written past the log
since the last `treeSync` (`AFS.fdatasync_durable`).  Between the two, the disks below the pending
transactions all have the file in the same blocks and with the same contents, and those of its blocks
that are not synced are dirty (`AFS.Held`).
-/

namespace Fscq

open CrashProg

open BFILE (MemState)

open LogSt (Flushed)

namespace AFS

variable {n : ℕ} {fsxp : FsXparams} {A A' : Finset ℕ} {K K' : ℕ → Bool} {m m' : Mem} {D : ADisk}
  {L L' : LogSt} {ams ams' : MemState} {i j a off : ℕ} {v : Valu} {S X : Set ℕ} {T : Set Mem}

/-! ### A file on all disks below the pending transactions -/

/-- The disk has the file of `m`, in the same blocks, and only the blocks in `X` may not be synced. -/
structure Held (fsxp : FsXparams) (i : ℕ) (X : Set ℕ) (m : Mem) (D : ADisk) : Prop where
  file : BFILE.file fsxp D.cur i = BFILE.file fsxp m i
  blocks : BFILE.blocks fsxp D.cur i = BFILE.blocks fsxp m i
  synced : ∀ a ∈ BFILE.blocks fsxp m i, a ∉ X → D.SyncedAt a

/-- The blocks that have been written past the log are among these; a transaction takes none of them
away. -/
structure Tracks (fsxp : FsXparams) (i : ℕ) (X : MemState → Set ℕ) : Prop where
  moves {S : Set ℕ} {m m' : Mem} {ams ams' : MemState} (hmv : BFILE.Moves fsxp S m ams m' ams') :
    ∀ a ∈ BFILE.blocks fsxp m' i, a ∉ X ams' → a ∉ X ams
  sync (j : ℕ) (ams : MemState) : ∀ a ∉ X { ams with msDBlocks := BFILE.clearDirty j ams.msDBlocks },
    a ∉ X ams ∨ a ∈ BFILE.getDirty j ams.msDBlocks
  alloc (ams : MemState) : X { ams with msAlloc := !ams.msAlloc } = X ams

theorem tracks_none (fsxp : FsXparams) (i : ℕ) : Tracks fsxp i fun _ => ∅ :=
  ⟨fun _ _ _ => id, fun _ _ _ => .inl, fun _ => rfl⟩

/-- The dirty blocks of a file. -/
def dirtyOf (i : ℕ) (ams : MemState) : Set ℕ := {a | a ∈ BFILE.getDirty i ams.msDBlocks}

theorem tracks_dirtyOf (hi : i < INODE.ninodes fsxp.inode) : Tracks fsxp i (dirtyOf i) where
  moves hmv a ha hd := (hmv.dirty i hi a ha hd).2
  sync j ams a hd := by
    change a ∉ BFILE.getDirty i (BFILE.clearDirty j ams.msDBlocks) at hd
    rw [BFILE.getDirty_clearDirty] at hd
    split_ifs at hd with hij
    · rw [← hij]
      exact (Classical.em (a ∈ BFILE.getDirty i ams.msDBlocks)).symm
    · exact .inl hd
  alloc _ := rfl

theorem Held.value (h : Held fsxp i X m D) : ∀ a ∈ BFILE.blocks fsxp m i, D.cur a = m a := by
  have hdata : (BFILE.blocks fsxp D.cur i).map D.cur = (BFILE.blocks fsxp m i).map m :=
    congrArg BFILE.BFile.data h.file
  rw [h.blocks] at hdata
  exact List.map_inj_left.1 hdata

theorem Held.mono {X' : Set ℕ} (h : Held fsxp i X m D)
    (hX : ∀ a ∈ BFILE.blocks fsxp m i, a ∉ X' → a ∉ X) : Held fsxp i X' m D :=
  ⟨h.file, h.blocks, fun a ha hd => h.synced a ha (hX a ha hd)⟩

/-- The file has not changed. -/
theorem Held.of_same (h : Held fsxp i X m D) (hf : BFILE.file fsxp m' i = BFILE.file fsxp m i)
    (hb : BFILE.blocks fsxp m' i = BFILE.blocks fsxp m i) : Held fsxp i X m' D :=
  ⟨h.file.trans hf.symm, h.blocks.trans hb.symm, fun a ha => h.synced a (hb ▸ ha)⟩

theorem Held.sync {Y : Set ℕ} (h : Held fsxp i X m D) :
    Held fsxp i (X \ Y) m (D.sync Y) := by
  refine ⟨h.file, h.blocks, fun a ha hd => ?_⟩
  by_cases hY : a ∈ Y
  · exact ADisk.syncedAt_sync hY
  · exact (h.synced a ha fun hX => hd ⟨hX, hY⟩).sync

section

variable (h : Ok n fsxp A K L ams) (hx : fsxp.Ok n) (hi : i < INODE.ninodes fsxp.inode)

include h hx hi

/-- A write past the log to a block of some file is a write to the same file on the older disks. -/
theorem Held.write (hD : Past n fsxp D L.disk.cur ams) (hh : Held fsxp i X L.disk.cur D) (hj : j ∈ A)
    (ha : a ∈ BFILE.blocks fsxp L.disk.cur j) (v : Valu) :
    BFILE.file fsxp (D.write a v).cur i =
        BFILE.file fsxp (Function.update L.disk.cur a v) i ∧
      BFILE.blocks fsxp (D.write a v).cur i =
        BFILE.blocks fsxp (Function.update L.disk.cur a v) i ∧
      BFILE.blocks fsxp (Function.update L.disk.cur a v) i = BFILE.blocks fsxp L.disk.cur i := by
  have hjlt := h.tree.lt hj
  obtain ⟨hr, -, hb⟩ := hD.older.layout_write h.tree.inv hjlt ha hi hx v
  obtain ⟨hr', -, hb'⟩ := (h.tree.inv.older ams).layout_write h.tree.inv hjlt ha hi hx v
  have hattr : INODE.attrs fsxp.inode i D.cur = INODE.attrs fsxp.inode i L.disk.cur :=
    congrArg BFILE.BFile.attr hh.file
  have hval : ∀ b ∈ BFILE.blocks fsxp L.disk.cur i,
      Function.update D.cur a v b = Function.update L.disk.cur a v b := by
    intro b hb
    rcases eq_or_ne b a with rfl | hne
    · rw [Function.update_self, Function.update_self]
    · rw [Function.update_of_ne hne, Function.update_of_ne hne, hh.value b hb]
  refine ⟨?_, (hb.trans hh.blocks).trans hb'.symm, hb'⟩
  change BFILE.file fsxp (Function.update D.cur a v) i = _
  rw [BFILE.file, hb, hh.blocks, List.map_congr_left hval, BFILE.file, hb', INODE.attrs, hr, INODE.attrs,
    hr']
  exact congrArg (BFILE.BFile.mk _) hattr

/-- A call that leaves the file alone, on all disks below the pending transactions. -/
theorem Effect.held {X : MemState → Set ℕ} (hX : Tracks fsxp i X)
    (he : Effect n fsxp A K L ams A' K' L' ams') (hs : Settled n fsxp T L ams)
    (hh : L.Every (Held fsxp i (X ams) L.disk.cur))
    (hf : BFILE.file fsxp L'.disk.cur i = BFILE.file fsxp L.disk.cur i)
    (hb : BFILE.blocks fsxp L'.disk.cur i = BFILE.blocks fsxp L.disk.cur i) :
    L'.Every (Held fsxp i (X ams') L'.disk.cur) := by
  have hmoves : ∀ {S : Set ℕ} {m' : Mem}, BFILE.Moves fsxp S L.disk.cur ams m' ams' →
      BFILE.blocks fsxp m' i = BFILE.blocks fsxp L.disk.cur i →
      L.Every (Held fsxp i (X ams') L.disk.cur) := fun hmv hb =>
    hh.mono fun D hD => hD.mono fun a ha => hX.moves hmv a (hb.symm ▸ ha)
  cases he with
  | idle hL hinv hmv =>
    rw [hL.disk]
    exact (hmoves hmv rfl).flushed hL
  | @logged _ _ _ t _ _ hL ht hinv hmv hK =>
    rw [hL.disk] at hf hb ⊢
    have hold := (hmoves hmv hb).mono fun D hD => hD.of_same hf hb
    refine LogSt.Every.flushed (hold.push ⟨rfl, rfl, fun a ha hd => ?_⟩) hL
    rw [LogSt.disk_push]
    exact (hold.disk.synced a ha hd).install t
  | @direct j a v c hj hKj ha hinv hmv =>
    have hcur : (L.dwrite a v).disk.cur = Function.update L.disk.cur a v := by
      rw [LogSt.disk_dwrite]
      rfl
    have hboth := LogSt.Every.and hs (hmoves hmv hb)
    refine LogSt.Every.dwrite hboth fun D ⟨⟨hD, _⟩, hheld⟩ => ?_
    obtain ⟨hf', hb', -⟩ := hheld.write h hx hi hD hj ha v
    rw [hcur] at hf hb ⊢
    refine ⟨hf', hb', fun b hmem hd => ?_⟩
    have hsync := hheld.synced b (hb ▸ hmem) hd
    rcases eq_or_ne b a with rfl | hne
    · -- the block belongs to the file, which has not changed: the same value is written again
      have hv : D.cur b = v := by
        have hsame := (hheld.of_same hf hb).value b hmem
        rwa [Function.update_self] at hsame
      intro x hx
      change x = Function.update D.cur b v b
      rw [Function.update_self]
      change x ∈ Function.update D.poss b (insert v (D.poss b)) b at hx
      rw [Function.update_self] at hx
      exact hx.elim id fun hx => (hsync x hx).trans hv
    · exact (ADisk.sameAt_write hne).syncedAt hsync
  | synced j =>
    rw [LogSt.disk_dsyncVecs_cur]
    refine LogSt.Every.sync hh fun D hD => hD.sync.mono fun a _ hd hmem => ?_
    rcases hX.sync j ams a hd with hd | hd
    · exact hd hmem.1
    · exact hmem.2 (Std.ExtTreeSet.mem_toList.2 hd)
  | flushed =>
    rw [hX.alloc]
    exact LogSt.every_of_pend rfl hh.disk
  | unmounted =>
    rw [hX.alloc, LogSt.disk_syncCache_cur]
    exact LogSt.every_of_pend rfl ⟨congrArg (BFILE.file fsxp · i) L.flushall.disk_syncCache_cur,
      congrArg (BFILE.blocks fsxp · i) L.flushall.disk_syncCache_cur,
      fun a _ _ => L.flushall.syncedAt_syncCache a⟩

/-- A write past the log to the file itself makes the block dirty. -/
theorem held_updateFblockD (hiA : i ∈ A) (hK : K i = false)
    (ho : off < (BFILE.blocks fsxp L.disk.cur i).length) (v : Valu) {xp : LogXparams}
    (hs : Settled n fsxp T L ams) (hh : L.Every (Held fsxp i (dirtyOf i ams) L.disk.cur)) :
    (LogProg.run xp (updateFblockD fsxp i off v ams) L).2.Every
      (Held fsxp i (dirtyOf i (LogProg.run xp (updateFblockD fsxp i off v ams) L).1)
        (LogProg.run xp (updateFblockD fsxp i off v ams) L).2.disk.cur) := by
  have hwp : LogProg.wp n xp (updateFblockD fsxp i off v ams)
      (fun ams' L' => L'.Every (Held fsxp i (dirtyOf i ams') L'.disk.cur))
      (crashIn fun _ _ => True) L := by
    apply wp_updateFblockD hx h.txn h.tree hiA hK ho trivial
    intro a c ha _ hmv _
    have hmem : a ∈ BFILE.blocks fsxp L.disk.cur i := ha ▸ List.getElem_mem ho
    have hcur : (L.dwrite a v).disk.cur = Function.update L.disk.cur a v := by
      rw [LogSt.disk_dwrite]
      rfl
    have hdirty : a ∈ dirtyOf i (dwritten i a c ams) := by
      change a ∈ BFILE.getDirty i (BFILE.putDirty i a ams.msDBlocks)
      rw [BFILE.getDirty_putDirty, if_pos rfl]
      exact Std.ExtTreeSet.mem_insert_self
    refine ⟨trivial, LogSt.Every.dwrite (LogSt.Every.and hs hh) fun D ⟨⟨hD, _⟩, hheld⟩ => ?_⟩
    obtain ⟨hf', hb', -⟩ := hheld.write h hx hi hD hiA hmem v
    rw [hcur]
    refine ⟨hf', hb', fun b hb hd => ?_⟩
    have hne : b ≠ a := fun e => hd (e ▸ hdirty)
    obtain ⟨hb, hd⟩ := hmv.dirty i hi b hb hd
    exact (ADisk.sameAt_write hne).syncedAt (hheld.synced b hb hd)
  exact LogProg.wp_run hwp

end

/-- A crash leaves a file when all its blocks are synced. -/
theorem Past.file_crash {d : Mem} (hx : fsxp.Ok n) (hD : Past n fsxp D m ams)
    (hi : i < INODE.ninodes fsxp.inode) (hd : ∀ a < n, D.SyncedAt a → d a = D.cur a)
    (hs : ∀ a ∈ BFILE.blocks fsxp D.cur i, D.SyncedAt a) :
    BFILE.file fsxp d i = BFILE.file fsxp D.cur i := by
  obtain ⟨A, K, htree⟩ := hD.tree
  have hagree : ∀ a ∈ metaBlocks n fsxp D.cur, d a = D.cur a :=
    fun a ha => hd a (htree.lt_of_mem_metaBlocks hx ha) (hD.synced a ha)
  have hdata : ∀ a ∈ BFILE.blocks fsxp D.cur i, d a = D.cur a :=
    fun a ha => hd a (htree.inv.inv.block_lt hx hi a ha).2 (hs a ha)
  rw [BFILE.file, (layout_of_agree hx htree hagree hi).2, List.map_congr_left hdata, INODE.attrs,
    irec_of_agree hx hagree hi]
  rfl

theorem Held.crash {xp : LogXparams} {d : Mem} (hx : fsxp.Ok (MLog.dataSize xp))
    (hi : i < INODE.ninodes fsxp.inode) (hs : Settled (MLog.dataSize xp) fsxp T L ams)
    (hh : L.Every (Held fsxp i ∅ m)) (hd : d ∈ L.crashes xp) :
    BFILE.file fsxp d i = BFILE.file fsxp m i := by
  obtain ⟨k, hk, hd⟩ := L.exists_of_crashes hd
  have hheld := hh k hk
  refine ((hs k hk).1.file_crash hx hi hd fun a ha => ?_).trans hheld.file
  exact hheld.synced a (hheld.blocks ▸ ha) (Set.notMem_empty a)

/-! ### Moments of a life -/

/-- The disks between two calls since the last sync, the state of the log, and the caches. -/
structure Moment where
  disks : Set Mem
  log : LogSt
  ams : MemState

section

variable [Platform] (g : Geometry)

/-- After a call. -/
def Moment.after (s : Moment) (c : Call) : Moment :=
  let r := LogProg.run g.fsxp.log (c.exec g.fsxp s.ams) s.log
  ⟨c.committed s.disks r.2.disk.cur, r.2, r.1.1⟩

theorem Moment.after_of_run {s : Moment} {c : Call} {ams' : MemState} {r : Res Unit} {L' : LogSt}
    (h : LogProg.run g.fsxp.log (c.exec g.fsxp s.ams) s.log = ((ams', r), L')) :
    s.after g c = ⟨c.committed s.disks L'.disk.cur, L', ams'⟩ := by
  rw [Moment.after, h]

/-- The call does no harm at the moment. -/
def Moment.Harmless (s : Moment) (c : Call) : Prop :=
  HarmlessCall g.fsxp s.log s.ams c (LogProg.run g.fsxp.log (c.exec g.fsxp s.ams) s.log).1.2

/-- The disks that are left when the machine crashes in the middle of the call. -/
def Moment.CrashesTo (s : Moment) (c : Call) (d : Mem) : Prop :=
  ∃ M, Exec (LogProg.sem g.dataSize g.fsxp.log) s.log (c.exec g.fsxp s.ams) (.crashed M) ∧
    d ∈ M.crashes g.fsxp.log

/-- A moment in the life of a file system. -/
abbrev Moment.Lives (s : Moment) : Prop := Life g s.disks s.log s.ams

/-- The moments that calls lead to which do no harm and are allowed by `P`. -/
inductive Later (P : Call → Moment → Prop) (s : Moment) : Moment → Prop
  | refl : Later P s s
  | call {s' : Moment} {c : Call} (h : Later P s s') (hc : s'.Harmless g c) (hP : P c s') :
      Later P s (s'.after g c)

/-- A call on another file, or on a directory, after which the file is still in the tree. -/
def SparesFile (i : ℕ) (c : Call) (s : Moment) : Prop :=
  c.target ≠ some i ∧ InTree g.fsxp (s.after g c).log.disk.cur i false

/-- The call may also write a block of the file past the log. -/
def OverwritesFile (i : ℕ) (c : Call) (s : Moment) : Prop :=
  SparesFile g i c s ∨ ∃ off v, c = .updateFblockD i off v

end

section

variable [Platform] {g : Geometry} {c : Call} {s s₀ s' : Moment} {P : Call → Moment → Prop} {d : Mem}

theorem Moment.Lives.after (h : s.Lives g) (hc : s.Harmless g c) : (s.after g c).Lives g :=
  .call h rfl hc

theorem Later.lives (h : Later g P s s') (hs : s.Lives g) : s'.Lives g := by
  induction h with
  | refl => exact hs
  | call _ hc _ ih => exact ih.after hc

theorem Later.mono {P' : Call → Moment → Prop} (h : Later g P s s') (hP : ∀ c s, P c s → P' c s) :
    Later g P' s s' := by
  induction h with
  | refl => exact .refl
  | call _ hc hPc ih => exact ih.call hc (hP _ _ hPc)

theorem Later.trans {s₁ : Moment} (h : Later g P s s₁) (h' : Later g P s₁ s') : Later g P s s' := by
  induction h' with
  | refl => exact h
  | call _ hc hP ih => exact ih.call hc hP

theorem Moment.Lives.ok (h : s.Lives g) : ∃ A K, Ok g.dataSize g.fsxp A K s.log s.ams := h.sound.ok

theorem Moment.cur_treeSync (g : Geometry) (s : Moment) :
    (s.after g .treeSync).log.disk.cur = s.log.disk.cur := rfl

theorem Moment.cur_fileSync (g : Geometry) (s : Moment) (i : ℕ) :
    (s.after g (.fileSync i)).log.disk.cur = s.log.disk.cur := s.log.disk_dsyncVecs_cur _

/-- A crash leaves a disk of before the call, or one of after it. -/
theorem Moment.CrashesTo.mem (h : s.CrashesTo g c d) :
    d ∈ s.log.crashes g.fsxp.log ∨ d ∈ (s.after g c).log.crashes g.fsxp.log := by
  obtain ⟨M, hM, hd⟩ := h
  exact c.atomic s.ams s.log M hM hd

theorem Moment.disks_after {m : Mem} (hm : m ∈ (s.after g c).disks) :
    m = (s.after g c).log.disk.cur ∨ m ∈ s.disks := by
  change m ∈ c.committed s.disks (s.after g c).log.disk.cur at hm
  rw [Call.committed] at hm
  split_ifs at hm
  · exact .inl hm
  · exact hm

/-- The file is in all trees that a crash can leave, and the same one on all disks below the pending
transactions. -/
structure Moment.Keeps (g : Geometry) (i : ℕ) (X : MemState → Set ℕ) (s : Moment) : Prop where
  lives : s.Lives g
  inTree : InTree g.fsxp s.log.disk.cur i false
  disks : ∀ m ∈ s.disks, InTree g.fsxp m i false
  held : s.log.Every (Held g.fsxp i (X s.ams) s.log.disk.cur)

variable {X : MemState → Set ℕ}

theorem Moment.Keeps.lt (h : s.Keeps g i X) : i < INODE.ninodes g.fsxp.inode := by
  obtain ⟨A, K, hok⟩ := h.lives.ok
  exact hok.lt h.inTree

/-- A sync of everything leaves one disk, whose blocks are synced or dirty. -/
theorem Moment.Lives.keeps (h : s.Lives g) (hi : InTree g.fsxp s.log.disk.cur i false)
    (hX : ∀ a ∉ X (s.after g .treeSync).ams, a ∉ BFILE.getDirty i s.ams.msDBlocks) :
    (s.after g .treeSync).Keeps g i X := by
  obtain ⟨A, K, hok⟩ := h.ok
  refine ⟨h.after (.inl ⟨trivial, trivial⟩), hi, ?_, ?_⟩
  · rintro m rfl
    exact hi
  · exact LogSt.every_of_pend rfl ⟨rfl, rfl, fun a ha hd => hok.dirty i (hok.lt hi) a ha (hX a hd)⟩

/-- A call that spares the file. -/
theorem Moment.Keeps.spares (h : s.Keeps g i X) (hX : Tracks g.fsxp i X) (hc : s.Harmless g c)
    (hsp : SparesFile g i c s) : (s.after g c).Keeps g i X ∧
      BFILE.file g.fsxp (s.after g c).log.disk.cur i = BFILE.file g.fsxp s.log.disk.cur i := by
  have hsound := h.lives.sound
  obtain ⟨A, K, hok⟩ := hsound.ok
  obtain ⟨A', K', heff⟩ := effect_of_harmless hok hsound.log rfl hc
  obtain ⟨ht, hin⟩ := hsp
  obtain ⟨hf, hb⟩ := spares_of_run hok hsound.log hc h.inTree ht hin
  refine ⟨⟨h.lives.after hc, hin, fun m hm => ?_, ?_⟩, hf⟩
  · rcases Moment.disks_after hm with rfl | hm
    · exact hin
    · exact h.disks m hm
  · exact heff.held hok g.ok h.lt hX hsound.settled h.held hf hb

/-- A write to the file past the log. -/
theorem Moment.Keeps.overwrites (h : s.Keeps g i (dirtyOf i)) {v : Valu}
    (hc : s.Harmless g (.updateFblockD i off v)) :
    (s.after g (.updateFblockD i off v)).Keeps g i (dirtyOf i) := by
  have hsound := h.lives.sound
  obtain ⟨A, K, hok⟩ := hsound.ok
  obtain ⟨hi, ho⟩ := hc.valid
  obtain ⟨hi, hK⟩ := hok.inTree_iff.1 hi
  have heff := LogProg.wp_run (wp_updateFblockD_effect hok g.ok hi hK ho :
    LogProg.wp g.dataSize g.fsxp.log (updateFblockD g.fsxp i off v s.ams) _ _ s.log)
  have hin : InTree g.fsxp (s.after g (.updateFblockD i off v)).log.disk.cur i false :=
    (heff.ok hok).inTree_iff.2 ⟨hi, hK⟩
  refine ⟨h.lives.after hc, hin, fun m hm => ?_, ?_⟩
  · rcases Moment.disks_after hm with rfl | hm
    · exact hin
    · exact h.disks m hm
  · exact held_updateFblockD hok g.ok h.lt hi hK ho v hsound.settled h.held

/-- All blocks of the file are synced by `fileSync`. -/
theorem Moment.Keeps.fileSync (h : s.Keeps g i (dirtyOf i)) :
    (s.after g (.fileSync i)).Keeps g i (fun _ => ∅) ∧
      BFILE.file g.fsxp (s.after g (.fileSync i)).log.disk.cur i =
        BFILE.file g.fsxp s.log.disk.cur i := by
  have hin := h.inTree
  rw [← s.cur_fileSync g i] at hin
  obtain ⟨h', hf⟩ := h.spares (tracks_dirtyOf h.lt) (c := .fileSync i) (.inl ⟨trivial, trivial⟩)
    ⟨nofun, hin⟩
  refine ⟨⟨h'.lives, h'.inTree, h'.disks, h'.held.mono fun D hD => hD.mono fun a _ _ hd => ?_⟩, hf⟩
  change a ∈ BFILE.getDirty i (BFILE.clearDirty i s.ams.msDBlocks) at hd
  rw [BFILE.getDirty_clearDirty, if_pos rfl] at hd
  exact Std.ExtTreeSet.not_mem_empty hd

/-- Calls that spare the file. -/
theorem Later.keeps (h : Later g (SparesFile g i) s₀ s) (hX : Tracks g.fsxp i X)
    (h₀ : s₀.Keeps g i X) : s.Keeps g i X ∧
      BFILE.file g.fsxp s.log.disk.cur i = BFILE.file g.fsxp s₀.log.disk.cur i := by
  induction h with
  | refl => exact ⟨h₀, rfl⟩
  | call _ hc hsp ih =>
    obtain ⟨hk, hf⟩ := ih.1.spares hX hc hsp
    exact ⟨hk, hf.trans ih.2⟩

theorem Later.overwrites (h : Later g (OverwritesFile g i) s₀ s) (h₀ : s₀.Keeps g i (dirtyOf i)) :
    s.Keeps g i (dirtyOf i) := by
  induction h with
  | refl => exact h₀
  | call _ hc hP ih =>
    rcases hP with hsp | ⟨off, v, rfl⟩
    · exact (ih.spares (tracks_dirtyOf ih.lt) hc hsp).1
    · exact ih.overwrites hc

/-- The disks since a sync of everything are those of the moments since then. -/
theorem Later.disks (h : Later g P s₀ s) (h₀ : s₀.disks = {s₀.log.disk.cur}) {m : Mem}
    (hm : m ∈ s.disks) : ∃ s₁, Later g P s₀ s₁ ∧ s₁.log.disk.cur = m := by
  induction h with
  | refl =>
    rw [h₀] at hm
    exact ⟨s₀, .refl, hm.symm⟩
  | call h hc hP ih =>
    rcases Moment.disks_after hm with rfl | hm
    · exact ⟨_, h.call hc hP, rfl⟩
    · exact ih hm

theorem Moment.Keeps.crash (h : s.Keeps g i (fun _ => ∅)) (hd : d ∈ s.log.crashes g.fsxp.log) :
    BFILE.file g.fsxp d i = BFILE.file g.fsxp s.log.disk.cur i ∧ InTree g.fsxp d i false ∧
      ∃ m ∈ s.disks, SameTree g.fsxp m d := by
  have hs := h.lives.sound.settled
  obtain ⟨-, m, hm, hsame⟩ := hs.crash g.ok hd
  exact ⟨Held.crash g.ok h.lt hs h.held hd, (hsame.inTree i false).2 (h.disks m hm), m, hm, hsame⟩

/-- Once the file is synced and spared, a crash leaves it. -/
theorem Later.crash (h : Later g (SparesFile g i) s₀ s) (h₀ : s₀.Keeps g i (fun _ => ∅))
    (hc : s.Harmless g c) (hsp : SparesFile g i c s) (hd : s.CrashesTo g c d) :
    ∃ s₁, Later g (SparesFile g i) s₀ s₁ ∧
      BFILE.file g.fsxp d i = BFILE.file g.fsxp s₀.log.disk.cur i ∧ InTree g.fsxp d i false ∧
      ∃ m ∈ s₁.disks, SameTree g.fsxp m d := by
  obtain ⟨s₁, h₁, hd⟩ : ∃ s₁, Later g (SparesFile g i) s₀ s₁ ∧ d ∈ s₁.log.crashes g.fsxp.log := by
    rcases hd.mem with hd | hd
    · exact ⟨s, h, hd⟩
    · exact ⟨_, h.call hc hsp, hd⟩
  obtain ⟨hk, hf⟩ := h₁.keeps (tracks_none g.fsxp i) h₀
  obtain ⟨hf', hcrash⟩ := hk.crash hd
  exact ⟨s₁, h₁, hf'.trans hf, hcrash⟩

/-! ### Durability -/

/-- After `fileSync` and `treeSync`, and any calls on other files and directories that leave the file
in the tree, a crash leaves the file with the contents and attributes that it had at the sync, in the
tree of a moment since the sync. -/
theorem fsync_durable (h : s.Lives g) (hi : InTree g.fsxp s.log.disk.cur i false)
    (hl : Later g (SparesFile g i) ((s.after g (.fileSync i)).after g .treeSync) s')
    (hc : s'.Harmless g c) (hsp : SparesFile g i c s') (hd : s'.CrashesTo g c d) :
    InTree g.fsxp d i false ∧ BFILE.file g.fsxp d i = BFILE.file g.fsxp s.log.disk.cur i ∧
      ∃ s₁, Later g (SparesFile g i) ((s.after g (.fileSync i)).after g .treeSync) s₁ ∧
        SameTree g.fsxp s₁.log.disk.cur d := by
  have hin := hi
  rw [← s.cur_fileSync g i] at hin
  have hkeeps := Moment.Lives.keeps (X := fun _ => ∅)
    (Moment.Lives.after h (c := .fileSync i) (.inl ⟨trivial, trivial⟩)) hin fun a _ hd => by
      change a ∈ BFILE.getDirty i (BFILE.clearDirty i s.ams.msDBlocks) at hd
      rw [BFILE.getDirty_clearDirty, if_pos rfl] at hd
      exact Std.ExtTreeSet.not_mem_empty hd
  obtain ⟨s₁, h₁, hf, hind, m, hm, hsame⟩ := hl.crash hkeeps hc hsp hd
  obtain ⟨s₂, h₂, rfl⟩ := h₁.disks rfl hm
  refine ⟨hind, ?_, s₂, h₂, hsame⟩
  rw [hf, Moment.cur_treeSync, Moment.cur_fileSync]

/-- When the tree has been synced, and the file has only been written past the log since then,
`fileSync` is enough: a crash leaves the file with the contents and attributes that it had at the
sync. -/
theorem fdatasync_durable {s₁ : Moment} (h : s.Lives g) (hi : InTree g.fsxp s.log.disk.cur i false)
    (hover : Later g (OverwritesFile g i) (s.after g .treeSync) s₁)
    (hl : Later g (SparesFile g i) (s₁.after g (.fileSync i)) s')
    (hc : s'.Harmless g c) (hsp : SparesFile g i c s') (hd : s'.CrashesTo g c d) :
    InTree g.fsxp d i false ∧ BFILE.file g.fsxp d i = BFILE.file g.fsxp s₁.log.disk.cur i := by
  have hkeeps := Moment.Lives.keeps (X := dirtyOf i) h hi fun _ => id
  obtain ⟨hsynced, hf⟩ := (hover.overwrites hkeeps).fileSync
  obtain ⟨-, -, hf', hind, -⟩ := hl.crash hsynced hc hsp hd
  exact ⟨hind, hf'.trans hf⟩

end

end AFS

namespace Sample

open AFS

local instance durablePlatform : Platform := platform

/-- A file with one block, at some moment. -/
theorem exists_moment : ∃ (s : Moment) (i : ℕ), s.Lives geometry ∧
    OneFile s.log s.ams i ⟨[0], INODE.iattr0⟩ := by
  obtain ⟨L, ams, i, hreach, hone⟩ := exists_block
  obtain ⟨T, hlife⟩ := hreach.life
  exact ⟨⟨T, L, ams⟩, i, hlife, hone⟩

/-- The machine may crash before a sync of everything. -/
theorem exists_crash {s : Moment} (h : s.Lives geometry) : ∃ d, s.CrashesTo geometry .treeSync d :=
  ⟨_, s.log, .bindCrash (.bindCrash (.crash s.log trivial)),
    LogSt.cur_mem_crashes (LogSt.latest_disk (Life.latest h)) geometry.fsxp.log⟩

section

variable {s : Moment} {i : ℕ} {f : BFILE.BFile} (h : OneFile s.log s.ams i f)

include h

theorem OneFile.fileSync : OneFile (s.after geometry (.fileSync i)).log
    (s.after geometry (.fileSync i)).ams i f := by
  obtain ⟨K, hok, hK⟩ := h.ok
  have heff := LogProg.wp_run (wp_fileSync_effect hok :
    LogProg.wp geometry.dataSize geometry.fsxp.log (AFS.fileSync i s.ams) _ _ s.log)
  refine ⟨⟨K, heff.ok hok, hK⟩, h.ne, ?_, ?_⟩
  · rw [Moment.cur_fileSync, h.dents]
  · rw [Moment.cur_fileSync, h.file]

theorem OneFile.treeSync : OneFile (s.after geometry .treeSync).log
    (s.after geometry .treeSync).ams i f := by
  obtain ⟨K, hok, hK⟩ := h.ok
  refine ⟨⟨K, Effect.flushed.ok hok, hK⟩, h.ne, ?_, ?_⟩
  · rw [Moment.cur_treeSync, h.dents]
  · rw [Moment.cur_treeSync, h.file]

/-- A second file is created, and its transaction is pending. -/
theorem OneFile.pending : s.Harmless geometry (.create 1 [98]) ∧ SparesFile geometry i (.create 1 [98]) s ∧
      (s.after geometry (.create 1 [98])).log.pend ≠ [] := by
  obtain ⟨ams', j, L', hrun, hin⟩ := h.exists_second
  have hafter : s.after geometry (.create 1 [98]) = _ :=
    Moment.after_of_run geometry (run_create hrun)
  rw [SparesFile, hafter]
  exact ⟨.inl ⟨.root, trivial⟩, ⟨nofun, hin⟩, pend_transact rfl hrun⟩

end

/-- Another file is created after the syncs, and its transaction is pending when the machine
crashes. -/
theorem fsync_durable_pending : ∃ (s s₁ s' : Moment) (i : ℕ) (d : Mem), s.Lives geometry ∧
    s₁ = (s.after geometry (.fileSync i)).after geometry .treeSync ∧
    s' = s₁.after geometry (.create 1 [98]) ∧ s'.log.pend ≠ [] ∧
    s'.CrashesTo geometry .treeSync d ∧ InTree geometry.fsxp d i false ∧
    BFILE.file geometry.fsxp d i = BFILE.file geometry.fsxp s.log.disk.cur i ∧
    ∃ s₂, Later geometry (SparesFile geometry i) s₁ s₂ ∧
      SameTree geometry.fsxp s₂.log.disk.cur d := by
  obtain ⟨s, i, hlife, hone⟩ := exists_moment
  have hlife₁ := (hlife.after (c := .fileSync i) (.inl ⟨trivial, trivial⟩)).after (c := .treeSync)
    (.inl ⟨trivial, trivial⟩)
  obtain ⟨hharm, hsp, hpend⟩ := hone.fileSync.treeSync.pending
  have h := fun s' d (hl : Later geometry _ _ s') => fsync_durable (d := d) hlife hone.inTree hl
    (c := .treeSync) (.inl ⟨trivial, trivial⟩)
  generalize hs₁ : (s.after geometry (.fileSync i)).after geometry .treeSync = s₁ at *
  obtain ⟨d, hd⟩ := exists_crash (hlife₁.after hharm)
  refine ⟨s, s₁, _, i, d, hlife, hs₁.symm, rfl, hpend, hd, h _ d (.call .refl hharm hsp) ?_ hd⟩
  refine ⟨nofun, ?_⟩
  rw [Moment.cur_treeSync]
  exact hsp.2

/-- The block of the file is written past the log before the sync. -/
theorem fdatasync_durable_block : ∃ (s s₁ : Moment) (i : ℕ) (d : Mem), s.Lives geometry ∧
    s₁ = (s.after geometry .treeSync).after geometry (.updateFblockD i 0 1) ∧
    (s₁.after geometry (.fileSync i)).CrashesTo geometry .treeSync d ∧
    InTree geometry.fsxp d i false ∧
    BFILE.file geometry.fsxp d i = BFILE.file geometry.fsxp s₁.log.disk.cur i := by
  obtain ⟨s, i, hlife, hone⟩ := exists_moment
  have hi := hone.inTree
  have hkeeps := Moment.Lives.keeps (X := dirtyOf i) hlife hi fun _ => id
  have hharm : (s.after geometry .treeSync).Harmless geometry (.updateFblockD i 0 1) := by
    refine .inl ⟨⟨hi, ?_⟩, trivial⟩
    change 0 < (BFILE.blocks geometry.fsxp s.log.disk.cur i).length
    rw [hone.length_blocks]
    exact Nat.one_pos
  obtain ⟨hsynced, -⟩ := (hkeeps.overwrites hharm).fileSync
  obtain ⟨d, hd⟩ := exists_crash hsynced.lives
  have hover : Later geometry (OverwritesFile geometry i) (s.after geometry .treeSync)
      ((s.after geometry .treeSync).after geometry (.updateFblockD i 0 1)) :=
    .call .refl hharm (.inr ⟨0, 1, rfl⟩)
  have hsp : SparesFile geometry i .treeSync
      (((s.after geometry .treeSync).after geometry (.updateFblockD i 0 1)).after geometry
        (.fileSync i)) := by
    refine ⟨nofun, ?_⟩
    rw [Moment.cur_treeSync]
    exact hsynced.inTree
  have h := fdatasync_durable hlife hi hover .refl (c := .treeSync) (.inl ⟨trivial, trivial⟩) hsp hd
  exact ⟨s, (s.after geometry .treeSync).after geometry (.updateFblockD i 0 1), i, d, hlife, rfl, hd, h⟩

end Sample

end Fscq
