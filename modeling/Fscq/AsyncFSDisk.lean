import Fscq.AsyncFSRun
import Fscq.LogRun

/-!
# The file system on the disk

What the calls hand to the log, and what is left on the disk by a machine that executes them.  Every
address that a call writes is in the data section and is not zero, so that the log can tell every
entry from the padding of its descriptor blocks.  A machine that executes such calls represents the
state that they lead to; after the file system has been unmounted, no crash leads to another disk.
-/

namespace Fscq

open CrashProg

open BFILE (MemState)

open PaddedLog (Contents EntryValid)

/-- The lists of entries that a flush may put into the log: all pending transactions in one, or each
on its own. -/
def GLog.handed (pend : List Contents) : List Contents := (GLog.collapse pend).toList :: pend

/-- The entries of a list are valid, and the log reads them back as they are. -/
def PaddedLog.ReadsBack (ents : Contents) : Prop :=
  (∀ e ∈ ents, EntryValid e) ∧
    PaddedLog.combineNonzero (PaddedLog.addrs (PaddedLog.descSig.nopadIpack
      (ents.map PaddedLog.entAddr))) (ents.map PaddedLog.entValu) = ents

theorem GLog.readsBack_handed {pend : List Contents} (h : ∀ t ∈ pend, ∀ e ∈ t, EntryValid e) :
    ∀ ents ∈ GLog.handed pend, PaddedLog.ReadsBack ents := by
  intro ents hents
  have hvalid : ∀ e ∈ ents, EntryValid e := by
    rcases List.mem_cons.1 hents with rfl | hents
    · rintro ⟨a, v⟩ he
      obtain ⟨t, ht, hmem⟩ := GLog.exists_of_collapse
        (Std.ExtTreeMap.mem_toList_iff_getElem?_eq_some.1 he)
      exact h t ht _ hmem
    · exact h ents hents
  exact ⟨hvalid, (PaddedLog.decodes_entries hvalid).eq⟩

namespace AFS

variable [Platform] {g : Geometry} {L L' : LogSt} {ams ams' : MemState}

/-! ### The addresses of a call -/

/-- All writes of a call go to the data section, and whenever the log may be flushed, its entries can
be read back. -/
theorem log_addresses_valid {c : Call}
    (h : Reach g (Call.exec g.fsxp) (CleanCall g.fsxp) L ams) (hv : c.Valid g.fsxp L.disk.cur)
    (hc : ∀ i sz, c ≠ .ftruncate i sz) :
    (∀ a ∈ LogProg.writes g.fsxp.log (c.exec g.fsxp ams) L,
      a ≠ 0 ∧ a < 2 ^ 64 ∧ g.fsxp.log.dataStart + a < g.fsxp.log.logHeader) ∧
    ∀ M, Exec (LogProg.sem g.dataSize g.fsxp.log) L (c.exec g.fsxp ams) (.crashed M) →
      ∀ ents ∈ GLog.handed M.pend, PaddedLog.ReadsBack ents := by
  obtain ⟨A, K, hok⟩ := reach_ok h
  have hwp := wp_call hok g.ok h.logLen_pos hv hc
  have hlt := g.dataSize_lt
  constructor
  · intro a ha
    obtain ⟨h0, hn⟩ := LogProg.writes_of_wp hwp a ha
    exact ⟨h0, hn.trans hlt, (MLog.home_lt g.layout hn).1⟩
  · intro M hM
    -- wherever the call is interrupted, what is pending is what some effect leaves pending
    obtain ⟨A', K', L', ams', heff, -, hpend⟩ := hwp _ hM
    apply GLog.readsBack_handed
    intro t ht e he
    rw [← hpend] at ht
    obtain ⟨h0, hn⟩ := (heff.ok hok).pend t ht e he
    exact ⟨h0, hn.trans hlt⟩

/-! ### Runs on the machine -/

/-- A sequence of calls. -/
def runCalls (fsxp : FsXparams) : List Call → MemState → LogProg MemState
  | [], ams => pure ams
  | c :: cs, ams => do
    let (ams, _) ← c.exec fsxp ams
    runCalls fsxp cs ams

/-- A sequence of calls, after which the file system is unmounted. -/
def session (fsxp : FsXparams) (cs : List Call) (ams : MemState) : LogProg MemState := do
  let ams ← runCalls fsxp cs ams
  umount ams

/-- No operation of the calls is outside of the data section. -/
def StaysInData (g : Geometry) (L : LogSt) (ams : MemState) (cs : List Call) : Prop :=
  ¬ Exec (LogProg.sem g.dataSize g.fsxp.log) L (runCalls g.fsxp cs ams) .failed

/-- The calls are on the tree, and roll back what they have done if they fail. -/
def CleanCalls (g : Geometry) : List Call → LogSt → MemState → Prop
  | [], _, _ => True
  | c :: cs, L, ams =>
    CleanCall g.fsxp L ams c (LogProg.run g.fsxp.log (c.exec g.fsxp ams) L).1.2 ∧
      CleanCalls g cs (LogProg.run g.fsxp.log (c.exec g.fsxp ams) L).2
        (LogProg.run g.fsxp.log (c.exec g.fsxp ams) L).1.1

/-- Such calls stay in the data section. -/
theorem staysInData_of_clean (hlog : 0 < g.fsxp.log.logLen) {A : Finset ℕ} {K : ℕ → Bool}
    {cs : List Call} (hok : Ok g.dataSize g.fsxp A K L ams) (hcs : CleanCalls g cs L ams) :
    StaysInData g L ams cs := by
  induction cs generalizing A K L ams with
  | nil => exact fun e => nomatch e
  | cons c cs ih =>
    obtain ⟨hclean, hcs⟩ := hcs
    have hne : ∀ i sz, c ≠ .ftruncate i sz := by
      rintro i sz rfl
      exact hclean.2
    have hwp := wp_call hok g.ok hlog hclean.1 hne
    intro e
    cases e with
    | bindFail e => exact hwp _ e
    | @bindFinish _ _ _ L₁ _ _ r _ e e' =>
      have hrun : LogProg.run g.fsxp.log (c.exec g.fsxp ams) L = (r, L₁) :=
        run_eq_of_exec (f := LogProg.apply g.fsxp.log) (fun _ _ _ _ => id) e
      rw [hrun] at hclean hcs
      obtain ⟨A', K', heff⟩ := hwp _ e hclean.2
      exact ih (heff.ok hok) hcs e'

omit [Platform] in
/-- Only the current values are on the disk after everything has been flushed and synced. -/
theorem crashes_unmounted (xp : LogXparams) (L : LogSt) :
    L.flushall.syncCache.crashes xp ⊆ {d | ∀ a < MLog.dataSize xp, d a = L.disk.cur a} := by
  rintro d ⟨k, -, hd⟩ a ha
  have hpend : L.flushall.syncCache.pend = [] := rfl
  rw [hpend, List.take_nil] at hd
  have hda := hd a
  rw [if_pos ha] at hda
  exact hda.2 (Set.mem_univ a)

/-- A session does not leave the data section either, and ends with everything flushed and synced. -/
theorem wp_session {cs : List Call} (hcs : StaysInData g L ams cs) :
    LogProg.wp g.dataSize g.fsxp.log (session g.fsxp cs ams) (fun _ _ => True) (fun _ => True) L := by
  have hwp : LogProg.wp g.dataSize g.fsxp.log (runCalls g.fsxp cs ams) (fun _ _ => True)
      (fun _ => True) L := by
    intro out e
    cases out with
    | failed => exact hcs e
    | finished => trivial
    | crashed => trivial
  exact wp_seq hwp fun _ _ _ => wp_umount (C := fun _ _ => True) trivial trivial trivial

/-- Once the file system is unmounted, a crash is recovered to the disk of that time: the tree and the
contents of all files are what they were. -/
theorem umount_durable {ms : LOG.MemState} {s : St} (k : ℕ)
    (hA : LOG.LState g.fsxp.maxBlock g.fsxp.log L ms s) {cs : List Call}
    (hcs : StaysInData g L ams cs) :
    ¬ Exec diskSem s (LogProg.compile g.fsxp.log (session g.fsxp cs ams) ms) .failed ∧
    ∀ s₁ r, Exec diskSem s (LogProg.compile g.fsxp.log (session g.fsxp cs ams) ms)
        (.finished s₁ r) →
      ∀ s₂ out, Reboot s₁ s₂ →
        ExecRecover diskSem Reboot s₂ (LOG.recoverBoot k g.fsxp.log) (LOG.recoverBoot k g.fsxp.log)
          out →
        out.Sat
          (LOG.LState g.fsxp.maxBlock g.fsxp.log
            (.ofDisk (LogProg.run g.fsxp.log (runCalls g.fsxp cs ams) L).2.disk.cur))
          (LOG.LState g.fsxp.maxBlock g.fsxp.log
            (.ofDisk (LogProg.run g.fsxp.log (runCalls g.fsxp cs ams) L).2.disk.cur)) := by
  have hwp := LogProg.wp_compile g.layout hA (wp_session hcs) (D := Set.univ)
    fun _ _ => Set.subset_univ _
  refine ⟨fun e => hwp _ e, ?_⟩
  intro s₁ r e s₂ out hr erec
  obtain ⟨-, hA₁⟩ := hwp _ e
  have hcrash := hA₁.crash g.layout (crashes_unmounted g.fsxp.log _)
  exact LOG.sat_of_crash k g.layout hcrash hr (fun d hd ms' s' h => LOG.lstate_ofDisk_congr h hd) erec

end AFS

namespace Sample

open AFS

local instance diskPlatform : Platform := platform

theorem log_addresses_valid_create : ∃ L ams,
    Reach geometry (Call.exec geometry.fsxp) (CleanCall geometry.fsxp) L ams ∧
    (∀ a ∈ LogProg.writes geometry.fsxp.log ((Call.create 1 [97]).exec geometry.fsxp ams) L,
      a ≠ 0 ∧ a < 2 ^ 64 ∧ geometry.fsxp.log.dataStart + a < geometry.fsxp.log.logHeader) ∧
    ∀ M, Exec (LogProg.sem geometry.dataSize geometry.fsxp.log) L
        ((Call.create 1 [97]).exec geometry.fsxp ams) (.crashed M) →
      ∀ ents ∈ GLog.handed M.pend, PaddedLog.ReadsBack ents := by
  obtain ⟨ams, L, hmk⟩ := exists_new fun _ => 0
  have hreach : Reach geometry (Call.exec geometry.fsxp) (CleanCall geometry.fsxp) L ams := .mkfs hmk
  have h := log_addresses_valid hreach (c := .create 1 [97]) .root fun _ _ hc => nomatch hc
  exact ⟨L, ams, hreach, h.1, h.2⟩

/-- A machine that has booted from the disk of a file system, with an empty log. -/
def mounted (f : Mem) : St :=
  ⟨fun a => if a < geometry.fsxp.maxBlock then
      some (if a = geometry.fsxp.log.logHeader then PaddedLog.Hdr.empty.encode else f (a - 1), [])
    else none, fun _ => none, .empty⟩

theorem lstate_mounted (f : Mem) : LOG.LState geometry.fsxp.maxBlock geometry.fsxp.log (.ofDisk f)
    ⟨∅, ⟨∅, [], ⟨∅, BufCache.cache0 10⟩⟩⟩ (mounted f) := by
  have hb : Booted geometry.fsxp.maxBlock
      (fun a => if a = geometry.fsxp.log.logHeader then PaddedLog.Hdr.empty.encode else f (a - 1))
      .empty (mounted f) := ⟨rfl, rfl⟩
  apply LOG.lstate_ofDisk_congr (LOG.lstate_of_booted 10 hb (if_pos rfl))
  intro a ha
  have hlt := (MLog.home_lt geometry.layout ha).1
  have hstart : geometry.fsxp.log.dataStart = 1 := rfl
  rw [if_neg hlt.ne, hstart, Nat.add_sub_cancel_left]

/-- A file system is made and mounted; a file is created in it, and the file system is unmounted. -/
theorem umount_durable_create : ∃ f ams,
    StaysInData geometry (.ofDisk f) ams [.create 1 [97]] ∧
    ∀ s₁ r, Exec diskSem (mounted f) (LogProg.compile geometry.fsxp.log
        (session geometry.fsxp [.create 1 [97]] ams) ⟨∅, ⟨∅, [], ⟨∅, BufCache.cache0 10⟩⟩⟩)
        (.finished s₁ r) →
      ∀ s₂ out, Reboot s₁ s₂ →
        ExecRecover diskSem Reboot s₂ (LOG.recoverBoot 10 geometry.fsxp.log)
          (LOG.recoverBoot 10 geometry.fsxp.log) out →
        out.Sat
          (LOG.LState geometry.fsxp.maxBlock geometry.fsxp.log (.ofDisk (LogProg.run
            geometry.fsxp.log (runCalls geometry.fsxp [.create 1 [97]] ams) (.ofDisk f)).2.disk.cur))
          (LOG.LState geometry.fsxp.maxBlock geometry.fsxp.log (.ofDisk (LogProg.run
            geometry.fsxp.log (runCalls geometry.fsxp [.create 1 [97]] ams)
              (.ofDisk f)).2.disk.cur)) := by
  obtain ⟨ams, L, hmk⟩ := exists_new fun _ => 0
  have hnew := new_of_mkfs hmk
  have hok : Ok geometry.dataSize geometry.fsxp _ _ (.ofDisk L.disk.cur) ams :=
    ⟨rfl, fun t ht => absurd ht List.not_mem_nil, hnew.tree, Function.update_self .., hnew.total,
      hnew.coh, hnew.tight, fun _ _ a _ _ => ADisk.syncedAt_synced L.disk.cur a⟩
  have hin : StaysInData geometry (.ofDisk L.disk.cur) ams [.create 1 [97]] :=
    staysInData_of_clean hnew.log hok ⟨⟨.root, trivial⟩, trivial⟩
  exact ⟨L.disk.cur, ams, hin, (umount_durable 10 (lstate_mounted L.disk.cur) hin).2⟩

end Sample

end Fscq
