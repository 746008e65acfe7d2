import Fscq.AsyncFSRecover

/-!
# Lives of the file system on the machine

What holds of the file system as the log sees it (`AFS.Life`) holds of a machine that executes the
calls on the disk, is rebooted whenever it crashes, and replays the log.
-/

namespace Fscq

open CrashProg

open BFILE (MemState)

namespace AFS

variable {n : ℕ} {fsxp : FsXparams} {xp : LogXparams} {A : Finset ℕ} {K : ℕ → Bool} {L : LogSt}
  {ams : MemState} {i : ℕ}

/-! ### Calls do not leave the data section -/

section

variable [Platform]

/-- A commit of a transaction that fits into the log succeeds. -/
theorem run_commit_answer {α : Type} {L₁ : LogSt} (h : L₁.txn.toList.length ≤ xp.logLen)
    (ams₁ : MemState) (v : α) :
    (LogProg.run xp (do
      let ok ← LogProg.commit
      if ok then pure (ams₁, .ok v) else pure (ams, .error .ELOGOVERFLOW) :
        LogProg (MemState × Res α)) L₁).1.2 = .ok v := by
  have hok : (L₁.commit xp).2 = true := by
    rw [LogSt.commit_snd, LogSt.submit, if_pos h]
  rw [LogProg.run_bind, LogProg.run_commit, hok]
  rfl

variable (h : Ok n fsxp A K L ams) (hx : fsxp.Ok n) (hlog : 0 < xp.logLen)

include h hlog

/-- `ftruncate` can fail only because the blocks cannot be allocated: the size is one block. -/
theorem answer_ftruncate {sz : ℕ} {ams₁ : MemState} {m : Mem}
    (hrun : Txn.run (DIRTREE.truncate fsxp i ((sz + valulen - 1) / valulen) ams) L.disk.cur =
      ((ams₁, .ok ()), m)) :
    (LogProg.run xp (ftruncate fsxp i sz ams) L).1.2 = .ok () := by
  have hfst := (Txn.exec_eq (DIRTREE.truncate fsxp i ((sz + valulen - 1) / valulen) ams) L).1
  have habort := Txn.abort_exec h.txn (DIRTREE.truncate fsxp i ((sz + valulen - 1) / valulen) ams)
  rw [L.read_of_txn h.txn, hrun] at hfst
  rw [← LogProg.run_lift xp] at hfst habort
  rw [ftruncate, LogProg.run_bind, LogProg.run_begin, LogProg.run_bind]
  dsimp only
  generalize LogProg.run xp (LogProg.lift
    (DIRTREE.truncate fsxp i ((sz + valulen - 1) / valulen) ams)) L = x at hfst habort
  obtain ⟨r₁, L₁⟩ := x
  obtain rfl : r₁ = (ams₁, .ok ()) := hfst
  have huse : { L₁ with txn := L.txn } = L := by
    rw [h.txn]
    exact habort
  dsimp only
  rw [LogProg.run_bind, LogProg.run_use, huse, LogProg.run_bind, LogProg.run_lift]
  have ht := Txn.logs_exec (DIRTREE.updattr fsxp i (.uBytes (addr2w sz)) ams₁) L
  have hlen := ht.length_le h.txn (BFILE.atMost_updattr fsxp.inode i _ ams₁)
  exact run_commit_answer (hlen.trans hlog) _ ()

include hx

theorem wp_ftruncate_of_error {sz : ℕ} {e : Errno} (hi : i ∈ A) (hK : K i = false)
    (hr : (LogProg.run xp (ftruncate fsxp i sz ams) L).1.2 = .error e) :
    LogProg.wp n xp (ftruncate fsxp i sz ams) (fun _ _ => True) (crashIn fun _ _ => True) L := by
  refine wp_bind (LogProg.wp_begin trivial (wp_bind (LogProg.wp_lift (fun _ => trivial) ?_)))
  rw [L.read_of_txn h.txn]
  have hp : Txn.wp n (DIRTREE.truncate fsxp i ((sz + valulen - 1) / valulen) ams)
      (fun _ _ => True) L.disk.cur :=
    DIRTREE.wp_truncate hx h.tree hi hK (fun _ _ _ _ _ => trivial) fun _ _ _ _ _ => trivial
  apply Txn.wp_post (Txn.wp_run_eq hp)
  rintro ⟨ams₁, r₁⟩ m ⟨hrun, -⟩ t _
  cases r₁ with
  | error e₁ => exact wp_bind (LogProg.wp_abort trivial (wp_pure trivial))
  | ok u =>
    rw [answer_ftruncate h hlog hrun] at hr
    cases hr

end

variable [Platform] {g : Geometry} {c : Call}

/-- A call that does no harm does not access a block outside of the data section. -/
theorem wp_harmless (hok : Ok g.dataSize g.fsxp A K L ams) (hlog : 0 < g.fsxp.log.logLen)
    (hc : HarmlessCall g.fsxp L ams c (LogProg.run g.fsxp.log (c.exec g.fsxp ams) L).1.2) :
    LogProg.wp g.dataSize g.fsxp.log (c.exec g.fsxp ams) (fun _ _ => True)
      (crashIn fun _ _ => True) L := by
  by_cases hne : ∀ i sz, c ≠ .ftruncate i sz
  · exact wp_mono (wp_call hok g.ok hlog hc.valid hne) (fun _ _ _ => trivial) fun _ _ => trivial
  · push Not at hne
    obtain ⟨i, sz, rfl⟩ := hne
    obtain ⟨hi, hK⟩ := hok.inTree_iff.1 hc.valid
    have hsound := hc.resolve_left fun hclean => hclean.2
    rw [Call.exec] at hsound ⊢
    cases hr : (LogProg.run g.fsxp.log (ftruncate g.fsxp i sz ams) L).1.2 with
    | error e => exact wp_ftruncate_of_error hok g.ok hlog hi hK hr
    | ok u =>
      have hwp : LogProg.wp g.dataSize g.fsxp.log (ftruncate g.fsxp i sz ams) _ _ L :=
        wp_ftruncate_same hok g.ok hlog hi hK (hsound.2 hr) rfl
      exact wp_mono hwp (fun _ _ _ => trivial) fun _ _ => trivial

/-! ### On the machine -/

/-- A machine that executes a call of the file system does not fail.  When the call returns, the
machine represents the state that the call leads to; when the machine crashes instead and is
rebooted, replaying the log ends in a state that the file system can be recovered to, whose tree is
the one after one of the calls since the last sync, or after the interrupted one. -/
theorem life_on_disk {T : Set Mem} {ms : LOG.MemState} {s : St} (k : ℕ) (h : Life g T L ams)
    (hA : LOG.LState g.fsxp.maxBlock g.fsxp.log L ms s)
    (hc : HarmlessCall g.fsxp L ams c (LogProg.run g.fsxp.log (c.exec g.fsxp ams) L).1.2) :
    ¬ Exec diskSem s (LogProg.compile g.fsxp.log (c.exec g.fsxp ams) ms) .failed ∧
    (∀ s' ms' r, Exec diskSem s (LogProg.compile g.fsxp.log (c.exec g.fsxp ams) ms)
        (.finished s' (ms', r)) →
      ∃ L', LogProg.run g.fsxp.log (c.exec g.fsxp ams) L = (r, L') ∧
        LOG.LState g.fsxp.maxBlock g.fsxp.log L' ms' s' ∧
        Life g (c.committed T L'.disk.cur) L' r.1) ∧
    ∀ s', Exec diskSem s (LogProg.compile g.fsxp.log (c.exec g.fsxp ams) ms) (.crashed s') →
      ∀ s₀ out, Reboot s' s₀ →
        ExecRecover diskSem Reboot s₀ (LOG.recoverBoot k g.fsxp.log) (LOG.recoverBoot k g.fsxp.log)
          out →
        let R := fun ms' s' => ∃ d, LOG.LState g.fsxp.maxBlock g.fsxp.log (.ofDisk d) ms' s' ∧
          Life g {d} (.ofDisk d) BFILE.msEmpty ∧
          ∃ m ∈ insert (LogProg.run g.fsxp.log (c.exec g.fsxp ams) L).2.disk.cur T,
            SameTree g.fsxp m d
        out.Sat R R := by
  obtain ⟨A, K, hok⟩ := h.sound.ok
  -- the crash condition is what the log sees of the crashes of the call
  have hwp : LogProg.wp g.dataSize g.fsxp.log (c.exec g.fsxp ams) (fun _ _ => True)
      (fun M => Exec (LogProg.sem g.dataSize g.fsxp.log) L (c.exec g.fsxp ams) (.crashed M)) L := by
    intro out e
    cases out with
    | failed => exact wp_harmless hok h.sound.log hc _ e
    | finished => trivial
    | crashed M => exact e
  have hdisk := LogProg.wp_compile g.layout hA hwp
    (D := {d | ∃ M, Exec (LogProg.sem g.dataSize g.fsxp.log) L (c.exec g.fsxp ams) (.crashed M) ∧
      d ∈ M.crashes g.fsxp.log}) fun M hM d hd => ⟨M, hM, hd⟩
  refine ⟨fun e => hdisk _ e, ?_, ?_⟩
  · intro s' ms' r e
    obtain ⟨rfl, hA'⟩ := hdisk _ e
    exact ⟨_, rfl, hA', h.call rfl hc⟩
  · intro s' e s₀ out hr erec
    apply LOG.sat_of_crash k g.layout (hdisk _ e) hr _ erec
    rintro d ⟨M, hM, hd⟩ ms' s'' hA'
    obtain ⟨-, m, hm, hsame⟩ := h.sound.crash hc hM hd
    exact ⟨d, hA', h.crash hc hM hd, m, hm, hsame⟩

end AFS

namespace Sample

open AFS

local instance machinePlatform : Platform := platform

/-- A new file system is mounted, and a machine creates a file in it. -/
theorem life_on_disk_create : ∃ f ams, Life geometry {f} (.ofDisk f) ams ∧
    ∀ s', Exec diskSem (mounted f) (LogProg.compile geometry.fsxp.log
        ((Call.create 1 [97]).exec geometry.fsxp ams) ⟨∅, ⟨∅, [], ⟨∅, BufCache.cache0 10⟩⟩⟩)
        (.crashed s') →
      ∀ s₀ out, Reboot s' s₀ →
        ExecRecover diskSem Reboot s₀ (LOG.recoverBoot 10 geometry.fsxp.log)
          (LOG.recoverBoot 10 geometry.fsxp.log) out →
        let R := fun ms' s' => ∃ d,
          LOG.LState geometry.fsxp.maxBlock geometry.fsxp.log (.ofDisk d) ms' s' ∧
          Life geometry {d} (.ofDisk d) BFILE.msEmpty ∧
          ∃ m ∈ insert (LogProg.run geometry.fsxp.log ((Call.create 1 [97]).exec geometry.fsxp ams)
              (.ofDisk f)).2.disk.cur ({f} : Set Mem),
            SameTree geometry.fsxp m d
        out.Sat R R := by
  obtain ⟨f, ams, hlife⟩ := exists_life
  have h := life_on_disk 10 hlife (lstate_mounted f) (c := .create 1 [97]) (.inl ⟨.root, trivial⟩)
  exact ⟨f, ams, hlife, h.2.2⟩

end Sample

end Fscq
