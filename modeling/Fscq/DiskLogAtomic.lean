import Fscq.DiskLogHashProof

/-!
# Crash atomicity of the disk log

A crash in the middle of an extension or a truncation leaves a disk from which recovery, however
often it is interrupted, gets the log before or the log after.
-/

namespace Fscq

open CrashProg

namespace PaddedLog

variable [Platform]

variable {n : ℕ} {xp : LogXparams} {cs : CacheState} {m : ADisk} {hm : Hashmap} {s : St}

/-- Recovery after a reboot, with a fresh cache. -/
def recoverBoot (k : ℕ) (xp : LogXparams) : Prog CacheState := do
  let cs ← BufCache.initRecover k
  recover xp cs

/-- The abstract contents of the log on a disk, as its header delimits them. -/
def contentsOf (xp : LogXparams) (f : ℕ → Valu) : Contents :=
  let h := Hdr.ofHeader (Hdr.val2hdr (f xp.logHeader))
  combineNonzero (addrs (descBlocks xp f h.currentLength.1)) (dataBlocks xp f h.currentLength.2)

theorem Synced.contentsOf_eq {l : Contents} (h : Synced xp m hm l) : contentsOf xp m.cur = l := by
  obtain ⟨-, hd, hg, hv, hh⟩ := h
  rw [contentsOf, hv, Hdr.ofHeader_encode hg]
  exact hh.decodes.eq

/-- In the state `s`, the cache `cs` is on top of a disk with nothing pending in the log, whose
checksums are right and whose contents are `l`. -/
def LogIs (n : ℕ) (xp : LogXparams) (l : Contents) (cs : CacheState) (s : St) : Prop :=
  ∃ m hm, CState n cs m hm s ∧ Synced xp m hm l ∧ contentsOf xp m.cur = l

/-- From a crash state, recovery ends with one of the logs of the crash condition, however often it
is interrupted. -/
theorem wp_recoverBoot {S : Set Contents} (k : ℕ) (hl : Layout n xp) {s' : St}
    (hc : CCrash n (fun m hm => Recoverable xp m hm S) s) (hr : Reboot s s') :
    wp diskSem (recoverBoot k xp) (fun cs s => ∃ l ∈ S, LogIs n xp l cs s)
      (CCrash n fun m hm => Recoverable xp m hm S) s' := by
  apply BufCache.wp_boot hc hr fun m hm f hrec hf => hrec.crash hl hf
  intro cs f hm s h hrec
  refine wp_recover hl h (ADisk.syncedAt_synced f) hrec (fun _ _ _ _ h' => h') ?_
  intro cs' m' hm' s' l hlS h' _ _ hs
  exact ⟨l, hlS, m', hm', h', hs, hs.contentsOf_eq⟩

section Atomic

variable {old new l l' : Contents} {s₁ s₂ : St}

theorem Synced.logIs (h : CState n cs m hm s) (hs : Synced xp m hm l) : LogIs n xp l cs s :=
  ⟨m, hm, h, hs, hs.contentsOf_eq⟩

theorem LogIs.wp_extend (h : LogIs n xp old cs s) (hl : Layout n xp)
    (hnew : ∀ e ∈ new, EntryValid e) :
    wp diskSem (extend xp new cs) (fun r s' => LogIs n xp (if r.2 then old ++ new else old) r.1 s')
      (CCrash n fun m hm => Recoverable xp m hm {old, old ++ new}) s := by
  obtain ⟨m, hm, hcs, hs, -⟩ := h
  refine PaddedLog.wp_extend hl hcs hs hnew (fun _ _ _ _ h' => h') ?_ ?_
  · intro cs' m' hm' s' h' _ _ hs' _
    exact hs'.logIs h'
  · intro cs' s' h' _
    exact hs.logIs h'

theorem LogIs.wp_trunc (h : LogIs n xp old cs s) (hl : Layout n xp) :
    wp diskSem (trunc xp cs) (LogIs n xp [])
      (CCrash n fun m hm => Recoverable xp m hm {old, []}) s := by
  obtain ⟨m, hm, hcs, hs, -⟩ := h
  refine PaddedLog.wp_trunc hl hcs hs (fun _ _ _ _ h' => h') ?_
  intro cs' m' hm' s' h' _ _ hs' _
  exact hs'.logIs h'

/-- A program that leaves one of two logs at every crash ends up with one of them. -/
theorem sat_of_recoverable {α : Type} {Q : α → St → Prop} {p : Prog α} (k : ℕ) (hl : Layout n xp)
    (h : wp diskSem p Q (CCrash n fun m hm => Recoverable xp m hm {l, l'}) s)
    {out : RecOutcome St α CacheState}
    (e : ExecRecover diskSem Reboot s p (recoverBoot k xp) out) :
    out.Sat Q fun cs' s' => LogIs n xp l cs' s' ∨ LogIs n xp l' cs' s' := by
  refine e.sound h fun s₁ s₂ hc hr => wp_mono (wp_recoverBoot k hl hc hr) ?_ fun _ => id
  rintro cs' s' ⟨l₁, rfl | rfl, h'⟩
  · exact .inl h'
  · exact .inr h'

/-- A crash between two operations does not change the log, however often recovery is
interrupted. -/
theorem LogIs.recovers (k : ℕ) (hl : Layout n xp) (h : LogIs n xp l cs s₁) (hr : Reboot s₁ s₂)
    {out : RecOutcome St CacheState CacheState}
    (e : ExecRecover diskSem Reboot s₂ (recoverBoot k xp) (recoverBoot k xp) out) :
    out.Sat (LogIs n xp l) (LogIs n xp l) := by
  obtain ⟨m, hm, h, hs, -⟩ := h
  have hrec : ∀ s₁ s₂, CCrash n (fun m hm => Recoverable xp m hm {l}) s₁ → Reboot s₁ s₂ →
      wp diskSem (recoverBoot k xp) (LogIs n xp l)
        (CCrash n fun m hm => Recoverable xp m hm {l}) s₂ := by
    intro s₁ s₂ hc hr
    refine wp_mono (wp_recoverBoot k hl hc hr) ?_ fun _ => id
    rintro cs' s' ⟨l', rfl, h'⟩
    exact h'
  exact e.sound (hrec s₁ s₂ (h.crash (hs.recoverable rfl)) hr) hrec

/-- An extension of the log is atomic: whenever the machine crashes, and however often it crashes
again during recovery, the log ends up as `old` or as `old ++ new`; and once the extension has
reported success, a crash does not undo it. -/
theorem extend_crash_atomic (k : ℕ) {old new : Contents} (hl : Layout n xp)
    (h : LogIs n xp old cs s) (hnew : ∀ e ∈ new, EntryValid e) :
    (∀ out, ExecRecover diskSem Reboot s (extend xp new cs) (recoverBoot k xp) out →
      out.Sat (fun r s' => LogIs n xp (if r.2 then old ++ new else old) r.1 s')
        (fun cs' s' => LogIs n xp old cs' s' ∨ LogIs n xp (old ++ new) cs' s')) ∧
    (∀ cs' s₁ s₂, Exec diskSem s (extend xp new cs) (.finished s₁ (cs', true)) → Reboot s₁ s₂ →
      ∀ out, ExecRecover diskSem Reboot s₂ (recoverBoot k xp) (recoverBoot k xp) out →
        out.Sat (LogIs n xp (old ++ new)) (LogIs n xp (old ++ new))) := by
  have hext := h.wp_extend hl hnew
  constructor
  · intro out e
    exact sat_of_recoverable k hl hext e
  · intro cs' s₁ s₂ e hr out e'
    have h' : LogIs n xp (old ++ new) cs' s₁ := hext _ e
    exact h'.recovers k hl hr e'

/-- A truncation of the log is atomic: whenever the machine crashes, and however often it crashes
again during recovery, the log ends up as `old` or empty; and once the truncation has returned, the
log is empty and stays so. -/
theorem trunc_crash_atomic (k : ℕ) {old : Contents} (hl : Layout n xp) (h : LogIs n xp old cs s) :
    (∀ out, ExecRecover diskSem Reboot s (trunc xp cs) (recoverBoot k xp) out →
      out.Sat (fun cs' s' => LogIs n xp [] cs' s')
        (fun cs' s' => LogIs n xp old cs' s' ∨ LogIs n xp [] cs' s')) ∧
    (∀ cs' s₁ s₂, Exec diskSem s (trunc xp cs) (.finished s₁ cs') → Reboot s₁ s₂ →
      ∀ out, ExecRecover diskSem Reboot s₂ (recoverBoot k xp) (recoverBoot k xp) out →
        out.Sat (LogIs n xp []) (LogIs n xp [])) := by
  have htrunc := h.wp_trunc hl
  constructor
  · intro out e
    exact sat_of_recoverable k hl htrunc e
  · intro cs' s₁ s₂ e hr out e'
    have h' : LogIs n xp [] cs' s₁ := htrunc _ e
    exact h'.recovers k hl hr e'

end Atomic

/-- An extension can finish if the blocks that it hashes meet no other key with their hash value. -/
theorem canFinish_extend {m : ADisk} {hm : Hashmap} {old new : Contents} (hl : Layout n xp)
    (h : CState n cs m hm s) (hs : Synced xp m hm old) (hnew : ∀ e ∈ new, EntryValid e)
    (hdesc : KeysSafe hm (hdrOf xp m).checksum.1 (descSig.nopadIpack (new.map entAddr)))
    (hdata : KeysSafe
      (hashKeys hm (hdrOf xp m).checksum.1 (descSig.nopadIpack (new.map entAddr)))
      (hdrOf xp m).checksum.2 (valsNonzero new)) : CanFinish diskSem (extend xp new cs) s := by
  have hwp : wp diskSem (extend xp new cs) (fun _ _ => True) (CCrash n fun _ _ => True) s :=
    wp_extend hl h hs hnew (fun _ _ _ _ _ => trivial) (fun _ _ _ _ _ _ _ _ _ => trivial)
      fun _ _ _ _ => trivial
  unfold extend at hwp ⊢
  have hread := wp_of_bind hwp
  have hhdr : wp diskSem (Hdr.read xp cs) (fun r s' => r.2 = hdrOf xp m ∧ s'.hm = hm)
      (CCrash n fun _ _ => True) s :=
    Hdr.wp_read hl h trivial fun cs' s' h' => ⟨rfl, h'.hm_eq⟩
  have hall : (Hdr.read xp cs).All diskSem.Enabled := ⟨BufCache.all_read _ _, fun _ => trivial⟩
  refine (canFinish_of_wp hall hread).bind (wp_and hhdr hread) ?_
  rintro ⟨cs', nr⟩ s' ⟨⟨rfl, rfl⟩, hrest⟩
  dsimp only at hrest ⊢
  split_ifs at hrest ⊢ with hlen
  · have e₁ := exec_hashList hdesc
    have e₂ := exec_hashList (s := { s' with hm := hashKeys s'.hm _ _ }) hdata
    have hwrite := wp_of_bind (wp_of_bind hrest _ e₁) _ e₂
    have hfin := canFinish_of_wp (by
      refine ⟨BufCache.all_writeRange _ _ _, fun _ => ⟨BufCache.all_writeRange _ _ _, fun _ => ?_⟩⟩
      refine ⟨BufCache.all_write _ _ _, fun _ => ⟨trivial, fun _ => ?_⟩⟩
      refine ⟨BufCache.all_syncRange _ _ _, fun _ => ⟨BufCache.all_syncRange _ _ _, fun _ => ?_⟩⟩
      refine ⟨BufCache.all_writeback _ _, fun _ => ?_⟩
      exact ⟨BufCache.all_endSync _, fun _ => trivial⟩) hwrite
    obtain ⟨s'', v, e₃⟩ := hfin
    exact ⟨s'', v, .bindFinish e₁ (.bindFinish e₂ e₃)⟩
  · exact canFinish_pure _ _

/-- The header of the empty log. -/
def Hdr.empty : Hdr := ⟨(0, 0), (0, 0), (defaultHash, defaultHash)⟩

theorem Hdr.empty_good : Hdr.empty.Good := ⟨by simp [empty], by simp [empty], by simp [empty],
  by simp [empty]⟩

theorem logIs_nil_of_booted {f : ℕ → Valu} (k : ℕ) (h : Booted n f hm s)
    (hf : f xp.logHeader = Hdr.empty.encode) : LogIs n xp [] (BufCache.cache0 k) s := by
  have hs : Synced xp (ADisk.synced f) hm [] :=
    ⟨ADisk.syncedAt_synced f _, Hdr.empty, Hdr.empty_good, hf, holds_nil xp _ hm⟩
  exact ⟨_, hm, h.cstate, hs, hs.contentsOf_eq⟩

end PaddedLog

/-! ### A small disk -/

namespace Sample

local instance : Platform := platform

/-- A log with one descriptor block behind a data section of four blocks. -/
def xp : LogXparams := ⟨0, 4, 5, 1, 6, 512⟩

theorem layout : PaddedLog.Layout 518 xp where
  start_le := by decide
  header_lt := by decide
  desc_le := by decide
  data_le := by decide
  logLen_eq := by simp [xp, PaddedLog.descSig, valulen_is, addrlen]
  size_lt := by decide

/-- The disk with the empty log and zeros elsewhere. -/
def disk (a : ℕ) : Valu := if a = 4 then PaddedLog.Hdr.empty.encode else 0

/-- The machine after it has booted from the disk. -/
def boot : St := ⟨fun a => if a < 518 then some (disk a, []) else none, fun _ => none, .empty⟩

theorem booted : Booted 518 disk .empty boot := ⟨rfl, rfl⟩

/-- The disk log of the sample disk, extended by one entry. -/
theorem extend_crash_atomic_boot :
    (∀ out, ExecRecover diskSem Reboot boot (PaddedLog.extend xp [(1, 7)] (BufCache.cache0 10))
      (PaddedLog.recoverBoot 10 xp) out →
      out.Sat (fun r s' => PaddedLog.LogIs 518 xp (if r.2 then [] ++ [(1, 7)] else []) r.1 s')
        (fun cs' s' => PaddedLog.LogIs 518 xp [] cs' s' ∨
          PaddedLog.LogIs 518 xp ([] ++ [(1, 7)]) cs' s')) ∧
    (∀ cs' s₁ s₂, Exec diskSem boot (PaddedLog.extend xp [(1, 7)] (BufCache.cache0 10))
        (.finished s₁ (cs', true)) → Reboot s₁ s₂ →
      ∀ out, ExecRecover diskSem Reboot s₂ (PaddedLog.recoverBoot 10 xp)
        (PaddedLog.recoverBoot 10 xp) out →
        out.Sat (PaddedLog.LogIs 518 xp ([] ++ [(1, 7)]))
          (PaddedLog.LogIs 518 xp ([] ++ [(1, 7)]))) :=
  PaddedLog.extend_crash_atomic 10 layout (PaddedLog.logIs_nil_of_booted 10 booted rfl)
    (by simp [PaddedLog.EntryValid])

theorem hashFwd_combine_default (x : Valu) :
    hashFwd (combine x defaultHash) = BitVec.ofNat hashlen (x.toNat % 4294967291) := by
  have hzero : (defaultHash : BitVec hashlen).toNat = 0 := rfl
  have hkey : (combine x (defaultHash : BitVec hashlen)).toNat = x.toNat := by
    rw [toNat_combine, hzero, Nat.zero_mul, Nat.add_zero]
  change BitVec.ofNat hashlen ((combine x (defaultHash : BitVec hashlen)).toNat % 4294967291) = _
  rw [hkey]

/-- The empty log can be extended by one entry: the two hash values are 1 and 7. -/
theorem canFinish_extend_seven {cs : CacheState} {m : ADisk} {s : St}
    (h : CState 518 cs m .empty s) (hs : PaddedLog.Synced xp m .empty [])
    (hv : m.cur xp.logHeader = PaddedLog.Hdr.empty.encode) :
    CanFinish diskSem (PaddedLog.extend xp [(1, 7)] cs) s := by
  have hhdr := PaddedLog.hdrOf_encode PaddedLog.Hdr.empty_good hv
  have hone : hashFwd (combine (PaddedLog.descSig.block2val [PaddedLog.entAddr (1, 7)])
      defaultHash) = 1 := by
    have hval : (PaddedLog.descSig.block2val [PaddedLog.entAddr (1, 7)]).toNat = 1 :=
      (RASig.toNat_block2val_singleton ..).trans rfl
    rw [hashFwd_combine_default, hval]
    rfl
  have hseven : hashFwd (combine (7 : Valu) defaultHash) = 7 := by
    have hval : (7 : Valu).toNat = 7 :=
      Nat.mod_eq_of_lt ((by decide : 7 < 2 ^ 3).trans_le (Nat.pow_le_pow_right two_pos (by
        rw [valulen_is]
        decide)))
    rw [hashFwd_combine_default, hval]
    rfl
  apply PaddedLog.canFinish_extend layout h hs (by simp [PaddedLog.EntryValid, addrlen])
  · rw [hhdr, List.map_singleton, RASig.nopadIpack_singleton]
    refine ⟨.inl ?_, trivial⟩
    rw [PaddedLog.Hdr.empty, hone]
    rfl
  · rw [hhdr, List.map_singleton, RASig.nopadIpack_singleton]
    refine ⟨.inl ?_, trivial⟩
    simp only [hashKeys, PaddedLog.Hdr.empty, PaddedLog.entValu]
    rw [hone, hseven]
    rfl

theorem header_disk : (ADisk.synced disk).cur xp.logHeader = PaddedLog.Hdr.empty.encode := rfl

theorem synced_disk : PaddedLog.Synced xp (ADisk.synced disk) .empty [] :=
  ⟨ADisk.syncedAt_synced disk _, PaddedLog.Hdr.empty, PaddedLog.Hdr.empty_good, header_disk,
    PaddedLog.holds_nil xp _ _⟩

/-- The entry is for a block that holds zero. -/
theorem exists_extended {cs : CacheState} {s : St} (h : CState 518 cs (ADisk.synced disk) .empty s) :
    ∃ cs' m hm s', Exec diskSem s (PaddedLog.extend xp [(1, 7)] cs) (.finished s' (cs', true)) ∧
      CState 518 cs' m hm s' ∧ PaddedLog.Synced xp m hm [(1, 7)] ∧ m.cur 1 = 0 := by
  have hwp : wp diskSem (PaddedLog.extend xp [(1, 7)] cs)
      (fun r s => r.2 = true ∧ ∃ m hm, CState 518 r.1 m hm s ∧
        PaddedLog.Synced xp m hm [(1, 7)] ∧ m.cur 1 = 0)
      (CCrash 518 fun _ _ => True) s := by
    refine PaddedLog.wp_extend layout h synced_disk (by simp [PaddedLog.EntryValid, addrlen])
      (fun _ _ _ _ _ => trivial) ?_ ?_
    · intro cs m hm s h hf _ hs _
      exact ⟨rfl, m, hm, h, hs, (hf 1 (by decide)).1⟩
    · intro cs s _ hfits
      refine absurd ?_ hfits
      have hdesc : PaddedLog.ndescLog [(1, 7)] = 1 :=
        divup_of_lt Nat.one_pos PaddedLog.descSig.itemsPerVal_pos
      rw [PaddedLog.Fits, PaddedLog.hdrOf_encode PaddedLog.Hdr.empty_good header_disk, hdesc]
      exact ⟨le_rfl, (by decide : 1 ≤ 512)⟩
  obtain ⟨s', ⟨cs', ok⟩, e, rfl, m, hm, h'⟩ :=
    (canFinish_extend_seven h synced_disk header_disk).sat hwp
  exact ⟨cs', m, hm, s', e, h'⟩

/-- The disk log with one entry, truncated. -/
theorem trunc_crash_atomic_logged : ∃ cs s, PaddedLog.LogIs 518 xp [(1, 7)] cs s ∧
    (∀ out, ExecRecover diskSem Reboot s (PaddedLog.trunc xp cs) (PaddedLog.recoverBoot 10 xp) out →
      out.Sat (fun cs' s' => PaddedLog.LogIs 518 xp [] cs' s')
        (fun cs' s' => PaddedLog.LogIs 518 xp [(1, 7)] cs' s' ∨ PaddedLog.LogIs 518 xp [] cs' s')) ∧
    (∀ cs' s₁ s₂, Exec diskSem s (PaddedLog.trunc xp cs) (.finished s₁ cs') → Reboot s₁ s₂ →
      ∀ out, ExecRecover diskSem Reboot s₂ (PaddedLog.recoverBoot 10 xp)
        (PaddedLog.recoverBoot 10 xp) out →
        out.Sat (PaddedLog.LogIs 518 xp []) (PaddedLog.LogIs 518 xp [])) := by
  obtain ⟨cs, m, hm, s, -, h, hs, -⟩ := exists_extended (booted.cstate (k := 10))
  exact ⟨cs, s, hs.logIs h, PaddedLog.trunc_crash_atomic 10 layout (hs.logIs h)⟩

end Sample

end Fscq
