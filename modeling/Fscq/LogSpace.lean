import Fscq.DiskLogRun
import Fscq.GroupLog

/-!
# The room in the log

The log counts its room in descriptor blocks and in data blocks, and a client counts it in entries.
The states of this file are the ones that a client of the disk log, or of the group log, reaches
with any sequence of calls, crashes and recoveries.  In all of them an extension is refused exactly
when its blocks do not fit, which is never the case for entries for which `avail` reports room.
So the memory log can always flush as many entries as the log has data blocks, and the group log,
which drops the answers of its flushes, loses nothing.
-/

namespace Fscq

open CrashProg

namespace PaddedLog

/-- The calls of a client of the disk log. -/
inductive Call
  | op (o : LogOp)
  | read
  | avail

def Call.Valid : Call → Prop
  | .op o => o.Valid
  | _ => True

variable [Platform]

def Call.exec (xp : LogXparams) (c : Call) (cs : CacheState) : Prog CacheState :=
  match c with
  | .op o => do
    let (cs, _) ← o.exec xp cs
    pure cs
  | .read => do
    let (cs, _) ← PaddedLog.read xp cs
    pure cs
  | .avail => do
    let (cs, _) ← PaddedLog.avail xp cs
    pure cs

/-- The log has been initialised. -/
def Initialised (n : ℕ) (xp : LogXparams) (cs : CacheState) (s : St) : Prop :=
  ∃ m hm, CState n cs m hm s ∧ Synced xp m hm [] ∧ m.cur xp.logHeader = Hdr.empty.encode

/-- The states that a client of the disk log reaches. -/
def Reachable (n k : ℕ) (xp : LogXparams) : CacheState → St → Prop :=
  Reaches diskSem Reboot (Initialised n xp) Call.Valid (Call.exec xp) (recoverBoot k xp)

variable {n k : ℕ} {xp : LogXparams} {cs : CacheState} {m : ADisk} {hm : Hashmap} {s : St}

theorem wp_init_initialised (hl : Layout n xp) (h : CState n cs m hm s) :
    wp diskSem (init xp cs) (Initialised n xp) (fun _ => True) s :=
  wp_init hl h fun _ m' hm' _ h' hs hv => ⟨m', hm', h', hs, hv⟩

/-- Every reachable log is complete. -/
theorem Reachable.logIs (hl : Layout n xp) (h : Reachable n k xp cs s) :
    ∃ l, LogIs n xp l cs s := by
  refine Reaches.inv (C := CCrash n fun m hm => Recoverable xp m hm Set.univ)
    (I := fun cs s => ∃ l, LogIs n xp l cs s) h ?_ ?_ ?_ ?_
  · rintro cs s ⟨m, hm, h, hs, -⟩
    exact ⟨[], hs.logIs h⟩
  · rintro c cs s hc ⟨l, h⟩
    -- any log will do after a crash
    have hmono : ∀ {S : Set Contents} s', CCrash n (fun m hm => Recoverable xp m hm S) s' →
        CCrash n (fun m hm => Recoverable xp m hm Set.univ) s' := by
      rintro S s' ⟨cs, m, hm, h, hr⟩
      exact ⟨cs, m, hm, h, hr.mono (Set.subset_univ S)⟩
    cases c with
    | op o =>
      cases o with
      | extend new =>
        refine wp_bind (wp_mono (h.wp_extend hl hc) ?_ hmono)
        rintro ⟨cs', ok⟩ s' h'
        exact wp_pure ⟨_, h'⟩
      | trunc =>
        refine wp_bind (wp_bind (wp_mono (h.wp_trunc hl) ?_ hmono))
        intro cs' s' h'
        exact wp_pure (wp_pure ⟨_, h'⟩)
    | read =>
      obtain ⟨m, hm, h, hs, -⟩ := h
      refine wp_bind (wp_read hl h hs (hs.recoverable (Set.mem_univ l)) fun cs' s' h' => ?_)
      exact wp_pure ⟨l, hs.logIs h'⟩
    | avail =>
      obtain ⟨m, hm, h, hs, -⟩ := h
      refine wp_bind (wp_avail hl h (hs.recoverable (Set.mem_univ l)) fun cs' s' h' => ?_)
      exact wp_pure ⟨l, hs.logIs h'⟩
  · rintro cs s ⟨l, m, hm, h, hs, -⟩
    exact h.crash (hs.recoverable (Set.mem_univ l))
  · intro s₁ s₂ hc hr
    refine wp_mono (wp_recoverBoot k hl hc hr) ?_ fun _ => id
    rintro cs' s' ⟨l, -, h'⟩
    exact ⟨l, h'⟩

/-- What an extension answers, for any entries, and what it leaves when it refuses them. -/
theorem extend_answer {new : Contents} {cs' : CacheState} {ok : Bool} {s' : St}
    (hl : Layout n xp) (h : CState n cs m hm s)
    (e : Exec diskSem s (extend xp new cs) (.finished s' (cs', ok))) :
    (ok = false ↔ ¬ Fits xp m new) ∧ (ok = false → CState n cs' m hm s') := by
  cases e with
  | @bindFinish _ _ _ s₁ _ _ r _ e₁ e₂ =>
    have hread : wp diskSem (Hdr.read xp cs) (fun r s' => r.2 = hdrOf xp m ∧ CState n r.1 m hm s')
        (CCrash n fun _ _ => True) s := Hdr.wp_read hl h trivial fun _ _ h' => ⟨rfl, h'⟩
    obtain ⟨hr, h'⟩ := hread _ e₁
    obtain ⟨cs₁, nr⟩ := r
    obtain rfl : nr = hdrOf xp m := hr
    dsimp only at e₂
    split_ifs at e₂ with hfits
    · -- all that is left to do answers `true`
      have htrue : ok = true := by
        refine (?_ : Returns diskSem _ fun r : CacheState × Bool => r.2 = true) _ _ _ e₂
        iterate 10 refine returns_bind fun _ => ?_
        exact returns_pure rfl
      have : Fits xp m new := hfits
      simp [htrue, this]
    · cases e₂
      have : ¬ Fits xp m new := hfits
      exact ⟨by simp [this], fun _ => h'⟩

/-- Entries for which `avail` reports room are accepted. -/
theorem wp_availExtend {new : Contents} {l : Contents} (hl : Layout n xp)
    (h : LogIs n xp l cs s) (hnew : ∀ e ∈ new, EntryValid e) :
    wp diskSem (do
      let (cs, na) ← avail xp cs
      let (_, ok) ← extend xp new cs
      pure (na, ok)) (fun r _ => new.length ≤ r.1 → r.2 = true) (fun _ => True) s := by
  obtain ⟨m, hm, h, hs, -⟩ := h
  have hrun : wp diskSem (do
      let (cs, na) ← avail xp cs
      let (_, ok) ← extend xp new cs
      pure (na, ok)) (fun r _ => new.length ≤ r.1 → r.2 = true) (CCrash n fun _ _ => True) s := by
    refine wp_bind (wp_avail hl h trivial fun cs s h => ?_)
    refine wp_bind (wp_extend hl h hs hnew (fun _ _ _ _ _ => trivial) ?_ ?_)
    · intro cs' m' hm' s' _ _ _ _ _
      exact wp_pure fun _ => rfl
    · intro cs' s' _ hfits
      exact wp_pure fun hle => absurd (fits_of_le_navail hl hs hle) hfits
  exact hrun.anyCrash

end PaddedLog

namespace GLog

open PaddedLog (Contents Layout)

/-- The calls of a client of the group log. -/
inductive Call
  | read (a : ℕ)
  | submit (ents : Contents)
  | flushall
  | flushallNomerge
  | flushsync
  | dwrite (a : ℕ) (v : Valu)
  | dwriteVecs (avs : List (ℕ × Valu))
  | dsync (a : ℕ)
  | dsyncVecs (al : List ℕ)
  | syncCache

/-- The calls access blocks of the data section; transactions do not write block zero. -/
def Call.Valid (xp : LogXparams) : Call → Prop
  | .read a => a < MLog.dataSize xp
  | .submit ents => MLog.InRange xp ents
  | .dwrite a _ => a < MLog.dataSize xp
  | .dwriteVecs avs => ∀ av ∈ avs, av.1 < MLog.dataSize xp
  | _ => True

variable [Platform]

def Call.exec (xp : LogXparams) (c : Call) (ms : MemState) : Prog MemState :=
  match c with
  | .read a => do
    let (ms, _) ← GLog.read xp a ms
    pure ms
  | .submit ents => do
    let (ms, _) ← GLog.submit xp ents ms
    pure ms
  | .flushall => GLog.flushall xp ms
  | .flushallNomerge => GLog.flushallNomerge xp ms
  | .flushsync => GLog.flushsync xp ms
  | .dwrite a v => GLog.dwrite xp a v ms
  | .dwriteVecs avs => GLog.dwriteVecs xp avs ms
  | .dsync a => GLog.dsync xp a ms
  | .dsyncVecs al => GLog.dsyncVecs xp al ms
  | .syncCache => GLog.syncCache xp ms

/-- Recovery after a reboot, with a fresh cache. -/
def recoverBoot (k : ℕ) (xp : LogXparams) : Prog MemState := do
  let cs ← BufCache.initRecover k
  recover xp cs

/-- The group log over a log that has been initialised. -/
def Initialised (n : ℕ) (xp : LogXparams) (ms : MemState) (s : St) : Prop :=
  ms = ⟨∅, [], ⟨∅, ms.msLL.msCache⟩⟩ ∧ PaddedLog.Initialised n xp ms.msLL.msCache s

/-- The states that a client of the group log reaches. -/
def Reachable (n k : ℕ) (xp : LogXparams) : MemState → St → Prop :=
  Reaches diskSem Reboot (Initialised n xp) (Call.Valid xp) (Call.exec xp) (recoverBoot k xp)

/-- The group log represents some disk with some pending transactions. -/
def Live (n : ℕ) (xp : LogXparams) (ms : MemState) (s : St) : Prop :=
  ∃ B pend, GState n xp B pend ms s

variable {n k : ℕ} {xp : LogXparams} {B : ADisk} {pend : List Contents} {ms : MemState} {s : St}

theorem Initialised.live (h : Initialised n xp ms s) : Live n xp ms s := by
  obtain ⟨he, m, hm, h, hs, -⟩ := h
  rw [he]
  refine ⟨⟨fun a => m.cur (xp.dataStart + a), fun a => m.poss (xp.dataStart + a)⟩, [],
    gstate_nil ⟨m, hm, [], h, hs, rfl, ?_, ?_, ?_⟩⟩
  · exact fun e he => (List.not_mem_nil he).elim
  · intro a v hv
    simp at hv
  · exact fun a _ _ => ⟨rfl, subset_rfl⟩

theorem GState.wp_call (hl : Layout n xp) (h : GState n xp B pend ms s) {c : Call}
    (hc : c.Valid xp) :
    wp diskSem (c.exec xp ms) (Live n xp) (MLog.MCrash n xp Set.univ) s := by
  have hD := Set.subset_univ (crashAll xp B pend)
  cases c with
  | read a => exact wp_bind (wp_read hl h hc hD fun ms' s' h' => wp_pure ⟨B, pend, h'⟩)
  | submit ents =>
    refine wp_bind (wp_submit h hc (fun ms' _ h' => ?_) fun _ => ?_)
    · exact wp_pure ⟨B, pend ++ [ents], h'⟩
    · exact wp_pure ⟨B, pend, h⟩
  | flushall => exact wp_flushall hl h hD fun ms' s' h' => ⟨_, [], h'⟩
  | flushallNomerge => exact wp_flushallNomerge hl h hD fun ms' s' h' => ⟨_, [], h'⟩
  | flushsync => exact wp_flushsync hl h hD fun ms' s' h' => ⟨_, [], h'⟩
  | dwrite a v =>
    exact wp_dwrite hl h hc hD (fun ms' s' _ h' => ⟨_, [], h'⟩) fun ms' s' _ h' => ⟨_, pend, h'⟩
  | dwriteVecs avs =>
    refine wp_dwriteVecs hl h hc hD (fun _ => Set.subset_univ _) (fun _ => Set.subset_univ _) ?_ ?_
    · exact fun ms' s' _ h' => ⟨_, [], h'⟩
    · exact fun ms' s' _ h' => ⟨_, pend, h'⟩
  | dsync a => exact wp_dsync hl h hD fun ms' s' h' => ⟨_, pend, h'⟩
  | dsyncVecs al => exact wp_dsyncVecs hl h hD fun ms' s' h' => ⟨_, pend, h'⟩
  | syncCache => exact wp_syncCache hl h hD fun ms' s' h' => ⟨_, pend, h'⟩

theorem wp_recoverBoot {s' : St} (hl : Layout n xp) (hc : MLog.MCrash n xp Set.univ s)
    (hr : Reboot s s') :
    wp diskSem (recoverBoot k xp) (Live n xp) (MLog.MCrash n xp Set.univ) s' := by
  apply BufCache.wp_boot hc hr fun m hm f hL hf => hL.crash hl hf
  intro cs f hm s h hL
  refine wp_bind (MLog.wp_recover hl h hL fun mm s' d _ h' => ?_)
  exact wp_pure ⟨_, [], gstate_nil h'⟩

theorem Reachable.live (hl : Layout n xp) (h : Reachable n k xp ms s) : Live n xp ms s := by
  refine Reaches.inv (C := MLog.MCrash n xp Set.univ) h (fun _ _ h => h.live) ?_ ?_
    fun s₁ s₂ hc hr => wp_recoverBoot hl hc hr
  · rintro c ms s hc ⟨B, pend, h⟩
    exact h.wp_call hl hc
  · rintro ms s ⟨B, pend, h⟩
    exact h.mlog.crash hl (Set.subset_univ _)

end GLog

/-- The room in the log is counted right, in every state that a client of the disk log or of the
group log reaches.  An extension is refused exactly when its blocks do not fit, and then leaves the
disk as it is; entries for which `avail` reports room are accepted; a flush of the memory log
accepts as many entries as the log has data blocks; and the answers that `flushall` and
`flushallNomerge` drop are all `true`. -/
theorem log_space_exact [Platform] {n : ℕ} {xp : LogXparams} (k : ℕ)
    (hl : PaddedLog.Layout n xp) :
    (∀ cs s, PaddedLog.Reachable n k xp cs s →
      (∃ m hm, CState n cs m hm s) ∧
      (∀ m hm new cs' ok s', CState n cs m hm s →
        Exec diskSem s (PaddedLog.extend xp new cs) (.finished s' (cs', ok)) →
        (ok = false ↔ ¬ PaddedLog.LoglenValid xp
          ((PaddedLog.hdrOf xp m).currentLength.1 + PaddedLog.ndescLog new)
          ((PaddedLog.hdrOf xp m).currentLength.2 + PaddedLog.ndataLog new)) ∧
        (ok = false → CState n cs' m hm s')) ∧
      ∀ new, (∀ e ∈ new, PaddedLog.EntryValid e) → wp diskSem (do
        let (cs, na) ← PaddedLog.avail xp cs
        let (_, ok) ← PaddedLog.extend xp new cs
        pure (na, ok)) (fun r _ => new.length ≤ r.1 → r.2 = true) (fun _ => True) s) ∧
    (∀ ms s, GLog.Reachable n k xp ms s →
      (∀ ents, MLog.InRange xp ents → ents.length ≤ xp.logLen →
        wp diskSem (MLog.flush xp ents ms.msLL) (fun r _ => r.2 = true) (fun _ => True) s) ∧
      (Erases diskSem Prod.fst (GLog.flushallChecked xp ms) (GLog.flushall xp ms) ∧
        wp diskSem (GLog.flushallChecked xp ms) (fun r _ => ∀ ok ∈ r.2, ok = true)
          (fun _ => True) s) ∧
      Erases diskSem Prod.fst (GLog.flushallNomergeChecked xp ms) (GLog.flushallNomerge xp ms) ∧
        wp diskSem (GLog.flushallNomergeChecked xp ms) (fun r _ => ∀ ok ∈ r.2, ok = true)
          (fun _ => True) s) := by
  refine ⟨fun cs s h => ?_, fun ms s h => ?_⟩
  · obtain ⟨l, hlog⟩ := h.logIs hl
    refine ⟨?_, fun m hm new cs' ok s' h' e => PaddedLog.extend_answer hl h' e,
      fun new hnew => PaddedLog.wp_availExtend hl hlog hnew⟩
    obtain ⟨m, hm, h', -⟩ := hlog
    exact ⟨m, hm, h'⟩
  · obtain ⟨B, pend, hg⟩ := h.live hl
    have hD := Set.subset_univ (GLog.crashAll xp B pend)
    refine ⟨fun ents hr hlen => ?_, ⟨GLog.flushallChecked_erases xp ms, ?_⟩,
      GLog.flushallNomergeChecked_erases xp ms, ?_⟩
    · exact (MLog.wp_flush hl hg.mlog hr hlen (Set.subset_univ _) (Set.subset_univ _)
        fun ms' s' _ => rfl).anyCrash
    · exact (GLog.wp_flushallChecked hl hg hD fun ms' oks s' _ h' => h').anyCrash
    · exact (GLog.wp_flushallNomergeChecked hl hg hD fun ms' oks s' _ h' => h').anyCrash

namespace Sample

local instance logSpacePlatform : Platform := platform

theorem initialised_boot : PaddedLog.Initialised 518 xp (BufCache.cache0 10) boot :=
  ⟨_, _, booted.cstate, ⟨ADisk.syncedAt_synced disk _, PaddedLog.Hdr.empty,
    PaddedLog.Hdr.empty_good, rfl, PaddedLog.holds_nil xp _ _⟩, rfl⟩

/-- The sample disk has room for an entry, and its group log can be flushed. -/
theorem log_space_exact_boot :
    wp diskSem (do
      let (cs, na) ← PaddedLog.avail xp (BufCache.cache0 10)
      let (_, ok) ← PaddedLog.extend xp [(1, 7)] cs
      pure (na, ok)) (fun r _ => 1 ≤ r.1 → r.2 = true) (fun _ => True) boot ∧
    wp diskSem (MLog.flush xp [(1, 7)] ⟨∅, BufCache.cache0 10⟩) (fun r _ => r.2 = true)
      (fun _ => True) boot ∧
    wp diskSem (GLog.flushallChecked xp ⟨∅, [], ⟨∅, BufCache.cache0 10⟩⟩)
      (fun r _ => ∀ ok ∈ r.2, ok = true) (fun _ => True) boot := by
  have h := log_space_exact 10 layout
  have h₁ := h.1 _ _ (.init initialised_boot)
  have h₂ := h.2 ⟨∅, [], ⟨∅, BufCache.cache0 10⟩⟩ boot (.init ⟨rfl, initialised_boot⟩)
  refine ⟨h₁.2.2 [(1, 7)] ?_, h₂.1 [(1, 7)] ?_ ?_, h₂.2.1.2⟩
  · simp [PaddedLog.EntryValid, addrlen]
  · simp [MLog.InRange, MLog.dataSize, xp]
  · simp [xp]

end Sample

end Fscq
