import Fscq.LogReplay

/-!
# The memory log

The memory log keeps the values of the entries of the disk log in memory.  Reads look there first,
and when the disk log is full its values are applied to their home locations.  The abstract view is
a disk `B` of `dataSize` blocks; `MRep n xp B ms m hm` says that the memory log `ms` on the disk `m`
represents `B`, and `Leads n xp m hm D` that recovery after a crash ends with a disk in `D`.
-/

namespace Fscq

open CrashProg

open PaddedLog (Contents)

namespace MLog

/-! ### The data section -/

/-- The number of blocks of the data section. -/
def dataSize (xp : LogXparams) : ℕ := xp.logHeader - xp.dataStart

/-- The entries are in the data section, and not at block zero. -/
def InRange (xp : LogXparams) (l : Contents) : Prop := ∀ e ∈ l, e.1 ≠ 0 ∧ e.1 < dataSize xp

/-- The disk of the data section, with a log replayed onto it. -/
def view (xp : LogXparams) (l : Contents) (f : ℕ → Valu) (a : ℕ) : Valu :=
  if a < dataSize xp then replayDisk l (fun a => f (xp.dataStart + a)) a else 0

/-- The logical disk: the data section of `m` under the values of the log. -/
def logical (xp : LogXparams) (mp : Valumap) (m : ADisk) : ADisk :=
  ADisk.install ⟨fun a => m.cur (xp.dataStart + a), fun a => m.poss (xp.dataStart + a)⟩ mp

/-- The disks that a crash of `B` may leave. -/
def crashSet (xp : LogXparams) (B : ADisk) : Set (ℕ → Valu) :=
  {D | ∀ a, if a < dataSize xp then D a ∈ B.poss a else D a = 0}

section

variable {n : ℕ} {xp : LogXparams} {B m : ADisk} {l ents : Contents} {f : ℕ → Valu} {a : ℕ}

theorem view_of_lt (h : a < dataSize xp) :
    view xp l f a = ((replayMem l ∅)[a]?).getD (f (xp.dataStart + a)) := by
  rw [view, if_pos h, replayDisk_eq]

theorem home_lt (hl : PaddedLog.Layout n xp) (h : a < dataSize xp) :
    xp.dataStart + a < xp.logHeader ∧ xp.dataStart + a < n := by
  have h₁ := hl.start_le
  have h₂ := hl.header_lt_size
  unfold dataSize at h
  omega

/-- A view is one of the crash disks when each of its blocks is. -/
theorem view_mem_crashSet (h : ∀ a < dataSize xp,
    ((replayMem l ∅)[a]?).getD (f (xp.dataStart + a)) ∈ B.poss a) :
    view xp l f ∈ crashSet xp B := by
  intro a
  split_ifs with ha
  · rw [view_of_lt ha]
    exact h a ha
  · rw [view, if_neg ha]

theorem entryValid_of_inRange (hl : PaddedLog.Layout n xp) (hr : InRange xp ents) :
    ∀ e ∈ ents, PaddedLog.EntryValid e := by
  intro e he
  have h₁ := hr e he
  have h₂ := home_lt hl h₁.2
  have h₃ := hl.size_lt
  exact ⟨h₁.1, by omega⟩

theorem mem_keys_iff {mp : Valumap} : a ∈ mp.keys ↔ ∃ v, mp[a]? = some v := by
  rw [Std.ExtTreeMap.mem_keys, ← Option.isSome_iff_exists, Std.ExtTreeMap.isSome_getElem?_iff_mem]

/-- The home blocks while and after the log is applied. -/
theorem sameAt_apply (m : ADisk) (xp : LogXparams) {mp : Valumap} (k : ℕ) (ha : mp[a]? = none) :
    m.SameAt (m.writes ((ADisk.vecWrites xp.dataStart mp.toList).take k)) (xp.dataStart + a) := by
  apply ADisk.sameAt_writes
  intro av hav e
  obtain ⟨⟨b, v⟩, hb, rfl⟩ := List.mem_map.1 (List.mem_of_mem_take hav)
  obtain rfl : b = a := by simpa using e
  rw [Std.ExtTreeMap.mem_toList_iff_getElem?_eq_some.1 hb] at ha
  cases ha

theorem cur_apply {mp : Valumap} {v : Valu} (ha : mp[a]? = some v) :
    (m.writes (ADisk.vecWrites xp.dataStart mp.toList)).cur (xp.dataStart + a) = v := by
  apply ADisk.writes_cur_of_mem
  · have h : (ADisk.vecWrites xp.dataStart mp.toList).map Prod.fst =
        (mp.toList.map Prod.fst).map fun b => xp.dataStart + b := by
      rw [ADisk.vecWrites, List.map_map, List.map_map]
      rfl
    rw [h]
    exact (nodup_toList_keys mp).map fun b c e => Nat.add_left_cancel e
  · exact List.mem_map.2 ⟨(a, v), Std.ExtTreeMap.mem_toList_iff_getElem?_eq_some.2 ha, rfl⟩

end

variable [Platform]

/-! ### The programs -/

/-- The values in the disk log and the state of the cache. -/
structure MemState where
  msInLog : Valumap
  msCache : CacheState

def read (xp : LogXparams) (a : ℕ) (ms : MemState) : Prog (MemState × Valu) :=
  match ms.msInLog[a]? with
  | some v => pure (ms, v)
  | none => do
    let (cs, v) ← BufCache.readArray xp.dataStart a ms.msCache
    pure (⟨ms.msInLog, cs⟩, v)

def flushNoapply (xp : LogXparams) (ents : Contents) (ms : MemState) : Prog (MemState × Bool) := do
  let (cs, ok) ← DLog.extend xp ents ms.msCache
  if ok then pure (⟨replayMem ents ms.msInLog, cs⟩, true)
  else pure (⟨ms.msInLog, cs⟩, false)

/-- Write the values of the log to their home locations and empty the log. -/
def apply (xp : LogXparams) (ms : MemState) : Prog MemState := do
  let cs ← BufCache.writeVecs xp.dataStart ms.msInLog.toList ms.msCache
  let cs ← BufCache.syncVecsNow xp.dataStart ms.msInLog.keys cs
  let cs ← DLog.trunc xp cs
  pure ⟨∅, cs⟩

def flush (xp : LogXparams) (ents : Contents) (ms : MemState) : Prog (MemState × Bool) :=
  if ents.length = 0 then pure (ms, true)
  else do
    let (cs, na) ← DLog.avail xp ms.msCache
    let ms := ⟨ms.msInLog, cs⟩
    let ms ← if na < ents.length then apply xp ms else pure ms
    flushNoapply xp ents ms

def syncCache (_xp : LogXparams) (ms : MemState) : Prog MemState := do
  let cs ← BufCache.syncAll ms.msCache
  pure ⟨ms.msInLog, cs⟩

/-- Write a block past the log. -/
def dwrite (xp : LogXparams) (a : ℕ) (v : Valu) (ms : MemState) : Prog MemState := do
  let ms ← if a ∈ ms.msInLog then apply xp ms else pure ms
  let cs ← BufCache.writeArray xp.dataStart a v ms.msCache
  pure ⟨ms.msInLog, cs⟩

def dwriteVecs (xp : LogXparams) (avl : List (ℕ × Valu)) (ms : MemState) : Prog MemState := do
  let ms ← if overlap (avl.map Prod.fst) ms.msInLog then apply xp ms else pure ms
  let cs ← BufCache.writeVecs xp.dataStart avl ms.msCache
  pure ⟨ms.msInLog, cs⟩

def dsyncVecs (xp : LogXparams) (al : List ℕ) (ms : MemState) : Prog MemState := do
  let cs ← BufCache.syncVecsNow xp.dataStart al ms.msCache
  pure ⟨ms.msInLog, cs⟩

/-- Sync a block past the log. -/
def dsync (xp : LogXparams) (a : ℕ) (ms : MemState) : Prog MemState := do
  let cs ← BufCache.beginSync ms.msCache
  let cs ← BufCache.syncArray xp.dataStart a cs
  let cs ← BufCache.endSync cs
  pure ⟨ms.msInLog, cs⟩

def recover (xp : LogXparams) (cs : CacheState) : Prog MemState := do
  let cs ← DLog.recover xp cs
  let (cs, log) ← DLog.read xp cs
  pure ⟨replayMem log ∅, cs⟩

def init (xp : LogXparams) (cs : CacheState) : Prog MemState := do
  let cs ← DLog.init xp cs
  pure ⟨∅, cs⟩

/-- Recovery after a reboot, with a fresh cache. -/
def recoverBoot (k : ℕ) (xp : LogXparams) : Prog MemState := do
  let cs ← BufCache.initRecover k
  recover xp cs

/-! ## The abstract disk of the log -/

/-- Whatever a crash leaves, recovery ends with a disk in `D`. -/
def Leads (n : ℕ) (xp : LogXparams) (m : ADisk) (hm : Hashmap) (D : Set (ℕ → Valu)) : Prop :=
  ∃ S, PaddedLog.Recoverable xp m hm S ∧ ∀ l ∈ S, InRange xp l ∧
    ∀ f, m.CrashesTo n f → view xp l f ∈ D

/-- The memory log represents the disk `B`. -/
structure MRep (xp : LogXparams) (B : ADisk) (ms : MemState) (m : ADisk) (hm : Hashmap)
    (l : Contents) : Prop where
  synced : PaddedLog.Synced xp m hm l
  inLog : ms.msInLog = replayMem l ∅
  range : InRange xp l
  logged : ∀ a v, ms.msInLog[a]? = some v → B.cur a = v ∧ v ∈ B.poss a
  home : ∀ a < dataSize xp, ms.msInLog[a]? = none →
    B.cur a = m.cur (xp.dataStart + a) ∧ m.poss (xp.dataStart + a) ⊆ B.poss a

variable {n : ℕ} {xp : LogXparams} {B : ADisk} {ms : MemState} {m m' : ADisk} {hm hm' : Hashmap}
  {l ents : Contents} {s : St} {D : Set (ℕ → Valu)} {f : ℕ → Valu} {a : ℕ}

/-- The memory log in a state of the machine. -/
def MState (n : ℕ) (xp : LogXparams) (B : ADisk) (ms : MemState) (s : St) : Prop :=
  ∃ m hm l, CState n ms.msCache m hm s ∧ MRep xp B ms m hm l

/-- A crash state from which recovery ends with a disk in `D`. -/
def MCrash (n : ℕ) (xp : LogXparams) (D : Set (ℕ → Valu)) (s : St) : Prop :=
  CCrash n (fun m hm => Leads n xp m hm D) s

theorem Leads.mono {D' : Set (ℕ → Valu)} (h : Leads n xp m hm D) (hD : D ⊆ D') :
    Leads n xp m hm D' := by
  obtain ⟨S, hS, h⟩ := h
  exact ⟨S, hS, fun l hl => ⟨(h l hl).1, fun f hf => hD ((h l hl).2 f hf)⟩⟩

/-- What a crash leaves leads to the same disks. -/
theorem Leads.crash (h : Leads n xp m hm D) (hl : PaddedLog.Layout n xp)
    (hf : m.CrashesTo n f) : Leads n xp (ADisk.synced f) hm D := by
  obtain ⟨S, hS, h⟩ := h
  refine ⟨S, hS.crash hl hf, fun l hlS => ⟨(h l hlS).1, fun g hg => (h l hlS).2 g ?_⟩⟩
  intro a ha
  have e : g a = f a := hg a ha
  rw [e]
  exact hf a ha

/-- A memory log whose home blocks may hold new values of the logged blocks. -/
theorem MRep.leads_of_frame (h : MRep xp B ms m hm l) (hl : PaddedLog.Layout n xp)
    (hr : PaddedLog.Recoverable xp m' hm' {l})
    (hf : ∀ a < dataSize xp, ms.msInLog[a]? = none →
      m'.poss (xp.dataStart + a) ⊆ m.poss (xp.dataStart + a)) :
    Leads n xp m' hm' (crashSet xp B) := by
  refine ⟨{l}, hr, ?_⟩
  rintro l' rfl
  refine ⟨h.range, fun f hf' => view_mem_crashSet fun a ha => ?_⟩
  rw [← h.inLog]
  cases hv : ms.msInLog[a]? with
  | some v => exact (h.logged a v hv).2
  | none => exact (h.home a ha hv).2 (hf a ha hv (hf' _ (home_lt hl ha).2))

theorem MRep.leads (h : MRep xp B ms m hm l) (hl : PaddedLog.Layout n xp) :
    Leads n xp m hm (crashSet xp B) :=
  h.leads_of_frame hl (h.synced.recoverable rfl) fun _ _ _ => subset_rfl

theorem MState.crash (h : MState n xp B ms s) (hl : PaddedLog.Layout n xp)
    (hD : crashSet xp B ⊆ D) : MCrash n xp D s := by
  obtain ⟨m, hm, l, h, hr⟩ := h
  exact h.crash ((hr.leads hl).mono hD)

/-! ## What the operations do -/

theorem wp_read {Q : MemState × Valu → St → Prop} (hl : PaddedLog.Layout n xp)
    (h : MState n xp B ms s) (ha : a < dataSize xp) (hD : crashSet xp B ⊆ D)
    (hQ : ∀ ms' s', MState n xp B ms' s' → ms'.msInLog = ms.msInLog → Q (ms', B.cur a) s') :
    wp diskSem (read xp a ms) Q (MCrash n xp D) s := by
  have h₀ := h
  obtain ⟨m, hm, l, h, hr⟩ := h
  unfold read
  split
  next v hv =>
    apply wp_pure
    rw [← (hr.logged a v hv).1]
    exact hQ ms s h₀ rfl
  next hv =>
    apply wp_bind
    apply BufCache.wp_read h (home_lt hl ha).2 ((hr.leads hl).mono hD)
    intro cs s h'
    apply wp_pure
    rw [← (hr.home a ha hv).1]
    exact hQ ⟨ms.msInLog, cs⟩ s ⟨m, hm, l, h', hr.synced, hr.inLog, hr.range, hr.logged, hr.home⟩ rfl

/-- Writes to home locations leave the log alone. -/
theorem frame_log_of_home (avs : List (ℕ × Valu)) (hs : PaddedLog.Synced xp m hm l)
    (hl : PaddedLog.Layout n xp) (hav : ∀ av ∈ avs, av.1 < xp.logHeader) :
    PaddedLog.Synced xp (m.writes avs) hm l := by
  have hh := hl.header_lt
  have hd := hl.desc_le
  have hsame : ∀ a, xp.logHeader ≤ a → m.SameAt (m.writes avs) a := fun a ha =>
    ADisk.sameAt_writes fun av h => by
      have := hav av h
      omega
  refine hs.keeps (.refl hm) (fun len a ha hs => ?_) (hsame _ le_rfl).1
    ((hsame _ le_rfl).syncedAt hs.1)
  have : xp.logHeader ≤ a := by
    unfold PaddedLog.LogArea at ha
    omega
  exact ⟨(hsame a this).1, (hsame a this).syncedAt hs⟩

/-- Syncing never disturbs the log. -/
theorem synced_sync {T : Set ℕ} (hs : PaddedLog.Synced xp m hm l) :
    PaddedLog.Synced xp (m.sync T) hm l :=
  hs.keeps (.refl hm) (PaddedLog.keeps_sync T) rfl hs.1.sync

/-- Applying the log empties it and keeps the abstract disk. -/
theorem wp_apply {Q : MemState → St → Prop} {CC : ADisk → Hashmap → Prop}
    (hl : PaddedLog.Layout n xp) (h : CState n ms.msCache m hm s) (hr : MRep xp B ms m hm l)
    (hc : ∀ m' hm', Leads n xp m' hm' (crashSet xp B) → CC m' hm')
    (hQ : ∀ cs' m' hm' s', CState n cs' m' hm' s' → MRep xp B ⟨∅, cs'⟩ m' hm' [] →
      PaddedLog.navail xp m' = xp.logLen → Q ⟨∅, cs'⟩ s') :
    wp diskSem (apply xp ms) Q (CCrash n CC) s := by
  have hlt : ∀ a v, ms.msInLog[a]? = some v → a < dataSize xp := by
    intro a v hv
    rw [hr.inLog] at hv
    exact (hr.range _ (mem_of_getElem?_replayMem hv)).2
  have hsync : ∀ k, PaddedLog.Synced xp
      (m.writes ((ADisk.vecWrites xp.dataStart ms.msInLog.toList).take k)) hm l := by
    intro k
    refine frame_log_of_home _ hr.synced hl fun av hav => ?_
    obtain ⟨⟨a, v⟩, hb, rfl⟩ := List.mem_map.1 (List.mem_of_mem_take hav)
    exact (home_lt hl (hlt a v (Std.ExtTreeMap.mem_toList_iff_getElem?_eq_some.1 hb))).1
  have hcrash : ∀ k, CC (m.writes ((ADisk.vecWrites xp.dataStart ms.msInLog.toList).take k)) hm :=
    fun k => hc _ _ (hr.leads_of_frame hl ((hsync k).recoverable rfl) fun a _ ha => by
      rw [(sameAt_apply m xp k ha).2])
  unfold apply
  apply wp_bind
  apply BufCache.wp_writeVecs h _ hcrash
  · intro cs s h
    have hsync' := hsync (ADisk.vecWrites xp.dataStart ms.msInLog.toList).length
    have hcrash' := hcrash (ADisk.vecWrites xp.dataStart ms.msInLog.toList).length
    rw [List.take_length] at hsync' hcrash'
    have hsame : ∀ a, ms.msInLog[a]? = none →
        m.SameAt (m.writes (ADisk.vecWrites xp.dataStart ms.msInLog.toList)) (xp.dataStart + a) := by
      intro a ha
      have := sameAt_apply m xp (ADisk.vecWrites xp.dataStart ms.msInLog.toList).length ha
      rwa [List.take_length] at this
    generalize hm₁ : m.writes (ADisk.vecWrites xp.dataStart ms.msInLog.toList) = m₁ at *
    have hcur : ∀ a v, ms.msInLog[a]? = some v → m₁.cur (xp.dataStart + a) = v := by
      intro a v hv
      rw [← hm₁]
      exact cur_apply hv
    apply wp_bind
    apply BufCache.wp_syncVecsNow h hcrash'
    intro cs s h
    have hsync₂ := synced_sync (T := {b | ∃ i ∈ ms.msInLog.keys, b = xp.dataStart + i}) hsync'
    generalize hm₂ : m₁.sync {b | ∃ i ∈ ms.msInLog.keys, b = xp.dataStart + i} = m₂ at *
    -- the home blocks hold the abstract disk now
    have hhome : ∀ a < dataSize xp, B.cur a = m₂.cur (xp.dataStart + a) ∧
        m₂.poss (xp.dataStart + a) ⊆ B.poss a := by
      intro a ha
      subst hm₂
      cases hv : ms.msInLog[a]? with
      | some v =>
        obtain ⟨hb, hp⟩ := hr.logged a v hv
        have hsy : (m₁.sync {b | ∃ i ∈ ms.msInLog.keys, b = xp.dataStart + i}).SyncedAt
            (xp.dataStart + a) := ADisk.syncedAt_sync ⟨a, mem_keys_iff.2 ⟨v, hv⟩, rfl⟩
        refine ⟨hb.trans (hcur a v hv).symm, fun x hx => ?_⟩
        rw [hsy x hx, ADisk.sync_cur, hcur a v hv]
        exact hp
      | none =>
        obtain ⟨hb, hp⟩ := hr.home a ha hv
        have hnot : xp.dataStart + a ∉ {b | ∃ i ∈ ms.msInLog.keys, b = xp.dataStart + i} := by
          rintro ⟨i, hi, e⟩
          obtain rfl : a = i := by omega
          obtain ⟨v, hv'⟩ := mem_keys_iff.1 hi
          rw [hv] at hv'
          cases hv'
        have hs' := (hsame a hv).trans (ADisk.sameAt_sync hnot)
        exact ⟨hb.trans hs'.1.symm, by rw [hs'.2]; exact hp⟩
    apply wp_bind
    apply PaddedLog.wp_trunc hl h hsync₂
    · intro m' hm' hfr hle hrec
      refine hc m' hm' ⟨_, hrec, fun l' hl' => ⟨?_, fun f hf => view_mem_crashSet fun a ha => ?_⟩⟩
      · rcases hl' with rfl | rfl
        · exact hr.range
        · exact fun e he => (List.not_mem_nil he).elim
      · have hfa : f (xp.dataStart + a) ∈ B.poss a := by
          apply (hhome a ha).2
          rw [← (hfr _ (home_lt hl ha).1).2]
          exact hf _ (home_lt hl ha).2
        rcases hl' with rfl | rfl
        · rw [← hr.inLog]
          cases hv : ms.msInLog[a]? with
          | some v => exact (hr.logged a v hv).2
          | none => exact hfa
        · simpa [replayMem] using hfa
    · intro cs m' hm' s h hfr hle hs hna
      have hna : PaddedLog.navail xp m' = xp.logLen := by
        rw [PaddedLog.navail_eq, hna]
        simp
      apply wp_pure
      refine hQ cs m' hm' s h ⟨hs, rfl, fun e he => (List.not_mem_nil he).elim, fun a v hv => ?_, ?_⟩
        hna
      · simp at hv
      · intro a ha _
        have hs' := hfr _ (home_lt hl ha).1
        rw [hs'.1, hs'.2]
        exact hhome a ha
  · rintro ⟨a, v⟩ hav
    exact (home_lt hl (hlt a v (Std.ExtTreeMap.mem_toList_iff_getElem?_eq_some.1 hav))).2

/-- The abstract disk once the entries are in the log. -/
theorem MRep.install {cs : CacheState} (h : MRep xp B ms m hm l) (hs : PaddedLog.Synced xp m' hm' (l ++ ents))
    (hfr : PaddedLog.Frame xp m m') (hl : PaddedLog.Layout n xp) (hr : InRange xp ents) :
    MRep xp (B.install (replayMem ents ∅)) ⟨replayMem ents ms.msInLog, cs⟩ m' hm' (l ++ ents) where
  synced := hs
  inLog := by rw [replayMem_append, h.inLog]
  range := by
    intro e he
    rcases List.mem_append.1 he with he | he
    · exact h.range e he
    · exact hr e he
  logged a v hv := by
    simp only [getElem?_replayMem ents ms.msInLog a] at hv
    cases hv' : (replayMem ents ∅)[a]? with
    | some w =>
      rw [hv'] at hv
      obtain rfl : w = v := by simpa using hv
      simp [ADisk.install, hv']
    | none =>
      rw [hv'] at hv
      simpa [ADisk.install, hv'] using h.logged a v (by simpa using hv)
  home a ha hv := by
    simp only [getElem?_replayMem ents ms.msInLog a, Option.or_eq_none_iff] at hv
    have hs' := hfr _ (home_lt hl ha).1
    rw [hs'.1, hs'.2]
    simpa [ADisk.install, hv.1] using h.home a ha hv.2

theorem wp_flushNoapply {Q : MemState × Bool → St → Prop} (hl : PaddedLog.Layout n xp)
    (h : CState n ms.msCache m hm s) (hrep : MRep xp B ms m hm l) (hr : InRange xp ents)
    (hna : ents.length ≤ PaddedLog.navail xp m)
    (hD : crashSet xp B ⊆ D) (hD' : crashSet xp (B.install (replayMem ents ∅)) ⊆ D)
    (hQ : ∀ ms' s', MState n xp (B.install (replayMem ents ∅)) ms' s' → Q (ms', true) s') :
    wp diskSem (flushNoapply xp ents ms) Q (MCrash n xp D) s := by
  apply wp_bind
  apply PaddedLog.wp_extend hl h hrep.synced (entryValid_of_inRange hl hr)
  · intro m' hm' hfr hle hrec
    refine ⟨_, hrec, fun l' hl' => ?_⟩
    have hp : ∀ f, m'.CrashesTo n f → ∀ a < dataSize xp, ms.msInLog[a]? = none →
        f (xp.dataStart + a) ∈ B.poss a := by
      intro f hf a ha hv
      apply (hrep.home a ha hv).2
      rw [← (hfr _ (home_lt hl ha).1).2]
      exact hf _ (home_lt hl ha).2
    rcases hl' with rfl | rfl
    · refine ⟨hrep.range, fun f hf => hD (view_mem_crashSet fun a ha => ?_)⟩
      rw [← hrep.inLog]
      cases hv : ms.msInLog[a]? with
      | some v => exact (hrep.logged a v hv).2
      | none => exact hp f hf a ha hv
    · refine ⟨fun e he => ?_, fun f hf => hD' (view_mem_crashSet fun a ha => ?_)⟩
      · rcases List.mem_append.1 he with he | he
        · exact hrep.range e he
        · exact hr e he
      · rw [replayMem_append, ← hrep.inLog, getElem?_replayMem]
        cases hv' : (replayMem ents ∅)[a]? with
        | some w => simp [ADisk.install, hv']
        | none =>
          cases hv : ms.msInLog[a]? with
          | some v => simpa [ADisk.install, hv'] using (hrep.logged a v hv).2
          | none => simpa [ADisk.install, hv'] using hp f hf a ha hv
  · intro cs m' hm' s h hfr hle hs _
    exact wp_pure (hQ _ _ ⟨m', hm', _, h, hrep.install hs hfr hl hr⟩)
  · intro cs s h hfits
    exact absurd (PaddedLog.fits_of_le_navail hl hrep.synced hna) hfits

theorem MRep.congr {ms' : MemState} (h : MRep xp B ms m hm l) (e : ms'.msInLog = ms.msInLog) :
    MRep xp B ms' m hm l :=
  ⟨h.synced, e.trans h.inLog, h.range, by rw [e]; exact h.logged, by rw [e]; exact h.home⟩

/-- A flush puts its entries into the log, whether or not the log has to be applied first. -/
theorem wp_flush {Q : MemState × Bool → St → Prop} (hl : PaddedLog.Layout n xp)
    (h : MState n xp B ms s) (hr : InRange xp ents) (hlen : ents.length ≤ xp.logLen)
    (hD : crashSet xp B ⊆ D) (hD' : crashSet xp (B.install (replayMem ents ∅)) ⊆ D)
    (hQ : ∀ ms' s', MState n xp (B.install (replayMem ents ∅)) ms' s' → Q (ms', true) s') :
    wp diskSem (flush xp ents ms) Q (MCrash n xp D) s := by
  unfold flush
  split_ifs with h0
  · apply wp_pure
    obtain rfl := List.eq_nil_of_length_eq_zero h0
    apply hQ
    have : replayMem [] ∅ = (∅ : Valumap) := rfl
    rwa [this, ADisk.install_empty]
  obtain ⟨m, hm, l, h, hrep⟩ := h
  apply wp_bind
  apply PaddedLog.wp_avail hl h ((hrep.leads hl).mono hD)
  intro cs s h
  have hrep' : MRep xp B ⟨ms.msInLog, cs⟩ m hm l := hrep.congr rfl
  dsimp only
  split_ifs with hna
  · apply wp_bind
    apply wp_apply hl h hrep' fun m' hm' h' => h'.mono hD
    intro cs m' hm' s h hrep hna'
    exact wp_flushNoapply hl h hrep hr (by omega) hD hD' hQ
  · apply wp_bind
    apply wp_pure
    exact wp_flushNoapply hl h hrep' hr (by omega) hD hD' hQ

/-- The log is applied without a change of the abstract disk. -/
theorem wp_apply' {Q : MemState → St → Prop} (hl : PaddedLog.Layout n xp)
    (h : MState n xp B ms s) (hD : crashSet xp B ⊆ D)
    (hQ : ∀ ms' s', MState n xp B ms' s' → ms'.msInLog = ∅ → Q ms' s') :
    wp diskSem (apply xp ms) Q (MCrash n xp D) s := by
  obtain ⟨m, hm, l, h, hr⟩ := h
  apply wp_apply hl h hr fun m' hm' h' => h'.mono hD
  intro cs' m' hm' s' h' hr' _
  exact hQ _ _ ⟨m', hm', [], h', hr'⟩ rfl

/-- A write to the home block of a block that is not in the log. -/
theorem MRep.write (h : MRep xp B ms m hm l) (hl : PaddedLog.Layout n xp) (ha : a < dataSize xp)
    (hv : ms.msInLog[a]? = none) (v : Valu) :
    MRep xp (B.write a v) ms (m.write (xp.dataStart + a) v) hm l where
  synced := by
    have hsync := frame_log_of_home [(xp.dataStart + a, v)] h.synced hl (by
      intro av hav
      obtain rfl : av = _ := by simpa using hav
      exact (home_lt hl ha).1)
    simpa [ADisk.writes] using hsync
  inLog := h.inLog
  range := h.range
  logged b w hw := by
    have hb : b ≠ a := by
      rintro rfl
      rw [hv] at hw
      cases hw
    simpa [ADisk.write, hb] using h.logged b w hw
  home b hb hv' := by
    by_cases e : b = a
    · subst e
      have hp := (h.home b hb hv').2
      simpa [ADisk.write] using Set.insert_subset_insert hp
    · simpa [ADisk.write, e] using h.home b hb hv'

theorem MRep.writes (hl : PaddedLog.Layout n xp) (avl : List (ℕ × Valu))
    (ha : ∀ av ∈ avl, av.1 < dataSize xp ∧ ms.msInLog[av.1]? = none) (h : MRep xp B ms m hm l) :
    MRep xp (B.writes avl) ms (m.writes (ADisk.vecWrites xp.dataStart avl)) hm l := by
  induction avl generalizing B m with
  | nil => exact h
  | cons av avl ih =>
    obtain ⟨h₁, h₂⟩ := ha av List.mem_cons_self
    exact ih (fun av' h' => ha av' (List.mem_cons_of_mem _ h')) (h.write hl h₁ h₂ av.2)

omit [Platform] in
/-- More writes leave more disks possible. -/
theorem crashSet_writes_take (xp : LogXparams) (B : ADisk) (avl : List (ℕ × Valu)) (k : ℕ) :
    crashSet xp (B.writes (avl.take k)) ⊆ crashSet xp (B.writes avl) := by
  intro d hd a
  have hda := hd a
  split_ifs at hda ⊢
  · have h := ADisk.poss_subset_writes (m := B.writes (avl.take k)) (avl.drop k) a hda
    rwa [← ADisk.writes_append, List.take_append_drop] at h
  · exact hda

theorem wp_dwrite {Q : MemState → St → Prop} {v : Valu} (hl : PaddedLog.Layout n xp)
    (h : MState n xp B ms s) (ha : a < dataSize xp) (hD : crashSet xp B ⊆ D)
    (hQ : ∀ ms' s', MState n xp (B.write a v) ms' s' → Q ms' s') :
    wp diskSem (dwrite xp a v ms) Q (MCrash n xp D) s := by
  -- the write itself, once the block is not in the log
  have hw : ∀ {ms : MemState} {s}, MState n xp B ms s → ms.msInLog[a]? = none →
      wp diskSem (do
        let cs ← BufCache.writeArray xp.dataStart a v ms.msCache
        pure ⟨ms.msInLog, cs⟩) Q (MCrash n xp D) s := by
    rintro ms s ⟨m, hm, l, h, hr⟩ hv
    apply wp_bind
    apply BufCache.wp_write h (home_lt hl ha).2 ((hr.leads hl).mono hD)
    intro cs s h
    exact wp_pure (hQ _ _ ⟨_, hm, l, h, (hr.write hl ha hv v).congr rfl⟩)
  unfold dwrite
  split_ifs with hmem
  · apply wp_bind
    apply wp_apply' hl h hD
    intro ms' s' h' he
    exact hw h' (by simp [he])
  · apply wp_bind
    apply wp_pure
    exact hw h (by simpa using hmem)

theorem wp_dwriteVecs {Q : MemState → St → Prop} {avl : List (ℕ × Valu)}
    (hl : PaddedLog.Layout n xp) (h : MState n xp B ms s) (ha : ∀ av ∈ avl, av.1 < dataSize xp)
    (hD : crashSet xp (B.writes avl) ⊆ D)
    (hQ : ∀ ms' s', MState n xp (B.writes avl) ms' s' → Q ms' s') :
    wp diskSem (dwriteVecs xp avl ms) Q (MCrash n xp D) s := by
  -- the writes themselves, once the blocks are not in the log
  have hw : ∀ {ms : MemState} {s}, MState n xp B ms s → (∀ av ∈ avl, ms.msInLog[av.1]? = none) →
      wp diskSem (do
        let cs ← BufCache.writeVecs xp.dataStart avl ms.msCache
        pure ⟨ms.msInLog, cs⟩) Q (MCrash n xp D) s := by
    rintro ms s ⟨m, hm, l, h, hr⟩ hv
    apply wp_bind
    apply BufCache.wp_writeVecs h fun av hav => (home_lt hl (ha av hav)).2
    · intro k
      have htake : (ADisk.vecWrites xp.dataStart avl).take k =
          ADisk.vecWrites xp.dataStart (avl.take k) := List.map_take.symm
      have hk := hr.writes hl (avl.take k) fun av hav =>
        ⟨ha av (List.mem_of_mem_take hav), hv av (List.mem_of_mem_take hav)⟩
      rw [htake]
      exact (hk.leads hl).mono ((crashSet_writes_take xp B avl k).trans hD)
    · intro cs s h
      exact wp_pure (hQ _ _ ⟨_, hm, l, h, (hr.writes hl avl fun av hav =>
        ⟨ha av hav, hv av hav⟩).congr rfl⟩)
  unfold dwriteVecs
  split_ifs with hov
  · apply wp_bind
    apply wp_apply' hl h ((crashSet_writes_take xp B avl 0).trans hD)
    intro ms' s' h' he
    exact hw h' fun av _ => by simp [he]
  · apply wp_bind
    apply wp_pure
    refine hw h fun av hav => Std.ExtTreeMap.getElem?_eq_none fun hmem => hov ?_
    rw [overlap_eq_true_iff]
    exact ⟨av.1, List.mem_map_of_mem hav, hmem⟩

/-- A sync of home blocks. -/
theorem MRep.sync {T T' : Set ℕ} {cs : CacheState} (h : MRep xp B ms m hm l)
    (hT : ∀ a ∈ T', xp.dataStart + a ∈ T) :
    MRep xp (B.sync T') ⟨ms.msInLog, cs⟩ (m.sync T) hm l where
  synced := synced_sync h.synced
  inLog := h.inLog
  range := h.range
  logged a v hv := by
    obtain ⟨h₁, h₂⟩ := h.logged a v hv
    exact ⟨h₁, h₂, fun _ => h₁.symm⟩
  home a ha hv := by
    obtain ⟨h₁, h₂⟩ := h.home a ha hv
    exact ⟨h₁, fun x hx => ⟨h₂ hx.1, fun h' => (hx.2 (hT a h')).trans h₁.symm⟩⟩

theorem wp_dsync {Q : MemState → St → Prop} (hl : PaddedLog.Layout n xp)
    (h : MState n xp B ms s) (hD : crashSet xp B ⊆ D)
    (hQ : ∀ ms' s', MState n xp (B.sync {b | b = a}) ms' s' → Q ms' s') :
    wp diskSem (dsync xp a ms) Q (MCrash n xp D) s := by
  obtain ⟨m, hm, l, h, hr⟩ := h
  have hc := (hr.leads hl).mono hD
  unfold dsync BufCache.beginSync
  apply wp_bind
  apply wp_pure
  apply wp_bind
  apply BufCache.wp_writeback h hc
  intro cs s h hclean _
  apply wp_bind
  apply BufCache.wp_endSync (S := {b | b = xp.dataStart + a}) h _ hc
  · intro s h
    exact wp_pure (hQ _ _ ⟨_, hm, l, h, hr.sync fun b hb => congrArg (xp.dataStart + ·) hb⟩)
  · rintro b rfl
    exact hclean

theorem wp_dsyncVecs {Q : MemState → St → Prop} {al : List ℕ} (hl : PaddedLog.Layout n xp)
    (h : MState n xp B ms s) (hD : crashSet xp B ⊆ D)
    (hQ : ∀ ms' s', MState n xp (B.sync {b | b ∈ al}) ms' s' → Q ms' s') :
    wp diskSem (dsyncVecs xp al ms) Q (MCrash n xp D) s := by
  obtain ⟨m, hm, l, h, hr⟩ := h
  apply wp_bind
  apply BufCache.wp_syncVecsNow h ((hr.leads hl).mono hD)
  intro cs s h
  apply wp_pure
  exact hQ _ _ ⟨_, hm, l, h, hr.sync fun a ha => ⟨a, ha, rfl⟩⟩

theorem wp_syncCache {Q : MemState → St → Prop} (hl : PaddedLog.Layout n xp)
    (h : MState n xp B ms s) (hD : crashSet xp B ⊆ D)
    (hQ : ∀ ms' s', MState n xp (B.sync Set.univ) ms' s' → Q ms' s') :
    wp diskSem (syncCache xp ms) Q (MCrash n xp D) s := by
  obtain ⟨m, hm, l, h, hr⟩ := h
  apply wp_bind
  apply BufCache.wp_syncAll h ((hr.leads hl).mono hD)
  intro cs s h
  apply wp_pure
  exact hQ _ _ ⟨_, hm, l, h, hr.sync fun a _ => Set.mem_univ _⟩

/-- Recovery ends with one of the disks that the crash condition names. -/
theorem wp_recover {Q : MemState → St → Prop} {cs : CacheState} (hl : PaddedLog.Layout n xp)
    (h : CState n cs (ADisk.synced f) hm s) (hL : Leads n xp (ADisk.synced f) hm D)
    (hQ : ∀ ms' s' d, d ∈ D → MState n xp (ADisk.synced d) ms' s' → Q ms' s') :
    wp diskSem (recover xp cs) Q (MCrash n xp D) s := by
  obtain ⟨S, hrec, hS⟩ := hL
  -- the data section is not touched by the recovery of the log
  have hview : ∀ {m' : ADisk} {g : ℕ → Valu}, PaddedLog.Frame xp (ADisk.synced f) m' →
      m'.CrashesTo n g → ∀ l, view xp l g = view xp l f := by
    intro m' g hfr hg l
    funext a
    by_cases ha : a < dataSize xp
    · have hga := hg _ (home_lt hl ha).2
      rw [(hfr _ (home_lt hl ha).1).2] at hga
      have e : g (xp.dataStart + a) = f (xp.dataStart + a) := hga
      rw [view_of_lt ha, view_of_lt ha, e]
    · simp [view, ha]
  have hself : (ADisk.synced f).CrashesTo n f := fun a _ => rfl
  have hc : ∀ m' hm', PaddedLog.Frame xp (ADisk.synced f) m' →
      PaddedLog.Recoverable xp m' hm' S → Leads n xp m' hm' D := by
    intro m' hm' hfr hrec'
    refine ⟨S, hrec', fun l hlS => ⟨(hS l hlS).1, fun g hg => ?_⟩⟩
    rw [hview hfr hg]
    exact (hS l hlS).2 f hself
  unfold recover
  apply wp_bind
  apply PaddedLog.wp_recover hl h (ADisk.syncedAt_synced f) hrec fun m' hm' hfr _ hr => hc m' hm' hfr hr
  intro cs m' hm' s l hlS h hfr _ hs
  apply wp_bind
  apply PaddedLog.wp_read hl h hs (hc m' hm' hfr (hs.recoverable hlS))
  intro cs s h
  apply wp_pure
  refine hQ _ _ (view xp l f) ((hS l hlS).2 f hself) ⟨m', hm', l, h, hs, rfl, (hS l hlS).1, ?_, ?_⟩
  · intro a v hv
    have ha : a < dataSize xp := ((hS l hlS).1 _ (mem_of_getElem?_replayMem hv)).2
    have : view xp l f a = v := by rw [view_of_lt ha, hv]; rfl
    exact ⟨this, this.symm⟩
  · intro a ha hv
    have hs' := hfr _ (home_lt hl ha).1
    have : view xp l f a = f (xp.dataStart + a) := by rw [view_of_lt ha, hv]; rfl
    rw [hs'.1, hs'.2]
    refine ⟨this, fun x hx => ?_⟩
    exact (show x = f (xp.dataStart + a) from hx).trans this.symm

/-- Recovery ends with one of the disks that the crash condition names, however often it is
interrupted. -/
theorem wp_recoverBoot {s' : St} (k : ℕ) (hl : PaddedLog.Layout n xp) (hc : MCrash n xp D s)
    (hr : Reboot s s') :
    wp diskSem (recoverBoot k xp) (fun ms s => ∃ d ∈ D, MState n xp (ADisk.synced d) ms s)
      (MCrash n xp D) s' := by
  apply BufCache.wp_boot hc hr fun m hm f hL hf => hL.crash hl hf
  intro cs f hm s h hL
  apply wp_recover hl h hL
  intro ms s d hd h
  exact ⟨d, hd, h⟩

/-- A memory log represents its logical disk. -/
theorem mrep_logical (hs : PaddedLog.Synced xp m hm l) (hi : ms.msInLog = replayMem l ∅)
    (hr : InRange xp l) : MRep xp (logical xp ms.msInLog m) ms m hm l where
  synced := hs
  inLog := hi
  range := hr
  logged a v hv := by simp [logical, ADisk.install, hv]
  home a _ hv := by simp [logical, ADisk.install, hv]

/-- Applying the log is crash-safe and invisible.  Wherever `apply` stops, and however often the
recovery that follows is interrupted, the memory log represents the logical disk from before: all of
it when nothing has crashed, and else a disk that holds, in each block, a value that the block could
have had after a crash just before `apply`, which for a logged or synced block is the one it had. -/
theorem apply_crash_safe (k : ℕ) (hl : PaddedLog.Layout n xp) (h : CState n ms.msCache m hm s)
    (hs : PaddedLog.Synced xp m hm l) (hi : ms.msInLog = replayMem l ∅) (hr : InRange xp l) :
    ¬ Exec diskSem s (apply xp ms) .failed ∧
    ∀ out, ExecRecover diskSem Reboot s (apply xp ms) (recoverBoot k xp) out → out.Sat
      (fun ms' s' => MState n xp (logical xp ms.msInLog m) ms' s' ∧ ms'.msInLog = ∅)
      (fun ms' s' => ∃ d, (logical xp ms.msInLog m).CrashesTo (dataSize xp) d ∧
        (∀ a < dataSize xp, a ∈ ms.msInLog ∨ m.SyncedAt (xp.dataStart + a) →
          d a = (logical xp ms.msInLog m).cur a) ∧
        MState n xp (ADisk.synced d) ms' s') := by
  have hrep : MState n xp (logical xp ms.msInLog m) ms s := ⟨m, hm, l, h, mrep_logical hs hi hr⟩
  have hrun : wp diskSem (apply xp ms)
      (fun ms' s' => MState n xp (logical xp ms.msInLog m) ms' s' ∧ ms'.msInLog = ∅)
      (MCrash n xp (crashSet xp (logical xp ms.msInLog m))) s := by
    apply wp_apply' hl hrep subset_rfl
    intro ms' s' h' he
    exact ⟨h', he⟩
  refine ⟨fun e => hrun _ e, fun out e => ?_⟩
  apply e.sound hrun
  · intro s₁ s₂ hc hb
    refine wp_mono (wp_recoverBoot k hl hc hb) ?_ fun _ => id
    rintro ms' s' ⟨d, hd, h'⟩
    have hcr : (logical xp ms.msInLog m).CrashesTo (dataSize xp) d := by
      intro a ha
      have hda := hd a
      rwa [if_pos ha] at hda
    refine ⟨d, hcr, fun a ha hsync => ?_, h'⟩
    have hda := hcr a ha
    unfold logical ADisk.install at hda ⊢
    dsimp only at hda ⊢
    cases hv : ms.msInLog[a]? with
    | some v =>
      rw [hv] at hda
      exact hda
    | none =>
      rw [hv] at hda
      rcases hsync with hmem | hsync
      · rw [← Std.ExtTreeMap.isSome_getElem?_iff_mem, hv] at hmem
        cases hmem
      · exact hsync _ hda

end MLog

namespace Sample

local instance memLogPlatform : Platform := platform

/-- An entry is flushed into the empty log of the sample disk. -/
theorem exists_flushed : ∃ cs s, Exec diskSem boot
    (MLog.flush xp [(1, 7)] ⟨∅, BufCache.cache0 10⟩) (.finished s (⟨{(1, 7)}, cs⟩, true)) := by
  have havail : wp diskSem (DLog.avail xp (BufCache.cache0 10))
      (fun r s => r.2 = 512 ∧ CState 518 r.1 (ADisk.synced disk) .empty s)
      (CCrash 518 fun _ _ => True) boot := by
    refine PaddedLog.wp_avail layout booted.cstate trivial fun cs s h => ⟨?_, h⟩
    change PaddedLog.navail xp (ADisk.synced disk) = 512
    rw [PaddedLog.navail_eq, PaddedLog.hdrOf_encode PaddedLog.Hdr.empty_good header_disk,
      PaddedLog.Hdr.empty, Nat.zero_mul]
    rfl
  have hall : (DLog.avail xp (BufCache.cache0 10)).All diskSem.Enabled :=
    ⟨⟨BufCache.all_read _ _, fun _ => trivial⟩, fun _ => trivial⟩
  obtain ⟨s₁, ⟨cs₁, na⟩, e₁, rfl, h₁⟩ := (canFinish_of_wp hall havail).sat havail
  obtain ⟨cs₂, -, -, s₂, e₂, -⟩ := exists_extended h₁
  refine ⟨cs₂, s₂, ?_⟩
  rw [MLog.flush, if_neg (by decide)]
  exact .bindFinish e₁ (.bindFinish (.ret _ _) (.bindFinish e₂ (.ret _ _)))

/-- A log with one entry, for a block that holds another value, is applied. -/
theorem apply_crash_safe_logged : ∃ cs m s, m.cur 1 = 0 ∧ (MLog.logical xp {(1, 7)} m).cur 1 = 7 ∧
    ¬ Exec diskSem s (MLog.apply xp ⟨{(1, 7)}, cs⟩) .failed ∧
    ∀ out, ExecRecover diskSem Reboot s (MLog.apply xp ⟨{(1, 7)}, cs⟩) (MLog.recoverBoot 10 xp) out →
      out.Sat
        (fun ms' s' => MLog.MState 518 xp (MLog.logical xp {(1, 7)} m) ms' s' ∧ ms'.msInLog = ∅)
        (fun ms' s' => ∃ d, (MLog.logical xp {(1, 7)} m).CrashesTo (MLog.dataSize xp) d ∧
          (∀ a < MLog.dataSize xp, a ∈ ({(1, 7)} : Valumap) ∨ m.SyncedAt (xp.dataStart + a) →
            d a = (MLog.logical xp {(1, 7)} m).cur a) ∧
          MLog.MState 518 xp (ADisk.synced d) ms' s') := by
  obtain ⟨cs, m, hm, s, -, h, hs, hcur⟩ := exists_extended (booted.cstate (k := 10))
  have hr : MLog.InRange xp [(1, 7)] := by simp [MLog.InRange, MLog.dataSize, xp]
  have h' : CState 518 (⟨{(1, 7)}, cs⟩ : MLog.MemState).msCache m hm s := h
  refine ⟨cs, m, s, hcur, ?_, MLog.apply_crash_safe 10 layout h' hs rfl hr⟩
  simp [MLog.logical, ADisk.install]

end Sample

end Fscq
