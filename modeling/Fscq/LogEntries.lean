import Fscq.LogTxn
import Fscq.LogSpace

/-!
# What can be in the log

Nothing gets into the log but what a client has put there.  For a set `E` of entries, `Holds n xp E`
says of each layer that all its entries, in memory and on disk, are in `E`.  Every operation keeps
this if the entries it is given are in `E`, and so does recovery, wherever the machine has crashed.
A write past the log does more: no layer holds an entry for its block any more.
-/

namespace Fscq

open CrashProg

open PaddedLog (Contents)

namespace MLog

/-- The logs with entries in `E`. -/
def LogsIn (xp : LogXparams) (E : Set (ℕ × Valu)) : Set Contents :=
  {l | InRange xp l ∧ ∀ e ∈ l, e ∈ E}

section

variable {xp : LogXparams} {E E' : Set (ℕ × Valu)} {l l' : Contents}

theorem nil_mem_logsIn : [] ∈ LogsIn xp E :=
  ⟨fun _ he => (List.not_mem_nil he).elim, fun _ he => (List.not_mem_nil he).elim⟩

theorem append_mem_logsIn (h : l ∈ LogsIn xp E) (h' : l' ∈ LogsIn xp E) :
    l ++ l' ∈ LogsIn xp E := by
  constructor
  · intro e he
    rcases List.mem_append.1 he with he | he
    · exact h.1 e he
    · exact h'.1 e he
  · intro e he
    rcases List.mem_append.1 he with he | he
    · exact h.2 e he
    · exact h'.2 e he

theorem logsIn_mono (hE : E ⊆ E') : LogsIn xp E ⊆ LogsIn xp E' :=
  fun _ h => ⟨h.1, fun e he => hE (h.2 e he)⟩

/-- The entries of a map that is the replay of such a log. -/
theorem mem_of_replayMem {a : ℕ} {v : Valu} (h : l ∈ LogsIn xp E)
    (hv : (replayMem l ∅)[a]? = some v) : (a, v) ∈ E ∧ a < dataSize xp :=
  ⟨h.2 _ (mem_of_getElem?_replayMem hv), (h.1 _ (mem_of_getElem?_replayMem hv)).2⟩

/-- A block for which the map has no entry has none in the log. -/
theorem mem_logsIn_avoid {P : ℕ → Prop} (h : l ∈ LogsIn xp E)
    (hP : ∀ a, P a → a ∉ replayMem l ∅) : l ∈ LogsIn xp {e ∈ E | ¬ P e.1} := by
  refine ⟨h.1, fun e he => ⟨h.2 e he, fun hp => hP e.1 hp ?_⟩⟩
  rw [← Std.ExtTreeMap.isSome_getElem?_iff_mem, Option.isSome_iff_exists]
  exact getElem?_replayMem_of_mem ⟨e.2, he⟩

end

variable [Platform] {n : ℕ} {xp : LogXparams} {E E' : Set (ℕ × Valu)} {ms : MemState}
  {m m' : ADisk} {hm hm' : Hashmap} {l ents : Contents} {s s' : St} {a : ℕ} {v : Valu}
  {Q : MemState → St → Prop}

/-- All entries of the memory log are in `E`. -/
def Holds (n : ℕ) (xp : LogXparams) (E : Set (ℕ × Valu)) (ms : MemState) (s : St) : Prop :=
  ∃ m hm, CState n ms.msCache m hm s ∧ ∃ l ∈ LogsIn xp E, PaddedLog.Synced xp m hm l ∧
    ms.msInLog = replayMem l ∅

/-- A crash state from which recovery ends with entries in `E`. -/
def HoldsCrash (n : ℕ) (xp : LogXparams) (E : Set (ℕ × Valu)) (s : St) : Prop :=
  CCrash n (fun m hm => PaddedLog.Recoverable xp m hm (LogsIn xp E)) s

theorem Holds.mono (h : Holds n xp E ms s) (hE : E ⊆ E') : Holds n xp E' ms s := by
  obtain ⟨m, hm, h, l, hl, hs⟩ := h
  exact ⟨m, hm, h, l, logsIn_mono hE hl, hs⟩

theorem Holds.crash (h : Holds n xp E ms s) : HoldsCrash n xp E s := by
  obtain ⟨m, hm, h, l, hl, hs, -⟩ := h
  exact h.crash (hs.recoverable hl)

theorem MState.holds {B : ADisk} (h : MState n xp B ms s) : Holds n xp Set.univ ms s := by
  obtain ⟨m, hm, l, h, hr⟩ := h
  exact ⟨m, hm, h, l, ⟨hr.range, fun e _ => Set.mem_univ e⟩, hr.synced, hr.inLog⟩

theorem Holds.wp_read {Q : MemState × Valu → St → Prop} (hl : PaddedLog.Layout n xp)
    (h : Holds n xp E ms s) (ha : a < dataSize xp)
    (hQ : ∀ ms' v s', Holds n xp E ms' s' → Q (ms', v) s') :
    wp diskSem (read xp a ms) Q (HoldsCrash n xp E) s := by
  have h₀ := h
  obtain ⟨m, hm, h, l, hlE, hs, hi⟩ := h
  unfold read
  split
  · exact wp_pure (hQ _ _ _ h₀)
  · apply wp_bind
    apply BufCache.wp_read h (home_lt hl ha).2 (hs.recoverable hlE)
    intro cs s h'
    exact wp_pure (hQ _ _ _ ⟨m, hm, h', l, hlE, hs, hi⟩)

/-- Applying the log writes only values of the log, and empties it. -/
theorem Holds.wp_apply (hl : PaddedLog.Layout n xp) (h : Holds n xp E ms s)
    (hQ : ∀ ms' s', Holds n xp E ms' s' → ms'.msInLog = ∅ → Q ms' s') :
    wp diskSem (apply xp ms) Q (HoldsCrash n xp E) s := by
  obtain ⟨m, hm, h, l, hlE, hs, hi⟩ := h
  have hlt : ∀ e ∈ ms.msInLog.toList, e.1 < dataSize xp := by
    rintro ⟨a, v⟩ he
    rw [Std.ExtTreeMap.mem_toList_iff_getElem?_eq_some, hi] at he
    exact (mem_of_replayMem hlE he).2
  have hsync : ∀ k, PaddedLog.Synced xp
      (m.writes ((ADisk.vecWrites xp.dataStart ms.msInLog.toList).take k)) hm l := by
    intro k
    refine frame_log_of_home _ hs hl fun av hav => ?_
    obtain ⟨e, he, rfl⟩ := List.mem_map.1 (List.mem_of_mem_take hav)
    exact (home_lt hl (hlt e he)).1
  have hall := hsync (ADisk.vecWrites xp.dataStart ms.msInLog.toList).length
  rw [List.take_length] at hall
  unfold apply
  apply wp_bind
  apply BufCache.wp_writeVecs h fun e he => (home_lt hl (hlt e he)).2
  · exact fun k => (hsync k).recoverable hlE
  · intro cs s h
    apply wp_bind
    apply BufCache.wp_syncVecsNow h (hall.recoverable hlE)
    intro cs s h
    apply wp_bind
    apply PaddedLog.wp_trunc hl h (synced_sync hall)
    · intro m' hm' _ _ hr
      apply hr.mono
      rintro l' (rfl | rfl)
      · exact hlE
      · exact nil_mem_logsIn
    · intro cs m' hm' s h _ _ hs' _
      exact wp_pure (hQ _ _ ⟨m', hm', h, [], nil_mem_logsIn, hs', rfl⟩ rfl)

theorem Holds.wp_flush {Q : MemState × Bool → St → Prop} (hl : PaddedLog.Layout n xp)
    (h : Holds n xp E ms s) (he : ents ∈ LogsIn xp E)
    (hQ : ∀ ms' ok s', Holds n xp E ms' s' → Q (ms', ok) s') :
    wp diskSem (flush xp ents ms) Q (HoldsCrash n xp E) s := by
  -- the entries are put into the log or refused
  have hext : ∀ {ms : MemState} {s}, Holds n xp E ms s →
      wp diskSem (flushNoapply xp ents ms) Q (HoldsCrash n xp E) s := by
    rintro ms s ⟨m, hm, h, l, hlE, hs, hi⟩
    apply wp_bind
    apply PaddedLog.wp_extend hl h hs (entryValid_of_inRange hl he.1)
    · intro m' hm' _ _ hr
      apply hr.mono
      rintro l' (rfl | rfl)
      · exact hlE
      · exact append_mem_logsIn hlE he
    · intro cs m' hm' s h _ _ hs' _
      refine wp_pure (hQ _ _ _ ⟨m', hm', h, _, append_mem_logsIn hlE he, hs', ?_⟩)
      rw [replayMem_append, hi]
    · intro cs s h _
      exact wp_pure (hQ _ _ _ ⟨m, hm, h, l, hlE, hs, hi⟩)
  unfold flush
  split_ifs with h0
  · exact wp_pure (hQ _ _ _ h)
  obtain ⟨m, hm, h, l, hlE, hs, hi⟩ := h
  apply wp_bind
  apply PaddedLog.wp_avail hl h (hs.recoverable hlE)
  intro cs s h
  have h' : Holds n xp E ⟨ms.msInLog, cs⟩ s := ⟨m, hm, h, l, hlE, hs, hi⟩
  dsimp only
  split_ifs
  · apply wp_bind
    apply h'.wp_apply hl
    exact fun ms' s' h'' _ => hext h''
  · apply wp_bind
    apply wp_pure
    exact hext h'

theorem HoldsCrash.mono (h : HoldsCrash n xp E s) (hE : E ⊆ E') : HoldsCrash n xp E' s := by
  obtain ⟨cs, m, hm, h, hr⟩ := h
  exact ⟨cs, m, hm, h, hr.mono (logsIn_mono hE)⟩

theorem Holds.avoid {P : ℕ → Prop} (h : Holds n xp E ms s) (hP : ∀ a, P a → a ∉ ms.msInLog) :
    Holds n xp {e ∈ E | ¬ P e.1} ms s := by
  obtain ⟨m, hm, h, l, hlE, hs, hi⟩ := h
  exact ⟨m, hm, h, l, mem_logsIn_avoid hlE (hi ▸ hP), hs, hi⟩

/-- Writes to home locations leave the log alone. -/
theorem Holds.wp_home (hl : PaddedLog.Layout n xp) (h : Holds n xp E ms s)
    (avl : List (ℕ × Valu)) (ha : ∀ av ∈ avl, av.1 < dataSize xp)
    (hQ : ∀ ms' s', Holds n xp E ms' s' → Q ms' s') :
    wp diskSem (do
      let cs ← BufCache.writeVecs xp.dataStart avl ms.msCache
      pure ⟨ms.msInLog, cs⟩) Q (HoldsCrash n xp E) s := by
  obtain ⟨m, hm, h, l, hlE, hs, hi⟩ := h
  have hsync : ∀ k, PaddedLog.Synced xp
      (m.writes ((ADisk.vecWrites xp.dataStart avl).take k)) hm l := by
    intro k
    refine frame_log_of_home _ hs hl fun av hav => ?_
    obtain ⟨e, he, rfl⟩ := List.mem_map.1 (List.mem_of_mem_take hav)
    exact (home_lt hl (ha e he)).1
  have hall := hsync (ADisk.vecWrites xp.dataStart avl).length
  rw [List.take_length] at hall
  apply wp_bind
  apply BufCache.wp_writeVecs h fun e he => (home_lt hl (ha e he)).2
  · exact fun k => (hsync k).recoverable hlE
  · intro cs s h
    exact wp_pure (hQ _ _ ⟨_, hm, h, l, hlE, hall, hi⟩)

/-- A write past the log leaves no entry for its block. -/
theorem Holds.wp_dwriteVecs {avl : List (ℕ × Valu)} (hl : PaddedLog.Layout n xp)
    (h : Holds n xp E ms s) (ha : ∀ av ∈ avl, av.1 < dataSize xp)
    (hQ : ∀ ms' s', Holds n xp {e ∈ E | ¬ e.1 ∈ avl.map Prod.fst} ms' s' → Q ms' s') :
    wp diskSem (dwriteVecs xp avl ms) Q (HoldsCrash n xp E) s := by
  have hw : ∀ {ms : MemState} {s}, Holds n xp {e ∈ E | ¬ e.1 ∈ avl.map Prod.fst} ms s →
      wp diskSem (do
        let cs ← BufCache.writeVecs xp.dataStart avl ms.msCache
        pure ⟨ms.msInLog, cs⟩) Q (HoldsCrash n xp E) s :=
    fun h' => wp_mono (h'.wp_home hl avl ha hQ) (fun _ _ => id)
      fun s' hc => hc.mono (Set.sep_subset _ _)
  unfold dwriteVecs
  split_ifs with hov
  · apply wp_bind
    apply h.wp_apply hl
    intro ms' s' h' he
    apply hw (h'.avoid _)
    intro b _
    rw [he]
    exact Std.ExtTreeMap.not_mem_empty
  · apply wp_bind
    apply wp_pure
    apply hw (h.avoid _)
    intro b hb hmem
    exact hov (overlap_eq_true_iff.2 ⟨b, hb, hmem⟩)

theorem Holds.wp_dwrite (hl : PaddedLog.Layout n xp) (h : Holds n xp E ms s)
    (ha : a < dataSize xp)
    (hQ : ∀ ms' s', Holds n xp {e ∈ E | ¬ e.1 = a} ms' s' → Q ms' s') :
    wp diskSem (dwrite xp a v ms) Q (HoldsCrash n xp E) s := by
  have hw : ∀ {ms : MemState} {s}, Holds n xp {e ∈ E | ¬ e.1 = a} ms s →
      wp diskSem (do
        let cs ← BufCache.writeArray xp.dataStart a v ms.msCache
        pure ⟨ms.msInLog, cs⟩) Q (HoldsCrash n xp E) s := by
    rintro ms s ⟨m, hm, h, l, hlE, hs, hi⟩
    have hs' : PaddedLog.Synced xp (m.write (xp.dataStart + a) v) hm l :=
      frame_log_of_home [(xp.dataStart + a, v)] hs hl fun av hav => by
        rw [List.mem_singleton.1 hav]
        exact (home_lt hl ha).1
    apply wp_bind
    apply BufCache.wp_write h (home_lt hl ha).2
    · exact hs.recoverable (logsIn_mono (Set.sep_subset _ _) hlE)
    · intro cs s h
      exact wp_pure (hQ _ _ ⟨_, hm, h, l, hlE, hs', hi⟩)
  unfold dwrite
  split_ifs with hmem
  · apply wp_bind
    apply h.wp_apply hl
    intro ms' s' h' he
    apply hw (h'.avoid (P := fun b => b = a) _)
    intro b _
    rw [he]
    exact Std.ExtTreeMap.not_mem_empty
  · apply wp_bind
    apply wp_pure
    apply hw (h.avoid (P := fun b => b = a) _)
    rintro b rfl
    exact hmem

/-- A program that only syncs blocks keeps the log. -/
theorem Holds.wp_dsync (h : Holds n xp E ms s)
    (hQ : ∀ ms' s', Holds n xp E ms' s' → Q ms' s') :
    wp diskSem (dsync xp a ms) Q (HoldsCrash n xp E) s := by
  obtain ⟨m, hm, h, l, hlE, hs, hi⟩ := h
  unfold dsync BufCache.beginSync
  apply wp_bind
  apply wp_pure
  apply wp_bind
  apply BufCache.wp_writeback h (hs.recoverable hlE)
  intro cs s h hclean _
  apply wp_bind
  apply BufCache.wp_endSync (S := {b | b = xp.dataStart + a}) h _ (hs.recoverable hlE)
  · intro s h
    exact wp_pure (hQ _ _ ⟨_, hm, h, l, hlE, synced_sync hs, hi⟩)
  · rintro b rfl
    exact hclean

theorem Holds.wp_dsyncVecs {al : List ℕ} (h : Holds n xp E ms s)
    (hQ : ∀ ms' s', Holds n xp E ms' s' → Q ms' s') :
    wp diskSem (dsyncVecs xp al ms) Q (HoldsCrash n xp E) s := by
  obtain ⟨m, hm, h, l, hlE, hs, hi⟩ := h
  apply wp_bind
  apply BufCache.wp_syncVecsNow h (hs.recoverable hlE)
  intro cs s h
  exact wp_pure (hQ _ _ ⟨_, hm, h, l, hlE, synced_sync hs, hi⟩)

theorem Holds.wp_syncCache (h : Holds n xp E ms s)
    (hQ : ∀ ms' s', Holds n xp E ms' s' → Q ms' s') :
    wp diskSem (syncCache xp ms) Q (HoldsCrash n xp E) s := by
  obtain ⟨m, hm, h, l, hlE, hs, hi⟩ := h
  apply wp_bind
  apply BufCache.wp_syncAll h (hs.recoverable hlE)
  intro cs s h
  exact wp_pure (hQ _ _ ⟨_, hm, h, l, hlE, synced_sync hs, hi⟩)

/-- Recovery reads a log with entries in `E`. -/
theorem wp_recover_holds {cs : CacheState} {f : ℕ → Valu} (hl : PaddedLog.Layout n xp)
    (h : CState n cs (ADisk.synced f) hm s)
    (hr : PaddedLog.Recoverable xp (ADisk.synced f) hm (LogsIn xp E))
    (hQ : ∀ ms' s', Holds n xp E ms' s' → Q ms' s') :
    wp diskSem (recover xp cs) Q (HoldsCrash n xp E) s := by
  unfold recover
  apply wp_bind
  apply PaddedLog.wp_recover hl h (ADisk.syncedAt_synced f) hr fun _ _ _ _ h' => h'
  intro cs m' hm' s l hlE h _ _ hs
  apply wp_bind
  apply PaddedLog.wp_read hl h hs (hs.recoverable hlE)
  intro cs s h
  exact wp_pure (hQ _ _ ⟨m', hm', h, l, hlE, hs, rfl⟩)

end MLog

namespace GLog

variable [Platform] {n : ℕ} {xp : LogXparams} {E E' : Set (ℕ × Valu)} {ms : MemState}
  {ents : Contents} {s s' : St} {a : ℕ} {v : Valu} {Q : MemState → St → Prop}

/-- All entries of the group log and of the memory log are in `E`. -/
structure Holds (n : ℕ) (xp : LogXparams) (E : Set (ℕ × Valu)) (ms : MemState) (s : St) :
    Prop where
  mlog : MLog.Holds n xp E ms.msLL s
  txns : ∀ ents ∈ ms.msTxns, ents ∈ MLog.LogsIn xp E
  vmap : ms.msVMap = collapse ms.msTxns.reverse

theorem GState.holds {B : ADisk} {pend : List Contents} (h : GState n xp B pend ms s) :
    Holds n xp Set.univ ms s where
  mlog := h.mlog.holds
  txns ents he := by
    rw [h.txns, List.mem_reverse] at he
    exact ⟨h.range ents he, fun e _ => Set.mem_univ e⟩
  vmap := by rw [h.vmap, h.txns, List.reverse_reverse]

theorem holds_nil {mm : MLog.MemState} (h : MLog.Holds n xp E mm s) : Holds n xp E ⟨∅, [], mm⟩ s :=
  ⟨h, fun _ he => (List.not_mem_nil he).elim, rfl⟩

theorem Holds.mono (h : Holds n xp E ms s) (hE : E ⊆ E') : Holds n xp E' ms s :=
  ⟨h.mlog.mono hE, fun ents he => MLog.logsIn_mono hE (h.txns ents he), h.vmap⟩

theorem Holds.vmap_mem (h : Holds n xp E ms s) : ms.msVMap.toList ∈ MLog.LogsIn xp E := by
  have hmem : ∀ e ∈ ms.msVMap.toList, ∃ ents ∈ ms.msTxns, e ∈ ents := by
    rintro ⟨a, v⟩ he
    rw [Std.ExtTreeMap.mem_toList_iff_getElem?_eq_some, h.vmap] at he
    obtain ⟨ents, h₁, h₂⟩ := exists_of_collapse he
    exact ⟨ents, List.mem_reverse.1 h₁, h₂⟩
  constructor
  · intro e he
    obtain ⟨ents, h₁, h₂⟩ := hmem e he
    exact (h.txns ents h₁).1 e h₂
  · intro e he
    obtain ⟨ents, h₁, h₂⟩ := hmem e he
    exact (h.txns ents h₁).2 e h₂

/-- Blocks that are not in the map are in none of the transactions. -/
theorem Holds.txns_avoid {P : ℕ → Prop} (h : Holds n xp E ms s) (hP : ∀ a, P a → a ∉ ms.msVMap) :
    ∀ ents ∈ ms.msTxns, ents ∈ MLog.LogsIn xp {e ∈ E | ¬ P e.1} := by
  intro ents he
  refine ⟨(h.txns ents he).1, fun e hee => ⟨(h.txns ents he).2 e hee, fun hp => hP e.1 hp ?_⟩⟩
  rw [h.vmap, collapse_eq_replayMem, ← Std.ExtTreeMap.isSome_getElem?_iff_mem,
    Option.isSome_iff_exists]
  apply getElem?_replayMem_of_mem
  exact ⟨e.2, List.mem_flatten.2 ⟨ents, List.mem_reverse.2 he, hee⟩⟩

theorem Holds.wp_read {Q : MemState × Valu → St → Prop} (hl : PaddedLog.Layout n xp)
    (h : Holds n xp E ms s) (ha : a < MLog.dataSize xp)
    (hQ : ∀ ms' v s', Holds n xp E ms' s' → Q (ms', v) s') :
    wp diskSem (read xp a ms) Q (MLog.HoldsCrash n xp E) s := by
  unfold read
  split
  · exact wp_pure (hQ _ _ _ h)
  · apply wp_bind
    apply h.mlog.wp_read hl ha
    intro mm v s' h'
    exact wp_pure (hQ _ _ _ ⟨h', h.txns, h.vmap⟩)

theorem Holds.wp_submit {Q : MemState × Bool → St → Prop} {C : St → Prop}
    (h : Holds n xp E ms s) (he : ents ∈ MLog.LogsIn xp E)
    (hQ : ∀ ms' ok, Holds n xp E ms' s → Q (ms', ok) s) :
    wp diskSem (submit xp ents ms) Q C s := by
  unfold submit
  split_ifs
  · apply wp_pure
    refine hQ _ _ ⟨h.mlog, ?_, ?_⟩
    · intro ents' he'
      rcases List.mem_cons.1 he' with rfl | he'
      · exact he
      · exact h.txns ents' he'
    · rw [List.reverse_cons, collapse_append, h.vmap]
  · exact wp_pure (hQ _ _ h)

theorem Holds.wp_flushallNomerge (hl : PaddedLog.Layout n xp) (h : Holds n xp E ms s)
    (hQ : ∀ ms' s', Holds n xp E ms' s' → ms'.msVMap = ∅ → Q ms' s') :
    wp diskSem (flushallNomerge xp ms) Q (MLog.HoldsCrash n xp E) s := by
  have hget : ∀ i, ms.msTxns.getD i [] ∈ MLog.LogsIn xp E := by
    intro i
    rw [List.getD_eq_getElem?_getD]
    cases hi : ms.msTxns[i]? with
    | none => exact MLog.nil_mem_logsIn
    | some ents => exact h.txns ents (List.mem_of_getElem? hi)
  apply wp_bind
  refine wp_mono (wp_forN (N := ms.msTxns.length) (fun _ mm s => MLog.Holds n xp E mm s) ?_
    ms.msTxns.length 0 _ s (Nat.zero_add _) h.mlog) ?_ fun _ => id
  · intro i mm s _ h'
    apply wp_bind
    apply h'.wp_flush hl (hget _)
    intro mm' ok s' h''
    exact wp_pure h''
  · intro mm s' h'
    exact wp_pure (hQ _ _ (holds_nil h') rfl)

theorem Holds.wp_flushall (hl : PaddedLog.Layout n xp) (h : Holds n xp E ms s)
    (hQ : ∀ ms' s', Holds n xp E ms' s' → ms'.msVMap = ∅ → Q ms' s') :
    wp diskSem (flushall xp ms) Q (MLog.HoldsCrash n xp E) s := by
  unfold flushall
  split_ifs
  · apply wp_bind
    apply h.mlog.wp_flush hl h.vmap_mem
    intro mm ok s' h'
    exact wp_pure (hQ _ _ (holds_nil h') rfl)
  · exact h.wp_flushallNomerge hl hQ

theorem Holds.wp_flushsync (hl : PaddedLog.Layout n xp) (h : Holds n xp E ms s)
    (hQ : ∀ ms' s', Holds n xp E ms' s' → Q ms' s') :
    wp diskSem (flushsync xp ms) Q (MLog.HoldsCrash n xp E) s := by
  apply wp_bind
  apply h.wp_flushall hl
  intro ms' s' h' _
  apply wp_bind
  apply h'.mlog.wp_apply hl
  intro mm s'' h'' _
  exact wp_pure (hQ _ _ ⟨h'', h'.txns, h'.vmap⟩)

/-- A write past the log leaves no entry for its block, neither in the transactions nor below. -/
theorem Holds.wp_dwrite (hl : PaddedLog.Layout n xp) (h : Holds n xp E ms s)
    (ha : a < MLog.dataSize xp)
    (hQ : ∀ ms' s', Holds n xp {e ∈ E | ¬ e.1 = a} ms' s' → Q ms' s') :
    wp diskSem (dwrite xp a v ms) Q (MLog.HoldsCrash n xp E) s := by
  have hw : ∀ {ms : MemState} {s}, Holds n xp E ms s → a ∉ ms.msVMap →
      wp diskSem (dwrite' xp a v ms) Q (MLog.HoldsCrash n xp E) s := by
    intro ms s h hmem
    apply wp_bind
    apply h.mlog.wp_dwrite hl ha
    intro mm s' h'
    refine wp_pure (hQ _ _ ⟨h', h.txns_avoid (P := fun b => b = a) ?_, h.vmap⟩)
    rintro b rfl
    exact hmem
  unfold dwrite
  split_ifs with hmem
  · apply wp_bind
    apply h.wp_flushall hl
    intro ms' s' h' he
    apply hw h'
    rw [he]
    exact Std.ExtTreeMap.not_mem_empty
  · exact hw h hmem

theorem Holds.wp_dwriteVecs {avs : List (ℕ × Valu)} (hl : PaddedLog.Layout n xp)
    (h : Holds n xp E ms s) (ha : ∀ av ∈ avs, av.1 < MLog.dataSize xp)
    (hQ : ∀ ms' s', Holds n xp {e ∈ E | ¬ e.1 ∈ avs.map Prod.fst} ms' s' → Q ms' s') :
    wp diskSem (dwriteVecs xp avs ms) Q (MLog.HoldsCrash n xp E) s := by
  have hw : ∀ {ms : MemState} {s}, Holds n xp E ms s →
      (∀ a ∈ avs.map Prod.fst, a ∉ ms.msVMap) →
      wp diskSem (dwriteVecs' xp avs ms) Q (MLog.HoldsCrash n xp E) s := by
    intro ms s h hmem
    apply wp_bind
    apply h.mlog.wp_dwriteVecs hl ha
    intro mm s' h'
    exact wp_pure (hQ _ _ ⟨h', h.txns_avoid hmem, h.vmap⟩)
  unfold dwriteVecs
  split_ifs with hov
  · apply wp_bind
    apply h.wp_flushall hl
    intro ms' s' h' he
    apply hw h'
    intro b _
    rw [he]
    exact Std.ExtTreeMap.not_mem_empty
  · apply hw h
    intro b hb hmem
    exact hov (overlap_eq_true_iff.2 ⟨b, hb, hmem⟩)

theorem Holds.wp_dsync (h : Holds n xp E ms s)
    (hQ : ∀ ms' s', Holds n xp E ms' s' → Q ms' s') :
    wp diskSem (dsync xp a ms) Q (MLog.HoldsCrash n xp E) s := by
  apply wp_bind
  apply h.mlog.wp_dsync
  intro mm s' h'
  exact wp_pure (hQ _ _ ⟨h', h.txns, h.vmap⟩)

theorem Holds.wp_dsyncVecs {al : List ℕ} (h : Holds n xp E ms s)
    (hQ : ∀ ms' s', Holds n xp E ms' s' → Q ms' s') :
    wp diskSem (dsyncVecs xp al ms) Q (MLog.HoldsCrash n xp E) s := by
  apply wp_bind
  apply h.mlog.wp_dsyncVecs
  intro mm s' h'
  exact wp_pure (hQ _ _ ⟨h', h.txns, h.vmap⟩)

theorem Holds.wp_syncCache (h : Holds n xp E ms s)
    (hQ : ∀ ms' s', Holds n xp E ms' s' → Q ms' s') :
    wp diskSem (syncCache xp ms) Q (MLog.HoldsCrash n xp E) s := by
  apply wp_bind
  apply h.mlog.wp_syncCache
  intro mm s' h'
  exact wp_pure (hQ _ _ ⟨h', h.txns, h.vmap⟩)

end GLog

end Fscq
