import Fscq.MemLog

/-!
# The group log

The group log collects committed transactions in memory until they are flushed, either merged into
one flush or one after the other.  Over the abstract disk `B` of the memory log it adds the list
`pend` of the pending transactions, oldest first; a crash keeps some first ones of them.
-/

namespace Fscq

open CrashProg

open PaddedLog (Contents)

namespace GLog

/-! ### Pending transactions -/

/-- The values of the pending transactions, collapsed. -/
def collapse (pend : List Contents) : Valumap := pend.foldl (fun m ents => replayMem ents m) ∅

/-- The disk once the pending transactions are durable. -/
def installAll (B : ADisk) (pend : List Contents) : ADisk :=
  pend.foldl (fun B ents => B.install (replayMem ents ∅)) B

/-- The disks that a crash may leave: some first transactions have become durable. -/
def crashAll (xp : LogXparams) (B : ADisk) (pend : List Contents) : Set (ℕ → Valu) :=
  {D | ∃ k ≤ pend.length, D ∈ MLog.crashSet xp (installAll B (pend.take k))}

theorem collapse_append (pend : List Contents) (ents : Contents) :
    collapse (pend ++ [ents]) = replayMem ents (collapse pend) := by simp [collapse]

theorem installAll_append (B : ADisk) (pend : List Contents) (ents : Contents) :
    installAll B (pend ++ [ents]) = (installAll B pend).install (replayMem ents ∅) := by
  simp [installAll]

theorem installAll_eq (B : ADisk) (pend : List Contents) :
    installAll B pend = B.install (collapse pend) := by
  induction pend using List.reverseRecOn with
  | nil => simp [installAll, collapse, ADisk.install_empty]
  | append_singleton pend ents ih =>
    rw [installAll_append, collapse_append, ih, ADisk.install_install]

theorem exists_of_collapse {pend : List Contents} {a : ℕ} {v : Valu}
    (h : (collapse pend)[a]? = some v) : ∃ ents ∈ pend, (a, v) ∈ ents := by
  induction pend using List.reverseRecOn with
  | nil => simp [collapse] at h
  | append_singleton pend ents ih =>
    rw [collapse_append, getElem?_replayMem] at h
    cases hv : (replayMem ents ∅)[a]? with
    | some w =>
      rw [hv] at h
      obtain rfl : w = v := by simpa using h
      exact ⟨ents, by simp, mem_of_getElem?_replayMem hv⟩
    | none =>
      rw [hv] at h
      obtain ⟨ents', h₁, h₂⟩ := ih (by simpa using h)
      exact ⟨ents', by simp [h₁], h₂⟩

theorem crashSet_subset_crashAll (xp : LogXparams) (B : ADisk) (pend : List Contents) {k : ℕ}
    (hk : k ≤ pend.length) :
    MLog.crashSet xp (installAll B (pend.take k)) ⊆ crashAll xp B pend :=
  fun _ h => ⟨k, hk, h⟩

variable [Platform]

/-- The collapsed values of the pending transactions, the transactions, newest first, and the state
of the memory log. -/
structure MemState where
  msVMap : Valumap
  msTxns : List Contents
  msLL : MLog.MemState

/-! ### The programs -/

def read (xp : LogXparams) (a : ℕ) (ms : MemState) : Prog (MemState × Valu) :=
  match ms.msVMap[a]? with
  | some v => pure (ms, v)
  | none => do
    let (mm, v) ← MLog.read xp a ms.msLL
    pure (⟨ms.msVMap, ms.msTxns, mm⟩, v)

/-- Submit a committed transaction, unless it is too big for the log. -/
def submit (xp : LogXparams) (ents : Contents) (ms : MemState) : Prog (MemState × Bool) :=
  if ents.length ≤ xp.logLen then
    pure (⟨replayMem ents ms.msVMap, ents :: ms.msTxns, ms.msLL⟩, true)
  else pure (ms, false)

def flushallNomerge (xp : LogXparams) (ms : MemState) : Prog MemState := do
  let mm ← forN (fun i mm => do
    let (mm, _) ← MLog.flush xp (ms.msTxns.getD (ms.msTxns.length - i - 1) []) mm
    pure mm) 0 ms.msTxns.length ms.msLL
  pure ⟨∅, [], mm⟩

def flushall (xp : LogXparams) (ms : MemState) : Prog MemState :=
  if ms.msVMap.size ≤ xp.logLen then do
    let (mm, _) ← MLog.flush xp ms.msVMap.toList ms.msLL
    pure ⟨∅, [], mm⟩
  else flushallNomerge xp ms

def flushsync (xp : LogXparams) (ms : MemState) : Prog MemState := do
  let ms ← flushall xp ms
  let mm ← MLog.apply xp ms.msLL
  pure ⟨ms.msVMap, ms.msTxns, mm⟩

def flushallNoop : LogXparams → MemState → Prog MemState := flushall

def flushsyncNoop : LogXparams → MemState → Prog MemState := flushsync

def syncCache (xp : LogXparams) (ms : MemState) : Prog MemState := do
  let mm ← MLog.syncCache xp ms.msLL
  pure ⟨ms.msVMap, ms.msTxns, mm⟩

def dwrite' (xp : LogXparams) (a : ℕ) (v : Valu) (ms : MemState) : Prog MemState := do
  let mm ← MLog.dwrite xp a v ms.msLL
  pure ⟨ms.msVMap, ms.msTxns, mm⟩

/-- Write a block past the log; pending transactions that hold the block are flushed first. -/
def dwrite (xp : LogXparams) (a : ℕ) (v : Valu) (ms : MemState) : Prog MemState :=
  if a ∈ ms.msVMap then do
    let ms ← flushallNoop xp ms
    dwrite' xp a v ms
  else dwrite' xp a v ms

def dwriteVecs' (xp : LogXparams) (avs : List (ℕ × Valu)) (ms : MemState) : Prog MemState := do
  let mm ← MLog.dwriteVecs xp avs ms.msLL
  pure ⟨ms.msVMap, ms.msTxns, mm⟩

def dwriteVecs (xp : LogXparams) (avs : List (ℕ × Valu)) (ms : MemState) : Prog MemState :=
  if overlap (avs.map Prod.fst) ms.msVMap then do
    let ms ← flushallNoop xp ms
    dwriteVecs' xp avs ms
  else dwriteVecs' xp avs ms

def dsyncVecs (xp : LogXparams) (al : List ℕ) (ms : MemState) : Prog MemState := do
  let mm ← MLog.dsyncVecs xp al ms.msLL
  pure ⟨ms.msVMap, ms.msTxns, mm⟩

def dsync (xp : LogXparams) (a : ℕ) (ms : MemState) : Prog MemState := do
  let mm ← MLog.dsync xp a ms.msLL
  pure ⟨ms.msVMap, ms.msTxns, mm⟩

def recover (xp : LogXparams) (cs : CacheState) : Prog MemState := do
  let mm ← MLog.recover xp cs
  pure ⟨∅, [], mm⟩

def init (xp : LogXparams) (cs : CacheState) : Prog MemState := do
  let mm ← MLog.init xp cs
  pure ⟨∅, [], mm⟩

/-! ## What the operations do -/

/-- The group log represents the disk `B` with the pending transactions `pend`. -/
structure GState (n : ℕ) (xp : LogXparams) (B : ADisk) (pend : List Contents) (ms : MemState)
    (s : St) : Prop where
  mlog : MLog.MState n xp B ms.msLL s
  txns : ms.msTxns = pend.reverse
  vmap : ms.msVMap = collapse pend
  range : ∀ ents ∈ pend, MLog.InRange xp ents
  length_le : ∀ ents ∈ pend, ents.length ≤ xp.logLen

variable {n : ℕ} {xp : LogXparams} {B : ADisk} {pend : List Contents} {ms : MemState} {s : St}
  {D : Set (ℕ → Valu)} {a : ℕ} {Q : MemState → St → Prop}

theorem GState.crashSet_subset (_ : GState n xp B pend ms s) :
    MLog.crashSet xp B ⊆ crashAll xp B pend :=
  crashSet_subset_crashAll xp B pend (Nat.zero_le _)

theorem GState.collapse_range (h : GState n xp B pend ms s) :
    MLog.InRange xp (collapse pend).toList := by
  rintro ⟨a, v⟩ he
  obtain ⟨ents, h₁, h₂⟩ := exists_of_collapse (Std.ExtTreeMap.mem_toList_iff_getElem?_eq_some.1 he)
  exact h.range ents h₁ _ h₂

theorem wp_read {Q : MemState × Valu → St → Prop} (hl : PaddedLog.Layout n xp)
    (h : GState n xp B pend ms s) (ha : a < MLog.dataSize xp) (hD : crashAll xp B pend ⊆ D)
    (hQ : ∀ ms' s', GState n xp B pend ms' s' → Q (ms', (installAll B pend).cur a) s') :
    wp diskSem (read xp a ms) Q (MLog.MCrash n xp D) s := by
  unfold read
  split
  next v hv =>
    apply wp_pure
    have : (installAll B pend).cur a = v := by
      rw [h.vmap] at hv
      simp [installAll_eq, ADisk.install, hv]
    rw [← this]
    exact hQ ms s h
  next hv =>
    apply wp_bind
    apply MLog.wp_read hl h.mlog ha (h.crashSet_subset.trans hD)
    intro mm s' h' _
    apply wp_pure
    have : (installAll B pend).cur a = B.cur a := by
      rw [h.vmap] at hv
      simp [installAll_eq, ADisk.install, hv]
    rw [← this]
    exact hQ _ _ ⟨h', h.txns, h.vmap, h.range, h.length_le⟩

theorem wp_submit {Q : MemState × Bool → St → Prop} {C : St → Prop} {ents : Contents}
    (h : GState n xp B pend ms s) (hr : MLog.InRange xp ents)
    (hQ : ∀ ms', ents.length ≤ xp.logLen → GState n xp B (pend ++ [ents]) ms' s → Q (ms', true) s)
    (hQ' : xp.logLen < ents.length → Q (ms, false) s) :
    wp diskSem (submit xp ents ms) Q C s := by
  unfold submit
  split_ifs with hlen
  · apply wp_pure
    refine hQ _ hlen ⟨h.mlog, by simp [h.txns], by simp [h.vmap, collapse_append], ?_, ?_⟩
    · intro e he
      rcases List.mem_append.1 he with he | he
      · exact h.range e he
      · obtain rfl : e = ents := by simpa using he
        exact hr
    · intro e he
      rcases List.mem_append.1 he with he | he
      · exact h.length_le e he
      · obtain rfl : e = ents := by simpa using he
        exact hlen
  · exact wp_pure (hQ' (by omega))

theorem gstate_nil {mm : MLog.MemState} (h : MLog.MState n xp B mm s) :
    GState n xp B [] ⟨∅, [], mm⟩ s :=
  ⟨h, rfl, rfl, fun _ he => (List.not_mem_nil he).elim, fun _ he => (List.not_mem_nil he).elim⟩

/-! ### Flushes with the answers that they drop -/

/-- `flushallNomerge` with the answers of its flushes. -/
def flushallNomergeChecked (xp : LogXparams) (ms : MemState) : Prog (MemState × List Bool) := do
  let (mm, oks) ← forN (fun i (mm, oks) => do
    let (mm, ok) ← MLog.flush xp (ms.msTxns.getD (ms.msTxns.length - i - 1) []) mm
    pure (mm, oks ++ [ok])) 0 ms.msTxns.length (ms.msLL, [])
  pure (⟨∅, [], mm⟩, oks)

/-- `flushall` with the answers of its flushes. -/
def flushallChecked (xp : LogXparams) (ms : MemState) : Prog (MemState × List Bool) :=
  if ms.msVMap.size ≤ xp.logLen then do
    let (mm, ok) ← MLog.flush xp ms.msVMap.toList ms.msLL
    pure (⟨∅, [], mm⟩, [ok])
  else flushallNomergeChecked xp ms

theorem flushallNomergeChecked_erases (xp : LogXparams) (ms : MemState) :
    Erases diskSem Prod.fst (flushallNomergeChecked xp ms) (flushallNomerge xp ms) := by
  refine Erases.bind (Erases.forN (fun i x => ?_) _ _ (ms.msLL, [])) fun r => .pure _
  exact (Erases.refl _).bind fun r => .pure _

theorem flushallChecked_erases (xp : LogXparams) (ms : MemState) :
    Erases diskSem Prod.fst (flushallChecked xp ms) (flushall xp ms) := by
  unfold flushallChecked flushall
  split_ifs
  · exact (Erases.refl _).bind fun r => .pure _
  · exact flushallNomergeChecked_erases xp ms

theorem wp_flushallNomergeChecked {Q : MemState × List Bool → St → Prop}
    (hl : PaddedLog.Layout n xp) (h : GState n xp B pend ms s) (hD : crashAll xp B pend ⊆ D)
    (hQ : ∀ ms' oks s', GState n xp (installAll B pend) [] ms' s' → (∀ ok ∈ oks, ok = true) →
      Q (ms', oks) s') :
    wp diskSem (flushallNomergeChecked xp ms) Q (MLog.MCrash n xp D) s := by
  have hlen : ms.msTxns.length = pend.length := by rw [h.txns, List.length_reverse]
  apply wp_bind
  rw [hlen]
  -- after `i` rounds the first `i` transactions are durable
  refine wp_mono (wp_forN (N := pend.length)
    (fun i r s => MLog.MState n xp (installAll B (pend.take i)) r.1 s ∧ ∀ ok ∈ r.2, ok = true)
    ?_ pend.length 0 _ s (by omega) ⟨by simpa [installAll] using h.mlog, by simp⟩) ?_ fun _ => id
  · rintro i ⟨mm, oks⟩ s hi ⟨h', hoks⟩
    have hget : ms.msTxns.getD (pend.length - i - 1) [] = pend[i] := by
      rw [h.txns, List.getD_eq_getElem?_getD, List.getElem?_reverse (by omega),
        show pend.length - 1 - (pend.length - i - 1) = i by omega, List.getElem?_eq_getElem hi]
      rfl
    have htake : pend.take (i + 1) = pend.take i ++ [pend[i]] := by
      rw [List.take_add_one, List.getElem?_eq_getElem hi, Option.toList_some]
    have hi' := crashSet_subset_crashAll xp B pend (show i + 1 ≤ pend.length by omega)
    rw [htake, installAll_append] at hi'
    dsimp only
    rw [hget]
    apply wp_bind
    apply MLog.wp_flush hl h' (h.range _ (List.getElem_mem hi)) (h.length_le _ (List.getElem_mem hi))
      ((crashSet_subset_crashAll xp B pend hi.le).trans hD) (hi'.trans hD)
    intro ms' s' h''
    apply wp_pure
    rw [htake, installAll_append]
    refine ⟨h'', fun ok hok => ?_⟩
    rcases List.mem_append.1 hok with hok | hok
    · exact hoks ok hok
    · simpa using hok
  · rintro ⟨mm, oks⟩ s' ⟨h', hoks⟩
    rw [List.take_length] at h'
    exact wp_pure (hQ _ _ _ (gstate_nil h') hoks)

theorem wp_flushallChecked {Q : MemState × List Bool → St → Prop} (hl : PaddedLog.Layout n xp)
    (h : GState n xp B pend ms s) (hD : crashAll xp B pend ⊆ D)
    (hQ : ∀ ms' oks s', GState n xp (installAll B pend) [] ms' s' → (∀ ok ∈ oks, ok = true) →
      Q (ms', oks) s') :
    wp diskSem (flushallChecked xp ms) Q (MLog.MCrash n xp D) s := by
  unfold flushallChecked
  split_ifs with hsize
  · -- all transactions fit into one flush
    have hlen : (collapse pend).toList.length ≤ xp.logLen := by
      rw [Std.ExtTreeMap.length_toList, ← h.vmap]
      exact hsize
    have hall : MLog.crashSet xp (installAll B pend) ⊆ crashAll xp B pend := by
      have := crashSet_subset_crashAll xp B pend le_rfl
      rwa [List.take_length] at this
    apply wp_bind
    rw [h.vmap]
    apply MLog.wp_flush hl h.mlog h.collapse_range hlen (h.crashSet_subset.trans hD)
    · rw [replayMem_toList, ← installAll_eq]
      exact hall.trans hD
    · intro mm s' h'
      apply wp_pure
      rw [replayMem_toList, ← installAll_eq] at h'
      exact hQ _ _ _ (gstate_nil h') (by simp)
  · exact wp_flushallNomergeChecked hl h hD hQ

theorem wp_flushallNomerge (hl : PaddedLog.Layout n xp) (h : GState n xp B pend ms s)
    (hD : crashAll xp B pend ⊆ D)
    (hQ : ∀ ms' s', GState n xp (installAll B pend) [] ms' s' → Q ms' s') :
    wp diskSem (flushallNomerge xp ms) Q (MLog.MCrash n xp D) s :=
  (flushallNomergeChecked_erases xp ms).wp
    (wp_flushallNomergeChecked hl h hD fun ms' _ s' h' _ => hQ ms' s' h')

theorem wp_flushall (hl : PaddedLog.Layout n xp) (h : GState n xp B pend ms s)
    (hD : crashAll xp B pend ⊆ D)
    (hQ : ∀ ms' s', GState n xp (installAll B pend) [] ms' s' → Q ms' s') :
    wp diskSem (flushall xp ms) Q (MLog.MCrash n xp D) s :=
  (flushallChecked_erases xp ms).wp
    (wp_flushallChecked hl h hD fun ms' _ s' h' _ => hQ ms' s' h')

theorem wp_flushsync (hl : PaddedLog.Layout n xp) (h : GState n xp B pend ms s)
    (hD : crashAll xp B pend ⊆ D)
    (hQ : ∀ ms' s', GState n xp (installAll B pend) [] ms' s' → Q ms' s') :
    wp diskSem (flushsync xp ms) Q (MLog.MCrash n xp D) s := by
  apply wp_bind
  apply wp_flushall hl h hD
  intro ms' s' h'
  have hall : MLog.crashSet xp (installAll B pend) ⊆ crashAll xp B pend := by
    have := crashSet_subset_crashAll xp B pend le_rfl
    rwa [List.take_length] at this
  apply wp_bind
  apply MLog.wp_apply' hl h'.mlog (hall.trans hD)
  intro mm s'' h'' _
  exact wp_pure (hQ _ _ ⟨h'', h'.txns, h'.vmap, h'.range, h'.length_le⟩)

theorem wp_syncCache (hl : PaddedLog.Layout n xp) (h : GState n xp B pend ms s)
    (hD : crashAll xp B pend ⊆ D)
    (hQ : ∀ ms' s', GState n xp (B.sync Set.univ) pend ms' s' → Q ms' s') :
    wp diskSem (syncCache xp ms) Q (MLog.MCrash n xp D) s := by
  apply wp_bind
  apply MLog.wp_syncCache hl h.mlog (h.crashSet_subset.trans hD)
  intro mm s' h'
  exact wp_pure (hQ _ _ ⟨h', h.txns, h.vmap, h.range, h.length_le⟩)

theorem wp_dwrite' {v : Valu} (hl : PaddedLog.Layout n xp) (h : GState n xp B pend ms s)
    (ha : a < MLog.dataSize xp) (hD : crashAll xp B pend ⊆ D)
    (hQ : ∀ ms' s', GState n xp (B.write a v) pend ms' s' → Q ms' s') :
    wp diskSem (dwrite' xp a v ms) Q (MLog.MCrash n xp D) s := by
  apply wp_bind
  apply MLog.wp_dwrite hl h.mlog ha (h.crashSet_subset.trans hD)
  intro mm s' h'
  exact wp_pure (hQ _ _ ⟨h', h.txns, h.vmap, h.range, h.length_le⟩)

theorem wp_dwrite {v : Valu} (hl : PaddedLog.Layout n xp) (h : GState n xp B pend ms s)
    (ha : a < MLog.dataSize xp) (hD : crashAll xp B pend ⊆ D)
    (hQ : ∀ ms' s', a ∈ collapse pend → GState n xp ((installAll B pend).write a v) [] ms' s' →
      Q ms' s')
    (hQ' : ∀ ms' s', a ∉ collapse pend → GState n xp (B.write a v) pend ms' s' → Q ms' s') :
    wp diskSem (dwrite xp a v ms) Q (MLog.MCrash n xp D) s := by
  unfold dwrite
  rw [h.vmap]
  split_ifs with hmem
  · apply wp_bind
    apply wp_flushall hl h hD
    intro ms' s' h'
    apply wp_dwrite' hl h' ha _ fun ms'' s'' => hQ ms'' s'' hmem
    rintro d ⟨k, hk, hd⟩
    refine hD ⟨pend.length, le_rfl, ?_⟩
    simpa [installAll] using hd
  · exact wp_dwrite' hl h ha hD fun ms' s' => hQ' ms' s' hmem

theorem wp_dwriteVecs' {avs : List (ℕ × Valu)} (hl : PaddedLog.Layout n xp)
    (h : GState n xp B pend ms s) (ha : ∀ av ∈ avs, av.1 < MLog.dataSize xp)
    (hD : crashAll xp (B.writes avs) pend ⊆ D)
    (hQ : ∀ ms' s', GState n xp (B.writes avs) pend ms' s' → Q ms' s') :
    wp diskSem (dwriteVecs' xp avs ms) Q (MLog.MCrash n xp D) s := by
  apply wp_bind
  apply MLog.wp_dwriteVecs hl h.mlog ha
  · exact (crashSet_subset_crashAll xp _ pend (Nat.zero_le _)).trans hD
  · intro mm s' h'
    exact wp_pure (hQ _ _ ⟨h', h.txns, h.vmap, h.range, h.length_le⟩)

theorem wp_dwriteVecs {avs : List (ℕ × Valu)} (hl : PaddedLog.Layout n xp)
    (h : GState n xp B pend ms s) (ha : ∀ av ∈ avs, av.1 < MLog.dataSize xp)
    (hD : crashAll xp B pend ⊆ D)
    (hD₁ : overlap (avs.map Prod.fst) (collapse pend) = true →
      crashAll xp ((installAll B pend).writes avs) [] ⊆ D)
    (hD₀ : overlap (avs.map Prod.fst) (collapse pend) = false → crashAll xp (B.writes avs) pend ⊆ D)
    (hQ₁ : ∀ ms' s', overlap (avs.map Prod.fst) (collapse pend) = true →
      GState n xp ((installAll B pend).writes avs) [] ms' s' → Q ms' s')
    (hQ₀ : ∀ ms' s', overlap (avs.map Prod.fst) (collapse pend) = false →
      GState n xp (B.writes avs) pend ms' s' → Q ms' s') :
    wp diskSem (dwriteVecs xp avs ms) Q (MLog.MCrash n xp D) s := by
  unfold dwriteVecs
  rw [h.vmap]
  split_ifs with hov
  · apply wp_bind
    apply wp_flushall hl h hD
    intro ms' s' h'
    exact wp_dwriteVecs' hl h' ha (hD₁ hov) fun ms'' s'' => hQ₁ ms'' s'' hov
  · rw [Bool.not_eq_true] at hov
    exact wp_dwriteVecs' hl h ha (hD₀ hov) fun ms' s' => hQ₀ ms' s' hov

theorem wp_dsyncVecs {al : List ℕ} (hl : PaddedLog.Layout n xp) (h : GState n xp B pend ms s)
    (hD : crashAll xp B pend ⊆ D)
    (hQ : ∀ ms' s', GState n xp (B.sync {b | b ∈ al}) pend ms' s' → Q ms' s') :
    wp diskSem (dsyncVecs xp al ms) Q (MLog.MCrash n xp D) s := by
  apply wp_bind
  apply MLog.wp_dsyncVecs hl h.mlog (h.crashSet_subset.trans hD)
  intro mm s' h'
  exact wp_pure (hQ _ _ ⟨h', h.txns, h.vmap, h.range, h.length_le⟩)

theorem wp_dsync (hl : PaddedLog.Layout n xp) (h : GState n xp B pend ms s)
    (hD : crashAll xp B pend ⊆ D)
    (hQ : ∀ ms' s', GState n xp (B.sync {b | b = a}) pend ms' s' → Q ms' s') :
    wp diskSem (dsync xp a ms) Q (MLog.MCrash n xp D) s := by
  apply wp_bind
  apply MLog.wp_dsync hl h.mlog (h.crashSet_subset.trans hD)
  intro mm s' h'
  exact wp_pure (hQ _ _ ⟨h', h.txns, h.vmap, h.range, h.length_le⟩)

end GLog

end Fscq
