import Fscq.Prog
import Fscq.ADisk

/-!
# The buffer cache

A write-back cache of disk blocks with a bound on their number.  Every operation of the cache is
described by what it does to an abstract disk; `CState n cs m hm s` says that in the state `s` the
cache `cs` on a disk of `n` blocks represents the abstract disk `m`.
-/

namespace Fscq

open CrashProg

/-- Finite maps from addresses. -/
abbrev AddrMap (α : Type) := Std.ExtTreeMap ℕ α compare

variable [Platform]

/-- The cached blocks with their dirty flags, the bound on their number, their number and the state
of the eviction policy. -/
structure CacheState where
  csMap : AddrMap (Valu × Bool)
  csMaxCount : ℕ
  csCount : ℕ
  csEvict : EvictionState

namespace BufCache

/-- Write a block back if it is dirty, but keep it in the cache. -/
def writeback (a : ℕ) (cs : CacheState) : Prog CacheState :=
  match cs.csMap[a]? with
  | some (v, true) => do
    Prog.write a v
    pure { cs with csMap := cs.csMap.insert a (v, false) }
  | _ => pure cs

def evict (a : ℕ) (cs : CacheState) : Prog CacheState := do
  let cs ← writeback a cs
  match cs.csMap[a]? with
  | some _ => pure { cs with csMap := cs.csMap.erase a, csCount := cs.csCount - 1 }
  | none => pure { cs with csMap := cs.csMap.erase a }

def maybeEvict (cs : CacheState) : Prog CacheState :=
  if cs.csCount < cs.csMaxCount then pure cs
  else
    let (victim, evictor) := evictionChoose cs.csEvict
    match cs.csMap[victim]? with
    | some _ => evict victim { cs with csEvict := evictor }
    | none =>
      -- the evictor failed, evict the first block
      match cs.csMap.toList with
      | [] => pure cs
      | (a, _) :: _ => evict a cs

def read (a : ℕ) (cs : CacheState) : Prog (CacheState × Valu) := do
  let cs ← maybeEvict cs
  match cs.csMap[a]? with
  | some (v, _) => pure (cs, v)
  | none => do
    Prog.alertModified
    let v ← Prog.read a
    pure ({ cs with
      csMap := cs.csMap.insert a (v, false)
      csCount := cs.csCount + 1
      csEvict := evictionUpdate cs.csEvict a }, v)

def write (a : ℕ) (v : Valu) (cs : CacheState) : Prog CacheState := do
  let cs ← maybeEvict cs
  match cs.csMap[a]? with
  | some _ => pure { cs with
      csMap := cs.csMap.insert a (v, true)
      csEvict := evictionUpdate cs.csEvict a }
  | none => pure { cs with
      csMap := cs.csMap.insert a (v, true)
      csCount := cs.csCount + 1
      csEvict := evictionUpdate cs.csEvict a }

def beginSync (cs : CacheState) : Prog CacheState := pure cs

def sync (a : ℕ) (cs : CacheState) : Prog CacheState := writeback a cs

def endSync (cs : CacheState) : Prog CacheState := do
  Prog.sync
  pure cs

def cache0 (sz : ℕ) : CacheState := ⟨∅, sz, 0, evictionInit⟩

def init (cachesize : ℕ) : Prog CacheState := do
  Prog.sync
  pure (cache0 cachesize)

def initRecover : ℕ → Prog CacheState := init

def readArray (a i : ℕ) (cs : CacheState) : Prog (CacheState × Valu) := read (a + i) cs

def writeArray (a i : ℕ) (v : Valu) (cs : CacheState) : Prog CacheState := write (a + i) v cs

def syncArray (a i : ℕ) (cs : CacheState) : Prog CacheState := sync (a + i) cs

/-! ### Batch operations -/

def readRange {A : Type} (a nr : ℕ) (vfold : A → Valu → A) (a0 : A) (cs : CacheState) :
    Prog (CacheState × A) :=
  forN (fun i (cs, pf) => do
    let (cs, v) ← readArray a i cs
    pure (cs, vfold pf v)) 0 nr (cs, a0)

def writeRange (a : ℕ) (l : List Valu) (cs : CacheState) : Prog CacheState :=
  forN (fun i cs => writeArray a i (l.getD i 0) cs) 0 l.length cs

def syncRange (a nr : ℕ) (cs : CacheState) : Prog CacheState :=
  forN (fun i cs => syncArray a i cs) 0 nr cs

def writeVecs (a : ℕ) (l : List (ℕ × Valu)) (cs : CacheState) : Prog CacheState :=
  forN (fun i cs => writeArray a (l.getD i (0, 0)).1 (l.getD i (0, 0)).2 cs) 0 l.length cs

def syncVecs (a : ℕ) (l : List ℕ) (cs : CacheState) : Prog CacheState :=
  forEach (fun i cs => syncArray a i cs) l cs

def syncVecsNow (a : ℕ) (l : List ℕ) (cs : CacheState) : Prog CacheState := do
  let cs ← beginSync cs
  let cs ← syncVecs a l cs
  endSync cs

def syncAll (cs : CacheState) : Prog CacheState :=
  syncVecsNow 0 (cs.csMap.toList.map Prod.fst) cs

/-! ### All their operations are enabled -/

theorem all_writeback (a : ℕ) (cs : CacheState) : (writeback a cs).All diskSem.Enabled := by
  unfold writeback
  split
  · exact ⟨enabled_write _ _, fun _ => trivial⟩
  · exact trivial

theorem all_evict (a : ℕ) (cs : CacheState) : (evict a cs).All diskSem.Enabled := by
  refine ⟨all_writeback a cs, fun cs' => ?_⟩
  dsimp only
  split <;> exact trivial

theorem all_maybeEvict (cs : CacheState) : (maybeEvict cs).All diskSem.Enabled := by
  unfold maybeEvict
  split
  · exact trivial
  dsimp only
  split
  · exact all_evict _ _
  split
  · exact trivial
  · exact all_evict _ _

theorem all_read (a : ℕ) (cs : CacheState) : (read a cs).All diskSem.Enabled := by
  refine ⟨all_maybeEvict cs, fun cs' => ?_⟩
  dsimp only
  split
  · exact trivial
  · exact ⟨enabled_alertModified, fun _ => ⟨enabled_read a, fun _ => trivial⟩⟩

theorem all_write (a : ℕ) (v : Valu) (cs : CacheState) : (write a v cs).All diskSem.Enabled := by
  refine ⟨all_maybeEvict cs, fun cs' => ?_⟩
  dsimp only
  split <;> exact trivial

theorem all_endSync (cs : CacheState) : (endSync cs).All diskSem.Enabled :=
  ⟨enabled_sync, fun _ => trivial⟩

theorem all_writeRange (a : ℕ) (l : List Valu) (cs : CacheState) :
    (writeRange a l cs).All diskSem.Enabled :=
  all_forN (fun _ _ => all_write _ _ _) 0 l.length cs

theorem all_syncRange (a nr : ℕ) (cs : CacheState) : (syncRange a nr cs).All diskSem.Enabled :=
  all_forN (fun _ _ => all_writeback _ _) 0 nr cs

end BufCache

/-! ## The cache and the abstract disk -/

/-- A block is not dirty in the cache. -/
def Clean (cs : CacheState) (a : ℕ) : Prop := ∀ v, cs.csMap[a]? ≠ some (v, true)

/-- The cache entry of a block, if any, its latest value `c` and the value `v` on the platter. -/
def EntryOk (c v : Valu) : Option (Valu × Bool) → Prop
  | none => v = c
  | some (w, false) => w = c ∧ v = c
  | some (w, true) => w = c

/-- The cache `cs` on top of the raw disk `d` of `n` blocks represents the abstract disk `m`. -/
structure CRep (n : ℕ) (cs : CacheState) (m : ADisk) (d : Rawdisk) : Prop where
  dom : ∀ a, n ≤ a → d a = none
  key_lt : ∀ a, cs.csMap[a]? ≠ none → a < n
  block : ∀ a < n, ∃ v l, d a = some (v, l) ∧ (∀ x ∈ v :: l, x ∈ m.poss a) ∧
    m.cur a ∈ m.poss a ∧ EntryOk (m.cur a) v cs.csMap[a]?

/-- The cache represents the abstract disk `m`, and `hm` is the hash map. -/
structure CState (n : ℕ) (cs : CacheState) (m : ADisk) (hm : Hashmap) (s : St) : Prop where
  rep : CRep n cs m s.disk
  hm_eq : s.hm = hm

/-- A crash condition on the abstract disk. -/
def CCrash (n : ℕ) (CC : ADisk → Hashmap → Prop) (s : St) : Prop :=
  ∃ cs m hm, CState n cs m hm s ∧ CC m hm

variable {n : ℕ} {cs : CacheState} {m : ADisk} {hm : Hashmap} {s : St}
  {CC : ADisk → Hashmap → Prop}

theorem CState.crash (h : CState n cs m hm s) (hc : CC m hm) : CCrash n CC s :=
  ⟨cs, m, hm, h, hc⟩

theorem CRep.possibleSync {d d' : Rawdisk} (h : CRep n cs m d) (hd : PossibleSync d d') :
    CRep n cs m d' where
  dom a ha := by
    rcases hd a with ⟨-, h'⟩ | ⟨v, l, l', h₁, -, -⟩
    · exact h'
    · rw [h.dom a ha] at h₁
      cases h₁
  key_lt := h.key_lt
  block a ha := by
    obtain ⟨v, l, h₁, h₂, h₃, h₄⟩ := h.block a ha
    rcases hd a with ⟨h', -⟩ | ⟨v', k, k', h', h'', hk⟩
    · rw [h₁] at h'
      cases h'
    · rw [h₁, Option.some.injEq, Prod.mk.injEq] at h'
      obtain ⟨rfl, rfl⟩ := h'
      refine ⟨v, k', h'', ?_, h₃, h₄⟩
      intro x hx
      rcases List.mem_cons.1 hx with rfl | hx
      · exact h₂ _ List.mem_cons_self
      · exact h₂ _ (List.mem_cons_of_mem _ (hk hx))

theorem CState.possibleSync {d : Rawdisk} (h : CState n cs m hm s) (hd : PossibleSync s.disk d) :
    CState n cs m hm { s with disk := d } :=
  ⟨h.rep.possibleSync hd, h.hm_eq⟩

/-- Removing a clean block from the cache loses nothing. -/
theorem CState.erase {a : ℕ} (h : CState n cs m hm s) (ha : Clean cs a)
    {cs' : CacheState} (hcs : cs'.csMap = cs.csMap.erase a) : CState n cs' m hm s := by
  refine ⟨⟨h.rep.dom, ?_, ?_⟩, h.hm_eq⟩
  · intro b hb
    refine h.rep.key_lt b fun h' => hb ?_
    rw [hcs, Std.ExtTreeMap.getElem?_erase]
    split_ifs <;> simp [h']
  · intro b hb
    obtain ⟨v, l, h₁, h₂, h₃, h₄⟩ := h.rep.block b hb
    refine ⟨v, l, h₁, h₂, h₃, ?_⟩
    rw [hcs, Std.ExtTreeMap.getElem?_erase]
    split_ifs with e
    · obtain rfl : a = b := by simpa using e
      cases hcm : cs.csMap[a]? with
      | none => simpa [hcm, EntryOk] using h₄
      | some w =>
        obtain ⟨w, d⟩ := w
        cases d with
        | false =>
          rw [hcm] at h₄
          exact h₄.2
        | true => exact absurd hcm (ha w)
    · exact h₄

theorem CState.congr {cs' : CacheState} (h : CState n cs m hm s) (hcs : cs'.csMap = cs.csMap) :
    CState n cs' m hm s := by
  refine ⟨⟨h.rep.dom, ?_, ?_⟩, h.hm_eq⟩
  · rw [hcs]
    exact h.rep.key_lt
  · rw [hcs]
    exact h.rep.block

/-! ## What the operations do -/

namespace BufCache

variable {a : ℕ} {Q : CacheState → St → Prop}

theorem wp_writeback (h : CState n cs m hm s) (hc : CC m hm)
    (hQ : ∀ cs' s', CState n cs' m hm s' → Clean cs' a → (∀ b, Clean cs b → Clean cs' b) →
      Q cs' s') :
    wp diskSem (writeback a cs) Q (CCrash n CC) s := by
  unfold writeback
  split
  next v hv =>
    -- the dirty block is written to the disk
    have ha : a < n := h.rep.key_lt a (by simp [hv])
    obtain ⟨v₀, l, h₁, h₂, h₃, h₄⟩ := h.rep.block a ha
    rw [hv] at h₄
    obtain rfl : v = m.cur a := h₄
    refine wp_bind (wp_write h₁ (h.crash hc) fun d hd => wp_pure ?_)
    have hs : CState n { cs with csMap := cs.csMap.insert a (m.cur a, false) } m hm
        { s with disk := Function.update s.disk a (some (m.cur a, v₀ :: l)) } := by
      refine ⟨⟨?_, ?_, ?_⟩, h.hm_eq⟩
      · intro b hb
        have : b ≠ a := by omega
        simpa [this] using h.rep.dom b hb
      · intro b hb
        by_cases e : a = b
        · omega
        · refine h.rep.key_lt b ?_
          simpa [Std.ExtTreeMap.getElem?_insert, e] using hb
      · intro b hb
        by_cases e : b = a
        · subst e
          refine ⟨m.cur b, v₀ :: l, by simp, ?_, h₃, by simp [EntryOk]⟩
          intro x hx
          rcases List.mem_cons.1 hx with rfl | hx
          · exact h₃
          · exact h₂ x hx
        · obtain ⟨v, k, h₅, h₆, h₇, h₈⟩ := h.rep.block b hb
          refine ⟨v, k, by simpa [e] using h₅, h₆, h₇, ?_⟩
          simpa [Std.ExtTreeMap.getElem?_insert, Ne.symm e] using h₈
    refine hQ _ _ (hs.possibleSync hd) ?_ ?_
    · intro v
      simp
    · intro b hb v
      by_cases e : a = b
      · simp [e]
      · simpa [Std.ExtTreeMap.getElem?_insert, e] using hb v
  next hv => exact wp_pure (hQ cs s h (fun v e => hv v e) fun _ => id)

theorem wp_evict (h : CState n cs m hm s) (hc : CC m hm)
    (hQ : ∀ cs' s', CState n cs' m hm s' → Q cs' s') :
    wp diskSem (evict a cs) Q (CCrash n CC) s := by
  unfold evict
  refine wp_bind (wp_writeback h hc fun cs' s' h' hclean _ => ?_)
  split <;> exact wp_pure (hQ _ _ (h'.erase hclean rfl))

theorem wp_maybeEvict (h : CState n cs m hm s) (hc : CC m hm)
    (hQ : ∀ cs' s', CState n cs' m hm s' → Q cs' s') :
    wp diskSem (maybeEvict cs) Q (CCrash n CC) s := by
  unfold maybeEvict
  split_ifs
  · exact wp_pure (hQ cs s h)
  · dsimp only
    split
    · exact wp_evict (h.congr rfl) hc hQ
    · split
      · exact wp_pure (hQ cs s h)
      · exact wp_evict h hc hQ

theorem wp_read {Q : CacheState × Valu → St → Prop} (h : CState n cs m hm s) (ha : a < n)
    (hc : CC m hm) (hQ : ∀ cs' s', CState n cs' m hm s' → Q (cs', m.cur a) s') :
    wp diskSem (read a cs) Q (CCrash n CC) s := by
  unfold read
  refine wp_bind (wp_maybeEvict h hc fun cs s h => ?_)
  obtain ⟨v₀, l, h₁, h₂, h₃, h₄⟩ := h.rep.block a ha
  split
  next v d hv =>
    rw [hv] at h₄
    obtain rfl : v = m.cur a := by
      cases d
      · exact h₄.1
      · exact h₄
    exact wp_pure (hQ cs s h)
  next hv =>
    rw [hv] at h₄
    obtain rfl : v₀ = m.cur a := h₄
    refine wp_bind (wp_alertModified (wp_bind (Fscq.wp_read h₁ (h.crash hc) fun d hd => ?_)))
    refine wp_pure (hQ _ _ ⟨⟨(h.possibleSync hd).rep.dom, ?_, ?_⟩, h.hm_eq⟩)
    · intro b hb
      by_cases e : a = b
      · omega
      · refine h.rep.key_lt b ?_
        simpa [Std.ExtTreeMap.getElem?_insert, e] using hb
    · intro b hb
      obtain ⟨v, k, h₅, h₆, h₇, h₈⟩ := (h.possibleSync hd).rep.block b hb
      refine ⟨v, k, h₅, h₆, h₇, ?_⟩
      by_cases e : a = b
      · subst e
        rw [hv] at h₈
        simpa [EntryOk] using h₈
      · simpa [Std.ExtTreeMap.getElem?_insert, e] using h₈

theorem cstate_insert_dirty {v : Valu} {cs' : CacheState} (h : CState n cs m hm s) (ha : a < n)
    (hcs : cs'.csMap = cs.csMap.insert a (v, true)) : CState n cs' (m.write a v) hm s := by
  refine ⟨⟨h.rep.dom, ?_, ?_⟩, h.hm_eq⟩
  · intro b hb
    by_cases e : a = b
    · omega
    · refine h.rep.key_lt b ?_
      simpa [hcs, Std.ExtTreeMap.getElem?_insert, e] using hb
  · intro b hb
    obtain ⟨v₀, l, h₁, h₂, h₃, h₄⟩ := h.rep.block b hb
    refine ⟨v₀, l, h₁, ?_, ?_, ?_⟩
    all_goals by_cases e : b = a
    · subst e
      intro x hx
      simpa [ADisk.write] using Or.inr (h₂ x hx)
    · simpa [ADisk.write, e] using h₂
    · subst e
      simp [ADisk.write]
    · simpa [ADisk.write, e] using h₃
    · subst e
      simp [ADisk.write, hcs, EntryOk]
    · simpa [ADisk.write, e, hcs, Std.ExtTreeMap.getElem?_insert, Ne.symm e] using h₄

theorem wp_write {v : Valu} (h : CState n cs m hm s) (ha : a < n) (hc : CC m hm)
    (hQ : ∀ cs' s', CState n cs' (m.write a v) hm s' → Q cs' s') :
    wp diskSem (write a v cs) Q (CCrash n CC) s := by
  unfold write
  refine wp_bind (wp_maybeEvict h hc fun cs s h => ?_)
  split <;> exact wp_pure (hQ _ _ (cstate_insert_dirty h ha rfl))

theorem wp_endSync {S : Set ℕ} (h : CState n cs m hm s) (hS : ∀ a ∈ S, Clean cs a)
    (hc : CC m hm) (hQ : ∀ s', CState n cs (m.sync S) hm s' → Q cs s') :
    wp diskSem (endSync cs) Q (CCrash n CC) s := by
  unfold endSync
  refine wp_bind (wp_sync (h.crash hc) fun d hd => wp_pure (hQ _ ?_))
  have hs : CState n cs (m.sync S) hm { s with disk := syncMem s.disk } := by
    refine ⟨⟨?_, h.rep.key_lt, ?_⟩, h.hm_eq⟩
    · intro b hb
      simp [syncMem, h.rep.dom b hb]
    · intro b hb
      obtain ⟨v, l, h₁, h₂, h₃, h₄⟩ := h.rep.block b hb
      refine ⟨v, [], by simp [syncMem, h₁], ?_, ⟨h₃, fun _ => rfl⟩, h₄⟩
      intro x hx
      obtain rfl : x = v := by simpa using hx
      refine ⟨h₂ x List.mem_cons_self, fun hb' => ?_⟩
      -- the platter holds the latest value of a clean block
      cases hcm : cs.csMap[b]? with
      | none => simpa [hcm, EntryOk] using h₄
      | some w =>
        obtain ⟨w, dirty⟩ := w
        cases dirty with
        | false =>
          rw [hcm] at h₄
          exact h₄.2
        | true => exact absurd hcm (hS b hb' w)
  exact hs.possibleSync hd

/-! ### Batch operations -/

theorem wp_readRange {A : Type} {Q : CacheState × A → St → Prop} {nr : ℕ} {vfold : A → Valu → A}
    {a0 : A} (h : CState n cs m hm s) (ha : a + nr ≤ n) (hc : CC m hm)
    (hQ : ∀ cs' s', CState n cs' m hm s' →
      Q (cs', ((List.range nr).map fun i => m.cur (a + i)).foldl vfold a0) s') :
    wp diskSem (readRange a nr vfold a0 cs) Q (CCrash n CC) s := by
  refine wp_mono (wp_forN (N := nr) (fun i (x : CacheState × A) s => CState n x.1 m hm s ∧
    x.2 = ((List.range i).map fun i => m.cur (a + i)).foldl vfold a0) ?_ nr 0 _ s (by omega)
    ⟨h, rfl⟩) ?_ fun _ => id
  · rintro i ⟨cs, pf⟩ s hi ⟨h, rfl⟩
    refine wp_bind (wp_read h (by omega) hc fun cs' s' h' => wp_pure ⟨h', ?_⟩)
    rw [List.range_succ, List.map_append, List.foldl_append]
    rfl
  · rintro ⟨cs', r⟩ s' ⟨h', rfl⟩
    exact hQ cs' s' h'

/-- A loop that writes the blocks of a list one after the other. -/
theorem wp_forN_write {f : ℕ → CacheState → Prog CacheState} {avs : List (ℕ × Valu)}
    (hf : ∀ i cs (hi : i < avs.length), f i cs = write (avs[i]).1 (avs[i]).2 cs)
    (h : CState n cs m hm s) (ha : ∀ av ∈ avs, av.1 < n)
    (hc : ∀ k, CC (m.writes (avs.take k)) hm)
    (hQ : ∀ cs' s', CState n cs' (m.writes avs) hm s' → Q cs' s') :
    wp diskSem (forN f 0 avs.length cs) Q (CCrash n CC) s := by
  refine wp_mono (wp_forN (N := avs.length)
    (fun i cs s => CState n cs (m.writes (avs.take i)) hm s) ?_ avs.length 0 _ s (by omega)
    (by simpa [ADisk.writes] using h)) ?_ fun _ => id
  · intro i cs s hi h
    rw [hf i cs hi]
    refine wp_write h (ha _ (List.getElem_mem hi)) (hc i) fun cs' s' h' => ?_
    simp only [ADisk.writes, List.take_add_one, List.getElem?_eq_getElem hi, Option.toList_some,
      List.foldl_append, List.foldl_cons, List.foldl_nil]
    exact h'
  · intro cs' s' h'
    rw [List.take_length] at h'
    exact hQ cs' s' h'

theorem wp_writeRange {l : List Valu} (h : CState n cs m hm s) (ha : a + l.length ≤ n)
    (hc : ∀ k, CC (m.writes ((ADisk.rangeWrites a l).take k)) hm)
    (hQ : ∀ cs' s', CState n cs' (m.writes (ADisk.rangeWrites a l)) hm s' → Q cs' s') :
    wp diskSem (writeRange a l cs) Q (CCrash n CC) s := by
  have hl : (ADisk.rangeWrites a l).length = l.length := by simp [ADisk.rangeWrites]
  unfold writeRange
  rw [← hl]
  refine wp_forN_write ?_ h ?_ hc hQ
  · intro i cs hi
    have hi' : i < l.length := by omega
    simp [ADisk.rangeWrites, writeArray, hi']
  · intro av hav
    have := ADisk.rangeWrites_bound hav
    omega

theorem wp_writeVecs {l : List (ℕ × Valu)} (h : CState n cs m hm s)
    (ha : ∀ av ∈ l, a + av.1 < n) (hc : ∀ k, CC (m.writes ((ADisk.vecWrites a l).take k)) hm)
    (hQ : ∀ cs' s', CState n cs' (m.writes (ADisk.vecWrites a l)) hm s' → Q cs' s') :
    wp diskSem (writeVecs a l cs) Q (CCrash n CC) s := by
  have hl : (ADisk.vecWrites a l).length = l.length := by simp [ADisk.vecWrites]
  unfold writeVecs
  rw [← hl]
  refine wp_forN_write ?_ h ?_ hc hQ
  · intro i cs hi
    have hi' : i < l.length := by omega
    simp [ADisk.vecWrites, writeArray, hi']
  · intro av hav
    obtain ⟨av', h', rfl⟩ := List.mem_map.1 hav
    exact ha av' h'

theorem wp_syncRange {nr : ℕ} (h : CState n cs m hm s) (hc : CC m hm)
    (hQ : ∀ cs' s', CState n cs' m hm s' → (∀ i < nr, Clean cs' (a + i)) →
      (∀ b, Clean cs b → Clean cs' b) → Q cs' s') :
    wp diskSem (syncRange a nr cs) Q (CCrash n CC) s := by
  refine wp_mono (wp_forN (N := nr) (fun i cs' s => CState n cs' m hm s ∧
    (∀ j < i, Clean cs' (a + j)) ∧ ∀ b, Clean cs b → Clean cs' b) ?_ nr 0 _ s (by omega)
    ⟨h, by simp, fun _ => id⟩) ?_ fun _ => id
  · rintro i cs' s hi ⟨h, h₁, h₂⟩
    refine wp_writeback h hc fun cs'' s' h' hi' hk => ⟨h', ?_, fun b hb => hk b (h₂ b hb)⟩
    intro j hj
    by_cases e : j = i
    · exact e ▸ hi'
    · exact hk _ (h₁ j (by omega))
  · rintro cs' s' ⟨h', h₁, h₂⟩
    exact hQ cs' s' h' h₁ h₂

theorem wp_syncVecs {l : List ℕ} (h : CState n cs m hm s) (hc : CC m hm)
    (hQ : ∀ cs' s', CState n cs' m hm s' → (∀ i ∈ l, Clean cs' (a + i)) →
      (∀ b, Clean cs b → Clean cs' b) → Q cs' s') :
    wp diskSem (syncVecs a l cs) Q (CCrash n CC) s := by
  unfold syncVecs
  induction l generalizing cs s with
  | nil => exact wp_pure (hQ cs s h (by simp) fun _ => id)
  | cons i l ih =>
    refine wp_bind (wp_writeback h hc fun cs' s' h' hi hk => ?_)
    refine ih h' fun cs'' s'' h'' h₁ h₂ => hQ cs'' s'' h'' ?_ fun b hb => h₂ b (hk b hb)
    intro j hj
    rcases List.mem_cons.1 hj with rfl | hj
    · exact h₂ _ hi
    · exact h₁ j hj

theorem wp_syncVecsNow {l : List ℕ} (h : CState n cs m hm s) (hc : CC m hm)
    (hQ : ∀ cs' s', CState n cs' (m.sync {b | ∃ i ∈ l, b = a + i}) hm s' → Q cs' s') :
    wp diskSem (syncVecsNow a l cs) Q (CCrash n CC) s := by
  unfold syncVecsNow beginSync
  refine wp_bind (wp_pure (wp_bind (wp_syncVecs h hc fun cs' s' h' h₁ _ => ?_)))
  refine wp_endSync h' ?_ hc fun s'' h'' => hQ cs' s'' h''
  rintro b ⟨i, hi, rfl⟩
  exact h₁ i hi

/-- Every block with a pending write is in the cache or on its way to the platter. -/
theorem wp_syncAll (h : CState n cs m hm s) (hc : CC m hm)
    (hQ : ∀ cs' s', CState n cs' (m.sync Set.univ) hm s' → Q cs' s') :
    wp diskSem (syncAll cs) Q (CCrash n CC) s := by
  unfold syncAll syncVecsNow beginSync
  refine wp_bind (wp_pure (wp_bind (wp_syncVecs h hc fun cs' s' h' h₁ h₂ => ?_)))
  refine wp_endSync h' ?_ hc fun s'' h'' => hQ cs' s'' h''
  intro b _
  cases hb : cs.csMap[b]? with
  | none => exact h₂ b fun v => by simp [hb]
  | some e =>
    have hmem : b ∈ cs.csMap.toList.map Prod.fst :=
      List.mem_map.2 ⟨(b, e), Std.ExtTreeMap.mem_toList_iff_getElem?_eq_some.2 hb, rfl⟩
    have := h₁ b hmem
    rwa [Nat.zero_add] at this

end BufCache

/-! ## Crashes -/

/-- The machine has restarted with the disk `f` of `n` blocks. -/
structure Booted (n : ℕ) (f : ℕ → Valu) (hm : Hashmap) (s : St) : Prop where
  disk_eq : s.disk = fun a => if a < n then some (f a, []) else none
  hm_eq : s.hm = hm

theorem CCrash.reboot {s' : St} (h : CCrash n CC s) (hr : Reboot s s') :
    ∃ m hm f, CC m hm ∧ m.CrashesTo n f ∧ Booted n f hm s' := by
  obtain ⟨cs, m, hm, h, hc⟩ := h
  obtain ⟨hd, -, hhm⟩ := hr
  refine ⟨m, hm, fun a => ((s'.disk a).getD (0, [])).1, hc, ?_, ⟨?_, hhm.trans h.hm_eq⟩⟩
  · intro a ha
    obtain ⟨v, l, h₁, h₂, -, -⟩ := h.rep.block a ha
    rcases hd a with ⟨h', -⟩ | ⟨vs, v', h', h'', hv⟩
    · rw [h₁] at h'
      cases h'
    · rw [h₁, Option.some.injEq] at h'
      subst h'
      simpa [h''] using h₂ v' hv
  · funext a
    split_ifs with ha
    · obtain ⟨v, l, h₁, -, -, -⟩ := h.rep.block a ha
      rcases hd a with ⟨h', -⟩ | ⟨vs, v', -, h'', -⟩
      · rw [h₁] at h'
        cases h'
      · simp [h'']
    · rcases hd a with ⟨-, h'⟩ | ⟨vs, v', h', -, -⟩
      · exact h'
      · rw [h.rep.dom a (by omega)] at h'
        cases h'

theorem Booted.cstate {f : ℕ → Valu} {k : ℕ} (h : Booted n f hm s) :
    CState n (BufCache.cache0 k) (ADisk.synced f) hm s := by
  refine ⟨⟨?_, ?_, ?_⟩, h.hm_eq⟩
  · intro a ha
    simp [h.disk_eq, show ¬ a < n by omega]
  · intro a ha
    simp [BufCache.cache0] at ha
  · intro a ha
    exact ⟨f a, [], by simp [h.disk_eq, ha], by simp [ADisk.synced], by simp [ADisk.synced],
      by simp [EntryOk, ADisk.synced, BufCache.cache0]⟩

theorem BufCache.wp_init {f : ℕ → Valu} {k : ℕ} {Q : CacheState → St → Prop}
    (h : Booted n f hm s) (hc : CC (ADisk.synced f) hm)
    (hQ : ∀ s', CState n (cache0 k) (ADisk.synced f) hm s' → Q (cache0 k) s') :
    wp diskSem (init k) Q (CCrash n CC) s := by
  have h₀ : CState n (cache0 k) (ADisk.synced f) hm s := h.cstate
  unfold init
  refine wp_bind (wp_sync (h₀.crash hc) fun d hd => wp_pure (hQ _ ?_))
  have hs : syncMem s.disk = s.disk := by
    funext a
    rw [h.disk_eq]
    simp only [syncMem]
    split_ifs <;> rfl
  rw [hs] at hd
  exact h₀.possibleSync hd

/-- Recovery starts with a fresh cache over a synced disk that satisfies the crash condition. -/
theorem BufCache.wp_boot {α : Type} {k : ℕ} {s' : St} {p : CacheState → Prog α}
    {Q : α → St → Prop} (h : CCrash n CC s) (hr : Reboot s s')
    (hcrash : ∀ m hm f, CC m hm → m.CrashesTo n f → CC (ADisk.synced f) hm)
    (hp : ∀ cs f hm s, CState n cs (ADisk.synced f) hm s → CC (ADisk.synced f) hm →
      wp diskSem (p cs) Q (CCrash n CC) s) :
    wp diskSem (do
      let cs ← initRecover k
      p cs) Q (CCrash n CC) s' := by
  obtain ⟨m, hm, f, hc, hf, hb⟩ := h.reboot hr
  have hc' := hcrash m hm f hc hf
  apply wp_bind
  apply wp_init hb hc'
  exact fun s'' h' => hp _ f hm s'' h' hc'

end Fscq
