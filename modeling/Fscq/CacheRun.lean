import Fscq.Cache

/-!
# Runs of the buffer cache

A client of the buffer cache reads and writes blocks and syncs them in three steps: `beginSync`, one
`sync` for each block, and `endSync`.  This file follows runs of these operations, with evictions
and write-backs in between, against the abstract disk: the cache stays within its bound, the reads
see the last writes, and a crash leaves every block with a value that the abstract disk allows.
-/

namespace Fscq

open CrashProg

section

variable [Platform]

/-- The count of the cache is right and within the bound. -/
structure SizeValid (cs : CacheState) : Prop where
  count : cs.csMap.size = cs.csCount
  le : cs.csMap.size ≤ cs.csMaxCount
  pos : cs.csMaxCount ≠ 0

/-- What every operation keeps of the cache: its bound, and the clean blocks other than those that
it writes. -/
structure Kept (W : Set ℕ) (cs cs' : CacheState) : Prop where
  max : cs'.csMaxCount = cs.csMaxCount
  size : SizeValid cs'
  clean : ∀ b ∉ W, Clean cs b → Clean cs' b

variable {W : Set ℕ} {cs cs' cs'' : CacheState} {a : ℕ}

theorem Kept.trans (h : Kept W cs cs') (h' : Kept W cs' cs'') : Kept W cs cs'' where
  max := h'.max.trans h.max
  size := h'.size
  clean b hb hc := h'.clean b hb (h.clean b hb hc)

theorem Kept.refl (hs : SizeValid cs) : Kept W cs cs := ⟨rfl, hs, fun _ _ => id⟩

/-- Adding or replacing one block when there is room. -/
theorem kept_insert {e : Valu × Bool} (hs : SizeValid cs) (ha : e.2 = true → a ∈ W)
    (hm : cs'.csMap = cs.csMap.insert a e) (hx : cs'.csMaxCount = cs.csMaxCount)
    (hn : cs'.csCount = if cs.csMap.contains a then cs.csCount else cs.csCount + 1)
    (hroom : ¬ cs.csMap.contains a → cs.csMap.size < cs.csMaxCount) : Kept W cs cs' := by
  have hsize : cs'.csMap.size =
      if cs.csMap.contains a then cs.csMap.size else cs.csMap.size + 1 := by
    rw [hm, Std.ExtTreeMap.size_insert]
  refine ⟨hx, ⟨?_, ?_, hx ▸ hs.pos⟩, ?_⟩
  · rw [hsize, hn, hs.count]
  · rw [hsize, hx]
    split_ifs with hc
    · exact hs.le
    · exact hroom hc
  · intro b hb hc v
    rw [hm, Std.ExtTreeMap.getElem?_insert]
    split_ifs with h
    · obtain rfl : a = b := by simpa using h
      intro he
      exact hb (ha (by rw [Option.some.inj he]))
    · exact hc v

theorem kept_erase (hs : SizeValid cs) (hm : cs'.csMap = cs.csMap.erase a)
    (hx : cs'.csMaxCount = cs.csMaxCount)
    (hn : cs'.csCount = if cs.csMap.contains a then cs.csCount - 1 else cs.csCount) :
    Kept W cs cs' := by
  have hsize : cs'.csMap.size =
      if cs.csMap.contains a then cs.csMap.size - 1 else cs.csMap.size := by
    rw [hm, Std.ExtTreeMap.size_erase]
  refine ⟨hx, ⟨?_, ?_, hx ▸ hs.pos⟩, ?_⟩
  · rw [hsize, hn, hs.count]
  · rw [hx]
    have := hs.le
    split_ifs at hsize <;> omega
  · intro b _ hb v
    rw [hm, Std.ExtTreeMap.getElem?_erase]
    split_ifs
    · simp
    · exact hb v

theorem contains_of_getElem? {e : Valu × Bool} (h : cs.csMap[a]? = some e) :
    cs.csMap.contains a = true := by
  rw [Std.ExtTreeMap.contains_eq_isSome_getElem?, h]
  rfl

theorem not_contains_of_getElem? (h : cs.csMap[a]? = none) : ¬ cs.csMap.contains a = true := by
  rw [Std.ExtTreeMap.contains_eq_isSome_getElem?, h]
  simp

namespace BufCache

/-! ### The answers of the operations -/

/-- The block that is written back stays in the cache. -/
theorem returns_writeback (W : Set ℕ) (a : ℕ) (hs : SizeValid cs) :
    Returns diskSem (writeback a cs) fun cs' =>
      Kept W cs cs' ∧ Clean cs' a ∧ cs'.csMap.contains a = cs.csMap.contains a ∧
        cs'.csMap.size = cs.csMap.size := by
  unfold writeback
  split
  next v hv =>
    have ha := contains_of_getElem? hv
    refine returns_bind fun _ => returns_pure ⟨?_, fun v => by simp, by simp [ha], ?_⟩
    · exact kept_insert (e := (v, false)) hs (by simp) rfl rfl (by simp [ha]) fun h => absurd ha h
    · exact Std.ExtTreeMap.size_insert.trans (if_pos ha)
  next hv => exact returns_pure ⟨.refl hs, fun v e => hv v e, rfl, rfl⟩

/-- The eviction of a block makes room. -/
theorem returns_evict (W : Set ℕ) (a : ℕ) (hs : SizeValid cs) :
    Returns diskSem (evict a cs) fun cs' =>
      Kept W cs cs' ∧ (cs.csMap.contains a → cs'.csMap.size = cs.csMap.size - 1) := by
  unfold evict
  refine returns_seq (returns_writeback W a hs) fun cs' ⟨hk, hc, hn, hsz⟩ => ?_
  split
  next e he =>
    have ha := contains_of_getElem? he
    refine returns_pure ⟨hk.trans (kept_erase hk.size rfl rfl (by simp [ha])), fun _ => ?_⟩
    exact (Std.ExtTreeMap.size_erase.trans (if_pos ha)).trans (by rw [hsz])
  next he =>
    have ha := not_contains_of_getElem? he
    refine returns_pure ⟨hk.trans (kept_erase hk.size rfl rfl (by simp [ha])), fun h => ?_⟩
    rw [hn] at ha
    exact absurd h ha

/-- There is room for one more block afterwards. -/
theorem returns_maybeEvict (W : Set ℕ) (hs : SizeValid cs) :
    Returns diskSem (maybeEvict cs) fun cs' =>
      Kept W cs cs' ∧ cs'.csMap.size < cs'.csMaxCount := by
  have hroom : ∀ cs' : CacheState, Kept W cs cs' → cs'.csMap.size = cs.csMap.size - 1 →
      cs'.csMap.size < cs'.csMaxCount := by
    intro cs' hk hsz
    rw [hk.max, hsz]
    have := hs.le
    have := hs.pos
    omega
  unfold maybeEvict
  split_ifs with hlt
  · exact returns_pure ⟨.refl hs, hs.count.trans_lt hlt⟩
  · dsimp only
    split
    next e he =>
      have hs' : SizeValid { cs with csEvict := (evictionChoose cs.csEvict).2 } :=
        ⟨hs.count, hs.le, hs.pos⟩
      refine (returns_evict W (evictionChoose cs.csEvict).1 hs').mono fun cs' ⟨hk, hsz⟩ => ?_
      have hk' : Kept W cs cs' := ⟨hk.max, hk.size, hk.clean⟩
      exact ⟨hk', hroom cs' hk' (hsz (contains_of_getElem? he))⟩
    next =>
      split
      next hnil =>
        -- an empty cache is below its bound
        have hlen := congrArg List.length hnil
        rw [Std.ExtTreeMap.length_toList, List.length_nil, hs.count] at hlen
        have := hs.pos
        omega
      next b e l hl =>
        have hb : cs.csMap[b]? = some e := by
          rw [← Std.ExtTreeMap.mem_toList_iff_getElem?_eq_some, hl]
          exact List.mem_cons_self
        refine (returns_evict W b hs).mono fun cs' ⟨hk, hsz⟩ => ⟨hk, ?_⟩
        exact hroom cs' hk (hsz (contains_of_getElem? hb))

theorem returns_read (W : Set ℕ) (a : ℕ) (hs : SizeValid cs) :
    Returns diskSem (read a cs) fun r => Kept W cs r.1 := by
  unfold read
  refine returns_seq (returns_maybeEvict W hs) fun cs' ⟨hk, hroom⟩ => ?_
  split
  · exact returns_pure hk
  next hv =>
    have ha := not_contains_of_getElem? hv
    refine returns_bind fun _ => returns_bind fun v => returns_pure (hk.trans ?_)
    exact kept_insert (e := (v, false)) hk.size (by simp) rfl rfl (by simp [ha]) fun _ => hroom

theorem returns_write (a : ℕ) (v : Valu) (hs : SizeValid cs) :
    Returns diskSem (write a v cs) fun cs' => Kept {a} cs cs' := by
  unfold write
  refine returns_seq (returns_maybeEvict {a} hs) fun cs' ⟨hk, hroom⟩ => ?_
  split
  next e he =>
    have ha := contains_of_getElem? he
    exact returns_pure (hk.trans
      (kept_insert (e := (v, true)) hk.size (fun _ => rfl) rfl rfl (by simp [ha]) fun _ => hroom))
  next he =>
    have ha := not_contains_of_getElem? he
    exact returns_pure (hk.trans
      (kept_insert (e := (v, true)) hk.size (fun _ => rfl) rfl rfl (by simp [ha]) fun _ => hroom))

/-! ### Runs -/

/-- The operations of a client of the cache. -/
inductive Op
  | read (a : ℕ)
  | write (a : ℕ) (v : Valu)
  | beginSync
  | sync (a : ℕ)
  | endSync
  | evict (a : ℕ)
  | writeback (a : ℕ)

/-- Reads and writes are at blocks of the disk. -/
def Op.Valid (n : ℕ) : Op → Prop
  | .read a => a < n
  | .write a _ => a < n
  | _ => True

/-- One operation; the answer lists what it read. -/
def runOp (cs : CacheState) : Op → Prog (CacheState × List Valu)
  | .read a => do
    let (cs, v) ← read a cs
    pure (cs, [v])
  | .write a v => do
    let cs ← write a v cs
    pure (cs, [])
  | .beginSync => do
    let cs ← beginSync cs
    pure (cs, [])
  | .sync a => do
    let cs ← sync a cs
    pure (cs, [])
  | .endSync => do
    let cs ← endSync cs
    pure (cs, [])
  | .evict a => do
    let cs ← evict a cs
    pure (cs, [])
  | .writeback a => do
    let cs ← writeback a cs
    pure (cs, [])

/-- A run of operations; the answer lists the values that were read. -/
def runOps : List Op → CacheState → Prog (CacheState × List Valu)
  | [], cs => pure (cs, [])
  | o :: ops, cs => do
    let (cs, vs) ← runOp cs o
    let (cs, vs') ← runOps ops cs
    pure (cs, vs ++ vs')

/-- The cache for its clients: an abstract disk, and the blocks that have been synced since the last
`beginSync` and not been written again. -/
structure View where
  disk : ADisk
  marked : Set ℕ

namespace View

def step (A : View) : Op → View
  | .write a v => ⟨A.disk.write a v, A.marked \ {a}⟩
  | .beginSync => ⟨A.disk, ∅⟩
  | .sync a => ⟨A.disk, insert a A.marked⟩
  | .endSync => ⟨A.disk.sync A.marked, ∅⟩
  | _ => A

def run (A : View) (ops : List Op) : View := ops.foldl step A

/-- The values that a run reads. -/
def reads (A : View) : List Op → List Valu
  | [] => []
  | .read a :: ops => A.disk.cur a :: A.reads ops
  | o :: ops => (A.step o).reads ops

/-- The view of a raw disk before the first operation. -/
def init (d : Rawdisk) : View where
  disk := ⟨fun a => ((d a).getD (0, [])).1, fun a => {v | v ∈ vsmerge ((d a).getD (0, []))}⟩
  marked := ∅

omit [Platform] in
theorem run_append (A : View) (ops ops' : List Op) :
    A.run (ops ++ ops') = (A.run ops).run ops' := by
  simp [run]

omit [Platform] in
theorem run_syncs (A : View) (l : List ℕ) :
    A.run (l.map .sync) = ⟨A.disk, {a | a ∈ l} ∪ A.marked⟩ := by
  induction l generalizing A with
  | nil => simp [run]
  | cons a l ih =>
    have hcons : A.run ((a :: l).map .sync) = (A.step (.sync a)).run (l.map .sync) := rfl
    rw [hcons, ih]
    refine congrArg (View.mk A.disk) (Set.ext fun b => ?_)
    simp [step]
    tauto

omit [Platform] in
/-- The three steps of a sync leave the synced blocks with their latest values. -/
theorem run_sync_poss (A : View) (l : List ℕ) {a : ℕ} (ha : a ∈ l) {v : Valu}
    (hv : v ∈ (A.run (.beginSync :: l.map .sync ++ [.endSync])).disk.poss a) :
    v = (A.run (.beginSync :: l.map .sync ++ [.endSync])).disk.cur a := by
  have h : A.run (.beginSync :: l.map .sync ++ [.endSync]) =
      ((A.step .beginSync).run (l.map .sync)).step .endSync := by
    simp [run]
  rw [h, run_syncs] at hv ⊢
  exact hv.2 (Or.inl ha)

end View

/-- The cache `cs` with the bound `k` in the state `s`, for a client with the view `A`. -/
structure Shows (n k : ℕ) (A : View) (cs : CacheState) (hm : Hashmap) (s : St) : Prop where
  state : CState n cs A.disk hm s
  marked : ∀ a ∈ A.marked, Clean cs a
  size : SizeValid cs
  max : cs.csMaxCount = k

variable {n k : ℕ} {A : View} {hm : Hashmap} {s : St} {CC : ADisk → Hashmap → Prop}

theorem Shows.kept {s' : St} (h : Shows n k A cs hm s) (hk : Kept W cs cs') {A' : View}
    (hA : CState n cs' A'.disk hm s')
    (hm' : ∀ a ∈ A'.marked, Clean cs' a ∨ a ∈ A.marked ∧ a ∉ W) : Shows n k A' cs' hm s' where
  state := hA
  marked a ha := by
    rcases hm' a ha with hc | ⟨h₁, h₂⟩
    · exact hc
    · exact hk.clean a h₂ (h.marked a h₁)
  size := hk.size
  max := hk.max.trans h.max

/-- One operation moves the view of the client. -/
theorem wp_runOp (h : Shows n k A cs hm s) {o : Op} (ho : o.Valid n) (hc : CC A.disk hm) :
    wp diskSem (runOp cs o) (fun r s' => Shows n k (A.step o) r.1 hm s' ∧ r.2 = A.reads [o])
      (CCrash n CC) s := by
  cases o with
  | read a =>
    refine wp_bind (wp_returns (returns_read ∅ a h.size) (wp_read h.state ho hc ?_))
    intro cs' s' h' hk
    exact wp_pure ⟨h.kept hk h' fun a ha => .inr ⟨ha, id⟩, rfl⟩
  | write a v =>
    refine wp_bind (wp_returns (returns_write a v h.size) (wp_write h.state ho hc ?_))
    intro cs' s' h' hk
    exact wp_pure ⟨h.kept hk h' fun a ha => .inr ha, rfl⟩
  | beginSync =>
    exact wp_bind (wp_pure (wp_pure ⟨h.kept (W := ∅) (.refl h.size) h.state (by simp [View.step]), rfl⟩))
  | sync a =>
    refine wp_bind (wp_returns (returns_writeback ∅ a h.size) (wp_writeback h.state hc ?_))
    intro cs' s' h' hca _ ⟨hk, _⟩
    refine wp_pure ⟨h.kept hk h' ?_, rfl⟩
    rintro b (rfl | hb)
    · exact .inl hca
    · exact .inr ⟨hb, id⟩
  | endSync =>
    refine wp_bind (wp_endSync h.state h.marked hc fun s' h' => wp_pure ⟨?_, rfl⟩)
    exact h.kept (W := ∅) (.refl h.size) h' (by simp [View.step])
  | evict a =>
    refine wp_bind (wp_returns (returns_evict ∅ a h.size) (wp_evict h.state hc ?_))
    intro cs' s' h' ⟨hk, _⟩
    exact wp_pure ⟨h.kept hk h' fun a ha => .inr ⟨ha, id⟩, rfl⟩
  | writeback a =>
    refine wp_bind (wp_returns (returns_writeback ∅ a h.size) (wp_writeback h.state hc ?_))
    intro cs' s' h' _ _ ⟨hk, _⟩
    exact wp_pure ⟨h.kept hk h' fun a ha => .inr ⟨ha, id⟩, rfl⟩

omit [Platform] in
theorem View.reads_cons (A : View) (o : Op) (ops : List Op) :
    A.reads (o :: ops) = A.reads [o] ++ (A.step o).reads ops := by
  cases o <;> rfl

/-- A run moves the view of the client. -/
theorem wp_runOps {ops : List Op} (h : Shows n k A cs hm s) (ho : ∀ o ∈ ops, o.Valid n) :
    wp diskSem (runOps ops cs) (fun r s' => Shows n k (A.run ops) r.1 hm s' ∧ r.2 = A.reads ops)
      (fun _ => True) s := by
  induction ops generalizing A cs s with
  | nil => exact wp_pure ⟨h, rfl⟩
  | cons o ops ih =>
    have hstep : wp diskSem (runOp cs o)
        (fun r s' => Shows n k (A.step o) r.1 hm s' ∧ r.2 = A.reads [o])
        (CCrash n fun m _ => m = A.disk) s := wp_runOp h (ho o List.mem_cons_self) rfl
    refine wp_seq hstep.anyCrash ?_
    rintro ⟨cs', vs⟩ s' ⟨h', hvs⟩
    refine wp_seq (ih h' fun o ho' => ho o (List.mem_cons_of_mem _ ho')) ?_
    rintro ⟨cs'', vs'⟩ s'' ⟨h'', hvs'⟩
    refine wp_pure ⟨h'', ?_⟩
    rw [View.reads_cons]
    exact congrArg₂ _ hvs hvs'

/-- A run that crashes has finished some operations and crashes in the next one. -/
theorem crash_runOps {ops : List Op} {s' : St} (e : Exec diskSem s (runOps ops cs) (.crashed s')) :
    ∃ pre o post s₁ cs₁ vs, ops = pre ++ o :: post ∧
      Exec diskSem s (runOps pre cs) (.finished s₁ (cs₁, vs)) ∧
      Exec diskSem s₁ (runOp cs₁ o) (.crashed s') := by
  induction ops generalizing cs s with
  | nil => cases e
  | cons o ops ih =>
    cases e with
    | bindCrash e₁ => exact ⟨[], o, ops, s, cs, [], rfl, .ret _ _, e₁⟩
    | bindFinish e₁ e₂ =>
      rename_i s₂ v
      obtain ⟨cs₂, vs₂⟩ := v
      cases e₂ with
      | bindFinish _ e₃ => cases e₃
      | bindCrash e₃ =>
        obtain ⟨pre, o', post, s₁, cs₁, vs, rfl, hpre, ho'⟩ := ih e₃
        exact ⟨o :: pre, o', post, s₁, cs₁, _, rfl,
          .bindFinish e₁ (.bindFinish hpre (.ret _ _)), ho'⟩

/-- After a reboot every block holds a value that the abstract disk allows. -/
def Allowed (n : ℕ) (m : ADisk) (s : St) : Prop :=
  ∀ a < n, ∃ v ∈ m.poss a, s.disk a = some (v, [])

theorem allowed_of_crash {m : ADisk} {s' : St} (h : CCrash n (fun m' _ => m' = m) s)
    (hr : Reboot s s') : Allowed n m s' := by
  obtain ⟨m, hm, f, rfl, hf, hb⟩ := h.reboot hr
  intro a ha
  exact ⟨f a, hf a ha, by simp [hb.disk_eq, ha]⟩

/-- An empty cache shows the raw disk. -/
theorem shows_cache0 (hk : k ≠ 0) (hd : ∀ a, s.disk a = none ↔ n ≤ a) :
    Shows n k (View.init s.disk) (cache0 k) s.hm s where
  state := by
    refine ⟨⟨fun a => (hd a).2, fun a ha => by simp [cache0] at ha, fun a ha => ?_⟩, rfl⟩
    obtain ⟨⟨v, l⟩, h⟩ := Option.ne_none_iff_exists'.1 fun e => absurd ((hd a).1 e) (by omega)
    refine ⟨v, l, h, ?_, ?_, ?_⟩ <;> simp [View.init, h, vsmerge, EntryOk, cache0]
  marked := by simp [View.init]
  size := ⟨by simp [cache0], by simp [cache0], hk⟩
  max := rfl

/-- The cache is transparent: from any disk of `n` blocks, with any bound and any eviction policy, a
run of operations stays within the bound and reads what was written last.  A crash of the run comes
in one of its operations, after those before it have finished, and leaves only values that the
abstract disk allows at that point. -/
theorem runOps_transparent (hk : k ≠ 0) (hd : ∀ a, s.disk a = none ↔ n ≤ a) (ops : List Op)
    (ho : ∀ o ∈ ops, o.Valid n) :
    ¬ Exec diskSem s (runOps ops (cache0 k)) .failed ∧
    (∀ s', Exec diskSem s (runOps ops (cache0 k)) (.crashed s') →
      ∃ pre o post s₁ cs₁ vs, ops = pre ++ o :: post ∧
        Exec diskSem s (runOps pre (cache0 k)) (.finished s₁ (cs₁, vs)) ∧
        Exec diskSem s₁ (runOp cs₁ o) (.crashed s')) ∧
    (∀ pre o post s₁ cs₁ vs s', ops = pre ++ o :: post →
      Exec diskSem s (runOps pre (cache0 k)) (.finished s₁ (cs₁, vs)) →
      Exec diskSem s₁ (runOp cs₁ o) (.crashed s') →
      ∀ s'', Reboot s' s'' → Allowed n ((View.init s.disk).run pre).disk s'') ∧
    (∀ s' cs vs, Exec diskSem s (runOps ops (cache0 k)) (.finished s' (cs, vs)) →
      cs.csMap.size ≤ k ∧ cs.csCount = cs.csMap.size ∧ vs = (View.init s.disk).reads ops ∧
      (∀ s'', Reboot s' s'' → Allowed n ((View.init s.disk).run ops).disk s'') ∧
      ∀ (ops' : List Op) (l : List ℕ), ops = ops' ++ (.beginSync :: l.map .sync ++ [.endSync]) →
        ∀ s'', Reboot s' s'' → ∀ a ∈ l, a < n →
          s''.disk a = some (((View.init s.disk).run ops).disk.cur a, [])) := by
  have hwp := wp_runOps (shows_cache0 hk hd) ho
  refine ⟨fun e => hwp _ e, fun s' => crash_runOps, ?_, fun s' cs vs e => ?_⟩
  · rintro pre o post s₁ cs₁ vs s' rfl e e' s'' hr
    obtain ⟨h, -⟩ := wp_runOps (shows_cache0 hk hd)
      (fun o ho' => ho o (List.mem_append_left _ ho')) _ e
    have hstep : wp diskSem (runOp cs₁ o) _ (CCrash n fun m _ => m = _) s₁ :=
      wp_runOp h (ho o (List.mem_append_right _ List.mem_cons_self)) rfl
    exact allowed_of_crash (hstep _ e') hr
  · obtain ⟨h, hvs⟩ := hwp _ e
    have hcrash : ∀ s'', Reboot s' s'' → Allowed n ((View.init s.disk).run ops).disk s'' :=
      fun s'' hr => allowed_of_crash (h.state.crash rfl) hr
    refine ⟨h.max ▸ h.size.le, h.size.count.symm, hvs, hcrash, ?_⟩
    rintro ops' l rfl s'' hr a ha han
    obtain ⟨v, hv, e⟩ := hcrash s'' hr a han
    rw [View.run_append] at hv ⊢
    rw [e, View.run_sync_poss _ l ha hv]

end BufCache

end

namespace Sample

local instance cachePlatform : Platform := platform

/-- Two writes of one block through a cache of one block, a read of another one and a sync. -/
def cacheOps : List BufCache.Op :=
  [.write 1 7, .write 1 8, .read 0] ++ (.beginSync :: [1].map .sync ++ [.endSync])

theorem runOps_transparent_two :
    ¬ Exec diskSem ⟨fun a => if a < 2 then some (0, []) else none, fun _ => none, .empty⟩
      (BufCache.runOps cacheOps (BufCache.cache0 1)) .failed ∧
    ∀ s' cs vs, Exec diskSem ⟨fun a => if a < 2 then some (0, []) else none, fun _ => none, .empty⟩
      (BufCache.runOps cacheOps (BufCache.cache0 1)) (.finished s' (cs, vs)) →
    cs.csMap.size ≤ 1 ∧ vs = [0] ∧ ∀ s'', Reboot s' s'' → s''.disk 1 = some (8, []) := by
  have hd : ∀ a, (if a < 2 then some ((0 : Valu), ([] : List Valu)) else none) = none ↔ 2 ≤ a := by
    intro a
    split_ifs <;> simp <;> omega
  obtain ⟨hfail, -, -, h⟩ := BufCache.runOps_transparent (k := 1) (n := 2) one_ne_zero
    (s := ⟨fun a => if a < 2 then some (0, []) else none, fun _ => none, .empty⟩) hd cacheOps
    (by simp [cacheOps, BufCache.Op.Valid])
  refine ⟨hfail, fun s' cs vs e => ?_⟩
  obtain ⟨h₁, -, h₂, -, h₃⟩ := h s' cs vs e
  exact ⟨h₁, h₂, fun s'' hr => h₃ _ [1] rfl s'' hr 1 (by simp) (by omega)⟩

end Sample

end Fscq
