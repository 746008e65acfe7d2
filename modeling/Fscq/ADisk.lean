import Fscq.AsyncDisk

/-!
# The abstract disk

`ADisk` is the view of the asynchronous disk that the layers above the buffer cache work with: `cur`
holds the latest value of every block and `poss` the values that a crash may leave in it.
-/

namespace Fscq

/-- The latest value of every block, and the values that a crash may leave in it. -/
structure ADisk where
  cur : ℕ → Valu
  poss : ℕ → Set Valu

namespace ADisk

/-- A write leaves the older values possible. -/
def write (m : ADisk) (a : ℕ) (v : Valu) : ADisk where
  cur := Function.update m.cur a v
  poss := Function.update m.poss a (insert v (m.poss a))

/-- Writes in order. -/
def writes (m : ADisk) (avs : List (ℕ × Valu)) : ADisk :=
  avs.foldl (fun m av => m.write av.1 av.2) m

/-- Sync the blocks of a set. -/
def sync (m : ADisk) (S : Set ℕ) : ADisk where
  cur := m.cur
  poss a := {x | x ∈ m.poss a ∧ (a ∈ S → x = m.cur a)}

/-- The disk that holds `f` and has nothing pending. -/
def synced (f : ℕ → Valu) : ADisk := ⟨f, fun a => {f a}⟩

/-- `f` is a disk of `n` blocks that a crash may leave. -/
def CrashesTo (n : ℕ) (m : ADisk) (f : ℕ → Valu) : Prop := ∀ a < n, f a ∈ m.poss a

/-- Nothing is pending at an address. -/
def SyncedAt (m : ADisk) (a : ℕ) : Prop := ∀ x ∈ m.poss a, x = m.cur a

/-- Two disks agree at an address. -/
def SameAt (m m' : ADisk) (a : ℕ) : Prop := m'.cur a = m.cur a ∧ m'.poss a = m.poss a

variable {m m' m'' : ADisk} {a : ℕ} {avs : List (ℕ × Valu)}

theorem SameAt.refl (m : ADisk) (a : ℕ) : m.SameAt m a := ⟨rfl, rfl⟩

theorem SameAt.trans (h : m.SameAt m' a) (h' : m'.SameAt m'' a) : m.SameAt m'' a :=
  ⟨h'.1.trans h.1, h'.2.trans h.2⟩

theorem SameAt.syncedAt (h : m.SameAt m' a) (hs : m.SyncedAt a) : m'.SyncedAt a := by
  intro x hx
  rw [h.2] at hx
  rw [h.1, hs x hx]

theorem sameAt_write {b : ℕ} {v : Valu} (h : a ≠ b) : m.SameAt (m.write b v) a := by
  simp [SameAt, write, h]

theorem writes_append (m : ADisk) (avs avs' : List (ℕ × Valu)) :
    m.writes (avs ++ avs') = (m.writes avs).writes avs' := by
  simp [writes]

theorem sameAt_writes (h : ∀ av ∈ avs, av.1 ≠ a) : m.SameAt (m.writes avs) a := by
  induction avs generalizing m with
  | nil => exact .refl m a
  | cons av avs ih =>
    refine SameAt.trans (sameAt_write (h av List.mem_cons_self).symm) (ih fun av' h' => ?_)
    exact h av' (List.mem_cons_of_mem _ h')

theorem poss_subset_writes (avs : List (ℕ × Valu)) (a : ℕ) : m.poss a ⊆ (m.writes avs).poss a := by
  induction avs generalizing m with
  | nil => exact subset_rfl
  | cons av avs ih =>
    refine Set.Subset.trans ?_ (ih (m := m.write av.1 av.2))
    rcases eq_or_ne a av.1 with rfl | h
    · simp [write]
    · simp [write, h]

theorem writes_cur_of_mem {v : Valu} (hn : (avs.map Prod.fst).Nodup) (h : (a, v) ∈ avs) :
    (m.writes avs).cur a = v := by
  induction avs generalizing m with
  | nil => simp at h
  | cons av avs ih =>
    rw [List.map_cons, List.nodup_cons] at hn
    rcases List.mem_cons.1 h with rfl | h
    · have : ∀ av ∈ avs, av.1 ≠ a := fun av h' e => hn.1 (List.mem_map.2 ⟨av, h', e⟩)
      have hw : ((m.write a v).writes avs).cur a = (m.write a v).cur a := (sameAt_writes this).1
      exact hw.trans (by simp [write])
    · exact ih hn.2 h

theorem sync_cur (m : ADisk) (S : Set ℕ) : (m.sync S).cur = m.cur := rfl

theorem syncedAt_sync {S : Set ℕ} (h : a ∈ S) : (m.sync S).SyncedAt a := fun _ hx => hx.2 h

theorem sameAt_sync {S : Set ℕ} (h : a ∉ S) : m.SameAt (m.sync S) a := by
  simp [SameAt, sync, h]

theorem SyncedAt.sync {S : Set ℕ} (h : m.SyncedAt a) : (m.sync S).SyncedAt a :=
  fun x hx => h x hx.1

theorem SyncedAt.eq_of_crashesTo {n : ℕ} {f : ℕ → Valu} (h : m.SyncedAt a)
    (hf : m.CrashesTo n f) (ha : a < n) : f a = m.cur a := h _ (hf a ha)

theorem syncedAt_synced (f : ℕ → Valu) (a : ℕ) : (synced f).SyncedAt a := fun _ hx => hx

end ADisk

/-- The `n` blocks from address `a` on. -/
def blocksAt (f : ℕ → Valu) (a n : ℕ) : List Valu := (List.range n).map fun i => f (a + i)

@[simp] theorem length_blocksAt (f : ℕ → Valu) (a n : ℕ) : (blocksAt f a n).length = n := by
  simp [blocksAt]

theorem blocksAt_congr {f g : ℕ → Valu} {a n : ℕ} (h : ∀ b, a ≤ b → b < a + n → f b = g b) :
    blocksAt f a n = blocksAt g a n := by
  refine List.map_congr_left fun i hi => h _ (by omega) ?_
  have := List.mem_range.1 hi
  omega

theorem blocksAt_add (f : ℕ → Valu) (a n k : ℕ) :
    blocksAt f a (n + k) = blocksAt f a n ++ blocksAt f (a + n) k := by
  simp [blocksAt, List.range_add, Nat.add_assoc]

/-! ## Writes of ranges -/

namespace ADisk

variable {m : ADisk} {a : ℕ}

/-- The writes of a list of blocks to consecutive addresses. -/
def rangeWrites (a : ℕ) (l : List Valu) : List (ℕ × Valu) := l.mapIdx fun i v => (a + i, v)

theorem rangeWrites_bound {l : List Valu} {av : ℕ × Valu} (h : av ∈ rangeWrites a l) :
    a ≤ av.1 ∧ av.1 < a + l.length := by
  obtain ⟨i, hi, rfl⟩ := List.getElem_of_mem h
  simp only [rangeWrites, List.length_mapIdx] at hi
  simp only [rangeWrites, List.getElem_mapIdx]
  omega

theorem sameAt_writes_range {l : List Valu} {b : ℕ} (h : b < a ∨ a + l.length ≤ b) :
    m.SameAt (m.writes (rangeWrites a l)) b := by
  refine sameAt_writes fun av hav => ?_
  have := rangeWrites_bound hav
  omega

theorem blocksAt_writes_range (m : ADisk) (a : ℕ) (l : List Valu) :
    blocksAt (m.writes (rangeWrites a l)).cur a l.length = l := by
  refine List.ext_getElem (by simp) fun i hi hi' => ?_
  simp only [blocksAt, List.getElem_map, List.getElem_range]
  refine writes_cur_of_mem ?_ ?_
  · rw [List.nodup_iff_injective_getElem]
    intro j k h
    exact Fin.ext (by simpa [rangeWrites] using h)
  · rw [rangeWrites, List.mem_mapIdx]
    exact ⟨i, hi', rfl⟩

/-- The writes of a list of address and value pairs relative to a base address. -/
def vecWrites (a : ℕ) (l : List (ℕ × Valu)) : List (ℕ × Valu) := l.map fun av => (a + av.1, av.2)

end ADisk

end Fscq
