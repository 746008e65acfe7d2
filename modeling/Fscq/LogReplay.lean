import Fscq.DiskLogAtomic

/-!
# Replaying a log

A list of log entries can be replayed into a map of pending values or onto a disk; later entries win.
`ADisk.install` is what a disk looks like once the values of a map are durable.
-/

namespace Fscq

open PaddedLog (Contents)

/-- Pending values by address. -/
abbrev Valumap := AddrMap Valu

def replayMem (log : Contents) (m : Valumap) : Valumap :=
  log.foldl (fun m e => m.insert e.1 e.2) m

def replayDisk (log : Contents) (f : ℕ → Valu) : ℕ → Valu :=
  log.foldl (fun f e => Function.update f e.1 e.2) f

/-- One of the addresses is in the map. -/
def overlap (al : List ℕ) (m : Valumap) : Bool :=
  match al with
  | [] => false
  | a :: rest => if a ∈ m then true else overlap rest m

theorem overlap_eq_true_iff {al : List ℕ} {m : Valumap} :
    overlap al m = true ↔ ∃ a ∈ al, a ∈ m := by
  induction al with
  | nil => simp [overlap]
  | cons a al ih => by_cases h : a ∈ m <;> simp [overlap, h, ih]

theorem replayMem_append (l l' : Contents) (m : Valumap) :
    replayMem (l ++ l') m = replayMem l' (replayMem l m) := by simp [replayMem]

/-- A value of the replayed map is the last one of the log, or was in the map before. -/
theorem getElem?_replayMem (l : Contents) (m : Valumap) (a : ℕ) :
    (replayMem l m)[a]? = ((replayMem l ∅)[a]?).or m[a]? := by
  induction l generalizing m with
  | nil => simp [replayMem]
  | cons e l ih =>
    have h := ih (m.insert e.1 e.2)
    have h' := ih ((∅ : Valumap).insert e.1 e.2)
    simp only [replayMem, List.foldl_cons] at h h' ⊢
    rw [h, h']
    simp only [Std.ExtTreeMap.getElem?_insert]
    by_cases e' : e.1 = a
    · simp [e']
    · simp [e']

theorem replayDisk_eq (l : Contents) (f : ℕ → Valu) (a : ℕ) :
    replayDisk l f a = ((replayMem l ∅)[a]?).getD (f a) := by
  induction l generalizing f with
  | nil => simp [replayDisk, replayMem]
  | cons e l ih =>
    have h := ih (Function.update f e.1 e.2)
    have h' := getElem?_replayMem l ((∅ : Valumap).insert e.1 e.2) a
    simp only [replayMem, replayDisk, List.foldl_cons] at h h' ⊢
    rw [h, h']
    cases (List.foldl (fun m e => m.insert e.1 e.2) (∅ : Valumap) l)[a]? with
    | some v => simp
    | none =>
      by_cases e' : a = e.1
      · simp [e']
      · simp [Ne.symm e', e']

theorem mem_of_getElem?_replayMem {l : Contents} {a : ℕ} {v : Valu}
    (h : (replayMem l ∅)[a]? = some v) : (a, v) ∈ l := by
  induction l with
  | nil => simp [replayMem] at h
  | cons e l ih =>
    have h' := getElem?_replayMem l ((∅ : Valumap).insert e.1 e.2) a
    simp only [replayMem, List.foldl_cons] at h h' ih
    rw [h'] at h
    cases hl : (List.foldl (fun m e => m.insert e.1 e.2) (∅ : Valumap) l)[a]? with
    | some w =>
      rw [hl] at h ih
      exact List.mem_cons_of_mem _ (ih h)
    | none =>
      rw [hl] at h
      by_cases e' : e.1 = a
      · subst e'
        obtain rfl : e.2 = v := by simpa using h
        exact List.mem_cons_self
      · simp [e'] at h

theorem getElem?_replayMem_of_mem {l : Contents} {a : ℕ} (h : ∃ v, (a, v) ∈ l) :
    ∃ v, (replayMem l ∅)[a]? = some v := by
  induction l with
  | nil => simp at h
  | cons e l ih =>
    have h' := getElem?_replayMem l ((∅ : Valumap).insert e.1 e.2) a
    simp only [replayMem, List.foldl_cons] at h' ih ⊢
    rw [h']
    by_cases e' : e.1 = a
    · cases (List.foldl (fun m e => m.insert e.1 e.2) (∅ : Valumap) l)[a]? with
      | some w => exact ⟨w, rfl⟩
      | none => exact ⟨e.2, by simp [e']⟩
    · obtain ⟨v, hv⟩ := h
      obtain ⟨w, hw⟩ := ih ⟨v, by
        rcases List.mem_cons.1 hv with rfl | hv
        · exact absurd rfl e'
        · exact hv⟩
      exact ⟨w, by simp [hw]⟩

theorem nodup_toList_keys (m : Valumap) : (m.toList.map Prod.fst).Nodup := by
  rw [Std.ExtTreeMap.map_fst_toList_eq_keys]
  exact Std.ExtTreeMap.nodup_keys

/-- Replaying the entries of a map gives the map back. -/
theorem replayMem_toList (m : Valumap) : replayMem m.toList ∅ = m := by
  apply Std.ExtTreeMap.ext_getElem?
  intro a
  cases hm : m[a]? with
  | some v =>
    obtain ⟨w, hw⟩ := getElem?_replayMem_of_mem
      ⟨v, Std.ExtTreeMap.mem_toList_iff_getElem?_eq_some.2 hm⟩
    have hw' := Std.ExtTreeMap.mem_toList_iff_getElem?_eq_some.1 (mem_of_getElem?_replayMem hw)
    rw [hw, ← hw', hm]
  | none =>
    cases hr : (replayMem m.toList ∅)[a]? with
    | none => rfl
    | some v =>
      have := Std.ExtTreeMap.mem_toList_iff_getElem?_eq_some.1 (mem_of_getElem?_replayMem hr)
      rw [hm] at this
      cases this

/-! ## Replaying onto a list of value sets -/

/-- The blocks of the disk with their unsynced older values. -/
abbrev Diskstate := List Valuset

namespace Diskstate

def replayDisk (log : Contents) (d : Diskstate) : Diskstate :=
  log.foldl (fun d e => d.set e.1 (e.2, [])) d

/-- The disks agree outside of the addresses `keys`. -/
def EqualUnlessIn (keys : List ℕ) (d d' : Diskstate) : Prop :=
  d.length = d'.length ∧ ∀ a, a ∉ keys → d.getD a (0, []) = d'.getD a (0, [])

variable {log part : Contents} {d d' : Diskstate}

theorem length_replayDisk (log : Contents) (d : Diskstate) :
    (replayDisk log d).length = d.length := by
  induction log generalizing d with
  | nil => rfl
  | cons e log ih =>
    have h := ih (d.set e.1 (e.2, []))
    rw [List.length_set] at h
    exact h

/-- A replayed block holds the last value of the log, or what it held before. -/
theorem getElem?_replayDisk (log : Contents) (d : Diskstate) (a : ℕ) :
    (replayDisk log d)[a]? =
      d[a]?.map fun vs => ((replayMem log ∅)[a]?).elim vs fun v => (v, []) := by
  induction log generalizing d with
  | nil => simp [replayDisk, replayMem]
  | cons e log ih =>
    have h := ih (d.set e.1 (e.2, []))
    have h' := getElem?_replayMem log ((∅ : Valumap).insert e.1 e.2) a
    simp only [replayMem, replayDisk, List.foldl_cons] at h h' ⊢
    rw [h, h', List.getElem?_set]
    by_cases e' : e.1 = a
    · subst e'
      rcases Nat.lt_or_ge e.1 d.length with ha | ha
      · cases (List.foldl (fun m e => m.insert e.1 e.2) (∅ : Valumap) log)[e.1]? <;> simp [ha]
      · simp [Nat.not_lt.2 ha]
    · simp [e']

/-- What is replayed depends on the collapsed log only. -/
theorem replayDisk_congr {log log' : Contents} (h : replayMem log ∅ = replayMem log' ∅)
    (d : Diskstate) : replayDisk log d = replayDisk log' d := by
  apply List.ext_getElem?
  intro a
  rw [getElem?_replayDisk, getElem?_replayDisk, h]

/-- The log covers the difference of two disks that agree outside of its keys. -/
theorem replayDisk_of_equalUnlessIn (h : EqualUnlessIn (replayMem log ∅).keys d d') :
    replayDisk log d' = replayDisk log d := by
  apply List.ext_getElem?
  intro a
  rw [getElem?_replayDisk, getElem?_replayDisk]
  by_cases ha : a < d.length
  · have ha' : a < d'.length := by rw [← h.1]; exact ha
    rw [List.getElem?_eq_getElem ha, List.getElem?_eq_getElem ha', Option.map_some, Option.map_some]
    cases hv : (replayMem log ∅)[a]? with
    | some v => rfl
    | none =>
      have hnot : a ∉ (replayMem log ∅).keys := by
        rw [Std.ExtTreeMap.mem_keys, ← Std.ExtTreeMap.isSome_getElem?_iff_mem, hv]
        simp
      have he := h.2 a hnot
      simpa [List.getD_eq_getElem?_getD, ha, ha'] using he.symm
  · have ha' : ¬ a < d'.length := by rw [← h.1]; exact ha
    rw [List.getElem?_eq_none (by omega), List.getElem?_eq_none (by omega)]

/-- A disk on which some entries have been written already, in any order. -/
theorem equalUnlessIn_replayDisk {keys : List ℕ} (h : ∀ e ∈ part, e.1 ∈ keys) (d : Diskstate) :
    EqualUnlessIn keys d (replayDisk part d) := by
  refine ⟨(length_replayDisk part d).symm, fun a ha => ?_⟩
  have hnone : (replayMem part ∅)[a]? = none := by
    cases hv : (replayMem part ∅)[a]? with
    | none => rfl
    | some v => exact absurd (h _ (mem_of_getElem?_replayMem hv)) ha
  rw [List.getD_eq_getElem?_getD, List.getD_eq_getElem?_getD, getElem?_replayDisk, hnone]
  simp

end Diskstate

/-- The laws of replaying.  The elements of the collapsed map have the effect of the log in its
order, on a list of value sets and on the blocks of a disk.  What the blocks of the log held before
does not matter; so replaying again after any part of it has been replayed, even with other values,
gives the same disk. -/
theorem replay_laws (log : Contents) :
    (∀ d, Diskstate.replayDisk (replayMem log ∅).toList d = Diskstate.replayDisk log d) ∧
    (∀ f, replayDisk (replayMem log ∅).toList f = replayDisk log f) ∧
    (∀ d d', Diskstate.EqualUnlessIn (replayMem log ∅).keys d d' →
      Diskstate.replayDisk log d' = Diskstate.replayDisk log d ∧
      Diskstate.replayDisk (replayMem log ∅).toList d' = Diskstate.replayDisk log d) ∧
    ∀ part : Contents, (∀ e ∈ part, e.1 ∈ (replayMem log ∅).keys) → ∀ d,
      Diskstate.replayDisk log (Diskstate.replayDisk part d) = Diskstate.replayDisk log d := by
  have hmem : replayMem (replayMem log ∅).toList ∅ = replayMem log ∅ := replayMem_toList _
  refine ⟨Diskstate.replayDisk_congr hmem, fun f => ?_, fun d d' h => ⟨?_, ?_⟩, fun part hp d => ?_⟩
  · funext a
    rw [replayDisk_eq, replayDisk_eq, hmem]
  · exact Diskstate.replayDisk_of_equalUnlessIn h
  · rw [Diskstate.replayDisk_congr hmem]
    exact Diskstate.replayDisk_of_equalUnlessIn h
  · exact Diskstate.replayDisk_of_equalUnlessIn (Diskstate.equalUnlessIn_replayDisk hp d)

namespace ADisk

/-- The values of a map become durable. -/
def install (B : ADisk) (mp : Valumap) : ADisk where
  cur a := (mp[a]?).getD (B.cur a)
  poss a := (mp[a]?).elim (B.poss a) fun v => {v}

theorem SyncedAt.install {B : ADisk} {a : ℕ} (h : B.SyncedAt a) (mp : Valumap) :
    (B.install mp).SyncedAt a := by
  intro x hx
  unfold ADisk.install at hx ⊢
  dsimp only at hx ⊢
  cases hmp : mp[a]? with
  | none =>
    rw [hmp] at hx
    exact h x hx
  | some v =>
    rw [hmp] at hx
    exact hx

/-- What is installed is durable, and syncing a block makes it durable. -/
theorem syncedAt_install_sync {B : ADisk} {S : Set ℕ} {mp : Valumap} {a : ℕ}
    (h : (B.install mp).SyncedAt a ∨ a ∈ S) : ((B.sync S).install mp).SyncedAt a := by
  rcases h with h | h
  · intro x hx
    have hx' : x ∈ (B.install mp).poss a := by
      unfold ADisk.install ADisk.sync at hx
      unfold ADisk.install
      dsimp only at hx ⊢
      cases hmp : mp[a]? with
      | none =>
        rw [hmp] at hx
        exact hx.1
      | some v =>
        rw [hmp] at hx
        exact hx
    exact h x hx'
  · exact (syncedAt_sync h).install mp

theorem install_empty (B : ADisk) : B.install ∅ = B := by
  simp [install]

/-- A write to a block that is not installed. -/
theorem install_write (B : ADisk) {mp : Valumap} {a : ℕ} (h : mp[a]? = none) (v : Valu) :
    (B.write a v).install mp = (B.install mp).write a v := by
  unfold install write
  congr 1
  · funext b
    dsimp only
    rcases eq_or_ne b a with rfl | hb
    · rw [h, Option.getD_none, Function.update_self, Function.update_self]
    · rw [Function.update_of_ne hb, Function.update_of_ne hb]
  · funext b
    dsimp only
    rcases eq_or_ne b a with rfl | hb
    · rw [h, Option.elim_none, Function.update_self, Function.update_self, Option.elim_none]
    · rw [Function.update_of_ne hb, Function.update_of_ne hb]

theorem install_install (B : ADisk) (mp : Valumap) (l : Contents) :
    (B.install mp).install (replayMem l ∅) = B.install (replayMem l mp) := by
  unfold install
  congr 1
  · funext a
    simp only [getElem?_replayMem l mp a]
    cases (replayMem l ∅)[a]? <;> simp
  · funext a
    simp only [getElem?_replayMem l mp a]
    cases (replayMem l ∅)[a]? <;> simp

end ADisk

end Fscq
