import Mathlib.Data.List.Nodup
import Mathlib.Logic.Function.Basic

/-!
# Lists of bindings

A list of pairs with different first components lists a finite map.  Adding and removing a pair
updates the map, in whatever order the list is.
-/

namespace FiniteMap

variable {α β : Type} {l l' : List (α × β)} {f g : α → Option β} {a : α} {b : β}

/-- The list has the bindings of the map, each of them once. -/
structure Lists (l : List (α × β)) (f : α → Option β) : Prop where
  mem_iff : ∀ a b, (a, b) ∈ l ↔ f a = some b
  nodup : (l.map Prod.fst).Nodup

theorem Lists.eq_none_iff (h : Lists l f) : f a = none ↔ ∀ b, (a, b) ∉ l := by
  rw [Option.eq_none_iff_forall_ne_some]
  exact forall_congr' fun b => not_congr (h.mem_iff a b).symm

theorem Lists.eq_none_iff_ne (h : Lists l f) : f a = none ↔ ∀ e ∈ l, e.1 ≠ a := by
  rw [h.eq_none_iff]
  constructor
  · rintro hn ⟨a', b⟩ he rfl
    exact hn b he
  · exact fun hn b he => hn _ he rfl

theorem Lists.perm (h : Lists l f) (hp : l'.Perm l) : Lists l' f where
  mem_iff a b := by rw [hp.mem_iff, h.mem_iff]
  nodup := (hp.map Prod.fst).nodup_iff.2 h.nodup

/-- A list lists one map only. -/
theorem Lists.unique (h : Lists l f) (h' : Lists l g) : f = g := by
  funext a
  apply Option.ext
  intro b
  rw [← h.mem_iff, ← h'.mem_iff]

theorem lists_nil : Lists ([] : List (α × β)) fun _ => none := ⟨by simp, by simp⟩

variable [DecidableEq α]

/-- Every list with different first components lists a map. -/
theorem lists_find (h : (l.map Prod.fst).Nodup) :
    Lists l fun a => (l.find? fun e => e.1 = a).map Prod.snd where
  mem_iff a b := by
    rw [Option.map_eq_some_iff]
    constructor
    · intro he
      have hsome : (l.find? fun e => e.1 = a).isSome := by
        rw [List.find?_isSome]
        exact ⟨(a, b), he, by simp⟩
      obtain ⟨e, hf⟩ := Option.isSome_iff_exists.1 hsome
      have hkey : e.1 = a := by simpa using List.find?_some hf
      have heq := List.inj_on_of_nodup_map h (List.mem_of_find?_eq_some hf) he hkey
      exact ⟨e, hf, by rw [heq]⟩
    · rintro ⟨⟨a', b'⟩, hf, rfl⟩
      have hkey : a' = a := by simpa using List.find?_some hf
      exact hkey ▸ List.mem_of_find?_eq_some hf
  nodup := h

theorem Lists.cons (h : Lists l f) (ha : f a = none) :
    Lists ((a, b) :: l) (Function.update f a (some b)) where
  mem_iff a' b' := by
    rw [List.mem_cons, Prod.mk.injEq, Function.update_apply, h.mem_iff]
    rcases eq_or_ne a' a with rfl | hne
    · simp [ha, eq_comm]
    · simp [hne]
  nodup := by
    rw [List.map_cons, List.nodup_cons]
    refine ⟨?_, h.nodup⟩
    intro hmem
    obtain ⟨e, he, hea⟩ := List.mem_map.1 hmem
    exact h.eq_none_iff_ne.1 ha e he hea

theorem Lists.of_cons (h : Lists ((a, b) :: l) f) : Lists l (Function.update f a none) := by
  have hnd := h.nodup
  rw [List.map_cons, List.nodup_cons] at hnd
  refine ⟨fun a' b' => ?_, hnd.2⟩
  have hmem := h.mem_iff a' b'
  rw [List.mem_cons, Prod.mk.injEq] at hmem
  rw [Function.update_apply]
  rcases eq_or_ne a' a with rfl | hne
  · rw [if_pos rfl]
    constructor
    · exact fun he => absurd (List.mem_map_of_mem (f := Prod.fst) he) hnd.1
    · intro he
      cases he
  · rw [if_neg hne, ← hmem]
    simp [hne]

/-- A binding has been added. -/
theorem Lists.insert (h : Lists l f) (ha : f a = none) (hp : l'.Perm ((a, b) :: l)) :
    Lists l' (Function.update f a (some b)) := (h.cons ha).perm hp

/-- A binding has been removed. -/
theorem Lists.erase (h : Lists l f) (hp : l.Perm ((a, b) :: l')) :
    Lists l' (Function.update f a none) := (h.perm hp.symm).of_cons

end FiniteMap
