import Mathlib.Logic.Relation
import Mathlib.Algebra.BigOperators.Group.Finset.Basic
import Mathlib.Algebra.Order.Group.Multiset
import Mathlib.Data.Fintype.EquivFin
import Mathlib.Data.Fintype.Sets

/-!
# Forests

A finite graph, given by the children of each vertex, is a forest over a list of roots when each
vertex is a root or a child exactly once and each vertex can be reached from a root.  Cutting an
edge, grafting a root under a vertex, and adding and dropping roots without children keep this.
-/

namespace Fscq

open Relation (ReflTransGen TransGen)

variable {V : Type*}

/-- There is an edge from a vertex to each of its children. -/
def Edge (E : V → Multiset V) (u v : V) : Prop := v ∈ E u

/-- The vertices of `A` with the children `E` form trees with the given roots. -/
structure Forest (roots : Multiset V) (E : V → Multiset V) (A : Finset V) : Prop where
  count : roots + ∑ v ∈ A, E v = A.val
  reach : ∀ v ∈ A, ∃ r ∈ roots, ReflTransGen (Edge E) r v

namespace Forest

variable {roots s : Multiset V} {E E' : V → Multiset V} {A : Finset V} {u v w d i : V}

theorem nodup (h : Forest roots E A) : (roots + ∑ v ∈ A, E v).Nodup := h.count ▸ A.nodup

theorem root_mem (h : Forest roots E A) (hr : v ∈ roots) : v ∈ A := by
  rw [← Finset.mem_val, ← h.count]
  exact Multiset.mem_add.2 (.inl hr)

theorem child_mem (h : Forest roots E A) (hu : u ∈ A) (he : Edge E u v) : v ∈ A := by
  rw [← Finset.mem_val, ← h.count, Multiset.mem_add, Multiset.mem_sum]
  exact .inr ⟨u, hu, he⟩

theorem reach_mem (h : Forest roots E A) (hu : u ∈ A) (hp : ReflTransGen (Edge E) u v) : v ∈ A := by
  induction hp with
  | refl => exact hu
  | tail _ he ih => exact h.child_mem ih he

/-- No edge ends in a root. -/
theorem not_edge_root (h : Forest roots E A) (hr : v ∈ roots) (hu : u ∈ A) : ¬ Edge E u v := by
  intro he
  have hd := (Multiset.nodup_add.1 h.nodup).2.2
  exact Multiset.disjoint_left.1 hd hr (Multiset.mem_sum.2 ⟨u, hu, he⟩)

/-- A path stays when no edge from a vertex is lost. -/
theorem reach_mono (h : Forest roots E A) (hE : ∀ u ∈ A, E u ⊆ E' u) (hu : u ∈ A)
    (hp : ReflTransGen (Edge E) u v) : ReflTransGen (Edge E') u v := by
  induction hp with
  | refl => exact .refl
  | @tail b c hub hbc ih => exact ih.tail (hE b (h.reach_mem hu hub) hbc)

/-- Only the children of the vertices matter. -/
theorem congr (h : Forest roots E A) (hE : ∀ v ∈ A, E' v = E v) : Forest roots E' A where
  count := by rw [Finset.sum_congr rfl hE, h.count]
  reach v hv := by
    obtain ⟨r, hr, hp⟩ := h.reach v hv
    exact ⟨r, hr, h.reach_mono (fun u hu => (hE u hu).symm ▸ Multiset.Subset.refl _) (h.root_mem hr) hp⟩

variable [DecidableEq V]

theorem nodup_children (h : Forest roots E A) (hu : u ∈ A) : (E u).Nodup := by
  have hn := (Multiset.nodup_add.1 h.nodup).2.1
  rw [← Finset.add_sum_erase _ _ hu] at hn
  exact (Multiset.nodup_add.1 hn).1

/-- A vertex has one parent. -/
theorem parent_unique (h : Forest roots E A) (hu : u ∈ A) (hw : w ∈ A) (he : Edge E u v)
    (he' : Edge E w v) : u = w := by
  by_contra hne
  have hn := (Multiset.nodup_add.1 h.nodup).2.1
  rw [← Finset.add_sum_erase _ _ hu] at hn
  have hw' : v ∈ ∑ x ∈ A.erase u, E x :=
    Multiset.mem_sum.2 ⟨w, Finset.mem_erase.2 ⟨fun e => hne e.symm, hw⟩, he'⟩
  exact Multiset.disjoint_left.1 (Multiset.nodup_add.1 hn).2.2 he hw'

/-- No vertex is its own descendant. -/
theorem acyclic (h : Forest roots E A) (hv : v ∈ A) : ¬ TransGen (Edge E) v v := by
  obtain ⟨r, hr, hp⟩ := h.reach v hv
  -- along the path from the root: the vertex before `v` on a cycle is the parent of `v`
  induction hp with
  | refl =>
    intro hc
    obtain ⟨u, hru, he⟩ := TransGen.tail'_iff.1 hc
    exact h.not_edge_root hr (h.reach_mem hv hru) he
  | @tail b c hrb hbc ih =>
    intro hc
    have hb : b ∈ A := h.reach_mem (h.root_mem hr) hrb
    obtain ⟨u, hcu, he⟩ := TransGen.tail'_iff.1 hc
    obtain rfl := h.parent_unique hb (h.reach_mem hv hcu) hbc he
    exact ih hb (TransGen.head' hbc hcu)

/-- A vertex is in the tree of one root. -/
theorem root_unique {r r' : V} (h : Forest roots E A) (hr : r ∈ roots) (hr' : r' ∈ roots)
    (hp : ReflTransGen (Edge E) r v) (hp' : ReflTransGen (Edge E) r' v) : r = r' := by
  induction hp with
  | refl =>
    rcases ReflTransGen.cases_tail hp' with e | ⟨u, hu, he⟩
    · exact e
    · exact absurd he (h.not_edge_root hr (h.reach_mem (h.root_mem hr') hu))
  | @tail b c hrb hbc ih =>
    have hb := h.reach_mem (h.root_mem hr) hrb
    rcases ReflTransGen.cases_tail hp' with rfl | ⟨u, hu, he⟩
    · exact absurd hbc (h.not_edge_root hr' hb)
    · obtain rfl := h.parent_unique hb (h.reach_mem (h.root_mem hr') hu) hbc he
      exact ih hu

/-- What is below two children of a vertex is below one of them only. -/
theorem child_unique {c c' : V} (h : Forest roots E A) (hd : d ∈ A) (hc : Edge E d c)
    (hc' : Edge E d c') (hp : ReflTransGen (Edge E) c v) (hp' : ReflTransGen (Edge E) c' v) :
    c = c' := by
  have hcA := h.child_mem hd hc
  have hcA' := h.child_mem hd hc'
  -- no path from a child leads back to the vertex
  have hback : ∀ {a}, Edge E d a → ¬ ReflTransGen (Edge E) a d :=
    fun ha hp => h.acyclic hd (TransGen.head' ha hp)
  induction hp with
  | refl =>
    rcases ReflTransGen.cases_tail hp' with e | ⟨u, hu, he⟩
    · exact e
    · obtain rfl := h.parent_unique hd (h.reach_mem hcA' hu) hc he
      exact absurd hu (hback hc')
  | @tail b w hcb hbw ih =>
    have hb := h.reach_mem hcA hcb
    rcases ReflTransGen.cases_tail hp' with rfl | ⟨u, hu, he⟩
    · obtain rfl := h.parent_unique hd hb hc' hbw
      exact absurd hcb (hback hc)
    · obtain rfl := h.parent_unique hb (h.reach_mem hcA' hu) hbw he
      exact ih hu

/-- Induction from the vertices without children upwards. -/
theorem induction_up (h : Forest roots E A) {P : V → Prop}
    (hP : ∀ v ∈ A, (∀ c, Edge E v c → P c) → P v) (hv : v ∈ A) : P v := by
  let r : {v // v ∈ A} → {v // v ∈ A} → Prop := fun a b => TransGen (Edge E) b a
  have : IsTrans _ r := ⟨fun _ _ _ hab hbc => TransGen.trans hbc hab⟩
  have : Std.Irrefl r := ⟨fun a => h.acyclic a.2⟩
  have hwf : WellFounded r := Finite.wellFounded_of_trans_of_irrefl r
  suffices ∀ a : {v // v ∈ A}, P a from this ⟨v, hv⟩
  intro a
  induction a using hwf.induction with
  | _ a ih => exact hP a a.2 fun c hc => ih ⟨c, h.child_mem a.2 hc⟩ (.single hc)

theorem sum_update (hd : d ∈ A) (hE : ∀ v ∈ A, v ≠ d → E' v = E v) :
    ∑ v ∈ A, E' v = E' d + ∑ v ∈ A.erase d, E v := by
  rw [← Finset.add_sum_erase _ _ hd]
  congr 1
  exact Finset.sum_congr rfl fun v hv => hE v (Finset.mem_of_mem_erase hv) (Finset.ne_of_mem_erase hv)

/-- Without the edge to it, a vertex is a root. -/
theorem cut (h : Forest roots E A) (hd : d ∈ A) (hi : E d = i ::ₘ E' d)
    (hE : ∀ v ∈ A, v ≠ d → E' v = E v) : Forest (i ::ₘ roots) E' A where
  count := by
    rw [sum_update hd hE, ← h.count, ← Finset.add_sum_erase _ _ hd, hi, Multiset.cons_add,
      Multiset.cons_add, Multiset.add_cons]
  reach v hv := by
    obtain ⟨r, hr, hp⟩ := h.reach v hv
    induction hp with
    | refl => exact ⟨r, Multiset.mem_cons_of_mem hr, .refl⟩
    | @tail b c hrb hbc ih =>
      have hb := h.reach_mem (h.root_mem hr) hrb
      obtain ⟨r', hr', hp'⟩ := ih hb
      rcases eq_or_ne b d with rfl | hne
      · rw [Edge, hi, Multiset.mem_cons] at hbc
        rcases hbc with rfl | hbc
        · exact ⟨c, Multiset.mem_cons_self c roots, .refl⟩
        · exact ⟨r', hr', hp'.tail hbc⟩
      · exact ⟨r', hr', hp'.tail (by rwa [Edge, hE b hb hne])⟩

/-- A root is put under a vertex of another tree. -/
theorem graft (h : Forest (i ::ₘ roots) E A) (hd : d ∈ A)
    (hr : ∃ r ∈ roots, ReflTransGen (Edge E) r d) (hi : E' d = i ::ₘ E d)
    (hE : ∀ v ∈ A, v ≠ d → E' v = E v) : Forest roots E' A where
  count := by
    rw [sum_update hd hE, ← h.count, ← Finset.add_sum_erase _ _ hd, hi, Multiset.cons_add,
      Multiset.cons_add, Multiset.add_cons]
  reach v hv := by
    have hsub : ∀ u ∈ A, E u ⊆ E' u := by
      intro u hu
      rcases eq_or_ne u d with rfl | hne
      · rw [hi]
        exact Multiset.subset_cons _ _
      · rw [hE u hu hne]
        exact Multiset.Subset.refl _
    have hroot : ∀ r ∈ roots, r ∈ A := fun r hr => h.root_mem (Multiset.mem_cons_of_mem hr)
    obtain ⟨r, hr', hp⟩ := h.reach v hv
    have hp' := h.reach_mono hsub (h.root_mem hr') hp
    rcases Multiset.mem_cons.1 hr' with rfl | hr'
    · obtain ⟨r₀, hr₀, hp₀⟩ := hr
      have hdi : Edge E' d r := by
        rw [Edge, hi]
        exact Multiset.mem_cons_self r _
      exact ⟨r₀, hr₀, ((h.reach_mono hsub (hroot r₀ hr₀) hp₀).tail hdi).trans hp'⟩
    · exact ⟨r, hr', hp'⟩

/-- A root without children is dropped. -/
theorem drop (h : Forest (i ::ₘ roots) E A) (hi : E i = 0)
    (hE : ∀ v ∈ A, v ≠ i → E' v = E v) : Forest roots E' (A.erase i) where
  count := by
    have hiA : i ∈ A := h.root_mem (Multiset.mem_cons_self i roots)
    have hc := h.count
    rw [← Finset.add_sum_erase _ _ hiA, hi, zero_add, Multiset.cons_add] at hc
    rw [Finset.erase_val, ← hc, Multiset.erase_cons_head]
    congr 1
    exact Finset.sum_congr rfl fun v hv =>
      hE v (Finset.mem_of_mem_erase hv) (Finset.ne_of_mem_erase hv)
  reach v hv := by
    obtain ⟨hne, hvA⟩ := Finset.mem_erase.1 hv
    obtain ⟨r, hr, hp⟩ := h.reach v hvA
    have hri : r ≠ i := by
      rintro rfl
      rcases ReflTransGen.cases_head hp with rfl | ⟨c, hc, -⟩
      · exact hne rfl
      · rw [Edge, hi] at hc
        exact Multiset.notMem_zero c hc
    have hsub : ∀ u ∈ A, E u ⊆ E' u := by
      intro u hu
      rcases eq_or_ne u i with rfl | hne
      · rw [hi]
        exact Multiset.zero_subset _
      · rw [hE u hu hne]
        exact Multiset.Subset.refl _
    exact ⟨r, (Multiset.mem_cons.1 hr).resolve_left hri, h.reach_mono hsub (h.root_mem hr) hp⟩

/-- A new root without children. -/
theorem add (h : Forest roots E A) (hi : i ∉ A) (hi' : E' i = 0) (hE : ∀ v ∈ A, E' v = E v) :
    Forest (i ::ₘ roots) E' (insert i A) where
  count := by
    rw [Finset.sum_insert hi, hi', zero_add, Finset.insert_val_of_notMem hi, Multiset.cons_add,
      (h.congr hE).count]
  reach v hv := by
    rcases Finset.mem_insert.1 hv with rfl | hv
    · exact ⟨v, Multiset.mem_cons_self v roots, .refl⟩
    · obtain ⟨r, hr, hp⟩ := (h.congr hE).reach v hv
      exact ⟨r, Multiset.mem_cons_of_mem hr, hp⟩

end Forest

end Fscq
