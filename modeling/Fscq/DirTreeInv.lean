import Fscq.DirTree
import Fscq.Lib.Forest

/-!
# The tree of directories

The inodes in use form a tree: each is the root or has one entry in one directory, and all of them
can be reached from the root.  `DIRTREE.Inv` says this of a set `A` of inodes, some of which, those
with `K`, are directories; while an operation is under way there may be more than one root.  Every
operation keeps the invariant.
-/

namespace Fscq

open CrashProg

open Relation (ReflTransGen)

namespace DIRTREE

open BFILE (file)

/-- All inodes that can be in use. -/
def allInodes (fsxp : FsXparams) : Multiset ℕ :=
  (List.range' 1 (INODE.ninodes fsxp.inode - 1) : List ℕ)

/-- The inodes in the entries of a directory. -/
def children (fsxp : FsXparams) (K : ℕ → Bool) (m : Mem) (d : ℕ) : Multiset ℕ :=
  if K d then ((SDIR.dents (file fsxp m d)).map (fun e => e.2.1) : List ℕ) else 0

/-- A file that is not in use. -/
def bfile0 : BFILE.BFile := ⟨[], INODE.iattr0⟩

/-- The invariant of the tree. -/
structure Inv (fsxp : FsXparams) (roots : Multiset ℕ) (A : Finset ℕ) (K : ℕ → Bool) (m : Mem)
    (ms : BFILE.MemState) : Prop where
  inv : BFILE.Inv fsxp m ms
  inodes : (IAlloc.freeList m fsxp ms.msIAllocC : Multiset ℕ) + A.val = allInodes fsxp
  icoh : IAlloc.Coh m fsxp ms.msIAllocC
  dir : ∀ d ∈ A, K d = true → SDIR.DirOk (file fsxp m d)
  flag : ∀ d ∈ A, K d = true → ∀ name i b, (name, i, b) ∈ SDIR.dents (file fsxp m d) → b = K i
  cache : ∀ d r, ms.msCache[d]? = some r →
    d ∈ A ∧ K d = true ∧ CacheOneDir.Agrees (SDIR.dents (file fsxp m d)) r.1
  free : ∀ i < INODE.ninodes fsxp.inode, i ∉ A → file fsxp m i = bfile0
  forest : Forest roots (children fsxp K m) A

/-- The files that an operation may change when `A` is in use afterwards: directories and files that
are deleted. -/
def touched (A : Finset ℕ) (K : ℕ → Bool) : Set ℕ := {v | K v = true ∨ v ∉ A}

variable {n d i : ℕ} {fsxp : FsXparams} {roots : Multiset ℕ} {A : Finset ℕ} {K : ℕ → Bool}
  {m m' : Mem} {ms ms' : BFILE.MemState} {name : Sname} {b : Bool}

theorem nodup_allInodes : (allInodes fsxp).Nodup := Multiset.coe_nodup.2 List.nodup_range'

theorem mem_allInodes : i ∈ allInodes fsxp ↔ i ≠ 0 ∧ i < INODE.ninodes fsxp.inode := by
  rw [allInodes, Multiset.mem_coe, List.mem_range'_1]
  omega

theorem dents_bfile0 : SDIR.dents bfile0 = [] := rfl

theorem dirOk_bfile0 : SDIR.DirOk bfile0 where
  valid _ he := absurd he List.not_mem_nil
  nodup := List.nodup_nil

theorem children_of_dir (hK : K d = true) :
    children fsxp K m d = ((SDIR.dents (file fsxp m d)).map (fun e => e.2.1) : List ℕ) := if_pos hK

theorem children_congr (h : file fsxp m' d = file fsxp m d) :
    children fsxp K m' d = children fsxp K m d := by
  rw [children, children, h]

theorem edge_of_mem (hK : K d = true) (he : (name, i, b) ∈ SDIR.dents (file fsxp m d)) :
    Edge (children fsxp K m) d i := by
  rw [Edge, children_of_dir hK, Multiset.mem_coe]
  exact List.mem_map.2 ⟨_, he, rfl⟩

section

variable (h : Inv fsxp roots A K m ms)

include h

theorem Inv.mem_iff : i ∈ A ↔
    i ≠ 0 ∧ i < INODE.ninodes fsxp.inode ∧ i ∉ IAlloc.freeList m fsxp ms.msIAllocC := by
  have hnd : (allInodes fsxp).Nodup := nodup_allInodes
  rw [← h.inodes, Multiset.nodup_add] at hnd
  have hmem : i ∈ allInodes fsxp ↔ i ∈ IAlloc.freeList m fsxp ms.msIAllocC ∨ i ∈ A := by
    rw [← h.inodes, Multiset.mem_add, Multiset.mem_coe, Finset.mem_val]
  rw [mem_allInodes] at hmem
  constructor
  · intro hi
    obtain ⟨h₁, h₂⟩ := hmem.2 (.inr hi)
    refine ⟨h₁, h₂, fun hf => ?_⟩
    exact Multiset.disjoint_left.1 hnd.2.2 (Multiset.mem_coe.2 hf) hi
  · rintro ⟨h₁, h₂, h₃⟩
    exact (hmem.1 ⟨h₁, h₂⟩).resolve_left h₃

/-- There is a free inode when not all of them are in use. -/
theorem Inv.freeList_ne_nil (hA : A.card + 1 < INODE.ninodes fsxp.inode) :
    IAlloc.freeList m fsxp ms.msIAllocC ≠ [] := by
  intro hnil
  have hcard := congrArg Multiset.card h.inodes
  rw [hnil, Multiset.coe_nil, zero_add, Finset.card_val, allInodes, Multiset.coe_card,
    List.length_range'] at hcard
  omega

theorem Inv.lt (hi : i ∈ A) : i < INODE.ninodes fsxp.inode := (h.mem_iff.1 hi).2.1

/-- A directory of the tree can be worked on. -/
theorem Inv.ready (hd : d ∈ A) (hK : K d = true) : CacheOneDir.Ready fsxp d m ms where
  inv := h.inv
  lt := h.lt hd
  dir := h.dir d hd hK
  cache r hr := (h.cache d r hr).2.2

/-- One directory has been changed. -/
theorem Inv.changed {roots' : Multiset ℕ} (hd : d ∈ A) (hK : K d = true)
    (hch : CacheOneDir.Changed fsxp d m ms m' ms')
    (hflag : ∀ name i b, (name, i, b) ∈ SDIR.dents (file fsxp m' d) → b = K i)
    (hf : (∀ v ∈ A, v ≠ d → children fsxp K m' v = children fsxp K m v) →
      Forest roots' (children fsxp K m') A) : Inv fsxp roots' A K m' ms' := by
  have hfile : ∀ v < INODE.ninodes fsxp.inode, v ≠ d → file fsxp m' v = file fsxp m v :=
    fun v hv hne => hch.step.file h.inv hv hne
  have hfree : IAlloc.freeList m' fsxp ms'.msIAllocC = IAlloc.freeList m fsxp ms.msIAllocC := by
    rw [hch.step.msIAlloc]
    exact AllocSig.freeList_congr hch.step.ialloc
  constructor
  case inv => exact hch.inv
  case inodes => rw [hfree, h.inodes]
  case icoh =>
    rw [hch.step.msIAlloc]
    exact h.icoh.congr hch.step.ialloc
  case dir =>
    intro v hv hKv
    rcases eq_or_ne v d with rfl | hne
    · exact hch.dir
    · rw [hfile v (h.lt hv) hne]
      exact h.dir v hv hKv
  case flag =>
    intro v hv hKv
    rcases eq_or_ne v d with rfl | hne
    · exact hflag
    · rw [hfile v (h.lt hv) hne]
      exact h.flag v hv hKv
  case cache =>
    intro v r hr
    rcases eq_or_ne v d with rfl | hne
    · exact ⟨hd, hK, (hch.ready (h.ready hd hK)).cache r hr⟩
    · rw [hch.other v hne] at hr
      obtain ⟨h₁, h₂, h₃⟩ := h.cache v r hr
      rw [hfile v (h.lt h₁) hne]
      exact ⟨h₁, h₂, h₃⟩
  case free =>
    intro v hv hvA
    rw [hfile v hv fun e => hvA (e ▸ hd)]
    exact h.free v hv hvA
  case forest => exact hf fun v hv hne => children_congr (hfile v (h.lt hv) hne)

/-- Only the cached entries of a directory have changed. -/
theorem Inv.cached (hd : d ∈ A) (hK : K d = true) (hch : CacheOneDir.Changed fsxp d m ms m ms') :
    Inv fsxp roots A K m ms' :=
  h.changed hd hK hch (h.flag d hd hK) fun _ => h.forest

/-- An entry has been removed. -/
theorem Inv.unlinked (hd : d ∈ A) (hK : K d = true) (hch : CacheOneDir.Changed fsxp d m ms m' ms')
    (hp : (SDIR.dents (file fsxp m d)).Perm ((name, i, b) :: SDIR.dents (file fsxp m' d))) :
    Inv fsxp (i ::ₘ roots) A K m' ms' := by
  apply h.changed hd hK hch
  · intro name' i' b' he
    exact h.flag d hd hK name' i' b' (hp.mem_iff.2 (List.mem_cons_of_mem _ he))
  · intro hE
    apply h.forest.cut hd _ hE
    rw [children_of_dir hK, children_of_dir hK, Multiset.cons_coe, Multiset.coe_eq_coe]
    exact hp.map _

end

/-- An entry for a root has been made in a directory that can be reached from another root. -/
theorem Inv.linked (h : Inv fsxp (i ::ₘ roots) A K m ms) (hd : d ∈ A) (hK : K d = true)
    (hr : ∃ r ∈ roots, ReflTransGen (Edge (children fsxp K m)) r d)
    (hch : CacheOneDir.Changed fsxp d m ms m' ms') (hb : b = K i)
    (hp : (SDIR.dents (file fsxp m' d)).Perm ((name, i, b) :: SDIR.dents (file fsxp m d))) :
    Inv fsxp roots A K m' ms' := by
  apply h.changed hd hK hch
  · intro name' i' b' he
    rcases List.mem_cons.1 (hp.mem_iff.1 he) with heq | he
    · cases heq
      exact hb
    · exact h.flag d hd hK name' i' b' he
  · intro hE
    apply h.forest.graft hd hr _ hE
    rw [children_of_dir hK, children_of_dir hK, Multiset.cons_coe, Multiset.coe_eq_coe]
    exact hp.map _

/-- A file has been changed, or a directory without entries has been made empty. -/
theorem Inv.stepped (h : Inv fsxp roots A K m ms) (hi : i ∈ A) (hinv : BFILE.Inv fsxp m' ms')
    (hst : BFILE.Step fsxp {i} m ms m' ms')
    (hc : ∀ d r, ms'.msCache[d]? = some r → d ≠ i ∧ ms.msCache[d]? = some r)
    (hK : K i = true → file fsxp m' i = bfile0 ∧ children fsxp K m i = 0) :
    Inv fsxp roots A K m' ms' := by
  have hfile : ∀ v < INODE.ninodes fsxp.inode, v ≠ i → file fsxp m' v = file fsxp m v :=
    fun v hv hne => hst.file h.inv hv hne
  have hfree : IAlloc.freeList m' fsxp ms'.msIAllocC = IAlloc.freeList m fsxp ms.msIAllocC := by
    rw [hst.msIAlloc]
    exact AllocSig.freeList_congr hst.ialloc
  constructor
  case inv => exact hinv
  case inodes => rw [hfree, h.inodes]
  case icoh =>
    rw [hst.msIAlloc]
    exact h.icoh.congr hst.ialloc
  case dir =>
    intro v hv hKv
    rcases eq_or_ne v i with rfl | hne
    · rw [(hK hKv).1]
      exact dirOk_bfile0
    · rw [hfile v (h.lt hv) hne]
      exact h.dir v hv hKv
  case flag =>
    intro v hv hKv name j b he
    rcases eq_or_ne v i with rfl | hne
    · rw [(hK hKv).1, dents_bfile0] at he
      exact absurd he List.not_mem_nil
    · rw [hfile v (h.lt hv) hne] at he
      exact h.flag v hv hKv name j b he
  case cache =>
    intro v r hr
    obtain ⟨hne, hr⟩ := hc v r hr
    obtain ⟨h₁, h₂, h₃⟩ := h.cache v r hr
    rw [hfile v (h.lt h₁) hne]
    exact ⟨h₁, h₂, h₃⟩
  case free =>
    intro v hv hvA
    rw [hfile v hv fun e => hvA (e ▸ hi)]
    exact h.free v hv hvA
  case forest =>
    apply h.forest.congr
    intro v hv
    rcases eq_or_ne v i with rfl | hne
    · cases hKv : K v with
      | false => simp [children, hKv]
      | true => rw [(hK hKv).2, children_of_dir hKv, (hK hKv).1, dents_bfile0]; rfl
    · exact children_congr (hfile v (h.lt hv) hne)

/-- A new inode, without an entry yet. -/
theorem Inv.add (hx : fsxp.Parts n) (h : Inv fsxp roots A K m ms) {l : List ℕ}
    (hl : IAlloc.freeList m fsxp ms.msIAllocC = i :: l)
    (hm : ∀ a ∉ IAlloc.bmp.region fsxp, m' a = m a) (hco : IAlloc.Coh m' fsxp (some l)) (b : Bool) :
    Inv fsxp (i ::ₘ roots) (insert i A) (Function.update K i b) m' { ms with msIAllocC := some l } := by
  obtain ⟨hinv, hmv⟩ := h.inv.ialloc hx hm (some l)
  have hfile : ∀ v < INODE.ninodes fsxp.inode, file fsxp m' v = file fsxp m v :=
    fun v hv => hmv.file h.inv hv (Set.notMem_empty v)
  have hiA : i ∉ A := fun hi => (h.mem_iff.1 hi).2.2 (hl ▸ List.mem_cons_self)
  have hi : i ≠ 0 ∧ i < INODE.ninodes fsxp.inode := by
    rw [← mem_allInodes, ← h.inodes, hl]
    exact Multiset.mem_add.2 (.inl List.mem_cons_self)
  have hifile : file fsxp m' i = bfile0 := (hfile i hi.2).trans (h.free i hi.2 hiA)
  have hne : ∀ v ∈ A, v ≠ i := fun v hv e => hiA (e ▸ hv)
  have hKv : ∀ v ∈ A, Function.update K i b v = K v :=
    fun v hv => Function.update_of_ne (hne v hv) b K
  constructor
  case inv => exact hinv
  case inodes =>
    have hin := h.inodes
    rw [hl, ← Multiset.cons_coe, Multiset.cons_add] at hin
    rw [Finset.insert_val_of_notMem hiA, Multiset.add_cons]
    exact hin
  case icoh => exact hco
  case dir =>
    intro v hv hKd
    rcases Finset.mem_insert.1 hv with rfl | hv
    · rw [hifile]
      exact dirOk_bfile0
    · rw [hfile v (h.lt hv)]
      exact h.dir v hv (hKv v hv ▸ hKd)
  case flag =>
    intro v hv hKd name j b' he
    rcases Finset.mem_insert.1 hv with rfl | hv
    · rw [hifile, dents_bfile0] at he
      exact absurd he List.not_mem_nil
    · rw [hKv v hv] at hKd
      rw [hfile v (h.lt hv)] at he
      rw [hKv j (h.forest.child_mem hv (edge_of_mem hKd he))]
      exact h.flag v hv hKd name j b' he
  case cache =>
    intro v r hr
    obtain ⟨h₁, h₂, h₃⟩ := h.cache v r hr
    rw [hfile v (h.lt h₁), hKv v h₁]
    exact ⟨Finset.mem_insert_of_mem h₁, h₂, h₃⟩
  case free =>
    intro v hv hvA
    rw [hfile v hv]
    exact h.free v hv fun hA => hvA (Finset.mem_insert_of_mem hA)
  case forest =>
    apply h.forest.add hiA
    · rw [children, hifile, dents_bfile0]
      simp
    · intro v hv
      rw [children, children, hKv v hv, hfile v (h.lt hv)]

/-- An inode that has no entry and is empty is given back. -/
theorem Inv.drop (hx : fsxp.Parts n) (h : Inv fsxp (i ::ₘ roots) A K m ms) {c : BmapCacheType}
    (hi : file fsxp m i = bfile0) (hc : ms.msCache[i]? = none)
    (hl : (IAlloc.freeList m' fsxp c).Perm (i :: IAlloc.freeList m fsxp ms.msIAllocC))
    (hm : ∀ a ∉ IAlloc.bmp.region fsxp, m' a = m a) (hco : IAlloc.Coh m' fsxp c) :
    Inv fsxp roots (A.erase i) K m' { ms with msIAllocC := c } := by
  obtain ⟨hinv, hmv⟩ := h.inv.ialloc hx hm c
  have hfile : ∀ v < INODE.ninodes fsxp.inode, file fsxp m' v = file fsxp m v :=
    fun v hv => hmv.file h.inv hv (Set.notMem_empty v)
  have hiA : i ∈ A := h.forest.root_mem (Multiset.mem_cons_self i roots)
  constructor
  case inv => exact hinv
  case inodes =>
    rw [Multiset.coe_eq_coe.2 hl, ← h.inodes, ← Multiset.cons_coe, Multiset.cons_add,
      ← Multiset.add_cons, Finset.erase_val, Multiset.cons_erase hiA]
  case icoh => exact hco
  case dir =>
    intro v hv hKv
    have hv := Finset.mem_of_mem_erase hv
    rw [hfile v (h.lt hv)]
    exact h.dir v hv hKv
  case flag =>
    intro v hv hKv
    have hv := Finset.mem_of_mem_erase hv
    rw [hfile v (h.lt hv)]
    exact h.flag v hv hKv
  case cache =>
    intro v r hr
    obtain ⟨h₁, h₂, h₃⟩ := h.cache v r hr
    have hne : v ≠ i := by
      rintro rfl
      rw [hc] at hr
      cases hr
    rw [hfile v (h.lt h₁)]
    exact ⟨Finset.mem_erase.2 ⟨hne, h₁⟩, h₂, h₃⟩
  case free =>
    intro v hv hvA
    rw [hfile v hv]
    rcases eq_or_ne v i with rfl | hne
    · exact hi
    · exact h.free v hv fun hA => hvA (Finset.mem_erase.2 ⟨hne, hA⟩)
  case forest =>
    apply h.forest.drop
    · rw [children, hi, dents_bfile0]
      simp
    · exact fun v hv _ => children_congr (hfile v (h.lt hv))

end DIRTREE

end Fscq
