import Fscq.DirTreeDef

/-!
# Trees with distinct names

In a tree where no directory has two entries of one name, the lookups behave as those of a map from
paths: `findSubtree_updateSubtree_append` and `findSubtree_updateSubtree_apart` say what they see
after an update, and an entry that is pruned and grafted again is found where it has been.
-/

namespace Fscq

open Dirtree (treeFile treeDir)

/-- No directory has two entries of one name. -/
inductive NamesDistinct : Dirtree → Prop
  | file (inum : ℕ) (f : BFILE.BFile) : NamesDistinct (treeFile inum f)
  | dir (inum : ℕ) (ents : List (Sname × Dirtree)) (hs : ∀ e ∈ ents, NamesDistinct e.2)
      (hn : (ents.map Prod.fst).Nodup) : NamesDistinct (treeDir inum ents)

variable {name fn : Sname} {p q r path : List Sname} {ents ents' : List (Sname × Dirtree)}
  {tree sub t : Dirtree} {i dnum : ℕ}

/-! ### Entries -/

theorem mem_of_findDirlist (h : findDirlist name ents = some t) : (name, t) ∈ ents :=
  (perm_deleteFromList h).mem_iff.2 List.mem_cons_self

/-- The order of entries with distinct names does not matter. -/
theorem findDirlist_perm (hp : ents.Perm ents') (hn : (ents.map Prod.fst).Nodup) (name : Sname) :
    findDirlist name ents = findDirlist name ents' :=
  congrFun (((lists_findDirlist hn).perm hp.symm).unique
    (lists_findDirlist ((hp.map Prod.fst).nodup_iff.1 hn))) name

/-- An entry that is not there is added behind the others. -/
theorem addToList_of_none (h : findDirlist name ents = none) (t : Dirtree) :
    addToList name t ents = ents ++ [(name, t)] := by
  induction ents with
  | nil => rfl
  | cons e rest ih =>
    obtain ⟨n, sub⟩ := e
    rw [findDirlist] at h
    split_ifs at h with hn
    rw [addToList, if_neg hn, ih h, List.cons_append]

theorem findDirlist_map (f : Dirtree → Dirtree) (name fn : Sname) :
    ∀ ents, findDirlist fn (ents.map (updateSubtreeHelper f name)) =
      if fn = name then (findDirlist fn ents).map f else findDirlist fn ents
  | [] => by
    rw [List.map_nil, findDirlist]
    split_ifs <;> rfl
  | (n, sub) :: rest => by
    have hhead : updateSubtreeHelper f name (n, sub) = (n, if n = name then f sub else sub) := by
      rw [updateSubtreeHelper]
      split_ifs <;> rfl
    rw [List.map_cons, hhead, findDirlist, findDirlist]
    by_cases hfn : n = fn
    · subst hfn
      rw [if_pos rfl, if_pos rfl]
      split_ifs <;> rfl
    · rw [if_neg hfn, if_neg hfn]
      exact findDirlist_map f name fn rest

theorem map_fst_updateSubtreeHelper (f : Dirtree → Dirtree) (name : Sname)
    (ents : List (Sname × Dirtree)) :
    (ents.map (updateSubtreeHelper f name)).map Prod.fst = ents.map Prod.fst := by
  rw [List.map_map]
  apply List.map_congr_left
  intro e _
  rw [Function.comp_apply, updateSubtreeHelper]
  split_ifs <;> rfl

/-! ### Lookups after an update -/

/-- On the way to the subtree, what is found has been updated. -/
theorem findSubtree_updateSubtree (q r : List Sname) (t tree : Dirtree) :
    findSubtree q (updateSubtree (q ++ r) t tree) = (findSubtree q tree).map (updateSubtree r t) := by
  induction q generalizing tree with
  | nil => rfl
  | cons name q ih =>
    cases tree with
    | treeFile i f => rfl
    | treeDir i ents =>
      rw [List.cons_append, updateSubtree, findSubtree_cons, findSubtree_cons, findDirlist_map,
        if_pos rfl]
      cases findDirlist name ents with
      | none => rfl
      | some sub => exact ih sub

/-- Below the place that has been updated there is the new subtree. -/
theorem findSubtree_updateSubtree_append (h : findSubtree p tree = some sub) (r : List Sname)
    (t : Dirtree) : findSubtree (p ++ r) (updateSubtree p t tree) = findSubtree r t := by
  apply findSubtree_append
  have hp := findSubtree_updateSubtree p [] t tree
  rw [List.append_nil, h] at hp
  exact hp

/-- Elsewhere nothing has changed. -/
theorem findSubtree_updateSubtree_apart (t tree : Dirtree) (hpq : ¬ p <+: q) (hqp : ¬ q <+: p) :
    findSubtree q (updateSubtree p t tree) = findSubtree q tree := by
  induction p generalizing q tree with
  | nil => exact absurd List.nil_prefix hpq
  | cons name p ih =>
    cases q with
    | nil => exact absurd List.nil_prefix hqp
    | cons fn q =>
      cases tree with
      | treeFile i f => rfl
      | treeDir i ents =>
        rw [updateSubtree, findSubtree_cons, findSubtree_cons, findDirlist_map]
        split_ifs with hfn
        · subst hfn
          rw [List.cons_prefix_cons] at hpq hqp
          cases findDirlist fn ents with
          | none => rfl
          | some sub => exact ih sub (fun hp => hpq ⟨rfl, hp⟩) fun hq => hqp ⟨rfl, hq⟩
        · rfl

/-- The last update counts. -/
theorem updateSubtree_updateSubtree (p : List Sname) (s t tree : Dirtree) :
    updateSubtree p t (updateSubtree p s tree) = updateSubtree p t tree := by
  induction p generalizing tree with
  | nil => rfl
  | cons name p ih =>
    cases tree with
    | treeFile i f => rfl
    | treeDir i ents =>
      rw [updateSubtree, updateSubtree, updateSubtree, List.map_map]
      congr 1
      apply List.map_congr_left
      intro e _
      rw [Function.comp_apply, updateSubtreeHelper, updateSubtreeHelper]
      split_ifs with he
      · rw [updateSubtreeHelper, if_pos he, ih]
      · rw [updateSubtreeHelper, if_neg he]

/-! ### Distinct names -/

theorem NamesDistinct.of_dir (h : NamesDistinct (treeDir i ents)) :
    (∀ e ∈ ents, NamesDistinct e.2) ∧ (ents.map Prod.fst).Nodup := by
  cases h with
  | dir _ _ hs hn => exact ⟨hs, hn⟩

theorem NamesDistinct.findSubtree (h : NamesDistinct tree) (hf : findSubtree p tree = some sub) :
    NamesDistinct sub := by
  induction p generalizing tree with
  | nil =>
    obtain rfl : tree = sub := Option.some.inj hf
    exact h
  | cons name p ih =>
    cases tree with
    | treeFile i f => cases hf
    | treeDir i ents =>
      rw [findSubtree_cons, Option.bind_eq_some_iff] at hf
      obtain ⟨t, ht, hp⟩ := hf
      exact ih (h.of_dir.1 _ (mem_of_findDirlist ht)) hp

theorem NamesDistinct.updateSubtree (h : NamesDistinct tree) (ht : NamesDistinct t)
    (p : List Sname) : NamesDistinct (updateSubtree p t tree) := by
  induction p generalizing tree with
  | nil => exact ht
  | cons name p ih =>
    cases h with
    | file i f => exact .file i f
    | dir i ents hs hn =>
      refine .dir i _ ?_ ((map_fst_updateSubtreeHelper ..).symm ▸ hn)
      intro e he
      obtain ⟨e', he', rfl⟩ := List.mem_map.1 he
      rw [updateSubtreeHelper]
      split_ifs
      · exact ih (hs _ he')
      · exact hs _ he'

/-- Only the order of the entries is different. -/
theorem NamesDistinct.perm (h : NamesDistinct (treeDir i ents)) (hp : ents'.Perm ents) :
    NamesDistinct (treeDir i ents') :=
  .dir i ents' (fun e he => h.of_dir.1 e (hp.mem_iff.1 he))
    ((hp.map Prod.fst).nodup_iff.2 h.of_dir.2)

/-! ### Pruning and grafting -/

/-- An entry that is pruned and then grafted again has become the last one of its directory. -/
theorem treeGraft_treePrune (h : NamesDistinct tree)
    (hp : findSubtree path tree = some (treeDir dnum ents)) (hn : findDirlist name ents = some sub) :
    treeGraft dnum (deleteFromList name ents) path name sub
        (treePrune dnum ents path name tree) =
      updateSubtree path (treeDir dnum (deleteFromList name ents ++ [(name, sub)])) tree := by
  have hnone : findDirlist name (deleteFromList name ents) = none := by
    have hl := (lists_findDirlist (h.findSubtree hp).of_dir.2).erase (perm_deleteFromList hn)
    have heq := congrFun ((lists_findDirlist hl.nodup).unique hl) name
    rwa [Function.update_self] at heq
  rw [treeGraft, treePrune, updateSubtree_updateSubtree, addToDir, addToList_of_none hnone]

/-- Laws of the operations on trees: an update is seen at its place and below, and nowhere apart
from it; an entry that is pruned and grafted again is found as before, but it is the last one of its
directory then, and nothing else has moved. -/
theorem tree_laws (h : NamesDistinct tree) :
    (∀ p sub t, findSubtree p tree = some sub →
      findSubtree p (updateSubtree p t tree) = some t) ∧
    (∀ p q t, ¬ p <+: q → ¬ q <+: p → findSubtree q (updateSubtree p t tree) = findSubtree q tree) ∧
    (∀ p r sub t, findSubtree p tree = some sub →
      findSubtree (p ++ r) (updateSubtree p t tree) = findSubtree r t) ∧
    ∀ path dnum ents name sub, findSubtree path tree = some (treeDir dnum ents) →
      findDirlist name ents = some sub →
      NamesDistinct (treeGraft dnum (deleteFromList name ents) path name sub
        (treePrune dnum ents path name tree)) ∧
      (∀ q, ¬ q <+: path → findSubtree q (treeGraft dnum (deleteFromList name ents) path name sub
        (treePrune dnum ents path name tree)) = findSubtree q tree) ∧
      (deleteFromList name ents ++ [(name, sub)]).Perm ents ∧ ∀ q r, path = q ++ r →
        findSubtree q (treeGraft dnum (deleteFromList name ents) path name sub
          (treePrune dnum ents path name tree)) =
        (findSubtree q tree).map
          (updateSubtree r (treeDir dnum (deleteFromList name ents ++ [(name, sub)]))) := by
  refine ⟨fun p sub t hp => ?_, fun p q t => findSubtree_updateSubtree_apart t tree,
    fun p r sub t hp => findSubtree_updateSubtree_append hp r t, ?_⟩
  · have hself := findSubtree_updateSubtree_append hp [] t
    rwa [List.append_nil] at hself
  intro path dnum ents name sub hp hn
  have hdir := h.findSubtree hp
  have hperm : (deleteFromList name ents ++ [(name, sub)]).Perm ents :=
    (List.perm_append_singleton _ _).trans (perm_deleteFromList hn).symm
  rw [treeGraft_treePrune h hp hn]
  refine ⟨h.updateSubtree (hdir.perm hperm) path, fun q hq => ?_, hperm, ?_⟩
  · by_cases hpq : path <+: q
    · obtain ⟨r, rfl⟩ := hpq
      rw [findSubtree_updateSubtree_append hp, findSubtree_append hp]
      cases r with
      | nil => exact absurd ⟨[], by simp⟩ hq
      | cons fn r =>
        rw [findSubtree_cons, findSubtree_cons, findDirlist_perm hperm (hdir.perm hperm).of_dir.2]
    · exact findSubtree_updateSubtree_apart _ tree hpq hq
  · rintro q r rfl
    exact findSubtree_updateSubtree q r _ tree

namespace Sample

/-- An empty file. -/
def dirfile0 : BFILE.BFile := ⟨[], INODE.iattr0⟩

/-- A directory with two files. -/
def twoFiles : List (Sname × Dirtree) :=
  [([97], treeFile 2 dirfile0), ([98], treeFile 3 dirfile0)]

theorem namesDistinct_twoFiles : NamesDistinct (treeDir 1 twoFiles) := by
  refine .dir 1 twoFiles (fun e he => ?_) (by decide)
  rcases List.mem_cons.1 he with rfl | he
  · exact .file 2 _
  · rw [List.mem_singleton.1 he]
    exact .file 3 _

theorem tree_laws_twoFiles :
    findSubtree [[97]] (updateSubtree [[97]] (treeDir 4 []) (treeDir 1 twoFiles)) =
      some (treeDir 4 []) ∧
    findSubtree [[98]] (updateSubtree [[97]] (treeDir 4 []) (treeDir 1 twoFiles)) =
      findSubtree [[98]] (treeDir 1 twoFiles) ∧
    findSubtree [[97]] (treeGraft 1 (deleteFromList [97] twoFiles) [] [97]
      (treeFile 2 dirfile0) (treePrune 1 twoFiles [] [97] (treeDir 1 twoFiles))) =
      some (treeFile 2 dirfile0) ∧
    findSubtree [] (treeGraft 1 (deleteFromList [97] twoFiles) [] [97]
      (treeFile 2 dirfile0) (treePrune 1 twoFiles [] [97] (treeDir 1 twoFiles))) =
      some (treeDir 1 [([98], treeFile 3 dirfile0), ([97], treeFile 2 dirfile0)]) := by
  obtain ⟨hself, hapart, -, hgraft⟩ := tree_laws namesDistinct_twoFiles
  have hfind : findSubtree [[97]] (treeDir 1 twoFiles) = some (treeFile 2 dirfile0) := rfl
  obtain ⟨-, hbelow, -, habove⟩ := hgraft [] 1 twoFiles [97] _ rfl rfl
  refine ⟨hself _ _ _ hfind, hapart _ _ _ (by decide) (by decide), ?_, habove [] [] rfl⟩
  exact (hbelow [[97]] (by decide)).trans hfind

/-- The entry is behind the other one afterwards. -/
theorem graft_reorders : NamesDistinct (treeDir 1 twoFiles) ∧
    findSubtree [] (treeDir 1 twoFiles) = some (treeDir 1 twoFiles) ∧
    findDirlist [97] twoFiles = some (treeFile 2 dirfile0) ∧
    findSubtree [] (treeGraft 1 (deleteFromList [97] twoFiles) [] [97] (treeFile 2 dirfile0)
      (treePrune 1 twoFiles [] [97] (treeDir 1 twoFiles))) ≠
      findSubtree [] (treeDir 1 twoFiles) := by
  refine ⟨namesDistinct_twoFiles, rfl, rfl, fun he => ?_⟩
  have hents : (deleteFromList [97] twoFiles ++ [([97], treeFile 2 dirfile0)]).map Prod.fst =
      twoFiles.map Prod.fst := congrArg (List.map Prod.fst) (Dirtree.treeDir.inj (Option.some.inj he)).2
  revert hents
  decide

end Sample

end Fscq
