import Fscq.DirName
import Fscq.Lib.FiniteMap

/-!
# Directory trees as a data type

A tree has its files and directories with their inodes in it, and operations follow a path of names
from its root.
-/

namespace Fscq

inductive Dirtree
  | treeFile (inum : ℕ) (f : BFILE.BFile)
  | treeDir (inum : ℕ) (ents : List (Sname × Dirtree))

namespace Dirtree

def inum : Dirtree → ℕ
  | treeFile inum _ => inum
  | treeDir inum _ => inum

def isdir : Dirtree → Bool
  | treeFile _ _ => false
  | treeDir _ _ => true

end Dirtree

open Dirtree (treeFile treeDir)

section

variable {α : Type}

def findSubtreeHelper (f : Dirtree → Option α) (name : Sname) (dirent : Sname × Dirtree)
    (accum : Option α) : Option α :=
  if dirent.1 = name then f dirent.2 else accum

def findSubtree : List Sname → Dirtree → Option Dirtree
  | [], tree => some tree
  | _ :: _, treeFile _ _ => none
  | name :: suffix, treeDir _ dirents =>
    dirents.foldr (findSubtreeHelper (findSubtree suffix) name) none

def findName (fnlist : List Sname) (tree : Dirtree) : Option (ℕ × Bool) :=
  match findSubtree fnlist tree with
  | none => none
  | some (treeFile inum _) => some (inum, false)
  | some (treeDir inum _) => some (inum, true)

def findDirlist (name : Sname) : List (Sname × Dirtree) → Option Dirtree
  | [] => none
  | (n, sub) :: rest => if n = name then some sub else findDirlist name rest

def updateSubtreeHelper (f : Dirtree → Dirtree) (name : Sname) (dirent : Sname × Dirtree) :
    Sname × Dirtree :=
  if dirent.1 = name then (dirent.1, f dirent.2) else dirent

def updateSubtree : List Sname → Dirtree → Dirtree → Dirtree
  | [], subtree, _ => subtree
  | _ :: _, _, treeFile inum f => treeFile inum f
  | name :: rest, subtree, treeDir inum ents =>
    treeDir inum (ents.map (updateSubtreeHelper (updateSubtree rest subtree) name))

def deleteFromList (name : Sname) : List (Sname × Dirtree) → List (Sname × Dirtree)
  | [] => []
  | hd :: rest => if hd.1 = name then rest else hd :: deleteFromList name rest

def deleteFromDir (name : Sname) : Dirtree → Dirtree
  | treeFile inum f => treeFile inum f
  | treeDir inum ents => treeDir inum (deleteFromList name ents)

/-- Add an entry or update the one with the name. -/
def addToList (name : Sname) (item : Dirtree) : List (Sname × Dirtree) → List (Sname × Dirtree)
  | [] => [(name, item)]
  | (entName, entItem) :: rest =>
    if entName = name then (name, item) :: rest
    else (entName, entItem) :: addToList name item rest

def addToDir (name : Sname) (item : Dirtree) : Dirtree → Dirtree
  | treeFile inum f => treeFile inum f
  | treeDir inum ents => treeDir inum (addToList name item ents)

/-- Remove an entry of the directory at `srcpath`, which is `snum` and has the entries `sents`. -/
def treePrune (snum : ℕ) (sents : List (Sname × Dirtree)) (srcpath : List Sname) (srcname : Sname)
    (tree : Dirtree) : Dirtree :=
  updateSubtree srcpath (deleteFromDir srcname (treeDir snum sents)) tree

/-- Put a tree in the directory at `dstpath`, which is `dnum` and has the entries `dents`. -/
def treeGraft (dnum : ℕ) (dents : List (Sname × Dirtree)) (dstpath : List Sname) (dstname : Sname)
    (subtree tree : Dirtree) : Dirtree :=
  updateSubtree dstpath (addToDir dstname subtree (treeDir dnum dents)) tree

/-! ### Entries and paths -/

variable {name fn : Sname} {p q path : List Sname} {ents ents' : List (Sname × Dirtree)}
  {tree sub sub' t : Dirtree} {i : ℕ}

theorem foldr_findSubtreeHelper (f : Dirtree → Option α) (name : Sname) :
    ∀ ents, ents.foldr (findSubtreeHelper f name) none = (findDirlist name ents).bind f
  | [] => rfl
  | (n, sub) :: rest => by
    rw [List.foldr_cons, foldr_findSubtreeHelper f name rest, findSubtreeHelper, findDirlist]
    split_ifs <;> rfl

theorem findSubtree_cons (name : Sname) (p : List Sname) (i : ℕ) (ents : List (Sname × Dirtree)) :
    findSubtree (name :: p) (treeDir i ents) = (findDirlist name ents).bind (findSubtree p) :=
  foldr_findSubtreeHelper (findSubtree p) name ents

theorem findSubtree_append (h : findSubtree p tree = some sub) (q : List Sname) :
    findSubtree (p ++ q) tree = findSubtree q sub := by
  induction p generalizing tree with
  | nil =>
    obtain rfl : tree = sub := Option.some.inj h
    rfl
  | cons name p ih =>
    cases tree with
    | treeFile i f => cases h
    | treeDir i ents =>
      rw [findSubtree_cons, Option.bind_eq_some_iff] at h
      obtain ⟨t, ht, hp⟩ := h
      rw [List.cons_append, findSubtree_cons, ht]
      exact ih hp

theorem findName_eq (path : List Sname) (tree : Dirtree) :
    findName path tree = (findSubtree path tree).map fun t => (t.inum, t.isdir) := by
  rw [findName]
  rcases findSubtree path tree with _ | ⟨i, f⟩ | ⟨i, ents⟩ <;> rfl

/-- A path that does not exist goes through a file or has a name that is not bound. -/
theorem findSubtree_eq_none (h : findSubtree path tree = none) :
    ∃ p fn q, path = p ++ fn :: q ∧ ((∃ i f, findSubtree p tree = some (treeFile i f)) ∨
      ∃ i ents, findSubtree p tree = some (treeDir i ents) ∧ findDirlist fn ents = none) := by
  induction path generalizing tree with
  | nil => cases h
  | cons name p ih =>
    cases tree with
    | treeFile i f => exact ⟨[], name, p, rfl, .inl ⟨i, f, rfl⟩⟩
    | treeDir i ents =>
      rw [findSubtree_cons] at h
      cases hd : findDirlist name ents with
      | none => exact ⟨[], name, p, rfl, .inr ⟨i, ents, rfl, hd⟩⟩
      | some t =>
        rw [hd] at h
        obtain ⟨p', fn, q, rfl, hp⟩ := ih h
        refine ⟨name :: p', fn, q, rfl, ?_⟩
        rw [findSubtree_cons, hd]
        exact hp

/-- Names without two entries: the list is the map that lookups see. -/
theorem lists_findDirlist (h : (ents.map Prod.fst).Nodup) :
    FiniteMap.Lists ents fun name => findDirlist name ents := by
  have heq : (fun name => findDirlist name ents) =
      fun name => (ents.find? fun e => e.1 = name).map Prod.snd := by
    funext name
    clear h
    induction ents with
    | nil => rfl
    | cons e rest ih =>
      obtain ⟨n, sub⟩ := e
      rw [findDirlist, ih, List.find?_cons]
      by_cases hn : n = name
      · rw [if_pos hn, decide_eq_true hn]
        rfl
      · rw [if_neg hn, decide_eq_false hn]
  rw [heq]
  exact FiniteMap.lists_find h

theorem perm_deleteFromList (h : findDirlist name ents = some t) :
    ents.Perm ((name, t) :: deleteFromList name ents) := by
  induction ents with
  | nil => cases h
  | cons e rest ih =>
    obtain ⟨n, sub⟩ := e
    rw [findDirlist] at h
    rw [deleteFromList]
    split_ifs at h with hn
    · rw [if_pos hn, ← hn, ← Option.some.inj h]
    · rw [if_neg hn]
      exact ((ih h).cons _).trans (.swap _ _ _)

theorem deleteFromList_of_none (h : findDirlist name ents = none) :
    deleteFromList name ents = ents := by
  induction ents with
  | nil => rfl
  | cons e rest ih =>
    obtain ⟨n, sub⟩ := e
    rw [findDirlist] at h
    rw [deleteFromList]
    split_ifs at h with hn
    rw [if_neg hn, ih h]

theorem perm_addToList (name : Sname) (t : Dirtree) :
    ∀ ents, (addToList name t ents).Perm ((name, t) :: deleteFromList name ents)
  | [] => .refl _
  | (n, sub) :: rest => by
    rw [addToList, deleteFromList]
    split_ifs with hn
    · exact .refl _
    · exact ((perm_addToList name t rest).cons _).trans (.swap _ _ _)

end

end Fscq
