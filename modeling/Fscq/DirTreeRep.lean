import Fscq.DirTreeDef
import Fscq.DirTreeRun

/-!
# The tree on the disk

A tree is on the disk when each directory has the entries of the tree, in any order, and each file
its contents.  In every state of the file system there is such a tree, paths lead to what the tree
says, and a subtree is replaced when what is below it on the disk is.
-/

namespace Fscq

open CrashProg

open Relation (ReflTransGen TransGen)

open Dirtree (treeFile treeDir)

namespace DIRTREE

open BFILE (file)

/-- The entry of a directory that an entry of the tree is. -/
def readentOf (e : Sname × Dirtree) : SDIR.Readent := (e.1, e.2.inum, e.2.isdir)

/-- The tree is on the disk. -/
inductive Rep (fsxp : FsXparams) (m : Mem) : Dirtree → Prop
  | leaf (inum : ℕ) : Rep fsxp m (treeFile inum (file fsxp m inum))
  | node {inum : ℕ} {ents : List (Sname × Dirtree)}
      (hp : (ents.map readentOf).Perm (SDIR.dents (file fsxp m inum)))
      (hs : ∀ e ∈ ents, Rep fsxp m e.2) : Rep fsxp m (treeDir inum ents)

variable {n d i : ℕ} {fsxp : FsXparams} {roots : Multiset ℕ} {A : Finset ℕ} {K : ℕ → Bool}
  {m m' : Mem} {ms ms' : BFILE.MemState} {name fn : Sname} {b : Bool} {tree sub sub' t : Dirtree}
  {ents ents' : List (Sname × Dirtree)} {path p q : List Sname} {e : Sname × Dirtree}

/-- The tree is one of the directories and files in use. -/
structure Rooted (A : Finset ℕ) (K : ℕ → Bool) (tree : Dirtree) : Prop where
  mem : tree.inum ∈ A
  kind : K tree.inum = tree.isdir

theorem Rep.perm_dents (h : Rep fsxp m (treeDir i ents)) :
    (ents.map readentOf).Perm (SDIR.dents (file fsxp m i)) := by
  cases h with
  | node hp _ => exact hp

theorem Rep.child (h : Rep fsxp m (treeDir i ents)) (he : e ∈ ents) : Rep fsxp m e.2 := by
  cases h with
  | node _ hs => exact hs e he

theorem Rep.readentOf_mem (h : Rep fsxp m (treeDir i ents)) (he : e ∈ ents) :
    readentOf e ∈ SDIR.dents (file fsxp m i) :=
  h.perm_dents.mem_iff.1 (List.mem_map_of_mem he)

section

variable (h : Inv fsxp roots A K m ms)

include h

theorem Inv.nodup_ents (hr : Rep fsxp m (treeDir i ents)) (hR : Rooted A K (treeDir i ents)) :
    (ents.map Prod.fst).Nodup := by
  have hnd := (hr.perm_dents.map Prod.fst).nodup_iff.2 (h.dir i hR.mem hR.kind).nodup
  rw [List.map_map] at hnd
  exact hnd

theorem Inv.rooted_child (hr : Rep fsxp m (treeDir i ents)) (hR : Rooted A K (treeDir i ents))
    (he : e ∈ ents) : Rooted A K e.2 ∧ Edge (children fsxp K m) i e.2.inum := by
  have hmem : (e.1, e.2.inum, e.2.isdir) ∈ SDIR.dents (file fsxp m i) := hr.readentOf_mem he
  have hedge := edge_of_mem hR.kind hmem
  refine ⟨⟨h.forest.child_mem hR.mem hedge, ?_⟩, hedge⟩
  exact (h.flag i hR.mem hR.kind _ _ _ hmem).symm

/-- No inode has two names. -/
theorem Inv.ents_inj (hr : Rep fsxp m (treeDir i ents)) (hR : Rooted A K (treeDir i ents))
    {e e' : Sname × Dirtree} (he : e ∈ ents) (he' : e' ∈ ents) (heq : e.2.inum = e'.2.inum) :
    e.1 = e'.1 := by
  have hnd := h.forest.nodup_children hR.mem
  rw [children_of_dir hR.kind, Multiset.coe_nodup] at hnd
  have hread : readentOf e = readentOf e' :=
    List.inj_on_of_nodup_map hnd (hr.readentOf_mem he) (hr.readentOf_mem he') heq
  exact congrArg (fun de : SDIR.Readent => de.1) hread

/-- The names of a directory are bound to what its entries are. -/
theorem Inv.lists (hr : Rep fsxp m (treeDir i ents)) (hR : Rooted A K (treeDir i ents)) :
    FiniteMap.Lists ents fun name => findDirlist name ents :=
  lists_findDirlist (h.nodup_ents hr hR)

theorem Inv.mem_ents (hr : Rep fsxp m (treeDir i ents)) (hR : Rooted A K (treeDir i ents))
    (hf : findDirlist name ents = some t) : (name, t) ∈ ents :=
  ((h.lists hr hR).mem_iff name t).2 hf

/-- A subtree is on the disk, below the root. -/
theorem Inv.subtree (hr : Rep fsxp m tree) (hR : Rooted A K tree)
    (hf : findSubtree path tree = some sub) : Rep fsxp m sub ∧ Rooted A K sub ∧
      ReflTransGen (Edge (children fsxp K m)) tree.inum sub.inum := by
  induction path generalizing tree with
  | nil =>
    obtain rfl : tree = sub := Option.some.inj hf
    exact ⟨hr, hR, .refl⟩
  | cons name p ih =>
    cases tree with
    | treeFile i f => cases hf
    | treeDir i ents =>
      rw [findSubtree_cons, Option.bind_eq_some_iff] at hf
      obtain ⟨t, ht, hp⟩ := hf
      have he := h.mem_ents hr hR ht
      obtain ⟨hR', hedge⟩ := h.rooted_child hr hR he
      obtain ⟨h₁, h₂, h₃⟩ := ih (hr.child he) hR' hp
      exact ⟨h₁, h₂, h₃.head hedge⟩

/-! ### Paths -/

/-- An entry of a directory on the disk, as the tree has it. -/
theorem Inv.find_dents (hr : Rep fsxp m (treeDir i ents)) (hR : Rooted A K (treeDir i ents))
    (fn : Sname) : (SDIR.dents (file fsxp m i)).find? (fun de => de.1 = fn) =
      (findDirlist fn ents).map fun t => (fn, t.inum, t.isdir) := by
  cases hf : findDirlist fn ents with
  | none =>
    apply find_dents_none
    intro e he
    obtain ⟨⟨fn', t⟩, ht, heq⟩ := List.mem_map.1 (hr.perm_dents.mem_iff.2 he)
    obtain rfl : fn' = fn := congrArg Prod.fst heq
    exact (h.lists hr hR).eq_none_iff.1 hf t ht
  | some t =>
    exact DIRTREE.find_dents (h.dir i hR.mem hR.kind) (hr.readentOf_mem (h.mem_ents hr hR hf))

/-- A path leads to the inode of the subtree, and on from there. -/
theorem Inv.walk_append (hr : Rep fsxp m tree) (hR : Rooted A K tree)
    (hf : findSubtree p tree = some sub) (q : List Sname) :
    walk fsxp m tree.inum tree.isdir (p ++ q) = walk fsxp m sub.inum sub.isdir q := by
  induction p generalizing tree with
  | nil =>
    obtain rfl : tree = sub := Option.some.inj hf
    rfl
  | cons name p ih =>
    cases tree with
    | treeFile i f => cases hf
    | treeDir i ents =>
      rw [findSubtree_cons, Option.bind_eq_some_iff] at hf
      obtain ⟨t, ht, hp⟩ := hf
      have he := h.mem_ents hr hR ht
      rw [← ih (hr.child he) (h.rooted_child hr hR he).1 hp, List.cons_append]
      change walk fsxp m i true (name :: (p ++ q)) = _
      rw [walk, if_pos rfl, h.find_dents hr hR, ht]
      rfl

theorem Inv.walk_eq (hr : Rep fsxp m tree) (hR : Rooted A K tree)
    (hf : findSubtree path tree = some sub) :
    walk fsxp m tree.inum tree.isdir path = .ok (sub.inum, sub.isdir) := by
  have happ := h.walk_append hr hR hf []
  rwa [List.append_nil] at happ

/-- A path through a file. -/
theorem Inv.walk_file (hr : Rep fsxp m tree) (hR : Rooted A K tree) {f : BFILE.BFile}
    (hf : findSubtree p tree = some (treeFile i f)) :
    walk fsxp m tree.inum tree.isdir (p ++ fn :: q) = .error .ENOTDIR :=
  h.walk_append hr hR hf (fn :: q)

/-- A path with a name that is not bound. -/
theorem Inv.walk_unbound (hr : Rep fsxp m tree) (hR : Rooted A K tree)
    (hf : findSubtree p tree = some (treeDir i ents)) (hn : findDirlist fn ents = none) :
    walk fsxp m tree.inum tree.isdir (p ++ fn :: q) = .error .ENOENT := by
  obtain ⟨hr', hR', -⟩ := h.subtree hr hR hf
  rw [h.walk_append hr hR hf (fn :: q)]
  change walk fsxp m i true (fn :: q) = _
  rw [walk, if_pos rfl, h.find_dents hr' hR', hn]
  rfl

/-! ### A tree for every state -/

omit h in
theorem exists_ents (fsxp : FsXparams) (m : Mem) (l : List SDIR.Readent)
    (hl : ∀ e ∈ l, ∃ t, Rep fsxp m t ∧ t.inum = e.2.1 ∧ t.isdir = e.2.2) :
    ∃ ents : List (Sname × Dirtree), ents.map readentOf = l ∧ ∀ e ∈ ents, Rep fsxp m e.2 := by
  induction l with
  | nil => exact ⟨[], rfl, fun e he => absurd he List.not_mem_nil⟩
  | cons de l ih =>
    obtain ⟨ents, hents, hrep⟩ := ih fun e he => hl e (List.mem_cons_of_mem _ he)
    obtain ⟨t, ht, hinum, hisdir⟩ := hl de List.mem_cons_self
    refine ⟨(de.1, t) :: ents, ?_, ?_⟩
    · rw [List.map_cons, hents, readentOf, hinum, hisdir]
    · rintro e he
      rcases List.mem_cons.1 he with rfl | he
      · exact ht
      · exact hrep e he

theorem Inv.exists_rep (hd : d ∈ A) :
    ∃ tree, Rep fsxp m tree ∧ tree.inum = d ∧ tree.isdir = K d := by
  apply h.forest.induction_up (P := fun d => ∃ tree, Rep fsxp m tree ∧ tree.inum = d ∧
    tree.isdir = K d) _ hd
  intro v hv ih
  cases hK : K v with
  | false => exact ⟨_, .leaf v, rfl, rfl⟩
  | true =>
    obtain ⟨ents, hents, hrep⟩ := exists_ents fsxp m
      (SDIR.dents (file fsxp m v)) fun e he => by
        obtain ⟨t, ht, hinum, hisdir⟩ := ih e.2.1 (edge_of_mem hK he)
        exact ⟨t, ht, hinum, hisdir.trans (h.flag v hv hK _ _ _ he).symm⟩
    exact ⟨_, .node (hents ▸ .refl _) hrep, rfl, rfl⟩

/-! ### Changes below a directory -/

/-- A tree is still on the disk when nothing below it has changed. -/
theorem Inv.rep_congr (hr : Rep fsxp m tree) (hR : Rooted A K tree)
    (hm : ∀ v, ReflTransGen (Edge (children fsxp K m)) tree.inum v → file fsxp m' v = file fsxp m v) :
    Rep fsxp m' tree := by
  induction hr with
  | leaf i =>
    have hi : file fsxp m' i = file fsxp m i := hm i .refl
    rw [← hi]
    exact .leaf i
  | @node i ents hp hs ih =>
    have hi : file fsxp m' i = file fsxp m i := hm i .refl
    refine .node (by rwa [hi]) fun e he => ?_
    obtain ⟨hR', hedge⟩ := h.rooted_child (.node hp hs) hR he
    exact ih e he hR' fun v hv => hm v (hv.head hedge)

/-- Another tree is on the disk in place of a subtree, when nothing else has changed. -/
theorem Inv.rep_update (hr : Rep fsxp m tree) (hR : Rooted A K tree)
    (hf : findSubtree path tree = some sub) (hsub : Rep fsxp m' sub')
    (hinum : sub'.inum = sub.inum) (hisdir : sub'.isdir = sub.isdir)
    (hm : ∀ v, ReflTransGen (Edge (children fsxp K m)) tree.inum v →
      ¬ ReflTransGen (Edge (children fsxp K m)) sub.inum v → file fsxp m' v = file fsxp m v) :
    Rep fsxp m' (updateSubtree path sub' tree) ∧ (updateSubtree path sub' tree).inum = tree.inum ∧
      (updateSubtree path sub' tree).isdir = tree.isdir := by
  induction path generalizing tree with
  | nil =>
    obtain rfl : tree = sub := Option.some.inj hf
    exact ⟨hsub, hinum, hisdir⟩
  | cons name p ih =>
    cases tree with
    | treeFile i f => cases hf
    | treeDir i ents =>
      rw [findSubtree_cons, Option.bind_eq_some_iff] at hf
      obtain ⟨t, ht, hp⟩ := hf
      have he := h.mem_ents hr hR ht
      obtain ⟨hRt, hedge⟩ := h.rooted_child hr hR he
      obtain ⟨-, -, hpath⟩ := h.subtree (hr.child he) hRt hp
      obtain ⟨ih₁, ih₂, ih₃⟩ := ih (hr.child he) hRt hp fun v hv => hm v (hv.head hedge)
      refine ⟨?_, rfl, rfl⟩
      -- the directory itself is above the subtree
      have hi : file fsxp m' i = file fsxp m i := by
        apply hm i .refl
        exact fun hback => h.forest.acyclic hR.mem (.head' hedge (hpath.trans hback))
      have hsame : ∀ e ∈ ents, readentOf (updateSubtreeHelper (updateSubtree p sub') name e) =
          readentOf e := by
        rintro ⟨fn, t'⟩ he'
        rw [updateSubtreeHelper]
        split_ifs with hfn
        · obtain rfl : fn = name := hfn
          obtain rfl : t = t' := Option.some.inj
            (ht.symm.trans (((h.lists hr hR).mem_iff fn t').1 he'))
          rw [readentOf, ih₂, ih₃, readentOf]
        · rfl
      rw [updateSubtree]
      refine .node ?_ ?_
      · rw [List.map_map, hi]
        have heq := List.map_congr_left hsame
        rw [Function.comp_def, heq]
        exact hr.perm_dents
      · intro e' he'
        obtain ⟨⟨fn, t'⟩, he₀, rfl⟩ := List.mem_map.1 he'
        rw [updateSubtreeHelper]
        split_ifs with hfn
        · obtain rfl : fn = name := hfn
          obtain rfl : t = t' := Option.some.inj
            (ht.symm.trans (((h.lists hr hR).mem_iff fn t').1 he₀))
          exact ih₁
        · obtain ⟨hRt', hedge'⟩ := h.rooted_child hr hR he₀
          apply h.rep_congr (hr.child he₀) hRt'
          intro v hv
          apply hm v (hv.head hedge')
          -- the subtrees of two entries have nothing in common
          intro hv'
          exact hfn (h.ents_inj hr hR he₀ he
            (h.forest.child_unique hR.mem hedge hedge' (hpath.trans hv') hv).symm)

end

/-! ### Lookups -/

/-- What a path leads to in the tree: the subtree, an error for a path through a file, or one for a
name that is not bound. -/
structure Resolves (path : List Sname) (tree : Dirtree) (r : Res (ℕ × Bool)) : Prop where
  ok : ∀ e, findName path tree = some e → r = .ok e
  notdir : ∀ p fn q i f, path = p ++ fn :: q → findSubtree p tree = some (treeFile i f) →
    r = .error .ENOTDIR
  unbound : ∀ p fn q i ents, path = p ++ fn :: q → findSubtree p tree = some (treeDir i ents) →
    findDirlist fn ents = none → r = .error .ENOENT
  none : findName path tree = none → r = .error .ENOTDIR ∨ r = .error .ENOENT

/-- Walking the directories on the disk is walking the tree. -/
theorem Inv.resolves (h : Inv fsxp roots A K m ms) (hr : Rep fsxp m tree) (hR : Rooted A K tree)
    (path : List Sname) : Resolves path tree (walk fsxp m tree.inum tree.isdir path) := by
  constructor
  case ok =>
    intro e he
    rw [findName_eq, Option.map_eq_some_iff] at he
    obtain ⟨sub, hf, rfl⟩ := he
    exact h.walk_eq hr hR hf
  case notdir =>
    rintro p fn q i f rfl hf
    exact h.walk_file hr hR hf
  case unbound =>
    rintro p fn q i ents rfl hf hn
    exact h.walk_unbound hr hR hf hn
  case none =>
    intro hnone
    rw [findName_eq, Option.map_eq_none_iff] at hnone
    obtain ⟨p, fn, q, rfl, ⟨i, f, hf⟩ | ⟨i, ents, hf, hn⟩⟩ := findSubtree_eq_none hnone
    · exact .inl (h.walk_file hr hR hf)
    · exact .inr (h.walk_unbound hr hR hf hn)

/-- Looking up a path gives what the tree has there, and only reads. -/
theorem namei_find_name (hx : fsxp.Ok n) (h : Inv fsxp roots A K m ms) {ents : List (Sname × Dirtree)}
    (hr : Rep fsxp m (treeDir d ents)) (hR : Rooted A K (treeDir d ents)) (path : List Sname) :
    Txn.wp n (namei fsxp d path ms) (fun r m' => m' = m ∧ Inv fsxp roots A K m r.1 ∧
      Cached ms r.1 ∧ Resolves path (treeDir d ents) r.2) m ∧
      Txn.writes (namei fsxp d path ms) m = [] := by
  constructor
  · apply wp_namei hx h hR.mem hR.kind
    rintro ms' r hinv - hc rfl -
    exact ⟨rfl, hinv, hc, h.resolves hr hR path⟩
  · exact List.eq_nil_of_length_eq_zero (Nat.le_zero.1 (atMost_namei fsxp d path ms m))

end DIRTREE

namespace Sample

local instance lookupPlatform : Platform := platform

open DIRTREE

/-- The first entry of an empty directory is made. -/
theorem exists_entry_of_empty {A : Finset ℕ} {K : ℕ → Bool} {m : Mem} {ms : BFILE.MemState} {d : ℕ}
    (name : Sname) (b : Bool) (h : Inv geometry.fsxp {1} A K m ms) (hd : d ∈ A) (hK : K d = true)
    (hname : SDIR.isValidSname name = true) (hempty : BFILE.file geometry.fsxp m d = bfile0)
    (hlist : IAlloc.freeList m geometry.fsxp ms.msIAllocC ≠ [])
    (hfree : BFILE.freeOf geometry.fsxp m ms.msAllocC ms.msAlloc ≠ 0) :
    ∃ i m' ms', i ∉ A ∧ Inv geometry.fsxp {1} (insert i A) (Function.update K i b) m' ms' ∧
      BFILE.Moves geometry.fsxp {d} m ms m' ms' ∧
      SDIR.dents (BFILE.file geometry.fsxp m' d) = [(name, i, b)] ∧
      BFILE.file geometry.fsxp m' i = bfile0 := by
  have hcan : CacheOneDir.CanLink geometry.fsxp m ms d name := by
    refine ⟨hname, fun e he => ?_, .inr (BFILE.canGrow_of_direct ?_ hfree)⟩
    · rw [hempty] at he
      exact absurd he List.not_mem_nil
    · rw [← BFILE.length_data, hempty]
      decide
  have hwp : Txn.wp geometry.dataSize (mknod geometry.fsxp b d name ms) (fun r m' =>
      ∃ i, i ∉ A ∧ Inv geometry.fsxp {1} (insert i A) (Function.update K i b) m' r.1 ∧
        BFILE.Moves geometry.fsxp {d} m ms m' r.1 ∧
        SDIR.dents (BFILE.file geometry.fsxp m' d) = [(name, i, b)] ∧
        BFILE.file geometry.fsxp m' i = bfile0) m := by
    apply wp_mknod_one geometry.ok h hd hK
    · exact fun hnil => absurd hnil hlist
    · exact fun _ hlack => absurd hcan hlack
    · intro ms' m' i hi hinv hmv hp hf
      rw [hempty] at hp
      exact ⟨i, hi, hinv, hmv, List.perm_singleton.1 hp, hf⟩
  obtain ⟨i, hi⟩ := Txn.wp_run hwp
  exact ⟨i, _, _, hi⟩

/-- A directory in the root directory, and a file in it. -/
theorem exists_nested : ∃ A K m ms i j, Inv geometry.fsxp {1} A K m ms ∧
    Rep geometry.fsxp m (treeDir 1 [([97], treeDir i [([98], treeFile j bfile0)])]) ∧
    1 ∈ A ∧ K 1 = true := by
  obtain ⟨ams, L, hmk⟩ := exists_new fun _ => 0
  have hnew := AFS.new_of_mkfs hmk
  have hroot : 1 ∈ ({1} : Finset ℕ) := Finset.mem_singleton_self 1
  have hin := four_le_ninodes
  have hlist := hnew.tree.freeList_ne_nil (by rw [Finset.card_singleton]; omega)
  obtain ⟨i, m, ms, hi, h, hmv, hdents, hfile⟩ :=
    exists_entry_of_empty [97] true hnew.tree hroot rfl rfl hnew.root hlist (hnew.room _)
  -- the blocks that the other side of the allocator has are used after a sync
  have h' := AFS.inv_withAlloc h (!ams.msAlloc) ms.msDBlocks
  have hfree : BFILE.freeOf geometry.fsxp m ms.msAllocC (!ams.msAlloc) ≠ 0 := by
    obtain ⟨a, ha⟩ := Multiset.exists_mem_of_ne_zero (hnew.room (!ams.msAlloc))
    exact fun h0 => Multiset.notMem_zero a (h0 ▸ hmv.free a ha)
  have hcard : ({i, geometry.fsxp.rootInum} : Finset ℕ).card = 2 :=
    Finset.card_pair fun e => hi (Finset.mem_singleton.2 e)
  have hlist' := h.freeList_ne_nil (by rw [hcard]; omega)
  obtain ⟨j, m₂, ms₂, hj, h₂, hmv₂, hdents₂, hfile₂⟩ :=
    exists_entry_of_empty [98] false h' (Finset.mem_insert_self i _) (Function.update_self ..) rfl
      hfile hlist' hfree
  have h1 : 1 ∈ insert i ({1} : Finset ℕ) := Finset.mem_insert_of_mem hroot
  have hni : (1 : ℕ) ≠ i := fun e => hi (e ▸ hroot)
  have hnj : (1 : ℕ) ≠ j := fun e => hj (e ▸ h1)
  refine ⟨_, _, m₂, ms₂, i, j, h₂, .node ?_ fun e he => ?_, Finset.mem_insert_of_mem h1, ?_⟩
  · rw [BFILE.Moves.file h'.inv hmv₂ (h.lt h1) hni, hdents]
    exact List.Perm.refl _
  · rw [List.mem_singleton.1 he]
    refine .node (by rw [hdents₂]; exact List.Perm.refl _) fun e he => ?_
    rw [List.mem_singleton.1 he, ← hfile₂]
    exact .leaf j
  · rw [Function.update_of_ne hnj, Function.update_of_ne hni]
    exact Function.update_self ..

/-- A path leads through the directory to the file. -/
theorem namei_find_name_nested : ∃ m ms i j,
    Txn.wp geometry.dataSize (namei geometry.fsxp 1 [[97], [98]] ms)
      (fun r m' => m' = m ∧ r.2 = .ok (j, false)) m ∧
    Txn.writes (namei geometry.fsxp 1 [[97], [98]] ms) m = [] ∧
    Txn.wp geometry.dataSize (namei geometry.fsxp 1 [[97]] ms)
      (fun r m' => m' = m ∧ r.2 = .ok (i, true)) m ∧
    Txn.wp geometry.dataSize (namei geometry.fsxp 1 [[97], [98], [99]] ms)
      (fun r m' => m' = m ∧ r.2 = .error .ENOTDIR) m ∧
    Txn.wp geometry.dataSize (namei geometry.fsxp 1 [[97], [99], [98]] ms)
      (fun r m' => m' = m ∧ r.2 = .error .ENOENT) m := by
  obtain ⟨A, K, m, ms, i, j, h, hr, hmem, hkind⟩ := exists_nested
  have hpath := fun path => namei_find_name geometry.ok h hr ⟨hmem, hkind⟩ path
  refine ⟨m, ms, i, j, Txn.wp_post (hpath _).1 ?_, (hpath _).2, Txn.wp_post (hpath _).1 ?_,
    Txn.wp_post (hpath _).1 ?_, Txn.wp_post (hpath _).1 ?_⟩
  · rintro r m' ⟨hm, -, -, hres⟩
    exact ⟨hm, hres.ok _ rfl⟩
  · rintro r m' ⟨hm, -, -, hres⟩
    exact ⟨hm, hres.ok _ rfl⟩
  · rintro r m' ⟨hm, -, -, hres⟩
    exact ⟨hm, hres.notdir [[97], [98]] [99] [] j bfile0 rfl rfl⟩
  · rintro r m' ⟨hm, -, -, hres⟩
    exact ⟨hm, hres.unbound [[97]] [99] [[98]] i _ rfl rfl rfl⟩

end Sample

end Fscq
