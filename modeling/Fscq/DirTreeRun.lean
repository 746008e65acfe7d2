import Fscq.AsyncFSRun

/-!
# Runs of operations on the tree

Any sequence of operations on the tree, each of them a transaction that is rolled back with all
caches when it fails.  In every state that such a run reaches, every block of the disk is in exactly
one place (`BFILE.Accounted`) and the directories form a tree (`DIRTREE.IsTree`).
-/

namespace Fscq

open CrashProg

open BFILE (MemState)

open AFS (InTree Ok Effect Reach)

open Relation (TransGen)

/-! ### Where the blocks are -/

/-- Every block that files can use is on one of the free lists, or is a data block or an index block
of a file, and only once; the free lists are those of the bitmaps, and the blocks of files are in use
in both. -/
structure BFILE.Accounted (fsxp : FsXparams) (m : Mem) (ms : MemState) : Prop where
  once : ∀ a, a ≠ 0 → a < fsxp.nblocks → (BFILE.total fsxp m ms).count a = 1
  only : ∀ a ∈ BFILE.total fsxp m ms, a ≠ 0 ∧ a < fsxp.nblocks
  free : ∀ b a, a ∈ BFILE.freeOf fsxp m ms.msAllocC b ↔
    a ≠ 0 ∧ a < fsxp.nblocks ∧ BALLOCC.bit m (BFILE.bxpOf fsxp b) a = AllocSig.avail
  inuse : ∀ i < INODE.ninodes fsxp.inode, ∀ a ∈ BFILE.owned fsxp m i, ∀ b,
    BALLOCC.bit m (BFILE.bxpOf fsxp b) a = AllocSig.inuse

section

variable {n : ℕ} {fsxp : FsXparams} {A : Finset ℕ} {K : ℕ → Bool} {L : LogSt} {ams : MemState}

theorem mem_freeOf_iff (hx : fsxp.Parts n) {m : Mem} (hc : BFILE.Coherent fsxp m ams.msAllocC)
    (b : Bool) (a : ℕ) : a ∈ BFILE.freeOf fsxp m ams.msAllocC b ↔
      a ≠ 0 ∧ a < fsxp.nblocks ∧ BALLOCC.bit m (BFILE.bxpOf fsxp b) a = AllocSig.avail := by
  rw [BFILE.freeOf, BlockPtr.freeSet, Multiset.mem_coe, (hc b).perm.mem_iff, AllocSig.mem_bmapFree,
    BFILE.nbits_bxpOf hx]
  tauto

theorem AFS.Ok.accounted (hx : fsxp.Ok n) (h : Ok n fsxp A K L ams) :
    BFILE.Accounted fsxp L.disk.cur ams where
  once a h0 ha := by
    rw [h.total]
    exact Multiset.count_eq_one_of_mem BFILE.nodup_allBlocks (BFILE.mem_allBlocks.2 ⟨h0, ha⟩)
  only a ha := by
    rw [h.total] at ha
    exact BFILE.mem_allBlocks.1 ha
  free := mem_freeOf_iff hx.toParts h.coh
  inuse i hi a ha b := by
    obtain ⟨h0, hlt⟩ := h.tree.inv.mem_allBlocks_of_owned hi ha
    have hnot : a ∉ BFILE.freeOf fsxp L.disk.cur ams.msAllocC b := by
      have hnd := h.tree.inv.nodup_total
      rw [BFILE.total_split fsxp L.disk.cur ams hi b] at hnd
      have hd := (Multiset.nodup_add.1 (Multiset.nodup_add.1 hnd).1).2.2
      exact Multiset.disjoint_left.1 hd ha
    rw [mem_freeOf_iff hx.toParts h.coh] at hnot
    cases hb : BALLOCC.bit L.disk.cur (BFILE.bxpOf fsxp b) a with
    | true => rfl
    | false => exact absurd ⟨h0, hlt, hb⟩ hnot

end

namespace DIRTREE

open BFILE (file)

/-! ### The tree -/

/-- An entry of a directory of the tree. -/
def Entry (fsxp : FsXparams) (m : Mem) (d : ℕ) (e : SDIR.Readent) : Prop :=
  InTree fsxp m d true ∧ e ∈ SDIR.dents (file fsxp m d)

/-- The directories form a finite tree: no inode has two entries and the root has none, no directory
is below itself, the inodes of the tree are those that are allocated, and each of them is used as its
entry says. -/
structure IsTree (fsxp : FsXparams) (m : Mem) : Prop where
  once : ∀ d d' e e', Entry fsxp m d e → Entry fsxp m d' e' → e.2.1 = e'.2.1 → d = d' ∧ e = e'
  root : ∀ d e, Entry fsxp m d e → e.2.1 ≠ fsxp.rootInum
  acyclic : ∀ d, ¬ TransGen (fun d i => ∃ name b, Entry fsxp m d (name, i, b)) d d
  alloc : ∀ i, (∃ b, InTree fsxp m i b) ↔
    i ≠ 0 ∧ i < INODE.ninodes fsxp.inode ∧ IAlloc.bit m fsxp i = AllocSig.inuse
  kind : ∀ i b b', InTree fsxp m i b → InTree fsxp m i b' → b = b'
  dir : ∀ d, InTree fsxp m d true → SDIR.DirOk (file fsxp m d)
  finite : {i | ∃ b, InTree fsxp m i b}.Finite

variable {n : ℕ} {fsxp : FsXparams} {A : Finset ℕ} {K : ℕ → Bool} {m : Mem} {ms : MemState}

theorem Inv.inuse_iff (hx : fsxp.Ok n) (h : Inv fsxp {fsxp.rootInum} A K m ms) (i : ℕ) : i ∈ A ↔
    i ≠ 0 ∧ i < INODE.ninodes fsxp.inode ∧ IAlloc.bit m fsxp i = AllocSig.inuse := by
  have hmem : i ∈ IAlloc.freeList m fsxp ms.msIAllocC ↔ i ∈ IAlloc.bmapFree m fsxp := by
    rw [AllocSig.freeList]
    cases hms : ms.msIAllocC with
    | none => rfl
    | some l => exact (h.icoh l hms).mem_iff
  rw [h.mem_iff, hmem, AllocSig.mem_bmapFree, hx.inodes]
  cases IAlloc.bit m fsxp i
  all_goals
    simp only [AllocSig.avail, AllocSig.inuse]
    tauto

theorem Inv.isTree (hx : fsxp.Ok n) (h : Inv fsxp {fsxp.rootInum} A K m ms)
    (hK : K fsxp.rootInum = true) : IsTree fsxp m := by
  have htree : ∀ {i b}, InTree fsxp m i b ↔ i ∈ A ∧ K i = b := AFS.inTree_iff h hK
  have hedge : ∀ {d e}, Entry fsxp m d e → d ∈ A ∧ K d = true ∧ Edge (children fsxp K m) d e.2.1 :=
    fun {d e} he => ⟨(htree.1 he.1).1, (htree.1 he.1).2, edge_of_mem (htree.1 he.1).2 he.2⟩
  constructor
  case once =>
    intro d d' e e' he he' heq
    obtain ⟨hd, hKd, hE⟩ := hedge he
    obtain ⟨hd', -, hE'⟩ := hedge he'
    rw [← heq] at hE'
    obtain rfl := h.forest.parent_unique hd hd' hE hE'
    refine ⟨rfl, ?_⟩
    have hnd := h.forest.nodup_children hd
    rw [children_of_dir hKd, Multiset.coe_nodup] at hnd
    exact List.inj_on_of_nodup_map hnd he.2 he'.2 heq
  case root =>
    intro d e he heq
    obtain ⟨hd, -, hE⟩ := hedge he
    rw [heq] at hE
    exact h.forest.not_edge_root (Multiset.mem_singleton_self _) hd hE
  case acyclic =>
    intro d hcycle
    have hd : d ∈ A := by
      obtain ⟨i, ⟨name, b, he⟩, -⟩ := TransGen.head'_iff.1 hcycle
      exact (hedge he).1
    refine h.forest.acyclic hd (hcycle.lift id ?_)
    rintro d' i ⟨name, b, he⟩
    exact (hedge he).2.2
  case alloc =>
    intro i
    rw [← h.inuse_iff hx i]
    constructor
    · rintro ⟨b, hb⟩
      exact (htree.1 hb).1
    · exact fun hi => ⟨K i, htree.2 ⟨hi, rfl⟩⟩
  case kind =>
    intro i b b' hb hb'
    rw [← (htree.1 hb).2, (htree.1 hb').2]
  case dir =>
    intro d hd
    exact h.dir d (htree.1 hd).1 (htree.1 hd).2
  case finite =>
    refine A.finite_toSet.subset ?_
    rintro i ⟨b, hb⟩
    exact (htree.1 hb).1

/-! ### Operations -/

/-- The operations on the tree. -/
inductive Op
  | mkfile (dnum : ℕ) (name : Sname)
  | mkdir (dnum : ℕ) (name : Sname)
  | delete (dnum : ℕ) (name : Sname)
  | rename (dnum : ℕ) (srcpath : List Sname) (srcname : Sname) (dstpath : List Sname)
      (dstname : Sname)
  | truncate (inum nblocks : ℕ)
  | write (inum off : ℕ) (v : Valu)
  | dwrite (inum off : ℕ) (v : Valu)
  | datasync (inum : ℕ)
  | sync

/-- The operation is on a directory or a file of the tree, and on a block that the file has. -/
def Op.Valid (fsxp : FsXparams) (m : Mem) : Op → Prop
  | .mkfile dnum _ => InTree fsxp m dnum true
  | .mkdir dnum _ => InTree fsxp m dnum true
  | .delete dnum _ => InTree fsxp m dnum true
  | .rename dnum _ _ _ _ => InTree fsxp m dnum true
  | .truncate inum _ => InTree fsxp m inum false
  | .write inum off _ => InTree fsxp m inum false ∧ off < (BFILE.blocks fsxp m inum).length
  | .dwrite inum off _ => InTree fsxp m inum false ∧ off < (BFILE.blocks fsxp m inum).length
  | .datasync _ => True
  | .sync => True

section

variable [Platform]

/-- An operation, committed if it succeeds and else rolled back with the caches. -/
def Op.exec (fsxp : FsXparams) : Op → MemState → LogProg (MemState × Res Unit)
  | .mkfile dnum name, ms => do
    let (ms, r) ← AFS.transact (DIRTREE.mkfile fsxp dnum name) ms
    pure (ms, r.map fun _ => ())
  | .mkdir dnum name, ms => do
    let (ms, r) ← AFS.transact (DIRTREE.mkdir fsxp dnum name) ms
    pure (ms, r.map fun _ => ())
  | .delete dnum name, ms => AFS.transact (DIRTREE.delete fsxp dnum name) ms
  | .rename dnum srcpath srcname dstpath dstname, ms =>
    AFS.transact (DIRTREE.rename fsxp dnum srcpath srcname dstpath dstname) ms
  | .truncate inum nblocks, ms => AFS.transact (DIRTREE.truncate fsxp inum nblocks) ms
  | .write inum off v, ms => AFS.transact (fun ms => do
      let ms ← DIRTREE.write fsxp inum off v ms
      pure (ms, .ok ())) ms
  | .dwrite inum off v, ms => do
    let ms ← AFS.updateFblockD fsxp inum off v ms
    pure (ms, .ok ())
  | .datasync inum, ms => do
    let ms ← AFS.fileSync inum ms
    pure (ms, .ok ())
  | .sync, ms => do
    let ms ← DIRTREE.sync ms
    pure (ms, .ok ())

variable {L : LogSt} {ams : MemState} {xp : LogXparams}

/-- Every operation has an effect of the file system. -/
theorem wp_op (h : Ok n fsxp A K L ams) (hx : fsxp.Ok n) {o : Op}
    (hv : o.Valid fsxp L.disk.cur) :
    LogProg.wp n xp (o.exec fsxp ams)
      (fun r L' => ∃ A' K', Effect n fsxp A K L ams A' K' L' r.1)
      (AFS.crashIn (AFS.Within n fsxp A K L ams)) L := by
  have htree : ∀ {i b}, InTree fsxp L.disk.cur i b → i ∈ A ∧ K i = b :=
    (AFS.inTree_iff h.tree h.root).1
  cases o with
  | mkfile dnum name =>
    obtain ⟨hd, hK⟩ := htree hv
    exact wp_seq (AFS.wp_transact_effect h (AFS.wp_mknod_effect h hx hd hK))
      fun r L' he => wp_pure he
  | mkdir dnum name =>
    obtain ⟨hd, hK⟩ := htree hv
    exact wp_seq (AFS.wp_transact_effect h (AFS.wp_mknod_effect h hx hd hK))
      fun r L' he => wp_pure he
  | delete dnum name =>
    obtain ⟨hd, hK⟩ := htree hv
    exact AFS.wp_transact_effect h (AFS.wp_delete_effect h hx hd hK)
  | rename dnum srcpath srcname dstpath dstname =>
    obtain ⟨hd, hK⟩ := htree hv
    exact AFS.wp_transact_effect h (AFS.wp_rename_effect h hx hd hK)
  | truncate inum nblocks =>
    obtain ⟨hi, hK⟩ := htree hv
    exact AFS.wp_transact_effect h (AFS.wp_truncate_effect h hx hi hK)
  | write inum off v =>
    obtain ⟨hi, ho⟩ := hv
    obtain ⟨hi, hK⟩ := htree hi
    rw [← BFILE.length_data] at ho
    apply AFS.wp_transact_effect h
    apply wp_bind
    apply wp_write hx h.tree hi hK ho
    exact fun ms' m' hinv hmv _ => wp_pure fun v _ => ⟨A, K, _, .of_kind hinv hmv⟩
  | dwrite inum off v =>
    obtain ⟨hi, ho⟩ := hv
    obtain ⟨hi, hK⟩ := htree hi
    exact wp_seq (AFS.wp_updateFblockD_effect h hx hi hK ho)
      fun ms' L' he => wp_pure ⟨A, K, he⟩
  | datasync inum =>
    exact wp_seq (AFS.wp_fileSync_effect h) fun ms' L' he => wp_pure ⟨A, K, he⟩
  | sync => exact wp_seq (AFS.wp_treeSync_effect h) fun ms' L' he => wp_pure ⟨A, K, he⟩

variable {g : AFS.Geometry}

/-- A run of operations on the tree of a new file system. -/
abbrev OpReach (g : AFS.Geometry) : LogSt → MemState → Prop :=
  Reach g (Op.exec g.fsxp) fun L _ o _ => o.Valid g.fsxp L.disk.cur

theorem opReach_ok (h : OpReach g L ams) : ∃ A K, Ok g.dataSize g.fsxp A K L ams := by
  refine h.ok fun A K L ams o hok _ r L' hr hv => ?_
  have hwp := LogProg.wp_run (wp_op hok g.ok hv : LogProg.wp g.dataSize g.fsxp.log _ _ _ _)
  rw [hr] at hwp
  obtain ⟨A', K', heff⟩ := hwp
  exact ⟨A', K', heff.ok hok⟩

/-- No operation leaks a block or hands it out twice. -/
theorem op_blocks_accounted (h : OpReach g L ams) : BFILE.Accounted g.fsxp L.disk.cur ams := by
  obtain ⟨A, K, hok⟩ := opReach_ok h
  exact hok.accounted g.ok

/-- No operation breaks the tree. -/
theorem op_isTree (h : OpReach g L ams) : IsTree g.fsxp L.disk.cur := by
  obtain ⟨A, K, hok⟩ := opReach_ok h
  exact hok.tree.isTree g.ok hok.root

end

end DIRTREE

namespace Sample

local instance treePlatform : Platform := platform

open DIRTREE

theorem run_mkdir {ams ams' : MemState} {L L' : LogSt} {d i : ℕ} {name : Sname}
    (h : LogProg.run geometry.fsxp.log (AFS.transact (mkdir geometry.fsxp d name) ams) L =
      ((ams', .ok i), L')) :
    LogProg.run geometry.fsxp.log ((Op.mkdir d name).exec geometry.fsxp ams) L =
      ((ams', .ok ()), L') := by
  rw [Op.exec, LogProg.run_bind, h]
  rfl

/-- A directory is made in a new file system. -/
theorem exists_mkdir : ∃ ams L ams' L' i,
    LogProg.run geometry.fsxp.log (AFS.mkfs geometry.fsxp) (.ofDisk fun _ => 0) = (.ok ams, L) ∧
    LogProg.run geometry.fsxp.log ((Op.mkdir 1 [97]).exec geometry.fsxp ams) L =
      ((ams', .ok ()), L') ∧
    SDIR.dents (BFILE.file geometry.fsxp L'.disk.cur 1) = [([97], i, true)] := by
  obtain ⟨ams, L, hmk⟩ := exists_new fun _ => 0
  have hnew := AFS.new_of_mkfs hmk
  have hlen := le_logLen_geometry
  have hin := four_le_ninodes
  have hfree := hnew.tree.freeList_ne_nil (by rw [Finset.card_singleton]; omega)
  have hcan := hnew.canLink (show SDIR.isValidSname [97] = true by decide)
  have hlog : 10 ≤ geometry.fsxp.log.logLen := by omega
  obtain ⟨ams', i, L', hrun, -, -, hp, -⟩ := AFS.exists_mknod (b := true) hnew.ok geometry.ok hlog
    (Finset.mem_singleton_self _) (Function.update_self ..) hfree hcan
  rw [hnew.root] at hp
  exact ⟨ams, L, ams', L', i, hmk, run_mkdir hrun, List.perm_singleton.1 hp⟩

theorem op_blocks_accounted_mkdir : ∃ ams L ams' L' i,
    LogProg.run geometry.fsxp.log (AFS.mkfs geometry.fsxp) (.ofDisk fun _ => 0) = (.ok ams, L) ∧
    LogProg.run geometry.fsxp.log ((Op.mkdir 1 [97]).exec geometry.fsxp ams) L =
      ((ams', .ok ()), L') ∧
    SDIR.dents (BFILE.file geometry.fsxp L'.disk.cur 1) = [([97], i, true)] ∧
    BFILE.Accounted geometry.fsxp L'.disk.cur ams' := by
  obtain ⟨ams, L, ams', L', i, hmk, hrun, hdents⟩ := exists_mkdir
  have hreach : OpReach geometry L' ams' := .step (.mkfs hmk) hrun .root
  exact ⟨ams, L, ams', L', i, hmk, hrun, hdents, op_blocks_accounted hreach⟩

theorem op_isTree_mkdir : ∃ ams L ams' L' i,
    LogProg.run geometry.fsxp.log (AFS.mkfs geometry.fsxp) (.ofDisk fun _ => 0) = (.ok ams, L) ∧
    LogProg.run geometry.fsxp.log ((Op.mkdir 1 [97]).exec geometry.fsxp ams) L =
      ((ams', .ok ()), L') ∧
    SDIR.dents (BFILE.file geometry.fsxp L'.disk.cur 1) = [([97], i, true)] ∧
    IsTree geometry.fsxp L'.disk.cur := by
  obtain ⟨ams, L, ams', L', i, hmk, hrun, hdents⟩ := exists_mkdir
  have hreach : OpReach geometry L' ams' := .step (.mkfs hmk) hrun .root
  exact ⟨ams, L, ams', L', i, hmk, hrun, hdents, op_isTree hreach⟩

end Sample

end Fscq
