import Fscq.Mkfs

/-!
# Runs of the file system

The calls of the file system as one type, what holds between two calls (`AFS.Ok`), and what a call
can do to the state of the file system (`AFS.Effect`).  A call on a file or directory of the tree has
one of these effects, and every effect keeps `AFS.Ok`; so it holds after any sequence of calls on a
new file system.
-/

namespace Fscq

open CrashProg

open BFILE (MemState)

open LogSt (Flushed)

namespace AFS

/-- The calls of the file system. -/
inductive Call
  | fileGetAttr (inum : ℕ)
  | fileGetSz (inum : ℕ)
  | readFblock (inum off : ℕ)
  | lookup (dnum : ℕ) (names : List Sname)
  | readdir (dnum : ℕ)
  | statfs
  | fileSetAttr (inum : ℕ) (attr : INODE.IAttr)
  | fileTruncate (inum sz : ℕ)
  | create (dnum : ℕ) (name : Sname)
  | delete (dnum : ℕ) (name : Sname)
  | rename (dnum : ℕ) (srcpath : List Sname) (srcname : Sname) (dstpath : List Sname)
      (dstname : Sname)
  | fileSetSz (inum : ℕ) (sz : BitVec 64)
  | mksock (dnum : ℕ) (name : Sname)
  | mkdir (dnum : ℕ) (name : Sname)
  | ftruncate (inum sz : ℕ)
  | updateFblock (inum off : ℕ) (v : Valu)
  | updateFblockD (inum off : ℕ) (v : Valu)
  | fileSync (inum : ℕ)
  | treeSync
  | umount

section

variable [Platform] (fsxp : FsXparams)

/-- A call, with an answer that says whether it succeeded. -/
def Call.exec : Call → MemState → LogProg (MemState × Res Unit)
  | .fileGetAttr inum, ams => do
    let (ams, _) ← AFS.fileGetAttr fsxp inum ams
    pure (ams, .ok ())
  | .fileGetSz inum, ams => do
    let (ams, _) ← AFS.fileGetSz fsxp inum ams
    pure (ams, .ok ())
  | .readFblock inum off, ams => do
    let (ams, _) ← AFS.readFblock fsxp inum off ams
    pure (ams, .ok ())
  | .lookup dnum names, ams => do
    let (ams, r) ← AFS.lookup fsxp dnum names ams
    pure (ams, r.map fun _ => ())
  | .readdir dnum, ams => do
    let (ams, _) ← AFS.readdir fsxp dnum ams
    pure (ams, .ok ())
  | .statfs, ams => do
    let (ams, _) ← AFS.statfs ams
    pure (ams, .ok ())
  | .fileSetAttr inum attr, ams => AFS.fileSetAttr fsxp inum attr ams
  | .fileTruncate inum sz, ams => AFS.fileTruncate fsxp inum sz ams
  | .create dnum name, ams => do
    let (ams, r) ← AFS.create fsxp dnum name ams
    pure (ams, r.map fun _ => ())
  | .delete dnum name, ams => AFS.delete fsxp dnum name ams
  | .rename dnum srcpath srcname dstpath dstname, ams =>
    AFS.rename fsxp dnum srcpath srcname dstpath dstname ams
  | .fileSetSz inum sz, ams => AFS.fileSetSz fsxp inum sz ams
  | .mksock dnum name, ams => do
    let (ams, r) ← AFS.mksock fsxp dnum name ams
    pure (ams, r.map fun _ => ())
  | .mkdir dnum name, ams => do
    let (ams, r) ← AFS.mkdir fsxp dnum name ams
    pure (ams, r.map fun _ => ())
  | .ftruncate inum sz, ams => AFS.ftruncate fsxp inum sz ams
  | .updateFblock inum off v, ams => do
    let (ams, ok) ← AFS.updateFblock fsxp inum off v ams
    pure (ams, if ok then .ok () else .error .ELOGOVERFLOW)
  | .updateFblockD inum off v, ams => do
    let ams ← AFS.updateFblockD fsxp inum off v ams
    pure (ams, .ok ())
  | .fileSync inum, ams => do
    let ams ← AFS.fileSync inum ams
    pure (ams, .ok ())
  | .treeSync, ams => do
    let ams ← AFS.treeSync ams
    pure (ams, .ok ())
  | .umount, ams => do
    let ams ← AFS.umount ams
    pure (ams, .ok ())

end

/-! ### The tree on disk -/

/-- An inode is in the tree, as a directory or as a file. -/
inductive InTree (fsxp : FsXparams) (m : Mem) : ℕ → Bool → Prop
  | root : InTree fsxp m fsxp.rootInum true
  | entry {d i : ℕ} {b : Bool} {name : Sname} (h : InTree fsxp m d true)
      (he : (name, i, b) ∈ SDIR.dents (BFILE.file fsxp m d)) : InTree fsxp m i b

variable {n : ℕ} {fsxp : FsXparams} {A A' : Finset ℕ} {K K' : ℕ → Bool} {m m' : Mem}
  {L L' : LogSt} {ams ams' : MemState} {i d : ℕ} {b : Bool}

open Relation (ReflTransGen)

theorem inTree_iff (h : DIRTREE.Inv fsxp {fsxp.rootInum} A K m ams) (hK : K fsxp.rootInum = true) :
    InTree fsxp m i b ↔ i ∈ A ∧ K i = b := by
  constructor
  · intro ht
    induction ht with
    | root => exact ⟨h.forest.root_mem (Multiset.mem_singleton_self _), hK⟩
    | entry _ he ih =>
      obtain ⟨hd, hKd⟩ := ih
      exact ⟨h.forest.child_mem hd (DIRTREE.edge_of_mem hKd he), (h.flag _ hd hKd _ _ _ he).symm⟩
  · rintro ⟨hi, rfl⟩
    obtain ⟨r, hr, hpath⟩ := h.forest.reach i hi
    obtain rfl := Multiset.mem_singleton.1 hr
    have hroot := h.forest.root_mem hr
    induction hpath with
    | refl =>
      rw [hK]
      exact .root
    | @tail v w hv hw ih =>
      have hvA := h.forest.reach_mem hroot hv
      have hKv : K v = true := by
        by_contra hne
        rw [Edge, DIRTREE.children, if_neg hne] at hw
        exact Multiset.notMem_zero w hw
      rw [Edge, DIRTREE.children_of_dir hKv, Multiset.mem_coe, List.mem_map] at hw
      obtain ⟨⟨name, i', b'⟩, he, rfl⟩ := hw
      have hb := h.flag v hvA hKv _ _ _ he
      have ih := ih hvA
      rw [hKv] at ih
      rw [← hb]
      exact .entry ih he

/-! ### Between two calls -/

/-- What holds between two calls: no transaction is active, the addresses of the pending ones are in
the data section, the inodes in use form a tree, every block is free or in one file, the caches
agree with the disk, and the blocks that have been written past the log are dirty. -/
structure Ok (n : ℕ) (fsxp : FsXparams) (A : Finset ℕ) (K : ℕ → Bool) (L : LogSt)
    (ams : MemState) : Prop where
  txn : L.txn = ∅
  pend : ∀ t ∈ L.pend, ∀ e ∈ t, e.1 ≠ 0 ∧ e.1 < n
  tree : DIRTREE.Inv fsxp {fsxp.rootInum} A K L.disk.cur ams
  root : K fsxp.rootInum = true
  total : BFILE.total fsxp L.disk.cur ams = BFILE.allBlocks fsxp
  coh : BFILE.Coherent fsxp L.disk.cur ams.msAllocC
  tight : BFILE.Tight fsxp L.disk.cur
  dirty : ∀ j < INODE.ninodes fsxp.inode, ∀ a ∈ BFILE.blocks fsxp L.disk.cur j,
    a ∉ BFILE.getDirty j ams.msDBlocks → L.disk.SyncedAt a

theorem New.ok {xp : LogXparams} (h : New fsxp xp L ams) :
    Ok n fsxp {fsxp.rootInum} (Function.update (fun _ => false) fsxp.rootInum true) L ams where
  txn := h.txn
  pend := by
    rw [h.pend]
    exact fun t ht => absurd ht List.not_mem_nil
  tree := h.tree
  root := Function.update_self ..
  total := h.total
  coh := h.coh
  tight := h.tight
  dirty := by
    intro j hj a ha
    have hfile : BFILE.file fsxp L.disk.cur j = DIRTREE.bfile0 := by
      by_cases hjr : j = fsxp.rootInum
      · rw [hjr, h.root]
      · exact h.tree.free j hj (by simpa using hjr)
    have hlen := BFILE.length_data fsxp L.disk.cur j
    rw [hfile] at hlen
    rw [List.eq_nil_of_length_eq_zero hlen.symm] at ha
    exact absurd ha List.not_mem_nil

/-! ### What a call can do -/

/-- The effects that a call can have: it reads, one more transaction is pending, a block of a file is
written past the log, the blocks of a file are synced, the log is flushed, or all blocks are
synced. -/
inductive Effect (n : ℕ) (fsxp : FsXparams) (A : Finset ℕ) (K : ℕ → Bool) (L : LogSt)
    (ams : MemState) : Finset ℕ → (ℕ → Bool) → LogSt → MemState → Prop
  | idle {S : Set ℕ} {L' : LogSt} {ams' : MemState} (hL : Flushed L L')
      (hinv : DIRTREE.Inv fsxp {fsxp.rootInum} A K L.disk.cur ams')
      (hmv : BFILE.Moves fsxp S L.disk.cur ams L.disk.cur ams') : Effect n fsxp A K L ams A K L' ams'
  | logged {A' : Finset ℕ} {K' : ℕ → Bool} {S : Set ℕ} {t : Valumap} {L' : LogSt} {ams' : MemState}
      (hL : Flushed (L.push t) L') (ht : Txn.InRange n t)
      (hinv : DIRTREE.Inv fsxp {fsxp.rootInum} A' K' (L.push t).disk.cur ams')
      (hmv : BFILE.Moves fsxp S L.disk.cur ams (L.push t).disk.cur ams')
      (hK : ∀ j, K' j ≠ K j → j ∉ A ∧ (BFILE.file fsxp (L.push t).disk.cur j).data = []) :
      Effect n fsxp A K L ams A' K' L' ams'
  | direct {i a : ℕ} {v : Valu} {c : INODE.Cache} (hi : i ∈ A) (hKi : K i = false)
      (ha : a ∈ BFILE.blocks fsxp L.disk.cur i)
      (hinv : DIRTREE.Inv fsxp {fsxp.rootInum} A K (L.dwrite a v).disk.cur (dwritten i a c ams))
      (hmv : BFILE.Moves fsxp {i} L.disk.cur ams (L.dwrite a v).disk.cur (dwritten i a c ams)) :
      Effect n fsxp A K L ams A K (L.dwrite a v) (dwritten i a c ams)
  | synced (i : ℕ) : Effect n fsxp A K L ams A K
      (L.dsyncVecs (BFILE.getDirty i ams.msDBlocks).toList)
      { ams with msDBlocks := BFILE.clearDirty i ams.msDBlocks }
  | flushed : Effect n fsxp A K L ams A K L.flushall { ams with msAlloc := !ams.msAlloc }
  | unmounted : Effect n fsxp A K L ams A K L.flushall.syncCache { ams with msAlloc := !ams.msAlloc }

theorem pend_flushed (h : Flushed L L') (hp : ∀ t ∈ L.pend, ∀ e ∈ t, e.1 ≠ 0 ∧ e.1 < n) :
    ∀ t ∈ L'.pend, ∀ e ∈ t, e.1 ≠ 0 ∧ e.1 < n := by
  cases h with
  | same => exact hp
  | flushed => exact fun t ht => absurd ht List.not_mem_nil

/-- Files and free blocks do not depend on which allocator is used for growing or on what is
dirty. -/
theorem inv_withAlloc {S : Multiset ℕ} (h : DIRTREE.Inv fsxp S A K m ams) (b : Bool)
    (db : AddrMap AddrSet) :
    DIRTREE.Inv fsxp S A K m { ams with msAlloc := b, msDBlocks := db } :=
  ⟨⟨h.inv.icache, h.inv.len, h.inv.own⟩, h.inodes, h.icoh, h.dir, h.flag, h.cache, h.free, h.forest⟩

/-- A block that a transaction leaves clean was clean before, and is durable if it was. -/
theorem dirty_push {S : Set ℕ} {t : Valumap}
    (hmv : BFILE.Moves fsxp S L.disk.cur ams (L.push t).disk.cur ams')
    (h : ∀ j < INODE.ninodes fsxp.inode, ∀ a ∈ BFILE.blocks fsxp L.disk.cur j,
      a ∉ BFILE.getDirty j ams.msDBlocks → L.disk.SyncedAt a) :
    ∀ j < INODE.ninodes fsxp.inode, ∀ a ∈ BFILE.blocks fsxp (L.push t).disk.cur j,
      a ∉ BFILE.getDirty j ams'.msDBlocks → (L.push t).disk.SyncedAt a := by
  intro j hj a ha hd
  obtain ⟨ha₀, hd₀⟩ := hmv.dirty j hj a ha hd
  rw [LogSt.disk_push]
  exact (h j hj a ha₀ hd₀).install t

/-- A direct write makes its block dirty. -/
theorem dirty_dwrite {a : ℕ} {v : Valu} {c : INODE.Cache} (h : Ok n fsxp A K L ams) (hi : i ∈ A)
    (ha : a ∈ BFILE.blocks fsxp L.disk.cur i)
    (hmv : BFILE.Moves fsxp {i} L.disk.cur ams (L.dwrite a v).disk.cur (dwritten i a c ams)) :
    ∀ j < INODE.ninodes fsxp.inode, ∀ a' ∈ BFILE.blocks fsxp (L.dwrite a v).disk.cur j,
      a' ∉ BFILE.getDirty j (dwritten i a c ams).msDBlocks → (L.dwrite a v).disk.SyncedAt a' := by
  intro j hj a' ha' hd
  obtain ⟨ha₀, hd₀⟩ := hmv.dirty j hj a' ha' hd
  apply LogSt.syncedAt_dwrite _ (h.dirty j hj a' ha₀ hd₀)
  rintro rfl
  rcases eq_or_ne j i with rfl | hji
  · apply hd
    change a' ∈ BFILE.getDirty j (BFILE.putDirty j a' ams.msDBlocks)
    rw [BFILE.getDirty_putDirty, if_pos rfl]
    exact Std.ExtTreeSet.mem_insert_self
  · exact h.tree.inv.not_mem (b := true) (h.tree.lt hi) hj hji (Multiset.mem_add.2 (.inr ha₀))
      (Multiset.mem_add.2 (.inl (Multiset.mem_add.2 (.inr ha))))

/-- Every effect keeps what holds between two calls. -/
theorem Effect.ok (he : Effect n fsxp A K L ams A' K' L' ams') (h : Ok n fsxp A K L ams) :
    Ok n fsxp A' K' L' ams' := by
  cases he with
  | idle hL hinv hmv =>
    refine ⟨?_, pend_flushed hL h.pend, ?_, h.root, ?_, ?_, ?_, ?_⟩
    · rw [hL.txn, h.txn]
    · rw [hL.disk]
      exact hinv
    · rw [hL.disk, hmv.total, h.total]
    · rw [hL.disk]
      exact hmv.coh h.coh
    · rw [hL.disk]
      exact h.tight
    · rw [hL.disk]
      intro j hj a ha hd
      obtain ⟨ha₀, hd₀⟩ := hmv.dirty j hj a ha hd
      exact h.dirty j hj a ha₀ hd₀
  | @logged _ _ _ t _ _ hL ht hinv hmv hK =>
    have hroot := h.tree.forest.root_mem (Multiset.mem_singleton_self _)
    refine ⟨hL.txn, pend_flushed hL ?_, ?_, ?_, ?_, ?_, ?_, ?_⟩
    · intro l hl
      rcases List.mem_append.1 hl with hl | hl
      · exact h.pend l hl
      · obtain rfl := List.mem_singleton.1 hl
        exact ht
    · rw [hL.disk]
      exact hinv
    · by_contra hne
      exact (hK _ fun heq => hne (heq.trans h.root)).1 hroot
    · rw [hL.disk, hmv.total, h.total]
    · rw [hL.disk]
      exact hmv.coh h.coh
    · rw [hL.disk]
      exact hmv.tight h.tight
    · rw [hL.disk]
      exact dirty_push hmv h.dirty
  | direct hi hKi ha hinv hmv =>
    refine ⟨?_, ?_, hinv, h.root, hmv.total.trans h.total, hmv.coh h.coh,
      hmv.tight h.tight, dirty_dwrite h hi ha hmv⟩
    · rw [LogSt.dwrite]
      split_ifs
      all_goals
        change L.txn.erase _ = ∅
        rw [h.txn]
        ext
        simp
    · rw [LogSt.dwrite]
      split_ifs
      · exact fun t ht => absurd ht List.not_mem_nil
      · exact h.pend
  | synced i =>
    refine ⟨h.txn, h.pend, ?_, h.root, ?_, ?_, ?_, ?_⟩
    · rw [LogSt.disk_dsyncVecs_cur]
      exact inv_withAlloc h.tree ams.msAlloc _
    · rw [LogSt.disk_dsyncVecs_cur]
      exact h.total
    · rw [LogSt.disk_dsyncVecs_cur]
      exact h.coh
    · rw [LogSt.disk_dsyncVecs_cur]
      exact h.tight
    · rw [LogSt.disk_dsyncVecs_cur]
      intro j hj a ha hd
      apply LogSt.syncedAt_dsyncVecs
      rw [BFILE.getDirty_clearDirty] at hd
      split_ifs at hd with hji
      · by_cases hda : a ∈ BFILE.getDirty i ams.msDBlocks
        · exact .inr (Std.ExtTreeSet.mem_toList.2 hda)
        · exact .inl (h.dirty j hj a ha (hji ▸ hda))
      · exact .inl (h.dirty j hj a ha hd)
  | flushed =>
    exact ⟨h.txn, fun t ht => absurd ht List.not_mem_nil, inv_withAlloc h.tree _ ams.msDBlocks,
      h.root, h.total, h.coh, h.tight, h.dirty⟩
  | unmounted =>
    refine ⟨h.txn, fun t ht => absurd ht List.not_mem_nil, ?_, h.root, ?_, ?_, ?_, ?_⟩
    · rw [LogSt.disk_syncCache_cur]
      exact inv_withAlloc h.tree _ ams.msDBlocks
    · rw [LogSt.disk_syncCache_cur]
      exact h.total
    · rw [LogSt.disk_syncCache_cur]
      exact h.coh
    · rw [LogSt.disk_syncCache_cur]
      exact h.tight
    · exact fun _ _ a _ _ => L.flushall.syncedAt_syncCache a

/-! ### The calls have these effects -/

/-- The call is on a file or a directory of the tree, and on a block that the file has. -/
def Call.Valid (fsxp : FsXparams) (m : Mem) : Call → Prop
  | .fileGetAttr inum => ∃ b, InTree fsxp m inum b
  | .fileGetSz inum => ∃ b, InTree fsxp m inum b
  | .readFblock inum off => InTree fsxp m inum false ∧ off < (BFILE.blocks fsxp m inum).length
  | .lookup dnum _ => InTree fsxp m dnum true
  | .readdir dnum => InTree fsxp m dnum true
  | .statfs => True
  | .fileSetAttr inum _ => InTree fsxp m inum false
  | .fileTruncate inum _ => InTree fsxp m inum false
  | .create dnum _ => InTree fsxp m dnum true
  | .delete dnum _ => InTree fsxp m dnum true
  | .rename dnum _ _ _ _ => InTree fsxp m dnum true
  | .fileSetSz inum _ => InTree fsxp m inum false
  | .mksock dnum _ => InTree fsxp m dnum true
  | .mkdir dnum _ => InTree fsxp m dnum true
  | .ftruncate inum _ => InTree fsxp m inum false
  | .updateFblock inum off _ => InTree fsxp m inum false ∧ off < (BFILE.blocks fsxp m inum).length
  | .updateFblockD inum off _ => InTree fsxp m inum false ∧ off < (BFILE.blocks fsxp m inum).length
  | .fileSync _ => True
  | .treeSync => True
  | .umount => True

/-- The call rolls back what it has done when it fails: not one of those that keep their caches. -/
def Call.Clean : Call → Res Unit → Prop
  | .mksock _ _, r => r = .ok ()
  | .mkdir _ _, r => r = .ok ()
  | .ftruncate _ _, _ => False
  | _, _ => True

/-- What is on disk and what is pending is as after an effect. -/
def Within (n : ℕ) (fsxp : FsXparams) (A : Finset ℕ) (K : ℕ → Bool) (L : LogSt) (ams : MemState)
    (base : ADisk) (pend : List PaddedLog.Contents) : Prop :=
  ∃ A' K' L' ams', Effect n fsxp A K L ams A' K' L' ams' ∧ L'.base = base ∧ L'.pend = pend

/-- What a transaction may do to the files. -/
structure Changes (fsxp : FsXparams) (A : Finset ℕ) (K : ℕ → Bool) (m : Mem) (ams : MemState)
    (m' : Mem) (ams' : MemState) (A' : Finset ℕ) (K' : ℕ → Bool) (S : Set ℕ) : Prop where
  inv : DIRTREE.Inv fsxp {fsxp.rootInum} A' K' m' ams'
  moves : BFILE.Moves fsxp S m ams m' ams'
  kind : ∀ j, K' j ≠ K j → j ∉ A ∧ (BFILE.file fsxp m' j).data = []

theorem Changes.of_kind {S : Set ℕ} (hinv : DIRTREE.Inv fsxp {fsxp.rootInum} A' K m' ams')
    (hmv : BFILE.Moves fsxp S m ams m' ams') : Changes fsxp A K m ams m' ams' A' K S :=
  ⟨hinv, hmv, fun _ hne => absurd rfl hne⟩

theorem disk_push_of_logs {α : Type} {p : TxnProg α} {t : Valumap} (ht : Txn.Logs p L t m) :
    (L.push t).disk.cur = m := by
  rw [LogSt.disk_push]
  exact ht.read

section

variable {α : Type} {xp : LogXparams} (h : Ok n fsxp A K L ams)

include h

theorem Ok.refl (hL : Flushed L L') : Effect n fsxp A K L ams A K L' ams :=
  .idle (S := ∅) hL h.tree (BFILE.Step.refl fsxp ∅ L.disk.cur ams).toMoves

theorem Ok.within : Within n fsxp A K L ams L.base L.pend := ⟨A, K, L, ams, h.refl .same, rfl, rfl⟩

omit h in
theorem Effect.logged_of_logs {p : TxnProg α} {S : Set ℕ} {t : Valumap}
    (hch : Changes fsxp A K L.disk.cur ams m ams' A' K' S) (ht : Txn.Logs p L t m)
    (hr : Txn.InRange n t) (hL : Flushed (L.push t) L') : Effect n fsxp A K L ams A' K' L' ams' := by
  obtain ⟨hinv, hmv, hK⟩ := hch
  rw [← disk_push_of_logs ht] at hinv hmv hK
  exact .logged hL hr hinv hmv hK

theorem wp_readonly_effect {p : MemState → TxnProg (MemState × α)}
    (hp : Txn.wp n (p ams) (fun r m => m = L.disk.cur ∧
      DIRTREE.Inv fsxp {fsxp.rootInum} A K L.disk.cur r.1 ∧
      ∃ S, BFILE.Moves fsxp S L.disk.cur ams L.disk.cur r.1) L.disk.cur) :
    LogProg.wp n xp (readonly p ams) (fun r L' => Effect n fsxp A K L ams A K L' r.1)
      (crashIn (Within n fsxp A K L ams)) L := by
  apply wp_readonly h.txn h.within
  apply Txn.wp_post hp
  rintro r m ⟨-, hinv, S, hmv⟩
  exact .idle .same hinv hmv

variable [Platform]

theorem wp_transact_effect {p : MemState → TxnProg (MemState × Res α)}
    (hp : Txn.wp n (p ams) (fun r m => ∀ v, r.2 = .ok v →
      ∃ A' K' S, Changes fsxp A K L.disk.cur ams m r.1 A' K' S) L.disk.cur) :
    LogProg.wp n xp (transact p ams) (fun r L' => ∃ A' K', Effect n fsxp A K L ams A' K' L' r.1)
      (crashIn (Within n fsxp A K L ams)) L := by
  apply wp_transact h.txn h.within
  apply Txn.wp_post hp
  intro r m hch
  refine ⟨fun e _ => ⟨A, K, h.refl .same⟩, ?_⟩
  intro v hv t ht hr
  obtain ⟨A', K', S, hch⟩ := hch v hv
  have heff : ∀ L', Flushed (L.push t) L' → Effect n fsxp A K L ams A' K' L' r.1 :=
    fun L' => Effect.logged_of_logs hch ht hr
  exact ⟨⟨A', K', _, _, heff _ .same, rfl, rfl⟩, fun _ L' hL => ⟨A', K', heff L' hL⟩,
    fun _ L' hL => ⟨A, K, h.refl hL⟩⟩

/-- Whether a transaction fits into the log depends on the number of blocks that it writes. -/
theorem wp_transact_size {p : MemState → TxnProg (MemState × Res α)}
    {Q : MemState × Res α → LogSt → Prop}
    (hp : Txn.wp n (p ams) (fun r m => (∀ e, r.2 = .error e → Q (ams, .error e) L) ∧
      ∀ v, r.2 = .ok v →
        (∃ A' K' S, Changes fsxp A K L.disk.cur ams m r.1 A' K' S ∧
          (Txn.size (p ams) L.disk.cur ≤ xp.logLen → ∀ L', Ok n fsxp A' K' L' r.1 →
            L'.disk.cur = m → Q (r.1, .ok v) L')) ∧
        (xp.logLen < Txn.size (p ams) L.disk.cur → ∀ L', L'.disk = L.disk →
          Q (ams, .error .ELOGOVERFLOW) L')) L.disk.cur) :
    LogProg.wp n xp (transact p ams) Q (crashIn fun _ _ => True) L := by
  apply wp_transact h.txn trivial
  apply Txn.wp_post hp
  rintro r m ⟨hQe, hQ⟩
  refine ⟨hQe, fun v hv t ht htr => ?_⟩
  have hlen := ht.length_eq h.txn
  rw [L.read_of_txn h.txn] at hlen
  rw [hlen]
  obtain ⟨⟨A', K', S, hch, hQ₁⟩, hQ₀⟩ := hQ v hv
  refine ⟨trivial, fun hle L' hL => ?_, fun hlt L' hL => hQ₀ hlt L' hL.disk⟩
  apply hQ₁ hle L' ((Effect.logged_of_logs hch ht htr hL).ok h)
  rw [hL.disk, disk_push_of_logs ht]

theorem wp_rebind_effect {p : MemState → TxnProg (MemState × Res α)}
    (hp : Txn.wp n (p ams) (fun r m => ∀ v, r.2 = .ok v →
      ∃ A' K' S, Changes fsxp A K L.disk.cur ams m r.1 A' K' S) L.disk.cur) :
    LogProg.wp n xp (rebind p ams)
      (fun r L' => r.2.map (fun _ => ()) = .ok () →
        ∃ A' K', Effect n fsxp A K L ams A' K' L' r.1)
      (crashIn (Within n fsxp A K L ams)) L := by
  apply wp_rebind h.txn h.within
  apply Txn.wp_post hp
  intro r m hch
  refine ⟨fun e _ he => (nomatch he), fun v hv t ht hr => ?_⟩
  obtain ⟨A', K', S, hch⟩ := hch v hv
  have heff : ∀ L', Flushed (L.push t) L' → Effect n fsxp A K L ams A' K' L' r.1 :=
    fun L' => Effect.logged_of_logs hch ht hr
  exact ⟨⟨A', K', _, _, heff _ .same, rfl, rfl⟩, fun L' hL _ => ⟨A', K', heff L' hL⟩,
    fun _ L' _ he => (nomatch he)⟩

omit h [Platform] in
theorem kind_update {j : ℕ} (hi : i ∉ A) (hf : (BFILE.file fsxp m i).data = [])
    (hne : Function.update K i b j ≠ K j) : j ∉ A ∧ (BFILE.file fsxp m j).data = [] := by
  rcases eq_or_ne j i with rfl | hji
  · exact ⟨hi, hf⟩
  · exact absurd (Function.update_of_ne hji b K) hne

omit [Platform] in
theorem wp_mknod_effect (hx : fsxp.Ok n) {name : Sname} (hd : d ∈ A) (hK : K d = true) :
    Txn.wp n (DIRTREE.mknod fsxp b d name ams) (fun r m => ∀ v, r.2 = .ok v →
      ∃ A' K' S, Changes fsxp A K L.disk.cur ams m r.1 A' K' S) L.disk.cur := by
  apply DIRTREE.wp_mknod hx h.tree hd hK
  · exact fun _ v hv => nomatch hv
  · exact fun _ _ ms' m' e v hv => nomatch hv
  · intro ms' m' i hi hinv hmv _ hf v _
    exact ⟨_, _, _, hinv, hmv, fun j => kind_update hi (by rw [hf]; rfl)⟩

omit [Platform] in
theorem wp_delete_effect (hx : fsxp.Ok n) {name : Sname} (hd : d ∈ A) (hK : K d = true) :
    Txn.wp n (DIRTREE.delete fsxp d name ams) (fun r m => ∀ v, r.2 = .ok v →
      ∃ A' K' S, Changes fsxp A K L.disk.cur ams m r.1 A' K' S) L.disk.cur := by
  apply DIRTREE.wp_delete hx h.tree hd hK
  · exact fun _ ms' m' v hv => nomatch hv
  · exact fun i _ _ ms' m' v hv => nomatch hv
  · exact fun ms' m' i b hinv hdel v _ => ⟨A.erase i, K, _, .of_kind hinv hdel.moves⟩

omit [Platform] in
theorem wp_rename_effect (hx : fsxp.Ok n) {srcpath dstpath : List Sname} {srcname dstname : Sname}
    (hd : d ∈ A) (hK : K d = true) :
    Txn.wp n (DIRTREE.rename fsxp d srcpath srcname dstpath dstname ams)
      (fun r m => ∀ v, r.2 = .ok v →
        ∃ A' K' S, Changes fsxp A K L.disk.cur ams m r.1 A' K' S) L.disk.cur := by
  apply Txn.wp_post (DIRTREE.wp_rename hx h.tree hd hK)
  intro r m hren v hv
  obtain ⟨A', -, hinv, hmv⟩ := hren.moves h.tree hd hK hv
  exact ⟨A', K, _, .of_kind hinv hmv⟩

omit [Platform] in
theorem wp_truncate_effect (hx : fsxp.Ok n) {sz : ℕ} (hi : i ∈ A) (hK : K i = false) :
    Txn.wp n (DIRTREE.truncate fsxp i sz ams) (fun r m => ∀ v, r.2 = .ok v →
      ∃ A' K' S, Changes fsxp A K L.disk.cur ams m r.1 A' K' S) L.disk.cur := by
  apply DIRTREE.wp_truncate hx h.tree hi hK
  · exact fun _ _ ms' m' e v hv => nomatch hv
  · exact fun ms' m' hinv hmv _ v _ => ⟨A, K, _, .of_kind hinv hmv⟩

omit [Platform] in
theorem wp_updateFblockD_effect (hx : fsxp.Ok n) {off : ℕ} {v : Valu} (hi : i ∈ A)
    (hK : K i = false) (ho : off < (BFILE.blocks fsxp L.disk.cur i).length) :
    LogProg.wp n xp (updateFblockD fsxp i off v ams)
      (fun ams' L' => Effect n fsxp A K L ams A K L' ams')
      (crashIn (Within n fsxp A K L ams)) L := by
  apply wp_updateFblockD hx h.txn h.tree hi hK ho h.within
  intro a c ha hinv hmv _
  have hcur : (L.dwrite a v).disk.cur = Function.update L.disk.cur a v := by
    rw [LogSt.disk_dwrite]
    rfl
  rw [← hcur] at hinv hmv
  have heff : Effect n fsxp A K L ams A K (L.dwrite a v) (dwritten i a c ams) :=
    .direct hi hK (ha ▸ List.getElem_mem ho) hinv hmv
  exact ⟨⟨A, K, _, _, heff, rfl, rfl⟩, heff⟩

omit [Platform] in
theorem wp_fileSync_effect : LogProg.wp n xp (fileSync i ams)
    (fun ams' L' => Effect n fsxp A K L ams A K L' ams') (crashIn (Within n fsxp A K L ams)) L :=
  wp_fileSync h.txn h.within ⟨A, K, _, _, .synced i, rfl, rfl⟩ (.synced i)

omit [Platform] in
theorem wp_treeSync_effect : LogProg.wp n xp (treeSync ams)
    (fun ams' L' => Effect n fsxp A K L ams A K L' ams') (crashIn (Within n fsxp A K L ams)) L :=
  wp_treeSync h.within .flushed

theorem wp_mksock_effect (hx : fsxp.Ok n) {name : Sname} (hd : d ∈ A) (hK : K d = true) :
    LogProg.wp n xp (mksock fsxp d name ams)
      (fun r L' => r.2.map (fun _ => ()) = .ok () →
        ∃ A' K', Effect n fsxp A K L ams A' K' L' r.1)
      (crashIn (Within n fsxp A K L ams)) L := by
  apply wp_rebind_effect h
  apply wp_bind
  apply DIRTREE.wp_mknod hx h.tree hd hK
  · exact fun _ => wp_pure fun v hv => nomatch hv
  · exact fun _ _ ms' m' e => wp_pure fun v hv => nomatch hv
  · intro ms' m' i hi hinv hmv _ hf
    apply wp_bind
    apply DIRTREE.wp_updattr hx hinv (Finset.mem_insert_self i A) (Function.update_self ..)
    intro ms₂ m₂ hinv₂ hmv₂ hf₂
    apply wp_pure
    intro v _
    have hisub : {i} ⊆ DIRTREE.touched A K := Set.singleton_subset_iff.2 (.inr hi)
    refine ⟨_, _, _, hinv₂, hmv.trans_self h.tree.inv (hmv₂.mono hisub), fun j => kind_update hi ?_⟩
    rw [hf₂, hf]
    rfl

/-- Every call on the tree has an effect, and the machine can only crash in a state that an effect
leads to. -/
theorem wp_call (hx : fsxp.Ok n) (hlog : 0 < xp.logLen) {c : Call}
    (hv : c.Valid fsxp L.disk.cur) (hc : ∀ i sz, c ≠ .ftruncate i sz) :
    LogProg.wp n xp (c.exec fsxp ams)
      (fun r L' => c.Clean r.2 → ∃ A' K', Effect n fsxp A K L ams A' K' L' r.1)
      (crashIn (Within n fsxp A K L ams)) L := by
  have htree : ∀ {i b}, InTree fsxp L.disk.cur i b → i ∈ A ∧ K i = b := (inTree_iff h.tree h.root).1
  have hcache : ∀ c, BFILE.Moves fsxp ∅ L.disk.cur ams L.disk.cur { ams with msICache := c } :=
    fun c => (BFILE.Step.withICache fsxp ∅ L.disk.cur ams c).toMoves
  have hlen : ∀ {i off}, off < (BFILE.blocks fsxp L.disk.cur i).length →
      off < (BFILE.file fsxp L.disk.cur i).data.length := fun ho => by
    rwa [BFILE.length_data]
  cases c with
  | fileGetAttr inum =>
    obtain ⟨b, hb⟩ := hv
    apply wp_seq (wp_readonly_effect h _) fun r L' he => wp_pure fun _ => ⟨A, K, he⟩
    exact DIRTREE.wp_getattr hx h.tree (htree hb).1 fun c hinv => ⟨rfl, hinv, ∅, hcache c⟩
  | fileGetSz inum =>
    obtain ⟨b, hb⟩ := hv
    apply wp_seq (wp_seq (wp_readonly_effect h _) fun r L' he => wp_pure he)
      fun r L' he => wp_pure fun _ => ⟨A, K, he⟩
    exact DIRTREE.wp_getattr hx h.tree (htree hb).1 fun c hinv => ⟨rfl, hinv, ∅, hcache c⟩
  | readFblock inum off =>
    obtain ⟨hi, ho⟩ := hv
    apply wp_seq (wp_readonly_effect h _) fun r L' he => wp_pure fun _ => ⟨A, K, he⟩
    exact DIRTREE.wp_read hx h.tree (htree hi).1 (hlen ho)
      fun c hinv => ⟨rfl, hinv, ∅, hcache c⟩
  | lookup dnum names =>
    obtain ⟨hd, hK⟩ := htree hv
    apply wp_seq (wp_readonly_effect h _) fun r L' he => wp_pure fun _ => ⟨A, K, he⟩
    exact DIRTREE.wp_namei hx h.tree hd hK fun ms' r hinv hmv _ _ _ => ⟨rfl, hinv, _, hmv⟩
  | readdir dnum =>
    apply wp_seq (wp_readonly_effect h _) fun r L' he => wp_pure fun _ => ⟨A, K, he⟩
    exact DIRTREE.wp_readdir hx h.tree (htree hv).1 fun c hinv => ⟨rfl, hinv, ∅, hcache c⟩
  | statfs =>
    have hw := h.within
    refine wp_bind (wp_bind (LogProg.wp_begin hw (wp_bind (LogProg.wp_abort hw
      (wp_pure (wp_pure fun _ => ⟨A, K, h.refl ?_⟩))))))
    rw [abort_txn h.txn L.txn]
    exact .same
  | fileSetAttr inum attr =>
    obtain ⟨hi, hK⟩ := htree hv
    apply wp_mono (wp_transact_effect h _) (fun r L' he _ => he) fun _ => id
    apply wp_bind
    apply DIRTREE.wp_setattr hx h.tree hi hK
    exact fun ms' m' hinv hmv _ => wp_pure fun v _ => ⟨A, K, _, .of_kind hinv hmv⟩
  | fileTruncate inum sz =>
    obtain ⟨hi, hK⟩ := htree hv
    exact wp_mono (wp_transact_effect h (wp_truncate_effect h hx hi hK)) (fun r L' he _ => he)
      fun _ => id
  | create dnum name =>
    obtain ⟨hd, hK⟩ := htree hv
    exact wp_seq (wp_transact_effect h (wp_mknod_effect h hx hd hK))
      fun r L' he => wp_pure fun _ => he
  | delete dnum name =>
    obtain ⟨hd, hK⟩ := htree hv
    exact wp_mono (wp_transact_effect h (wp_delete_effect h hx hd hK)) (fun r L' he _ => he)
      fun _ => id
  | rename dnum srcpath srcname dstpath dstname =>
    obtain ⟨hd, hK⟩ := htree hv
    exact wp_mono (wp_transact_effect h (wp_rename_effect h hx hd hK)) (fun r L' he _ => he)
      fun _ => id
  | fileSetSz inum sz =>
    obtain ⟨hi, hK⟩ := htree hv
    apply wp_fileSetSz h.txn h.within hlog
    apply DIRTREE.wp_updattr hx h.tree hi hK
    intro ms' m' hinv hmv _ t ht hr
    have heff : ∀ L', Flushed (L.push t) L' → Effect n fsxp A K L ams A K L' ms' :=
      fun L' => Effect.logged_of_logs (.of_kind hinv hmv) ht hr
    exact ⟨⟨A, K, _, _, heff _ .same, rfl, rfl⟩, fun L' hL _ => ⟨A, K, heff L' hL⟩⟩
  | mksock dnum name =>
    obtain ⟨hd, hK⟩ := htree hv
    exact wp_seq (wp_mksock_effect h hx hd hK) fun r L' he => wp_pure he
  | mkdir dnum name =>
    obtain ⟨hd, hK⟩ := htree hv
    exact wp_seq (wp_rebind_effect h (wp_mknod_effect h hx hd hK)) fun r L' he => wp_pure he
  | ftruncate inum sz => exact absurd rfl (hc inum sz)
  | updateFblock inum off v =>
    obtain ⟨hi, ho⟩ := hv
    obtain ⟨hi, hK⟩ := htree hi
    apply wp_bind
    apply wp_updateFblock h.txn h.within hlog
    apply DIRTREE.wp_write hx h.tree hi hK (hlen ho)
    intro ms' m' hinv hmv _ t ht hr
    have heff : ∀ L', Flushed (L.push t) L' → Effect n fsxp A K L ams A K L' ms' :=
      fun L' => Effect.logged_of_logs (.of_kind hinv hmv) ht hr
    exact ⟨⟨A, K, _, _, heff _ .same, rfl, rfl⟩, fun L' hL => wp_pure fun _ => ⟨A, K, heff L' hL⟩⟩
  | updateFblockD inum off v =>
    obtain ⟨hi, ho⟩ := hv
    obtain ⟨hi, hK⟩ := htree hi
    exact wp_seq (wp_updateFblockD_effect h hx hi hK ho)
      fun ams' L' he => wp_pure fun _ => ⟨A, K, he⟩
  | fileSync inum =>
    exact wp_seq (wp_fileSync_effect h) fun ams' L' he => wp_pure fun _ => ⟨A, K, he⟩
  | treeSync =>
    exact wp_seq (wp_treeSync_effect h) fun ams' L' he => wp_pure fun _ => ⟨A, K, he⟩
  | umount =>
    apply wp_bind
    exact wp_umount h.within ⟨A, K, _, _, .flushed, rfl, rfl⟩
      (wp_pure fun _ => ⟨A, K, .unmounted⟩)

end

/-! ### A new entry -/

section

variable [Platform] {xp : LogXparams} {d : ℕ} {b : Bool}

/-- An entry can be made in a directory that has room for it, if there is a free inode. -/
theorem wp_mknod_new (h : Ok n fsxp A K L ams) (hx : fsxp.Ok n) (hlog : 10 ≤ xp.logLen)
    {name : Sname} (hd : d ∈ A) (hK : K d = true)
    (hl : IAlloc.freeList L.disk.cur fsxp ams.msIAllocC ≠ [])
    (hcan : CacheOneDir.CanLink fsxp L.disk.cur ams d name) :
    LogProg.wp n xp (transact (DIRTREE.mknod fsxp b d name) ams) (fun r L' => ∃ i,
      r.2 = .ok i ∧ i ∉ A ∧
      Ok n fsxp (insert i A) (Function.update K i b) L' r.1 ∧
      (SDIR.dents (BFILE.file fsxp L'.disk.cur d)).Perm
        ((name, i, b) :: SDIR.dents (BFILE.file fsxp L.disk.cur d)) ∧
      BFILE.file fsxp L'.disk.cur i = DIRTREE.bfile0 ∧
      BFILE.Moves fsxp (DIRTREE.touched A K) L.disk.cur ams L'.disk.cur r.1)
      (crashIn (Within n fsxp A K L ams)) L := by
  apply wp_transact h.txn h.within
  apply DIRTREE.wp_mknod hx h.tree hd hK
  · exact fun hnil => absurd hnil hl
  · exact fun _ hlack => absurd hcan hlack
  · intro ms' m' i hi hinv hmv hp hf
    refine ⟨fun _ he => (nomatch he), fun v hv t ht hr => ?_⟩
    obtain rfl : i = v := Except.ok.inj hv
    have hch : Changes fsxp A K L.disk.cur ams m' ms' (insert i A) (Function.update K i b)
        (DIRTREE.touched A K) :=
      ⟨hinv, hmv, fun j => kind_update hi (by rw [hf]; rfl)⟩
    have heff : ∀ L', Flushed (L.push t) L' →
        Effect n fsxp A K L ams (insert i A) (Function.update K i b) L' ms' :=
      fun L' => Effect.logged_of_logs hch ht hr
    refine ⟨⟨_, _, _, _, heff _ .same, rfl, rfl⟩, fun _ L' hL => ?_, fun hlen => ?_⟩
    · have hcur : L'.disk.cur = m' := by
        rw [hL.disk, disk_push_of_logs ht]
      rw [hcur]
      exact ⟨i, rfl, hi, (heff L' hL).ok h, hp, hf, hmv⟩
    · have hfits := ht.length_le h.txn (DIRTREE.atMost_mknod fsxp b d name ams)
      exact absurd (hfits.trans hlog) (Nat.not_le.2 hlen)

/-- The run of a call that makes a node in a directory that can get an entry. -/
theorem exists_mknod (h : Ok n fsxp A K L ams) (hx : fsxp.Ok n) (hlog : 10 ≤ xp.logLen)
    {name : Sname} (hd : d ∈ A) (hK : K d = true)
    (hl : IAlloc.freeList L.disk.cur fsxp ams.msIAllocC ≠ [])
    (hcan : CacheOneDir.CanLink fsxp L.disk.cur ams d name) : ∃ ams' i L',
    LogProg.run xp (transact (DIRTREE.mknod fsxp b d name) ams) L = ((ams', .ok i), L') ∧ i ∉ A ∧
    Ok n fsxp (insert i A) (Function.update K i b) L' ams' ∧
    (SDIR.dents (BFILE.file fsxp L'.disk.cur d)).Perm
      ((name, i, b) :: SDIR.dents (BFILE.file fsxp L.disk.cur d)) ∧
    BFILE.file fsxp L'.disk.cur i = DIRTREE.bfile0 ∧
    BFILE.Moves fsxp (DIRTREE.touched A K) L.disk.cur ams L'.disk.cur ams' := by
  obtain ⟨⟨ams', r⟩, L', hrun, i, rfl, hnew⟩ :=
    LogProg.exists_run (wp_mknod_new (b := b) h hx hlog hd hK hl hcan)
  exact ⟨ams', i, L', hrun, hnew⟩

omit [Platform] in
/-- The directory of a new file system can get an entry. -/
theorem New.canLink {name : Sname} (h : New fsxp xp L ams) (hname : SDIR.isValidSname name = true) :
    CacheOneDir.CanLink fsxp L.disk.cur ams fsxp.rootInum name := by
  refine ⟨hname, fun e he => ?_, .inr (BFILE.canGrow_of_direct ?_ (h.room _))⟩
  · rw [h.root] at he
    exact absurd he List.not_mem_nil
  · rw [← BFILE.length_data, h.root]
    decide

end

/-! ### Reachable states -/

/-- The states that a new file system can get into by commands that `P` allows: a command in a
state, with its answer. -/
inductive Reach [Platform] (g : Geometry) {C : Type}
    (exec : C → MemState → LogProg (MemState × Res Unit))
    (P : LogSt → MemState → C → Res Unit → Prop) : LogSt → MemState → Prop
  | mkfs {d₀ : Mem} {L : LogSt} {ams : MemState}
      (h : LogProg.run g.fsxp.log (mkfs g.fsxp) (.ofDisk d₀) = (.ok ams, L)) : Reach g exec P L ams
  | step {L L' : LogSt} {ams ams' : MemState} {c : C} {r : Res Unit} (h : Reach g exec P L ams)
      (hr : LogProg.run g.fsxp.log (exec c ams) L = ((ams', r), L')) (hP : P L ams c r) :
      Reach g exec P L' ams'

/-- A call on the tree that rolls back what it has done if it fails. -/
def CleanCall (fsxp : FsXparams) (L : LogSt) (_ams : MemState) (c : Call) (r : Res Unit) : Prop :=
  c.Valid fsxp L.disk.cur ∧ c.Clean r

section

variable [Platform] {g : Geometry} {C : Type} {exec : C → MemState → LogProg (MemState × Res Unit)}
  {P : LogSt → MemState → C → Res Unit → Prop}

theorem new_of_mkfs {d₀ : Mem}
    (h : LogProg.run g.fsxp.log (mkfs g.fsxp) (.ofDisk d₀) = (.ok ams, L)) :
    New g.fsxp g.fsxp.log L ams := by
  have hwp : LogProg.wp g.dataSize g.fsxp.log (mkfs g.fsxp)
      (fun r L' => ∀ ams', r = .ok ams' → New g.fsxp g.fsxp.log L' ams') (fun _ => True)
      (.ofDisk d₀) := by
    apply wp_mkfs g.ok.toParts rfl g.two_le_ninodes rfl
    · exact fun _ L ams' he => nomatch he
    · rintro _ ams' L' hnew _ ⟨⟩
      exact hnew
  have hrun := LogProg.wp_run hwp
  rw [h] at hrun
  exact hrun ams rfl

/-- A file system can be made when its bitmaps and inodes fit into the log. -/
theorem exists_mkfs (h : g.dataSize - g.fsxp.nblocks ≤ g.fsxp.log.logLen) (d₀ : Mem) :
    ∃ ams L, LogProg.run g.fsxp.log (mkfs g.fsxp) (.ofDisk d₀) = (.ok ams, L) := by
  have hwp : LogProg.wp g.dataSize g.fsxp.log (mkfs g.fsxp)
      (fun r _ => ∃ ams, r = .ok ams) (fun _ => True) (.ofDisk d₀) := by
    apply wp_mkfs g.ok.toParts rfl g.two_le_ninodes rfl
    · exact fun hlt => absurd ((size_mkfsTxn_le g.ok.toParts _).trans h) (Nat.not_le.2 hlt)
    · exact fun _ ams _ _ => ⟨ams, rfl⟩
  obtain ⟨ams, hams⟩ := LogProg.wp_run hwp
  exact ⟨ams, _, Prod.ext hams rfl⟩

/-- The log of a file system that has been made is not empty. -/
theorem Reach.logLen_pos (h : Reach g exec P L ams) : 0 < g.fsxp.log.logLen := by
  induction h with
  | mkfs h => exact (new_of_mkfs h).log
  | step _ _ _ ih => exact ih

theorem Reach.mono {P' : LogSt → MemState → C → Res Unit → Prop} (h : Reach g exec P L ams)
    (hP : ∀ L ams c r, P L ams c r → P' L ams c r) : Reach g exec P' L ams := by
  induction h with
  | mkfs h => exact .mkfs h
  | step _ hr hc ih => exact .step ih hr (hP _ _ _ _ hc)

/-- What holds between two calls holds in every state that is reached by commands that keep it. -/
theorem Reach.ok (hstep : ∀ A K L ams c, Ok g.dataSize g.fsxp A K L ams → 0 < g.fsxp.log.logLen →
      ∀ r L', LogProg.run g.fsxp.log (exec c ams) L = (r, L') → P L ams c r.2 →
        ∃ A' K', Ok g.dataSize g.fsxp A' K' L' r.1) (h : Reach g exec P L ams) :
    ∃ A K, Ok g.dataSize g.fsxp A K L ams := by
  induction h with
  | mkfs h => exact ⟨_, _, (new_of_mkfs h).ok⟩
  | step h hr hP ih =>
    obtain ⟨A, K, hok⟩ := ih
    exact hstep A K _ _ _ hok h.logLen_pos _ _ hr hP

/-- A clean call has an effect. -/
theorem effect_of_run {c : Call} {r : MemState × Res Unit} (hok : Ok g.dataSize g.fsxp A K L ams)
    (hlog : 0 < g.fsxp.log.logLen)
    (hr : LogProg.run g.fsxp.log (c.exec g.fsxp ams) L = (r, L'))
    (hP : CleanCall g.fsxp L ams c r.2) :
    ∃ A' K', Effect g.dataSize g.fsxp A K L ams A' K' L' r.1 := by
  have hne : ∀ i sz, c ≠ .ftruncate i sz := by
    rintro i sz rfl
    exact hP.2
  have hwp := LogProg.wp_run (wp_call hok g.ok hlog hP.1 hne)
  rw [hr] at hwp
  exact hwp hP.2

/-- It holds in every state that is reached by clean calls. -/
theorem reach_ok (h : Reach g (Call.exec g.fsxp) (CleanCall g.fsxp) L ams) :
    ∃ A K, Ok g.dataSize g.fsxp A K L ams := by
  refine h.ok fun A K L ams c hok hlog r L' hr hP => ?_
  obtain ⟨A', K', heff⟩ := effect_of_run hok hlog hr hP
  exact ⟨A', K', heff.ok hok⟩

end

end AFS

namespace Sample

/-- A small file system whose log can hold all its bitmaps and inodes. -/
def geometry : AFS.Geometry where
  dataBitmaps := 1
  inodeBitmaps := 1
  logDescrBlocks := 3
  data_pos := by decide
  inode_pos := by decide
  inode_le := by
    rw [valulen_is]
    decide
  size := by
    simp only [AFS.computeXparams, AFS.itemsPerVal_irecSig, AFS.itemsPerVal_descSig, valulen_is]
    decide

local instance runPlatform : Platform := platform

theorem exists_new (d₀ : Mem) : ∃ ams L,
    LogProg.run geometry.fsxp.log (AFS.mkfs geometry.fsxp) (.ofDisk d₀) = (.ok ams, L) := by
  apply AFS.exists_mkfs
  change MLog.dataSize (AFS.computeXparams 1 1 3 AFS.magicNumber).log - 1 * valulen ≤
    3 * PaddedLog.descSig.itemsPerVal
  rw [AFS.dataSize_computeXparams, AFS.itemsPerVal_descSig, valulen_is]
  decide

theorem ninodes_geometry : INODE.ninodes geometry.fsxp.inode = 32768 := by
  rw [← geometry.ok.inodes]
  change 1 * valulen = 32768
  rw [valulen_is]

theorem four_le_ninodes : 4 ≤ INODE.ninodes geometry.fsxp.inode := by
  rw [ninodes_geometry]
  decide

/-- The first free inode of a new file system is 2. -/
theorem freeList_new {xp : LogXparams} {L : LogSt} {ams : MemState}
    (h : AFS.New geometry.fsxp xp L ams) :
    ∃ l, IAlloc.freeList L.disk.cur geometry.fsxp ams.msIAllocC = 2 :: l := by
  obtain ⟨k, hk⟩ := Nat.exists_eq_add_of_le' four_le_ninodes
  refine ⟨List.range' 3 (k + 1), ?_⟩
  rw [h.list, hk, show k + 4 - 2 = k + 1 + 1 by omega, List.range'_succ]

theorem le_logLen_geometry : 512 ≤ geometry.fsxp.log.logLen := by
  obtain ⟨ams, L, hmk⟩ := exists_new fun _ => 0
  exact geometry.le_logLen (AFS.new_of_mkfs hmk).log

end Sample

end Fscq
