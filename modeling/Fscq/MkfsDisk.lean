import Fscq.BFileTruncate
import Fscq.CacheRun
import Fscq.DirTreeRep
import Fscq.DirTreeRun
import Fscq.LogDirect
import Fscq.SuperBlock

/-!
# Making a file system on a disk

`mkfs` writes the superblock, initialises the log and makes an empty file system in one transaction.
That transaction writes all bitmaps and all inodes, so that it needs a log of that size.
-/

namespace Fscq

open CrashProg

namespace LOG

variable [Platform] {n : ℕ} {xp : LogXparams} {cs : CacheState} {m : ADisk} {hm : Hashmap} {s : St}

theorem wp_init (hl : PaddedLog.Layout n xp) (h : CState n cs m hm s) :
    wp diskSem (init xp cs) (Initialised n xp) (fun _ => True) s := by
  refine wp_bind (wp_bind (wp_bind ?_))
  refine wp_mono (PaddedLog.wp_init_initialised hl h) (fun cs' s' h' => ?_) fun _ => id
  exact wp_pure (wp_pure (wp_pure ⟨rfl, rfl, h'⟩))

end LOG

namespace AFS

open BFILE (MemState)

open Dirtree (treeDir)

/-! ### A new file system is empty -/

/-- The root directory is inode one and has no entries, no other inode is in use, and each block but
block zero is free in one of the two bitmaps. -/
structure Empty (fsxp : FsXparams) (m : Mem) : Prop where
  rootInum : fsxp.rootInum = 1
  root : DIRTREE.Rep fsxp m (treeDir 1 [])
  inodes : ∀ i < INODE.ninodes fsxp.inode, (IAlloc.bit m fsxp i = AllocSig.avail ↔ i ≠ 1)
  files : ∀ i < INODE.ninodes fsxp.inode, BFILE.file fsxp m i = DIRTREE.bfile0
  blocks : ∀ a < fsxp.nblocks, a ≠ 0 →
    (BALLOCC.bit m fsxp.blockAlloc1 a = AllocSig.avail ↔
      BALLOCC.bit m fsxp.blockAlloc2 a = AllocSig.inuse)

section

variable [Platform] {n i : ℕ} {fsxp : FsXparams} {xp : LogXparams} {L : LogSt} {ams : MemState}

omit [Platform] in
theorem New.file_eq (h : New fsxp xp L ams) (hi : i < INODE.ninodes fsxp.inode) :
    BFILE.file fsxp L.disk.cur i = DIRTREE.bfile0 := by
  rcases eq_or_ne i fsxp.rootInum with rfl | hne
  · exact h.root
  · exact h.tree.free i hi (Finset.notMem_singleton.2 hne)

omit [Platform] in
/-- All blocks are free. -/
theorem New.freeOf_add (h : New fsxp xp L ams) :
    BFILE.freeOf fsxp L.disk.cur ams.msAllocC true +
      BFILE.freeOf fsxp L.disk.cur ams.msAllocC false = BFILE.allBlocks fsxp := by
  have hsum : ∑ i ∈ Finset.range (INODE.ninodes fsxp.inode), BFILE.owned fsxp L.disk.cur i = 0 := by
    apply Finset.sum_eq_zero
    intro i hi
    have hi := Finset.mem_range.1 hi
    exact h.tree.inv.owned_eq_zero hi (h.tight i hi) (congrArg BFILE.BFile.data (h.file_eq hi))
  have htotal := h.total
  rwa [BFILE.total, hsum, add_zero] at htotal

omit [Platform] in
theorem New.empty (hx : fsxp.Parts n) (hroot : fsxp.rootInum = 1) (h : New fsxp xp L ams) :
    Empty fsxp L.disk.cur where
  rootInum := hroot
  root := by
    refine .node ?_ fun e he => absurd he List.not_mem_nil
    rw [← hroot, h.root]
    exact .refl _
  inodes i hi := by
    rw [h.bits i hi, hroot]
    by_cases h1 : i = 1
    · rw [if_pos h1]
      exact iff_of_false (fun h' => nomatch h') (not_not.2 h1)
    · rw [if_neg h1]
      exact iff_of_true rfl h1
  files i hi := h.file_eq hi
  blocks a ha h0 := by
    have hmem : a ∈ BFILE.allBlocks fsxp := BFILE.mem_allBlocks.2 ⟨h0, ha⟩
    have hnd : (BFILE.allBlocks fsxp).Nodup := BFILE.nodup_allBlocks
    rw [← h.freeOf_add] at hmem hnd
    have hdisj := (Multiset.nodup_add.1 hnd).2.2
    have hfree : ∀ b, a ∈ BFILE.freeOf fsxp L.disk.cur ams.msAllocC b ↔
        BALLOCC.bit L.disk.cur (BFILE.bxpOf fsxp b) a = AllocSig.avail := by
      intro b
      rw [mem_freeOf_iff hx h.coh]
      exact ⟨fun h' => h'.2.2, fun h' => ⟨h0, ha, h'⟩⟩
    constructor
    · intro h₁
      have h₂ : a ∉ BFILE.freeOf fsxp L.disk.cur ams.msAllocC false :=
        Multiset.disjoint_left.1 hdisj ((hfree true).2 h₁)
      exact Bool.eq_true_of_not_eq_false fun h' => h₂ ((hfree false).2 h')
    · intro h₂
      refine (hfree true).1 ((Multiset.mem_add.1 hmem).resolve_right fun h' => ?_)
      have h' : BALLOCC.bit L.disk.cur fsxp.blockAlloc2 a = AllocSig.avail := (hfree false).1 h'
      rw [h₂] at h'
      cases h'

end

/-! ### The size of its transaction -/

section

variable {cachesize dataBitmaps inodeBitmaps logDescrBlocks magic : ℕ}

/-- The blocks behind those of the files are the inodes and the bitmaps. -/
theorem mem_regions_computeXparams {a : ℕ}
    (hlo : (computeXparams dataBitmaps inodeBitmaps logDescrBlocks magic).nblocks ≤ a)
    (hhi : a < MLog.dataSize (computeXparams dataBitmaps inodeBitmaps logDescrBlocks magic).log) :
    let fsxp := computeXparams dataBitmaps inodeBitmaps logDescrBlocks magic
    (∃ b, a ∈ BALLOCC.bmp.region (BFILE.bxpOf fsxp b)) ∨ a ∈ IAlloc.bmp.region fsxp ∨
      a ∈ INODE.irecSig.region fsxp.inode := by
  intro fsxp
  rw [dataSize_computeXparams, ← itemsPerVal_irecSig] at hhi
  rcases Nat.lt_or_ge a fsxp.inodeAlloc.bmapStart with h₁ | h₁
  · exact .inr (.inr ⟨hlo, h₁⟩)
  rcases Nat.lt_or_ge a fsxp.blockAlloc1.bmapStart with h₂ | h₂
  · exact .inr (.inl ⟨h₁, h₂⟩)
  rcases Nat.lt_or_ge a fsxp.blockAlloc2.bmapStart with h₃ | h₃
  · exact .inl ⟨true, h₂, h₃⟩
  · exact .inl ⟨false, h₃, hhi⟩

/-- The transaction writes all of them. -/
theorem toFinset_writes_mkfsTxn (hd : dataBitmaps ≠ 0)
    (hsz : (computeXparams dataBitmaps inodeBitmaps logDescrBlocks magic).maxBlock ≤ 2 ^ addrlen)
    (m : Mem) :
    (Txn.writes (mkfsTxn (computeXparams dataBitmaps inodeBitmaps logDescrBlocks magic)) m).toFinset =
      Finset.Ico (dataBitmaps * valulen)
        (MLog.dataSize (computeXparams dataBitmaps inodeBitmaps logDescrBlocks magic).log) := by
  have hx : (computeXparams dataBitmaps inodeBitmaps logDescrBlocks magic).Parts _ :=
    parts_computeXparams hd hsz
  ext a
  rw [List.mem_toFinset, Finset.mem_Ico]
  exact ⟨bounds_mkfsTxn hx m, fun ha => mem_writes_mkfsTxn m (mem_regions_computeXparams ha.1 ha.2)⟩

/-- When a file system has been made, a transaction can hold everything behind the blocks of the
files. -/
theorem room_of_mkfs [Platform] {g : Geometry} {d₀ : Mem} {L : LogSt} {ams : MemState}
    (h : LogProg.run g.fsxp.log (mkfs g.fsxp) (.ofDisk d₀) = (.ok ams, L)) :
    g.dataSize - g.fsxp.nblocks ≤ g.fsxp.log.logLen := by
  have hwp : LogProg.wp g.dataSize g.fsxp.log (mkfs g.fsxp)
      (fun r _ => ∀ ams', r = .ok ams' → g.dataSize - g.fsxp.nblocks ≤ g.fsxp.log.logLen)
      (fun _ => True) (.ofDisk d₀) := by
    apply wp_mkfs g.ok.toParts rfl g.two_le_ninodes rfl
    · exact fun _ L ams' he => nomatch he
    · intro hsize _ _ _ _ _
      rw [Txn.size, toFinset_writes_mkfsTxn g.data_pos g.size.le, Nat.card_Ico] at hsize
      exact hsize
  have hrun := LogProg.wp_run hwp
  rw [h] at hrun
  exact hrun ams rfl

/-! ### The program -/

variable [Platform]

variable {s : St}

end

end AFS

namespace Sample

local instance mkfsPlatform : Platform := platform

open AFS

end Sample

end Fscq
