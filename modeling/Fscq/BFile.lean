import Std.Data.ExtTreeSet
import Fscq.Inode
import Fscq.LogProg

/-!
# Block files

A file is a list of blocks with attributes.  Blocks are read and written inside a transaction, or
written directly to the disk, past the log.  There are two block allocators: growing takes blocks
from one of them and shrinking gives them to the other, and `sync` exchanges their roles after it
has flushed the log.
-/

namespace Fscq

open CrashProg

/-- A file name. -/
abbrev Sname := List (BitVec 8)

/-- The entries of a directory in memory. -/
abbrev Dcache := Std.ExtTreeMap Sname (ℕ × Bool) compare

abbrev AddrSet := Std.ExtTreeSet ℕ compare

namespace BFILE

/-- The state of the file layer in memory, with the state of the log left out. -/
structure MemState where
  msAlloc : Bool
  msAllocC : BmapCacheType × BmapCacheType
  msIAllocC : BmapCacheType
  msICache : INODE.Cache
  msCache : AddrMap (Dcache × ℕ)
  msDBlocks : AddrMap AddrSet

/-- The state after a reboot. -/
def msEmpty : MemState := ⟨true, (AllocSig.freelist0, AllocSig.freelist0), AllocSig.freelist0, ∅, ∅, ∅⟩

/-! ### Dirty blocks -/

def getDirty (inum : ℕ) (dblocks : AddrMap AddrSet) : AddrSet := (dblocks[inum]?).getD ∅

def putDirty (inum bn : ℕ) (dblocks : AddrMap AddrSet) : AddrMap AddrSet :=
  dblocks.insert inum ((getDirty inum dblocks).insert bn)

def removeDirtyVec (inum : ℕ) (bns : List ℕ) (dblocks : AddrMap AddrSet) : AddrMap AddrSet :=
  match dblocks[inum]? with
  | none => dblocks
  | some dirty => dblocks.insert inum (bns.foldr (fun bn d => d.erase bn) dirty)

def clearDirty (inum : ℕ) (dblocks : AddrMap AddrSet) : AddrMap AddrSet := dblocks.erase inum

/-! ### The two allocators -/

variable {α : Type}

def pickBalloc (a : α × α) (flag : Bool) : α := if flag then a.1 else a.2

def updBalloc (a : α × α) (new : α) (flag : Bool) : α × α :=
  (if flag then new else a.1, if flag then a.2 else new)

@[simp] theorem pickBalloc_updBalloc (a : α × α) (new : α) (flag : Bool) :
    pickBalloc (updBalloc a new flag) flag = new := by
  cases flag <;> rfl

@[simp] theorem pickBalloc_not_updBalloc (a : α × α) (new : α) (flag : Bool) :
    pickBalloc (updBalloc a new flag) (!flag) = pickBalloc a (!flag) := by
  cases flag <;> rfl

/-! ### Programs in a transaction -/

section

variable (ixp : InodeXparams) (inum : ℕ)

def getlen (fms : MemState) : TxnProg (MemState × ℕ) := do
  let (icache, n) ← INODE.getlen ixp inum fms.msICache
  pure ({ fms with msICache := icache }, n)

def getattrs (fms : MemState) : TxnProg (MemState × INODE.IAttr) := do
  let (icache, n) ← INODE.getattrs ixp inum fms.msICache
  pure ({ fms with msICache := icache }, n)

def setattrs (a : INODE.IAttr) (fms : MemState) : TxnProg MemState := do
  let icache ← INODE.setattrs ixp inum a fms.msICache
  pure { fms with msICache := icache }

def updattr (kv : INODE.IAttrUpdArg) (fms : MemState) : TxnProg MemState := do
  let icache ← INODE.updattr ixp inum kv fms.msICache
  pure { fms with msICache := icache }

def read (off : ℕ) (fms : MemState) : TxnProg (MemState × Valu) := do
  let (icache, bn) ← INODE.getbnum ixp inum off fms.msICache
  let v ← Txn.read bn.toNat
  pure ({ fms with msICache := icache }, v)

def write (off : ℕ) (v : Valu) (fms : MemState) : TxnProg MemState := do
  let (icache, bn) ← INODE.getbnum ixp inum off fms.msICache
  Txn.write bn.toNat v
  pure { fms with msICache := icache }

theorem atMost_updattr (kv : INODE.IAttrUpdArg) (fms : MemState) :
    Txn.AtMost 1 (updattr ixp inum kv fms) :=
  (INODE.atMost_updattr ixp inum kv fms.msICache).bind fun _ => Txn.atMost_pure 0 _

theorem atMost_write (off : ℕ) (v : Valu) (fms : MemState) :
    Txn.AtMost 1 (write ixp inum off v fms) :=
  (INODE.atMost_getbnum ixp inum off fms.msICache).after fun _ =>
    (Txn.atMost_write _ v).bind fun _ => Txn.atMost_pure 0 _

variable (bxps : BallocXparams × BallocXparams)

/-- Add a block at the end of the file. -/
def grow (v : Valu) (fms : MemState) : TxnProg (MemState × Res Unit) := do
  let (icache, len) ← INODE.getlen ixp inum fms.msICache
  if len < INODE.nBlocks then do
    let (cms, r) ← BALLOCC.alloc (pickBalloc bxps fms.msAlloc)
      (pickBalloc fms.msAllocC fms.msAlloc)
    match r with
    | none =>
      pure ({ fms with
        msAllocC := updBalloc fms.msAllocC cms fms.msAlloc
        msICache := icache }, .error .ENOSPCBLOCK)
    | some bn => do
      let (icache, cms, succ) ← INODE.grow ixp inum (pickBalloc bxps fms.msAlloc) bn icache cms
      match succ with
      | .error e =>
        pure ({ fms with
          msAllocC := updBalloc fms.msAllocC cms fms.msAlloc
          msICache := icache }, .error e)
      | .ok _ => do
        Txn.write bn v
        pure ({ fms with
          msAllocC := updBalloc fms.msAllocC cms fms.msAlloc
          msICache := icache
          msDBlocks := putDirty inum bn fms.msDBlocks }, .ok ())
  else pure ({ fms with msICache := icache }, .error .EFBIG)

theorem atMost_grow (v : Valu) (fms : MemState) : Txn.AtMost 9 (grow ixp inum bxps v fms) := by
  apply (INODE.atMost_getlen ixp inum fms.msICache).after
  rintro ⟨icache, len⟩
  dsimp only
  split_ifs
  · apply (AllocSig.atMost_alloc _ _).bind (k := 8)
    rintro ⟨cms, _ | bn⟩
    · exact Txn.atMost_pure 8 _
    · apply (INODE.atMost_grow ixp inum _ bn icache cms).bind (k := 1)
      rintro ⟨icache', cms', _ | u⟩
      · exact Txn.atMost_pure 1 _
      · exact (Txn.atMost_write bn v).bind fun _ => Txn.atMost_pure 0 _
  · exact Txn.atMost_pure 9 _

/-- Drop the last `nr` blocks of the file. -/
def shrink (nr : ℕ) (fms : MemState) : TxnProg MemState := do
  let (icache, bns) ← INODE.getallbnum ixp inum fms.msICache
  let l := (bns.drop (bns.length - nr)).map BitVec.toNat
  let cms ← BALLOCC.freevec (pickBalloc bxps (!fms.msAlloc)) l (pickBalloc fms.msAllocC (!fms.msAlloc))
  let (icache, cms) ← INODE.shrink ixp inum (pickBalloc bxps (!fms.msAlloc)) nr icache cms
  pure { fms with
    msAllocC := updBalloc fms.msAllocC cms (!fms.msAlloc)
    msICache := icache
    msDBlocks := removeDirtyVec inum l fms.msDBlocks }

/-- Add the blocks of a list at the end of the file. -/
def grown (l : List Valu) (fms : MemState) : TxnProg (MemState × Res Unit) :=
  forN (fun i r => match r.2 with
    | .error _ => pure r
    | .ok _ => grow ixp inum bxps (l.getD i 0) r.1) 0 l.length (fms, .ok ())

theorem atMost_grown (l : List Valu) (fms : MemState) :
    Txn.AtMost (l.length * 9) (grown ixp inum bxps l fms) := by
  apply Txn.atMost_forN_mul
  rintro i ⟨fms', _ | u⟩
  · exact Txn.atMost_pure 9 _
  · exact atMost_grow ixp inum bxps _ fms'

/-- Set the number of blocks of the file; new blocks are zero. -/
def truncate (newsz : ℕ) (fms : MemState) : TxnProg (MemState × Res Unit) := do
  let (fms, sz) ← getlen ixp inum fms
  if newsz < sz then do
    let fms ← shrink ixp inum bxps (sz - newsz) fms
    pure (fms, .ok ())
  else grown ixp inum bxps (List.replicate (newsz - sz) 0) fms

/-- Make the file empty, as it is before it is created. -/
def reset (fms : MemState) : TxnProg MemState := do
  let (fms, sz) ← getlen ixp inum fms
  let (icache, bns) ← INODE.getallbnum ixp inum fms.msICache
  let l := bns.map BitVec.toNat
  let cms ← BALLOCC.freevec (pickBalloc bxps (!fms.msAlloc)) l (pickBalloc fms.msAllocC (!fms.msAlloc))
  let (icache, cms) ← INODE.reset ixp inum (pickBalloc bxps (!fms.msAlloc)) sz INODE.iattr0 icache cms
  pure { fms with
    msAllocC := updBalloc fms.msAllocC cms (!fms.msAlloc)
    msICache := icache
    msCache := fms.msCache.erase inum
    msDBlocks := clearDirty inum fms.msDBlocks }

/-- Give the first half of the blocks to the second allocator. -/
def shuffleAllocs (cms : BmapCacheType × BmapCacheType) :
    TxnProg (BmapCacheType × BmapCacheType) :=
  forN (fun i cms => do
    let fcms ← BALLOCC.steal bxps.1 i cms.1
    let scms ← BALLOCC.free bxps.2 i cms.2
    pure (fcms, scms)) 1 (bxps.1.bmapNBlocks * valulen / 2 - 1) cms

def init (bixp : FsXparams) : TxnProg MemState := do
  let fcms ← BALLOCC.initNofree bxps.2
  let scms ← BALLOCC.init bxps.1
  let ialc ← IAlloc.init bixp
  INODE.init ixp
  let cms ← shuffleAllocs bxps (scms, fcms)
  pure ⟨true, cms, ialc, ∅, ∅, ∅⟩

def readArray (a i : ℕ) (fms : MemState) : TxnProg (MemState × Valu) := read ixp inum (a + i) fms

def writeArray (a i : ℕ) (v : Valu) (fms : MemState) : TxnProg MemState :=
  write ixp inum (a + i) v fms

theorem atMost_getlen (fms : MemState) : Txn.AtMost 0 (getlen ixp inum fms) :=
  (INODE.atMost_getlen ixp inum fms.msICache).after fun _ => Txn.atMost_pure 0 _

theorem atMost_readArray (a i : ℕ) (fms : MemState) : Txn.AtMost 0 (readArray ixp inum a i fms) :=
  (INODE.atMost_getbnum ixp inum (a + i) fms.msICache).after fun _ =>
    (Txn.atMost_read _).after fun _ => Txn.atMost_pure 0 _

/-- Fold over `nr` blocks of the file starting at `a`. -/
def readRange (a nr : ℕ) (vfold : α → Valu → α) (v₀ : α) (fms : MemState) :
    TxnProg (MemState × α) :=
  forN (fun i r => do
    let (fms, v) ← readArray ixp inum a i r.1
    pure (fms, vfold r.2 v)) 0 nr (fms, v₀)

end

/-! ### The directory cache -/

def cacheGet (inum : ℕ) (fms : MemState) : Option (Dcache × ℕ) := fms.msCache[inum]?

def cachePut (inum : ℕ) (dc : Dcache × ℕ) (fms : MemState) : MemState :=
  { fms with msCache := fms.msCache.insert inum dc }

/-! ### Programs past the log

These act on the log as a whole, not only on the active transaction. -/

/-- Write a block of the file directly to the disk. -/
def dwrite (ixp : InodeXparams) (inum off : ℕ) (v : Valu) (fms : MemState) :
    LogProg MemState := do
  let (icache, bn) ← LogProg.lift (INODE.getbnum ixp inum off fms.msICache)
  LogProg.dwrite bn.toNat v
  pure { fms with msICache := icache, msDBlocks := putDirty inum bn.toNat fms.msDBlocks }

/-- Sync the dirty blocks of the file. -/
def datasync (inum : ℕ) (fms : MemState) : LogProg MemState := do
  let bns := (getDirty inum fms.msDBlocks).toList
  LogProg.dsyncVecs bns
  pure { fms with msDBlocks := clearDirty inum fms.msDBlocks }

/-- Flush the log and exchange the allocators. -/
def sync (fms : MemState) : LogProg MemState := do
  LogProg.flushall
  pure { fms with msAlloc := !fms.msAlloc }

end BFILE

end Fscq
