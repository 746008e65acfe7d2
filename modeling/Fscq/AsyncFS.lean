import Fscq.DirTree

/-!
# The file system

The calls of the file system.  Most of them are one transaction that reads, or one that is committed
if it succeeds and rolled back, with all caches, if it fails.  The caches in memory are passed along
from call to call; the state of the log is the one of `LogProg`.
-/

namespace Fscq

open BFILE (MemState)

namespace AFS

/-- The number that the superblock has. -/
def magicNumber : ℕ := 3932

/-- The layout of a file system.  Block zero has the superblock; the addresses of all parts but the
log are relative to the data section, which starts behind it. -/
def computeXparams (dataBitmaps inodeBitmaps logDescrBlocks magic : ℕ) : FsXparams :=
  let dataBlocks := dataBitmaps * valulen
  let inodeBlocks := inodeBitmaps * valulen / INODE.irecSig.itemsPerVal
  let inodeBase := dataBlocks
  let ballocBase1 := inodeBase + inodeBlocks + inodeBitmaps
  let ballocBase2 := ballocBase1 + dataBitmaps
  let logHdr := 1 + ballocBase2 + dataBitmaps
  let logDescr := logHdr + 1
  let logData := logDescr + logDescrBlocks
  let logDataSize := logDescrBlocks * PaddedLog.descSig.itemsPerVal
  let maxAddr := logData + logDataSize
  ⟨⟨1, logHdr, logDescr, logDescrBlocks, logData, logDataSize⟩, ⟨inodeBase, inodeBlocks⟩,
    ⟨ballocBase1, dataBitmaps⟩, ⟨ballocBase2, dataBitmaps⟩,
    ⟨inodeBase + inodeBlocks, inodeBitmaps⟩, 1, maxAddr, magic⟩

variable {α : Type}

/-- A transaction that only reads. -/
def readonly (p : MemState → TxnProg (MemState × α)) (ams : MemState) : LogProg (MemState × α) := do
  let _ ← LogProg.begin
  let r ← LogProg.lift (p ams)
  LogProg.commitRo
  pure r

variable (fsxp : FsXparams) (inum dnum : ℕ)

def fileGetAttr : MemState → LogProg (MemState × INODE.IAttr) :=
  readonly (DIRTREE.getattr fsxp inum)

def fileGetSz (ams : MemState) : LogProg (MemState × BitVec 64) := do
  let (ams, attr) ← fileGetAttr fsxp inum ams
  pure (ams, INODE.aBytes attr)

def readFblock (off : ℕ) : MemState → LogProg (MemState × Valu) :=
  readonly (DIRTREE.read fsxp inum off)

def lookup (names : List Sname) : MemState → LogProg (MemState × Res (ℕ × Bool)) :=
  readonly (DIRTREE.namei fsxp dnum names)

/-- The entries of a directory, not through the cache. -/
def readdir : MemState → LogProg (MemState × List SDIR.Readent) :=
  readonly (SDIR.readdir fsxp.inode dnum)

def statfs (ams : MemState) : LogProg (MemState × ℕ × ℕ) := do
  let _ ← LogProg.begin
  LogProg.commitRo
  pure (ams, 0, 0)

section

variable [Platform]

/-- Make an empty file system, over a log that is empty. -/
def mkfs (fsxp : FsXparams) : LogProg (Res MemState) := do
  let _ ← LogProg.begin
  let ms ← LogProg.lift (BFILE.init fsxp.inode fsxp.blockAlloc fsxp)
  let (ialc, r) ← LogProg.lift (IAlloc.alloc fsxp ms.msIAllocC)
  match r with
  | none => do
    LogProg.abort
    pure (.error .ENOSPCINODE)
  | some inum =>
    if inum = fsxp.rootInum then do
      let ok ← LogProg.commit
      if ok then do
        LogProg.flushsync
        pure (.ok { ms with msIAllocC := ialc })
      else pure (.error .ELOGOVERFLOW)
    else do
      LogProg.abort
      pure (.error .ELOGOVERFLOW)

/-- A transaction that is rolled back, with all caches, when it fails. -/
def transact (p : MemState → TxnProg (MemState × Res α)) (ams : MemState) :
    LogProg (MemState × Res α) := do
  let _ ← LogProg.begin
  let (ams', r) ← LogProg.lift (p ams)
  match r with
  | .error e => do
    LogProg.abort
    pure (ams, .error e)
  | .ok v => do
    let ok ← LogProg.commit
    if ok then pure (ams', .ok v) else pure (ams, .error .ELOGOVERFLOW)

def fileSetAttr (attr : INODE.IAttr) : MemState → LogProg (MemState × Res Unit) :=
  transact fun ams => do
    let ams ← DIRTREE.setattr fsxp inum attr ams
    pure (ams, .ok ())

/-- Set the number of blocks. -/
def fileTruncate (sz : ℕ) : MemState → LogProg (MemState × Res Unit) :=
  transact (DIRTREE.truncate fsxp inum sz)

def create (name : Sname) : MemState → LogProg (MemState × Res ℕ) :=
  transact (DIRTREE.mkfile fsxp dnum name)

def delete (name : Sname) : MemState → LogProg (MemState × Res Unit) :=
  transact (DIRTREE.delete fsxp dnum name)

def rename (srcpath : List Sname) (srcname : Sname) (dstpath : List Sname) (dstname : Sname) :
    MemState → LogProg (MemState × Res Unit) :=
  transact (DIRTREE.rename fsxp dnum srcpath srcname dstpath dstname)

/-- Set the size in bytes; no block is allocated.  If the commit fails, the caches and the
transaction are those from before the commit. -/
def fileSetSz (sz : BitVec 64) (ams : MemState) : LogProg (MemState × Res Unit) := do
  let _ ← LogProg.begin
  let ams ← LogProg.lift (DIRTREE.updattr fsxp inum (.uBytes sz) ams)
  let t ← LogProg.begin
  let ok ← LogProg.commit
  if ok then pure (ams, .ok ())
  else do
    LogProg.use t
    pure (ams, .error .ELOGOVERFLOW)

/-- A transaction that is rolled back when it fails, but keeps the caches that it ended with. -/
def rebind (p : MemState → TxnProg (MemState × Res α)) (ams : MemState) :
    LogProg (MemState × Res α) := do
  let _ ← LogProg.begin
  let (ams, r) ← LogProg.lift (p ams)
  match r with
  | .error e => do
    LogProg.abort
    pure (ams, .error e)
  | .ok v => do
    let ok ← LogProg.commit
    if ok then pure (ams, .ok v) else pure (ams, .error .ELOGOVERFLOW)

def mksock (name : Sname) : MemState → LogProg (MemState × Res ℕ) :=
  rebind fun ams => do
    let (ams, oi) ← DIRTREE.mkfile fsxp dnum name ams
    match oi with
    | .error e => pure (ams, .error e)
    | .ok inum => do
      let ams ← BFILE.updattr fsxp.inode inum (.uType 1) ams
      pure (ams, .ok inum)

def mkdir (name : Sname) : MemState → LogProg (MemState × Res ℕ) :=
  rebind (DIRTREE.mkdir fsxp dnum name)

/-- Set the size in bytes and the number of blocks.  The size is set in the transaction as it was at
the start, with the caches that the truncation has left. -/
def ftruncate (sz : ℕ) (ams : MemState) : LogProg (MemState × Res Unit) := do
  let t ← LogProg.begin
  let szBlocks := (sz + valulen - 1) / valulen
  let (ams', r) ← LogProg.lift (DIRTREE.truncate fsxp inum szBlocks ams)
  match r with
  | .error e => do
    LogProg.abort
    pure (ams, .error e)
  | .ok _ => do
    LogProg.use t
    let ams' ← LogProg.lift (DIRTREE.updattr fsxp inum (.uBytes (addr2w sz)) ams')
    let ok ← LogProg.commit
    if ok then pure (ams', .ok ()) else pure (ams, .error .ELOGOVERFLOW)

/-- Write a block in a transaction. -/
def updateFblock (off : ℕ) (v : Valu) (ams : MemState) : LogProg (MemState × Bool) := do
  let _ ← LogProg.begin
  let ams ← LogProg.lift (DIRTREE.write fsxp inum off v ams)
  let ok ← LogProg.commit
  pure (ams, ok)

end

/-- Write a block past the log. -/
def updateFblockD (off : ℕ) (v : Valu) (ams : MemState) : LogProg MemState := do
  let _ ← LogProg.begin
  let ams ← DIRTREE.dwrite fsxp inum off v ams
  LogProg.commitRo
  pure ams

/-- Sync the data of a file. -/
def fileSync (ams : MemState) : LogProg MemState := do
  let _ ← LogProg.begin
  let ams ← DIRTREE.datasync inum ams
  LogProg.commitRo
  pure ams

/-- Flush what is pending in the tree. -/
def treeSync (ams : MemState) : LogProg MemState := DIRTREE.sync ams

def umount (ams : MemState) : LogProg MemState := do
  let ams ← DIRTREE.sync ams
  LogProg.syncCache
  pure ams

end AFS

end Fscq
