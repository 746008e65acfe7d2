import Fscq.DirCache

/-!
# Directory trees

Operations on the tree of directories and files.  They run inside a transaction; the ones on the
contents of files that go past the log act on the log as a whole.
-/

namespace Fscq

open CrashProg

namespace DIRTREE

variable (fsxp : FsXparams)

/-- Follow a path from the directory `dnum`. -/
def namei (dnum : ℕ) (fnlist : List Sname) (mscs : BFILE.MemState) :
    TxnProg (BFILE.MemState × Res (ℕ × Bool)) := do
  let (mscs, inum, isdir, valid) ← forEach (fun fn r => match r with
    | (mscs, inum, isdir, .error e) => pure (mscs, inum, isdir, .error e)
    | (mscs, inum, isdir, .ok _) =>
      if isdir then do
        let (mscs, r) ← CacheOneDir.lookup fsxp.inode inum fn mscs
        match r with
        | some (inum, isdir) => pure (mscs, inum, isdir, .ok ())
        | none => pure (mscs, inum, isdir, .error .ENOENT)
      else pure (mscs, inum, isdir, .error .ENOTDIR)) fnlist
      ((mscs, dnum, true, .ok ()) : BFILE.MemState × ℕ × Bool × Res Unit)
  match valid with
  | .ok _ => pure (mscs, .ok (inum, isdir))
  | .error e => pure (mscs, .error e)

theorem atMost_namei (dnum : ℕ) (fnlist : List Sname) (mscs : BFILE.MemState) :
    Txn.AtMost 0 (namei fsxp dnum fnlist mscs) := by
  apply (Txn.atMost_forEach _ fnlist _).after
  · rintro ⟨mscs, inum, isdir, e | u⟩
    · exact Txn.atMost_pure 0 _
    · exact Txn.atMost_pure 0 _
  · rintro fn ⟨mscs, inum, isdir, e | u⟩
    · exact Txn.atMost_pure 0 _
    dsimp only
    split_ifs with hdir
    · apply (CacheOneDir.atMost_lookup fsxp.inode inum fn mscs).after
      rintro ⟨mscs, _ | r⟩
      · exact Txn.atMost_pure 0 _
      · exact Txn.atMost_pure 0 _
    · exact Txn.atMost_pure 0 _

/-- Make a file or a directory. -/
def mknod (isdir : Bool) (dnum : ℕ) (name : Sname) (fms : BFILE.MemState) :
    TxnProg (BFILE.MemState × Res ℕ) := do
  let (ialc, oi) ← IAlloc.alloc fsxp fms.msIAllocC
  let fms := { fms with msIAllocC := ialc }
  match oi with
  | none => pure (fms, .error .ENOSPCINODE)
  | some inum => do
    let (fms, ok) ← CacheOneDir.link fsxp.inode dnum fsxp.blockAlloc name inum isdir fms
    match ok with
    | .ok _ => pure (fms, .ok inum)
    | .error e => pure (fms, .error e)

theorem atMost_mknod (isdir : Bool) (dnum : ℕ) (name : Sname) (fms : BFILE.MemState) :
    Txn.AtMost 10 (mknod fsxp isdir dnum name fms) := by
  apply (AllocSig.atMost_alloc fsxp fms.msIAllocC).bind (k := 9)
  rintro ⟨ialc, _ | inum⟩
  · exact Txn.atMost_pure 9 _
  · apply (CacheOneDir.atMost_link fsxp.inode dnum fsxp.blockAlloc name inum isdir _).bind (k := 0)
    rintro ⟨fms', _ | u⟩
    · exact Txn.atMost_pure 0 _
    · exact Txn.atMost_pure 0 _

def mkfile (dnum : ℕ) (name : Sname) (fms : BFILE.MemState) : TxnProg (BFILE.MemState × Res ℕ) :=
  mknod fsxp false dnum name fms

def mkdir (dnum : ℕ) (name : Sname) (fms : BFILE.MemState) : TxnProg (BFILE.MemState × Res ℕ) :=
  mknod fsxp true dnum name fms

def delete (dnum : ℕ) (name : Sname) (mscs : BFILE.MemState) :
    TxnProg (BFILE.MemState × Res Unit) := do
  let (mscs, oi) ← CacheOneDir.lookup fsxp.inode dnum name mscs
  match oi with
  | none => pure (mscs, .error .ENOENT)
  | some (inum, isdir) => do
    let (mscs, ok) ← (if isdir then do
        let (mscs, l) ← CacheOneDir.readdir fsxp.inode inum mscs
        pure (mscs, l.isEmpty)
      else pure (mscs, true) : TxnProg (BFILE.MemState × Bool))
    if ok then do
      let (mscs, ok) ← CacheOneDir.unlink fsxp.inode dnum name mscs
      match ok with
      | .ok _ => do
        let mscs ← BFILE.reset fsxp.inode inum fsxp.blockAlloc mscs
        let ialc ← IAlloc.free fsxp inum mscs.msIAllocC
        pure ({ mscs with msIAllocC := ialc }, .ok ())
      | .error e => pure (mscs, .error e)
    else pure (mscs, .error .ENOTEMPTY)

def rename (dnum : ℕ) (srcpath : List Sname) (srcname : Sname) (dstpath : List Sname)
    (dstname : Sname) (mscs : BFILE.MemState) : TxnProg (BFILE.MemState × Res Unit) := do
  let (mscs, osrcdir) ← namei fsxp dnum srcpath mscs
  match osrcdir with
  | .error _ => pure (mscs, .error .ENOENT)
  | .ok (_, false) => pure (mscs, .error .ENOTDIR)
  | .ok (dsrc, true) => do
    let (mscs, osrc) ← CacheOneDir.lookup fsxp.inode dsrc srcname mscs
    match osrc with
    | none => pure (mscs, .error .ENOENT)
    | some (inum, inumIsdir) => do
      let (mscs, _) ← CacheOneDir.unlink fsxp.inode dsrc srcname mscs
      let (mscs, odstdir) ← namei fsxp dnum dstpath mscs
      match odstdir with
      | .error _ => pure (mscs, .error .ENOENT)
      | .ok (_, false) => pure (mscs, .error .ENOTDIR)
      | .ok (ddst, true) => do
        let (mscs, odst) ← CacheOneDir.lookup fsxp.inode ddst dstname mscs
        match odst with
        | none => CacheOneDir.link fsxp.inode ddst fsxp.blockAlloc dstname inum inumIsdir mscs
        | some _ => do
          let (mscs, ok) ← delete fsxp ddst dstname mscs
          match ok with
          | .ok _ => CacheOneDir.link fsxp.inode ddst fsxp.blockAlloc dstname inum inumIsdir mscs
          | .error e => pure (mscs, .error e)

def read (inum off : ℕ) (mscs : BFILE.MemState) : TxnProg (BFILE.MemState × Valu) :=
  BFILE.read fsxp.inode inum off mscs

def write (inum off : ℕ) (v : Valu) (mscs : BFILE.MemState) : TxnProg BFILE.MemState :=
  BFILE.write fsxp.inode inum off v mscs

def truncate (inum nblocks : ℕ) (mscs : BFILE.MemState) : TxnProg (BFILE.MemState × Res Unit) :=
  BFILE.truncate fsxp.inode inum fsxp.blockAlloc nblocks mscs

def getlen (inum : ℕ) (mscs : BFILE.MemState) : TxnProg (BFILE.MemState × ℕ) :=
  BFILE.getlen fsxp.inode inum mscs

def getattr (inum : ℕ) (mscs : BFILE.MemState) : TxnProg (BFILE.MemState × INODE.IAttr) :=
  BFILE.getattrs fsxp.inode inum mscs

def setattr (inum : ℕ) (attr : INODE.IAttr) (mscs : BFILE.MemState) : TxnProg BFILE.MemState :=
  BFILE.setattrs fsxp.inode inum attr mscs

def updattr (inum : ℕ) (kv : INODE.IAttrUpdArg) (mscs : BFILE.MemState) : TxnProg BFILE.MemState :=
  BFILE.updattr fsxp.inode inum kv mscs

def dwrite (inum off : ℕ) (v : Valu) (mscs : BFILE.MemState) : LogProg BFILE.MemState :=
  BFILE.dwrite fsxp.inode inum off v mscs

def datasync (inum : ℕ) (mscs : BFILE.MemState) : LogProg BFILE.MemState :=
  BFILE.datasync inum mscs

def sync (mscs : BFILE.MemState) : LogProg BFILE.MemState := BFILE.sync mscs

end DIRTREE

end Fscq
