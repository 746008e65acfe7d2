import Fscq.AsyncFSRun
import Fscq.Hslib.Word

/-!
# The file server

The operations of `fscq.hs`.  Each of them is a sequence of calls of the file system (`fr` in the
source), which are transactions of their own; reads and writes of bytes are split into reads and
writes of blocks.  A path is given by its parts, and an open file by its inode number.
-/

namespace Fscq

open BFILE (MemState)

open Hslib (ByteString)

/-- The calls of the file system that the server makes, with their answers. -/
inductive FsOp : Type → Type 1
  | lookup (dnum : ℕ) (names : List Sname) : FsOp (Res (ℕ × Bool))
  | fileGetSz (inum : ℕ) : FsOp (BitVec 64)
  | readFblock (inum off : ℕ) : FsOp Valu
  | fileTruncate (inum sz : ℕ) : FsOp (Res Unit)
  | fileSetSz (inum : ℕ) (sz : BitVec 64) : FsOp (Res Unit)
  | ftruncate (inum sz : ℕ) : FsOp (Res Unit)
  | updateFblock (inum off : ℕ) (v : Valu) : FsOp Bool
  | updateFblockD (inum off : ℕ) (v : Valu) : FsOp Unit
  | create (dnum : ℕ) (name : Sname) : FsOp (Res ℕ)
  | mksock (dnum : ℕ) (name : Sname) : FsOp (Res ℕ)
  | mkdir (dnum : ℕ) (name : Sname) : FsOp (Res ℕ)
  | delete (dnum : ℕ) (name : Sname) : FsOp (Res Unit)
  | rename (dnum : ℕ) (srcpath : List Sname) (srcname : Sname) (dstpath : List Sname)
      (dstname : Sname) : FsOp (Res Unit)
  | fileSync (inum : ℕ) : FsOp Unit
  | treeSync : FsOp Unit

/-- Programs of the server. -/
abbrev FuseProg := CrashProg.Prog FsOp

namespace Fuse

/-! ### Errors -/

/-- The error numbers that the server returns. -/
inductive Posix
  | eOK
  | eIo
  | eNOTDIR
  | eISDIR
  | eNOENT
  | eFBIG
  | eNAMETOOLONG
  | eEXIST
  | eNOSPC
  | eNOTEMPTY
  | eINVAL
  deriving DecidableEq

def errnoToPosix : Errno → Posix
  | .ELOGOVERFLOW => .eIo
  | .ENOTDIR => .eNOTDIR
  | .EISDIR => .eISDIR
  | .ENOENT => .eNOENT
  | .EFBIG => .eFBIG
  | .ENAMETOOLONG => .eNAMETOOLONG
  | .EEXIST => .eEXIST
  | .ENOSPCBLOCK => .eNOSPC
  | .ENOSPCINODE => .eNOSPC
  | .ENOTEMPTY => .eNOTEMPTY
  | .EINVAL => .eINVAL

/-- The answer of an operation that returns no value. -/
def answer {α : Type} : Res α → Posix
  | .ok _ => .eOK
  | .error e => errnoToPosix e

/-! ### Blocks of bytes -/

def blocksize : ℤ := valulen / 8

/-- The bytes of a block. -/
def w2bs (v : Valu) : ByteString := (Hslib.i2bs v.toNat 4096).getD []

/-- The block with the given bytes. -/
def wbs (bs : ByteString) : Valu := BitVec.ofInt valulen (Hslib.bs2i bs)

/-- A block number, an offset in the block and a number of bytes from there. -/
structure BlockRange where
  blk : ℤ
  off : ℤ
  count : ℤ

/-- `[a .. b]`. -/
def enumFromTo (a b : ℤ) : List ℤ := (List.range (b - a + 1).toNat).map fun i : ℕ => a + i

def computeRangesInt (off count : ℤ) : List BlockRange :=
  let blocknums := enumFromTo (off / blocksize) ((off + count - 1) / blocksize)
  let startoffs := [off % blocksize] ++ List.replicate (blocknums.length - 1) 0
  let endoffs := List.replicate (blocknums.length - 1) blocksize ++
    [(off + count - 1) % blocksize + 1]
  (blocknums.zip (startoffs.zip endoffs)).map fun r => ⟨r.1, r.2.1, r.2.2 - r.2.1⟩

def computeRangePieces (off : ℤ) (buf : ByteString) : List (BlockRange × ByteString) :=
  let ranges := computeRangesInt off buf.length
  ranges.zip (ranges.map fun r =>
    (buf.drop (r.blk * blocksize + r.off - off).toNat).take r.count.toNat)

/-! ### Files -/

def readPiece (inum : ℕ) (r : BlockRange) : FuseProg ByteString := do
  let wbuf ← .op (.readFblock inum r.blk.toNat)
  pure (((w2bs wbuf).drop r.off.toNat).take r.count.toNat)

def fscqRead (inum byteCount offset : ℕ) : FuseProg (Except Posix ByteString) := do
  let wlen ← .op (.fileGetSz inum)
  let len := wlen.toNat
  let offset' := min offset len
  let byteCount' := min byteCount (len - offset')
  let pieces ← (computeRangesInt offset' byteCount').mapM' (readPiece inum)
  pure (.ok pieces.flatten)

/-- How many bytes have been written, and whether a write has failed. -/
inductive WriteState
  | writeOK (c : ℕ)
  | writeErr (c : ℕ)

/-- The bytes that a piece leaves in its block. -/
def newBytes (inum initLen : ℕ) (r : BlockRange) (piece : ByteString) : FuseProg ByteString :=
  if r.count = blocksize then
    -- whole block writes do not need the old block
    pure piece
  else do
    let old ← if initLen ≤ r.blk * blocksize ∨ (r.off = 0 ∧ initLen ≤ r.blk * blocksize + r.count)
      then
        -- the file ended before the block, or the piece covers all that it had of the block
        pure (List.replicate blocksize.toNat 0)
      else do
        let block ← .op (.readFblock inum r.blk.toNat)
        pure (w2bs block)
    pure (old.take r.off.toNat ++ (piece ++ old.drop (r.off + r.count).toNat))

def writePiece (doLog : Bool) (inum initLen : ℕ) :
    BlockRange × ByteString → WriteState → FuseProg WriteState
  | _, .writeErr c => pure (.writeErr c)
  | (r, piece), .writeOK c => do
    let new ← newBytes inum initLen r piece
    if doLog then do
      let _ ← .op (.updateFblock inum r.blk.toNat (wbs new))
      pure (.writeOK (c + r.count.toNat))
    else do
      .op (.updateFblockD inum r.blk.toNat (wbs new))
      pure (.writeOK (c + r.count.toNat))

def fscqWrite (inum : ℕ) (bs : ByteString) (offset : ℕ) : FuseProg (Except Posix ℕ) := do
  let wlen ← .op (.fileGetSz inum)
  let len := wlen.toNat
  let endpos := offset + bs.length
  let (okspc, doLog) ← if len < endpos then do
      let ok ← .op (.fileTruncate inum ((endpos + 4095) / 4096))
      pure (ok, true)
    else
      -- the source tests for large aligned writes here, but writes past the log in both cases
      pure (.ok (), false)
  match okspc with
  | .error e => pure (.error (errnoToPosix e))
  | .ok _ => do
    let r ← CrashProg.forEach (writePiece doLog inum len) (computeRangePieces offset bs)
      (.writeOK 0)
    match r with
    | .writeOK c => do
      let okspc2 ← if len < endpos then .op (.fileSetSz inum (BitVec.ofNat 64 endpos))
        else pure (.ok ())
      match okspc2 with
      | .ok _ => pure (.ok c)
      | .error _ => pure (.error .eNOSPC)
    | .writeErr c => if c = 0 then pure (.error .eIo) else pure (.ok c)

inductive SyncType
  | dataSync
  | fullSync

def fscqSyncFile (inum : ℕ) : SyncType → FuseProg Posix
  | .dataSync => do
    .op (.fileSync inum)
    pure .eOK
  | .fullSync => do
    .op (.fileSync inum)
    .op .treeSync
    pure .eOK

def fscqSyncDir : FuseProg Posix := do
  .op .treeSync
  pure .eOK

/-! ### Paths -/

/-- The names `stats` and `sync` of the files that the server itself has in the root. -/
def isServerFile (nameparts : List Sname) : Bool :=
  nameparts == [[115, 116, 97, 116, 115]] || nameparts == [[115, 121, 110, 99]]

variable (root : ℕ)

def fscqOpen (nameparts : List Sname) (trunc : Bool) : FuseProg (Except Posix ℕ) :=
  if isServerFile nameparts then pure (.ok 0)
  else do
    let r ← .op (.lookup root nameparts)
    match r with
    | .error e => pure (.error (errnoToPosix e))
    | .ok (inum, isdir) =>
      if isdir then pure (.error .eISDIR)
      else if trunc then do
        let _ ← .op (.fileTruncate inum 0)
        let ok ← .op (.fileSetSz inum 0)
        match ok with
        | .ok _ => pure (.ok inum)
        | .error e => pure (.error (errnoToPosix e))
      else pure (.ok inum)

/-- An operation in the directory of a path. -/
def inDir {α : Type} (err : Posix → α) (dirparts : List Sname) (p : ℕ → FuseProg α) :
    FuseProg α := do
  let rd ← .op (.lookup root dirparts)
  match rd with
  | .error e => pure (err (errnoToPosix e))
  | .ok (dnum, isdir) => if isdir then p dnum else pure (err .eNOTDIR)

def fscqCreateFile (dirparts : List Sname) (filename : Sname) : FuseProg (Except Posix ℕ) :=
  if isServerFile (dirparts ++ [filename]) then pure (.error .eEXIST)
  else inDir root .error dirparts fun dnum => do
    let r ← .op (.create dnum filename)
    pure (r.mapError errnoToPosix)

inductive EntryType
  | regularFile
  | socket
  | other

def fscqCreate (dirparts : List Sname) (filename : Sname) (entrytype : EntryType) :
    FuseProg Posix :=
  inDir root id dirparts fun dnum => do
    let r ← match entrytype with
      | .regularFile => .op (.create dnum filename)
      | .socket => .op (.mksock dnum filename)
      | .other => pure (.error .EINVAL)
    pure (answer r)

def fscqCreateDir (dirparts : List Sname) (filename : Sname) : FuseProg Posix :=
  inDir root id dirparts fun dnum => do
    let r ← .op (.mkdir dnum filename)
    pure (answer r)

def fscqUnlink (dirparts : List Sname) (filename : Sname) : FuseProg Posix :=
  inDir root id dirparts fun dnum => do
    let r ← .op (.delete dnum filename)
    pure (answer r)

def fscqSetFileSize (nameparts : List Sname) (size : ℕ) : FuseProg Posix := do
  let r ← .op (.lookup root nameparts)
  match r with
  | .error e => pure (errnoToPosix e)
  | .ok (inum, isdir) =>
    if isdir then pure .eISDIR
    else do
      let ok ← .op (.ftruncate inum size)
      pure (answer ok)

def fscqRename (srcparts : List Sname) (srcname : Sname) (dstparts : List Sname)
    (dstname : Sname) : FuseProg Posix := do
  let r ← .op (.rename root srcparts srcname dstparts dstname)
  pure (answer r)

end Fuse

/-! ### The meaning of a program -/

/-- The state of the server between two calls: the caches and the state of the log. -/
abbrev FsState := MemState × LogSt

namespace FsOp

variable {α : Type}

/-- The call of the file system, without its answer. -/
def toCall : ∀ {α : Type}, FsOp α → AFS.Call
  | _, .lookup dnum names => .lookup dnum names
  | _, .fileGetSz inum => .fileGetSz inum
  | _, .readFblock inum off => .readFblock inum off
  | _, .fileTruncate inum sz => .fileTruncate inum sz
  | _, .fileSetSz inum sz => .fileSetSz inum sz
  | _, .ftruncate inum sz => .ftruncate inum sz
  | _, .updateFblock inum off v => .updateFblock inum off v
  | _, .updateFblockD inum off v => .updateFblockD inum off v
  | _, .create dnum name => .create dnum name
  | _, .mksock dnum name => .mksock dnum name
  | _, .mkdir dnum name => .mkdir dnum name
  | _, .delete dnum name => .delete dnum name
  | _, .rename dnum srcpath srcname dstpath dstname => .rename dnum srcpath srcname dstpath dstname
  | _, .fileSync inum => .fileSync inum
  | _, .treeSync => .treeSync

/-- The call is on a file or a directory of the tree, and on a block that the file has. -/
def Valid (fsxp : FsXparams) (m : Mem) (o : FsOp α) : Prop := o.toCall.Valid fsxp m

variable [Platform] (fsxp : FsXparams)

def exec : ∀ {α : Type}, FsOp α → MemState → LogProg (MemState × α)
  | _, .lookup dnum names, ams => AFS.lookup fsxp dnum names ams
  | _, .fileGetSz inum, ams => AFS.fileGetSz fsxp inum ams
  | _, .readFblock inum off, ams => AFS.readFblock fsxp inum off ams
  | _, .fileTruncate inum sz, ams => AFS.fileTruncate fsxp inum sz ams
  | _, .fileSetSz inum sz, ams => AFS.fileSetSz fsxp inum sz ams
  | _, .ftruncate inum sz, ams => AFS.ftruncate fsxp inum sz ams
  | _, .updateFblock inum off v, ams => AFS.updateFblock fsxp inum off v ams
  | _, .updateFblockD inum off v, ams => do
    let ams ← AFS.updateFblockD fsxp inum off v ams
    pure (ams, ())
  | _, .create dnum name, ams => AFS.create fsxp dnum name ams
  | _, .mksock dnum name, ams => AFS.mksock fsxp dnum name ams
  | _, .mkdir dnum name, ams => AFS.mkdir fsxp dnum name ams
  | _, .delete dnum name, ams => AFS.delete fsxp dnum name ams
  | _, .rename dnum srcpath srcname dstpath dstname, ams =>
    AFS.rename fsxp dnum srcpath srcname dstpath dstname ams
  | _, .fileSync inum, ams => do
    let ams ← AFS.fileSync inum ams
    pure (ams, ())
  | _, .treeSync, ams => do
    let ams ← AFS.treeSync ams
    pure (ams, ())

end FsOp

namespace FuseProg

open CrashProg

variable [Platform] (fsxp : FsXparams) {α : Type}

def apply {α : Type} (o : FsOp α) (s : FsState) : α × FsState :=
  let r := LogProg.run fsxp.log (o.exec fsxp s.1) s.2
  (r.1.2, r.1.1, r.2)

/-- The answer of a program and the state it ends in. -/
def run (p : FuseProg α) (s : FsState) : α × FsState := CrashProg.run (apply fsxp) p s

/-- A call fails if it is not on the tree, or on a block that the file does not have; the machine may
crash before every call. -/
def sem : Sem FsState FsOp where
  step s o s' v := apply fsxp o s = (v, s')
  fail s o := ¬ o.Valid fsxp s.2.disk.cur
  crash _ := True

/-- The program ends with `Q`, `C` holds before every call, and all its calls are valid. -/
abbrev wp (p : FuseProg α) (Q : α → FsState → Prop) (C : LogSt → Prop) (s : FsState) : Prop :=
  CrashProg.wp (sem fsxp) p Q (fun s => C s.2) s

variable {fsxp}

theorem wp_run {p : FuseProg α} {Q : α → FsState → Prop} {C : LogSt → Prop} {s : FsState}
    (h : wp fsxp p Q C s) :
    Q (run fsxp p s).1 (run fsxp p s).2 :=
  CrashProg.wp_run (f := apply fsxp) (fun _ _ => rfl) h

/-- A valid call, by its result. -/
theorem wp_of_apply {o : FsOp α} {Q : α → FsState → Prop} {C : LogSt → Prop} {s : FsState}
    (hC : C s.2) (hv : o.Valid fsxp s.2.disk.cur) (hQ : Q (apply fsxp o s).1 (apply fsxp o s).2) :
    wp fsxp (.op o) Q C s := by
  apply wp_op (C := fun s : FsState => C s.2) (not_not.2 hv) fun _ => hC
  intro s' v hs
  obtain ⟨rfl, rfl⟩ := Prod.mk.inj (hs : apply fsxp o s = (v, s'))
  exact hQ

/-- A valid call, by what it does to the log. -/
theorem wp_call (n : ℕ) {o : FsOp α} {Q : α → FsState → Prop} {C : LogSt → Prop} {ams : MemState}
    {L : LogSt} (hC : C L) (hv : o.Valid fsxp L.disk.cur)
    (h : LogProg.wp n fsxp.log (o.exec fsxp ams) (fun r L' => Q r.2 (r.1, L'))
      (AFS.crashIn fun _ _ => True) L) : wp fsxp (.op o) Q C (ams, L) := by
  exact wp_of_apply hC hv (LogProg.wp_run h)

end FuseProg

end Fscq
