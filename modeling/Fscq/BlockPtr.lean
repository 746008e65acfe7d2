import Fscq.Balloc
import Fscq.Lib.RadixTree

/-!
# Block pointers

The block numbers of a file are kept in its inode record and in index blocks: a few direct
pointers, and the roots of a single, a double and a triple indirect tree.  A null root stands for a
tree of null pointers.
-/

namespace Fscq

open CrashProg

/-- What the block pointers need of an inode record. -/
structure BlockPtrSig (IRec IAttr : Type) where
  nDirect : ℕ
  nDirect_bound : nDirect ≤ addrlen
  irLen : IRec → ℕ
  irIndPtr : IRec → ℕ
  irDindPtr : IRec → ℕ
  irTindPtr : IRec → ℕ
  irBlocks : IRec → List Waddr
  irAttrs : IRec → IAttr
  updLen : IRec → ℕ → IRec
  updIRec : IRec → (len ibptr dibptr tibptr : ℕ) → List Waddr → IRec
  updIRec_eq_updLen : ∀ ir len, len < 2 ^ addrlen →
    updLen ir len = updIRec ir len (irIndPtr ir) (irDindPtr ir) (irTindPtr ir) (irBlocks ir)
  len_updIRec : ∀ ir len i d t bns, len < 2 ^ addrlen → irLen (updIRec ir len i d t bns) = len
  indPtr_updIRec : ∀ ir len i d t bns, i < 2 ^ addrlen → irIndPtr (updIRec ir len i d t bns) = i
  dindPtr_updIRec : ∀ ir len i d t bns, d < 2 ^ addrlen → irDindPtr (updIRec ir len i d t bns) = d
  tindPtr_updIRec : ∀ ir len i d t bns, t < 2 ^ addrlen → irTindPtr (updIRec ir len i d t bns) = t
  blocks_updIRec : ∀ ir len i d t bns, irBlocks (updIRec ir len i d t bns) = bns
  attrs_updIRec : ∀ ir len i d t bns, irAttrs (updIRec ir len i d t bns) = irAttrs ir
  len_lt : ∀ ir, irLen ir < 2 ^ addrlen
  indPtr_lt : ∀ ir, irIndPtr ir < 2 ^ addrlen
  dindPtr_lt : ∀ ir, irDindPtr ir < 2 ^ addrlen
  tindPtr_lt : ∀ ir, irTindPtr ir < 2 ^ addrlen

/-! ### Index blocks -/

namespace IndRec

/-- The array of pointers in an index block. -/
def sig : RASig ℕ where
  raStart := id
  raLen _ := 1
  itemtype := .wordF addrlen
  itemsPerVal := valulen / addrlen
  blocksz_ok := valulen_eq_addrs

def get (bn ix : ℕ) : TxnProg Waddr := sig.get bn ix

def put (bn ix : ℕ) (v : Waddr) : TxnProg Unit := sig.put bn ix v

def read (bn : ℕ) : TxnProg (List Waddr) := sig.read bn 1

def write (bn : ℕ) (l : List Waddr) : TxnProg Unit := sig.write bn l

end IndRec

namespace BlockPtr

/-- The number of pointers in an index block. -/
def nIndirect : ℕ := IndRec.sig.itemsPerVal

/-! ### Reading -/

def indget : (indlvl bn off : ℕ) → TxnProg Waddr
  | 0, bn, off =>
    if bn = 0 then pure 0 else do
      let v ← IndRec.get bn (off / nIndirect ^ 0)
      pure v
  | indlvl + 1, bn, off =>
    if bn = 0 then pure 0 else do
      let v ← IndRec.get bn (off / nIndirect ^ (indlvl + 1))
      indget indlvl v.toNat (off % nIndirect ^ (indlvl + 1))

/-- All pointers of a tree. -/
def indread : (indlvl ir : ℕ) → TxnProg (List Waddr)
  | 0, ir =>
    if ir = 0 then pure (List.replicate (nIndirect ^ 1) 0) else IndRec.read ir
  | indlvl + 1, ir =>
    if ir = 0 then pure (List.replicate (nIndirect ^ (indlvl + 2)) 0) else do
      let indbns ← IndRec.read ir
      forEach (fun b r => do
        let v ← indread indlvl b.toNat
        pure (v ++ r)) indbns.reverse []

/-- All pointers of the trees in a list of slots. -/
def indreadAligned (indlvl : ℕ) (indbns : List Waddr) : TxnProg (List Waddr) :=
  forEach (fun bn r => do
    let blks ← indread indlvl bn.toNat
    pure (blks ++ r)) indbns.reverse []

/-- The pointers of a tree from `start` on. -/
def indreadToAligned : (indlvl ir start : ℕ) → TxnProg (List Waddr)
  | 0, ir, start =>
    if ir = 0 then pure (List.replicate (nIndirect ^ 1 - start) 0) else do
      let indbns ← IndRec.read ir
      pure (indbns.drop start)
  | indlvl + 1, ir, start =>
    if ir = 0 then pure (List.replicate (nIndirect ^ (indlvl + 2) - start) 0) else do
      let indbns ← IndRec.read ir
      let N := nIndirect ^ (indlvl + 1)
      let r ← indreadAligned indlvl (indbns.drop (start / N + 1))
      let ir' := indbns.getD (start / N) 0
      let r' ← indreadToAligned indlvl ir'.toNat (start % N)
      pure (r' ++ r)

/-- The first `len` pointers of a tree. -/
def indreadFromAligned : (indlvl ir len : ℕ) → TxnProg (List Waddr)
  | 0, ir, len =>
    if ir = 0 then pure (List.replicate len 0) else do
      let indbns ← IndRec.read ir
      pure (indbns.take len)
  | indlvl + 1, ir, len =>
    if ir = 0 then pure (List.replicate len 0) else do
      let indbns ← IndRec.read ir
      let N := nIndirect ^ (indlvl + 1)
      let r ← indreadAligned indlvl (indbns.take (len / N))
      if len % N = 0 then pure r
      else do
        let ir' := indbns.getD (len / N) 0
        let r' ← indreadFromAligned indlvl ir'.toNat (len % N)
        pure (r ++ r')

/-- Read a range of pointers that does not lie inside one tree. -/
def indreadMultipleBlocks (indlvl : ℕ) (indbns : List Waddr) (start len : ℕ) :
    TxnProg (List Waddr) := do
  let N := nIndirect ^ (indlvl + 1)
  let rl ← indreadToAligned indlvl (indbns.getD (start / N) 0).toNat (start % N)
  let start' := start + (N - start % N)
  let len' := len - (N - start % N)
  let rm ← indreadAligned indlvl ((indbns.drop (start' / N)).take (len' / N))
  let len'' := len' % N
  let start'' := start' + len' / N * N
  let rr ← indreadFromAligned indlvl (indbns.getD (start'' / N) 0).toNat len''
  pure (rl ++ (rm ++ rr))

/-- Read a range of pointers of a tree. -/
def indreadRange : (indlvl root start len : ℕ) → TxnProg (List Waddr)
  | 0, root, start, len =>
    let N := nIndirect ^ 0
    if len = 0 then pure []
    else if start + len = nIndirect * N then indreadToAligned 0 root start
    else if root = 0 then pure (List.replicate len 0)
    else do
      let indbns ← IndRec.read root
      pure ((indbns.drop start).take len)
  | indlvl + 1, root, start, len =>
    let N := nIndirect ^ (indlvl + 1)
    if len = 0 then pure []
    else if start + len = nIndirect * N then indreadToAligned (indlvl + 1) root start
    else if root = 0 then pure (List.replicate len 0)
    else do
      let indbns ← IndRec.read root
      if len ≤ N - start % N then
        indreadRange indlvl (indbns.getD (start / N) 0).toNat (start % N) len
      else indreadMultipleBlocks indlvl indbns start len

/-! ### Clearing -/

/-- Free all index blocks of a tree. -/
def indclearAll (bxp : BallocXparams) : (indlvl root : ℕ) → BmapCacheType → TxnProg BmapCacheType
  | 0, root, ms => if root = 0 then pure ms else BALLOCC.free bxp root ms
  | indlvl + 1, root, ms =>
    if root = 0 then pure ms else do
      let indbns ← IndRec.read root
      let ms ← forEach (fun bn ms => indclearAll bxp indlvl bn.toNat ms) indbns ms
      BALLOCC.free bxp root ms

/-- Free the trees of the slots from `start / N` on, for `len / N` slots. -/
def indclearAligned (bxp : BallocXparams) (indlvl : ℕ) (indbns : List Waddr) (start len : ℕ)
    (ms : BmapCacheType) : TxnProg BmapCacheType :=
  let N := nIndirect ^ (indlvl + 1)
  forEach (fun bn ms => indclearAll bxp indlvl bn.toNat ms)
    ((indbns.drop (start / N)).take (len / N)) ms

/-- Write the new contents of an index block, or free the block if all its pointers are null. -/
def updateBlock (bxp : BallocXparams) (bn : ℕ) (contents new : List Waddr) (ms : BmapCacheType) :
    TxnProg (BmapCacheType × ℕ) :=
  if new = List.replicate nIndirect 0 then do
    let ms ← BALLOCC.free bxp bn ms
    pure (ms, 0)
  else if contents = new then pure (ms, bn)
  else do
    IndRec.write bn new
    pure (ms, bn)

/-- Clear the first `len` pointers of the tree in slot `start / N`. -/
def indclearFromAligned (bxp : BallocXparams) : (indlvl : ℕ) → List Waddr → (start len : ℕ) →
    BmapCacheType → TxnProg (BmapCacheType × List Waddr)
  | 0, iblocks, start, len, ms =>
    if len = 0 then pure (ms, iblocks) else
    let N := nIndirect ^ 1
    let raggedBn := (iblocks.getD (start / N) 0).toNat
    if raggedBn = 0 then pure (ms, iblocks) else do
      let indbns ← IndRec.read raggedBn
      let indbns' := updRange indbns 0 len 0
      let (ms, v) ← updateBlock bxp raggedBn indbns indbns' ms
      pure (ms, iblocks.set (start / N) (addr2w v))
  | indlvl + 1, iblocks, start, len, ms =>
    if len = 0 then pure (ms, iblocks) else
    let N := nIndirect ^ (indlvl + 2)
    let raggedBn := (iblocks.getD (start / N) 0).toNat
    if raggedBn = 0 then pure (ms, iblocks) else do
      let indbns ← IndRec.read raggedBn
      let N' := nIndirect ^ (indlvl + 1)
      let ms ← indclearAligned bxp indlvl indbns 0 (len / N' * N') ms
      let indbns' := updRange indbns 0 (len / N') 0
      let (ms, indbns'') ← indclearFromAligned bxp indlvl indbns' (len / N' * N') (len % N') ms
      let (ms, v) ← updateBlock bxp raggedBn indbns indbns'' ms
      pure (ms, iblocks.set (start / N) (addr2w v))

/-- Clear the pointers from `start` to the end of the tree in slot `start / N`. -/
def indclearToAligned (bxp : BallocXparams) : (indlvl : ℕ) → List Waddr → (start : ℕ) →
    BmapCacheType → TxnProg (BmapCacheType × List Waddr)
  | 0, iblocks, start, ms =>
    let N := nIndirect ^ 1
    if start % N = 0 then pure (ms, iblocks) else
    let raggedBn := (iblocks.getD (start / N) 0).toNat
    if raggedBn = 0 then pure (ms, iblocks) else do
      let indbns ← IndRec.read raggedBn
      let indbns' := updRange indbns (start % nIndirect) (nIndirect - start % nIndirect) 0
      let (ms, v) ← updateBlock bxp raggedBn indbns indbns' ms
      pure (ms, iblocks.set (start / N) (addr2w v))
  | indlvl + 1, iblocks, start, ms =>
    let N := nIndirect ^ (indlvl + 2)
    if start % N = 0 then pure (ms, iblocks) else
    let raggedBn := (iblocks.getD (start / N) 0).toNat
    if raggedBn = 0 then pure (ms, iblocks) else do
      let indbns ← IndRec.read raggedBn
      let N' := nIndirect ^ (indlvl + 1)
      let start' := start % N
      let (ms, indbns') ← indclearToAligned bxp indlvl indbns start' ms
      let ms ← indclearAligned bxp indlvl indbns' (roundup start' N') (N - roundup start' N') ms
      let indbns'' := updRange indbns' (divup start' N') (nIndirect - divup start' N') 0
      let (ms, v) ← updateBlock bxp raggedBn indbns indbns'' ms
      pure (ms, iblocks.set (start / N) (addr2w v))

/-- Clear a range of pointers that does not lie inside one tree. -/
def indclearMultipleBlocks (bxp : BallocXparams) (indlvl : ℕ) (indbns : List Waddr)
    (start len : ℕ) (ms : BmapCacheType) : TxnProg (BmapCacheType × List Waddr) := do
  let N := nIndirect ^ (indlvl + 1)
  let (ms, indbns') ← indclearToAligned bxp indlvl indbns start ms
  let len' := len - (roundup start N - start)
  let start' := start + (roundup start N - start)
  let ms ← indclearAligned bxp indlvl indbns' start' (len' / N * N) ms
  let indbns'' := updRange indbns' (start' / N) (len' / N) 0
  let start'' := start' + len' / N * N
  let len'' := len' % N
  indclearFromAligned bxp indlvl indbns'' start'' len'' ms

/-- Clear a range of pointers of a tree. -/
def indclear (bxp : BallocXparams) : (indlvl root start len : ℕ) → BmapCacheType →
    TxnProg (BmapCacheType × ℕ)
  | 0, root, start, len, ms =>
    if root = 0 then pure (ms, 0) else
    if len = 0 then pure (ms, root) else do
      let indbns ← IndRec.read root
      updateBlock bxp root indbns (updRange indbns start len 0) ms
  | indlvl + 1, root, start, len, ms =>
    let N := nIndirect ^ (indlvl + 1)
    if root = 0 then pure (ms, 0) else
    if len = 0 then pure (ms, root) else do
      let indbns ← IndRec.read root
      let (ms, indbns') ← (if len ≤ N - start % N then do
          let (ms, v) ← indclear bxp indlvl (indbns.getD (start / N) 0).toNat (start % N) len ms
          pure (ms, indbns.set (start / N) (addr2w v))
        else indclearMultipleBlocks bxp indlvl indbns start len ms :
          TxnProg (BmapCacheType × List Waddr))
      updateBlock bxp root indbns indbns' ms

/-! ### Writing -/

def indputGetBlocks (isAlloc : Bool) (ir : ℕ) : TxnProg (List Waddr) :=
  if isAlloc then pure (List.replicate nIndirect 0) else IndRec.read ir

def indputUpdIfNecessary (ir v : ℕ) (indbns : List Waddr) (toGrow : ℕ) : TxnProg Unit :=
  if v = (indbns.getD toGrow 0).toNat then pure ()
  else IndRec.write ir (indbns.set toGrow (addr2w v))

/-- Set a pointer of a tree, allocating the index blocks on the way.  The result is the root, or
zero if there is no space. -/
def indput (bxp : BallocXparams) : (indlvl root off : ℕ) → Waddr → BmapCacheType →
    TxnProg (BmapCacheType × ℕ)
  | 0, root, off, bn, ms => do
    let (ms, ir) ← (if root = 0 then BALLOCC.alloc bxp ms else pure (ms, some root) :
      TxnProg (BmapCacheType × Option ℕ))
    match ir with
    | none => pure (ms, 0)
    | some ir => do
      (if root = 0 then IndRec.write ir ((List.replicate nIndirect 0).set off bn)
        else IndRec.put ir off bn : TxnProg Unit)
      pure (ms, ir)
  | indlvl + 1, root, off, bn, ms => do
    let N := nIndirect ^ (indlvl + 1)
    let (ms, ir) ← (if root = 0 then BALLOCC.alloc bxp ms else pure (ms, some root) :
      TxnProg (BmapCacheType × Option ℕ))
    match ir with
    | none => pure (ms, 0)
    | some ir => do
      let toGrow := off / N
      let indbns ← indputGetBlocks (root = 0) ir
      let irToGrow := (indbns.getD toGrow 0).toNat
      let (ms, v) ← indput bxp indlvl irToGrow (off % N) bn ms
      if v = 0 then pure (ms, 0)
      else do
        indputUpdIfNecessary ir v indbns toGrow
        pure (ms, ir)

/-! ### The pointers of an inode -/

variable {IRec IAttr : Type} (B : BlockPtrSig IRec IAttr)

/-- The largest number of blocks of a file. -/
def nBlocks : ℕ := B.nDirect + nIndirect + nIndirect ^ 2 + nIndirect ^ 3

def get (ir : IRec) (off : ℕ) : TxnProg Waddr :=
  if off < B.nDirect then pure ((B.irBlocks ir).getD off 0)
  else
    let off := off - B.nDirect
    if off < nIndirect then indget 0 (B.irIndPtr ir) off
    else
      let off := off - nIndirect
      if off < nIndirect ^ 2 then indget 1 (B.irDindPtr ir) off
      else
        let off := off - nIndirect ^ 2
        indget 2 (B.irTindPtr ir) off

def read (ir : IRec) : TxnProg (List Waddr) :=
  if B.irLen ir ≤ B.nDirect then pure ((B.irBlocks ir).take (B.irLen ir))
  else do
    let indbns ← indread 0 (B.irIndPtr ir)
    let dindbns ← indread 1 (B.irDindPtr ir)
    let tindbns ← indread 2 (B.irTindPtr ir)
    pure ((B.irBlocks ir ++ indbns ++ dindbns ++ tindbns).take (B.irLen ir))

/-- The number of pointers in the indirect trees below a level. -/
def levelStart (indlvl : ℕ) : ℕ :=
  ((List.range indlvl).map fun i => nIndirect ^ (i + 1)).foldl (· + ·) 0

def indreadRangeHelper (indlvl bn start len : ℕ) : TxnProg (List Waddr) :=
  let localstart := levelStart indlvl
  let maxlen := nIndirect ^ (indlvl + 1)
  if localstart < start + len then
    if start < localstart + maxlen then
      let start' := start - localstart
      let len' := len - (localstart - start)
      let len'' := min len' (maxlen - start')
      indreadRange indlvl bn start' len''
    else pure []
  else pure []

/-- A range of the pointers. -/
def readRange (ir : IRec) (start len : ℕ) : TxnProg (List Waddr) := do
  let rdir := ((B.irBlocks ir).drop start).take len
  let len := len - (B.nDirect - start)
  let start := start - B.nDirect
  let rind ← indreadRangeHelper 0 (B.irIndPtr ir) start len
  let rdind ← indreadRangeHelper 1 (B.irDindPtr ir) start len
  let rtind ← indreadRangeHelper 2 (B.irTindPtr ir) start len
  pure (rdir ++ rind ++ rdind ++ rtind)

def indshrinkHelper (bxp : BallocXparams) (indlvl bn nl : ℕ) (ms : BmapCacheType) :
    TxnProg (BmapCacheType × ℕ) :=
  let start := levelStart indlvl
  let len := nIndirect ^ (indlvl + 1)
  if nl < start + len then indclear bxp indlvl bn (nl - start) (len - (nl - start)) ms
  else pure (ms, bn)

def indshrink (bxp : BallocXparams) (ir : IRec) (nl : ℕ) (ms : BmapCacheType) :
    TxnProg (BmapCacheType × ℕ × ℕ × ℕ) := do
  let (ms, indptr) ← indshrinkHelper bxp 0 (B.irIndPtr ir) nl ms
  let (ms, dindptr) ← indshrinkHelper bxp 1 (B.irDindPtr ir) nl ms
  let (ms, tindptr) ← indshrinkHelper bxp 2 (B.irTindPtr ir) nl ms
  pure (ms, indptr, dindptr, tindptr)

/-- Drop the last `nr` pointers. -/
def shrink (bxp : BallocXparams) (ir : IRec) (nr : ℕ) (ms : BmapCacheType) :
    TxnProg (BmapCacheType × IRec) :=
  let ol := B.irLen ir
  let nl := ol - nr
  if ol ≤ B.nDirect then
    pure (ms, B.updIRec ir nl (B.irIndPtr ir) (B.irDindPtr ir) (B.irTindPtr ir)
      (updRangeFast (B.irBlocks ir) nl (B.nDirect - nl) 0))
  else do
    let (ms, indptr, dindptr, tindptr) ← indshrink B bxp ir (nl - B.nDirect) ms
    pure (ms, B.updIRec ir nl indptr dindptr tindptr
      (updRangeFast (B.irBlocks ir) nl (B.nDirect - nl) 0))

def indgrow (bxp : BallocXparams) (ir : IRec) (off : ℕ) (bn : Waddr) (ms : BmapCacheType) :
    TxnProg (BmapCacheType × ℕ × ℕ × ℕ × ℕ) :=
  if off < nIndirect then do
    let (ms, v) ← indput bxp 0 (B.irIndPtr ir) off bn ms
    pure (ms, v, v, B.irDindPtr ir, B.irTindPtr ir)
  else
    let off := off - nIndirect
    if off < nIndirect ^ 2 then do
      let (ms, v) ← indput bxp 1 (B.irDindPtr ir) off bn ms
      pure (ms, v, B.irIndPtr ir, v, B.irTindPtr ir)
    else do
      let off := off - nIndirect ^ 2
      let (ms, v) ← indput bxp 2 (B.irTindPtr ir) off bn ms
      pure (ms, v, B.irIndPtr ir, B.irDindPtr ir, v)

/-- Add a pointer at the end. -/
def grow (bxp : BallocXparams) (ir : IRec) (bn : Waddr) (ms : BmapCacheType) :
    TxnProg (BmapCacheType × Res IRec) :=
  let len := B.irLen ir
  if len < B.nDirect then
    pure (ms, .ok (B.updIRec ir (len + 1) (B.irIndPtr ir) (B.irDindPtr ir) (B.irTindPtr ir)
      ((B.irBlocks ir).set len bn)))
  else
    let off := len - B.nDirect
    if bn = 0 then pure (ms, .ok (B.updLen ir (len + 1)))
    else do
      let (ms, v, indptr, dindptr, tindptr) ← indgrow B bxp ir off bn ms
      if v = 0 then pure (ms, .error .ENOSPCBLOCK)
      else pure (ms, .ok (B.updIRec ir (len + 1) indptr dindptr tindptr (B.irBlocks ir)))

theorem atMost_indget (indlvl bn off : ℕ) : Txn.AtMost 0 (indget indlvl bn off) := by
  induction indlvl generalizing bn off with
  | zero =>
    unfold indget
    split_ifs
    · exact Txn.atMost_pure 0 _
    · exact RASig.atMost_get bn _
  | succ indlvl ih =>
    unfold indget
    split_ifs
    · exact Txn.atMost_pure 0 _
    · exact (RASig.atMost_get bn _).after fun v => ih v.toNat _

theorem atMost_get (ir : IRec) (off : ℕ) : Txn.AtMost 0 (get B ir off) := by
  unfold get
  dsimp only
  split_ifs
  · exact Txn.atMost_pure 0 _
  · exact atMost_indget _ _ _
  · exact atMost_indget _ _ _
  · exact atMost_indget _ _ _

end BlockPtr

end Fscq
