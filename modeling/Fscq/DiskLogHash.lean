import Fscq.AsyncRecArray
import Fscq.FSLayout
import Fscq.Hashmap

/-!
# The disk log

The log on disk is a header block, a range of descriptor blocks with the addresses of the entries
and a range of data blocks with their values.  The header holds the lengths of the log before and
after the last operation on it and the checksums of its descriptor and data blocks.  An extension
writes the new blocks and the header and syncs them together, so that a crash may leave a header
without its blocks; recovery finds out by comparing the checksums and goes back to the previous
lengths.
-/

namespace Fscq

open CrashProg

namespace PaddedLog

/-- The array of addresses in the descriptor blocks. -/
def descSig : RASig LogXparams where
  raStart := LogXparams.logDescriptor
  raLen := LogXparams.logDescLen
  itemtype := .wordF addrlen
  itemsPerVal := valulen / addrlen
  blocksz_ok := valulen_eq_addrs

/-- The array of values in the data blocks. -/
def dataSig : RASig LogXparams where
  raStart := LogXparams.logData
  raLen := LogXparams.logLen
  itemtype := .wordF valulen
  itemsPerVal := 1
  blocksz_ok := (Nat.one_mul valulen).symm

/-! ### The header -/

/-- The contents of the header block. -/
structure Hdr where
  previousLength : ℕ × ℕ
  currentLength : ℕ × ℕ
  checksum : BitVec hashlen × BitVec hashlen

namespace Hdr

def headerType : Rec.Ty := .recF
  [("previous_ndesc", .wordF addrlen), ("previous_ndata", .wordF addrlen),
    ("ndesc", .wordF addrlen), ("ndata", .wordF addrlen),
    ("addr_checksum", .wordF hashlen), ("valu_checksum", .wordF hashlen)]

abbrev Header : Type := headerType.data

def mkHeader (h : Hdr) : Header :=
  (addr2w h.previousLength.1, addr2w h.previousLength.2, addr2w h.currentLength.1,
    addr2w h.currentLength.2, h.checksum.1, h.checksum.2, ())

theorem plus_minus_header : headerType.len + (valulen - headerType.len) = valulen := by
  have : headerType.len = 320 := rfl
  rw [this, valulen_is]

def hdr2val (h : Header) : Valu :=
  (zext (Rec.toWord headerType h) (valulen - headerType.len)).cast plus_minus_header

def val2hdr (v : Valu) : Header :=
  Rec.ofWord headerType (split1 _ (valulen - headerType.len) (v.cast plus_minus_header.symm))

/-- The header as numbers. -/
def ofHeader : Header → Hdr
  | ((pd : Waddr), (pv : Waddr), (d : Waddr), (v : Waddr), (ha : BitVec hashlen),
      (hv : BitVec hashlen), _) => ⟨(pd.toNat, pv.toNat), (d.toNat, v.toNat), (ha, hv)⟩

end Hdr

/-! ### Headers and blocks as words -/

namespace Hdr

/-- The header block for a header. -/
def encode (h : Hdr) : Valu := hdr2val (mkHeader h)

/-- The lengths fit in words. -/
structure Good (h : Hdr) : Prop where
  prev₁ : h.previousLength.1 < 2 ^ addrlen
  prev₂ : h.previousLength.2 < 2 ^ addrlen
  cur₁ : h.currentLength.1 < 2 ^ addrlen
  cur₂ : h.currentLength.2 < 2 ^ addrlen

theorem val2hdr_hdr2val (h : Header) : val2hdr (hdr2val h) = h := by
  rw [val2hdr, hdr2val, Rec.cast_cast_self, split1_zext]
  refine Rec.ofWord_toWord headerType h ?_
  simp only [headerType, Rec.WellFormed]
  trivial

theorem ofHeader_encode {h : Hdr} (hg : h.Good) : ofHeader (val2hdr h.encode) = h := by
  rw [encode, val2hdr_hdr2val]
  simp only [mkHeader, ofHeader, toNat_addr2w hg.prev₁, toNat_addr2w hg.prev₂,
    toNat_addr2w hg.cur₁, toNat_addr2w hg.cur₂]

end Hdr

theorem dataSig_block2val (v : Valu) : dataSig.block2val [v] = v := by
  have h : dataSig.block2val [v] =
      ((combine v (0 : BitVec (0 * valulen))).cast (by omega)).cast (Nat.one_mul valulen) := rfl
  ext i hi
  rw [h, ← BitVec.getLsbD_eq_getElem, BitVec.getLsbD_cast, BitVec.getLsbD_cast, getLsbD_combine,
    if_pos hi, BitVec.getLsbD_eq_getElem]

theorem dataSig_val2block (v : Valu) : dataSig.val2block v = [v] := by
  conv_lhs => rw [← dataSig_block2val v]
  refine dataSig.val2block_block2val rfl fun x _ => ?_
  simp only [dataSig, Rec.WellFormed]

theorem dataSig_items (vl : List Valu) : dataSig.items vl = vl := by
  induction vl with
  | nil => rfl
  | cons v vl ih =>
    rw [RASig.items, List.flatMap_cons, ← RASig.items, ih, dataSig_val2block]
    rfl

theorem dataSig_nopadIpack (vl : List dataSig.Item) : dataSig.nopadIpack vl = vl := by
  have h : nopadListChunk vl dataSig.itemsPerVal = vl.map fun x => [x] := nopadListChunk_one vl
  rw [RASig.nopadIpack, h, List.map_map]
  refine (List.map_congr_left fun v _ => ?_).trans (List.map_id _)
  exact dataSig_block2val v

variable [Platform]

namespace Hdr

def read (xp : LogXparams) (cs : CacheState) : Prog (CacheState × Hdr) := do
  let (cs, v) ← BufCache.read xp.logHeader cs
  pure (cs, ofHeader (val2hdr v))

def write (xp : LogXparams) (h : Hdr) (cs : CacheState) : Prog CacheState :=
  BufCache.write xp.logHeader (hdr2val (mkHeader h)) cs

def sync (xp : LogXparams) (cs : CacheState) : Prog CacheState :=
  BufCache.sync xp.logHeader cs

def syncNow (xp : LogXparams) (cs : CacheState) : Prog CacheState := do
  let cs ← BufCache.beginSync cs
  let cs ← BufCache.sync xp.logHeader cs
  BufCache.endSync cs

def init (xp : LogXparams) (cs : CacheState) : Prog CacheState := do
  let h ← Prog.hash defaultValu
  let cs ← BufCache.write xp.logHeader (hdr2val (mkHeader ⟨(0, 0), (0, 0), (h, h)⟩)) cs
  let cs ← BufCache.beginSync cs
  let cs ← BufCache.sync xp.logHeader cs
  BufCache.endSync cs

end Hdr

/-! ### The log -/

abbrev Entry := ℕ × Valu

abbrev Contents := List Entry

def entAddr (e : Entry) : descSig.Item := addr2w e.1

def entValu (e : Entry) : Valu := e.2

def wordToNat (w : descSig.Item) : ℕ := BitVec.toNat (w := addrlen) w

def ndescLog (log : Contents) : ℕ := divup log.length descSig.itemsPerVal

def logNonzero : Contents → Contents
  | [] => []
  | (0, _) :: rest => logNonzero rest
  | e :: rest => e :: logNonzero rest

def valsNonzero (log : Contents) : List Valu := (logNonzero log).map entValu

def nonzeroAddrs : List ℕ → ℕ
  | [] => 0
  | 0 :: rest => nonzeroAddrs rest
  | _ :: rest => nonzeroAddrs rest + 1

/-- Pair the nonzero addresses with the values. -/
def combineNonzero : List ℕ → List Valu → Contents
  | 0 :: al, v :: vl => combineNonzero al (v :: vl)
  | a :: al, v :: vl => (a, v) :: combineNonzero al vl
  | _, _ => []

def ndataLog (log : Contents) : ℕ := nonzeroAddrs (log.map Prod.fst)

/-- Entries that may be put into the log. -/
def EntryValid (e : Entry) : Prop := e.1 ≠ 0 ∧ e.1 < 2 ^ addrlen

def LoglenValid (xp : LogXparams) (ndesc ndata : ℕ) : Prop :=
  ndesc ≤ xp.logDescLen ∧ ndata ≤ xp.logLen

instance (xp : LogXparams) (ndesc ndata : ℕ) : Decidable (LoglenValid xp ndesc ndata) :=
  inferInstanceAs (Decidable (_ ∧ _))

/-- The room left in the log, in entries. -/
def avail (xp : LogXparams) (cs : CacheState) : Prog (CacheState × ℕ) := do
  let (cs, nr) ← Hdr.read xp cs
  pure (cs, xp.logLen - nr.currentLength.1 * descSig.itemsPerVal)

def read (xp : LogXparams) (cs : CacheState) : Prog (CacheState × Contents) := do
  let (cs, nr) ← Hdr.read xp cs
  let (cs, wal) ← AsyncRecArray.readAll descSig xp nr.currentLength.1 cs
  let al := wal.map wordToNat
  let (cs, vl) ← AsyncRecArray.readAll dataSig xp nr.currentLength.2 cs
  pure (cs, combineNonzero al vl)

def init (xp : LogXparams) (cs : CacheState) : Prog CacheState := Hdr.init xp cs

def trunc (xp : LogXparams) (cs : CacheState) : Prog CacheState := do
  let (cs, nr) ← Hdr.read xp cs
  let h ← Prog.hash defaultValu
  let cs ← Hdr.write xp ⟨nr.currentLength, (0, 0), (h, h)⟩ cs
  Hdr.syncNow xp cs

/-- Append entries to the log, unless they do not fit. -/
def extend (xp : LogXparams) (log : Contents) (cs : CacheState) : Prog (CacheState × Bool) := do
  let (cs, nr) ← Hdr.read xp cs
  let (ndesc, ndata) := nr.currentLength
  let (hAddr, hValu) := nr.checksum
  let (nndesc, nndata) := (ndescLog log, ndataLog log)
  if LoglenValid xp (ndesc + nndesc) (ndata + nndata) then do
    let hAddr ← hashList hAddr (descSig.nopadIpack (log.map entAddr))
    let hValu ← hashList hValu (valsNonzero log)
    let cs ← AsyncRecArray.writeAligned descSig xp ndesc (log.map entAddr) cs
    let cs ← AsyncRecArray.writeAligned dataSig xp ndata (log.map entValu) cs
    let cs ← Hdr.write xp ⟨(ndesc, ndata), (ndesc + nndesc, ndata + nndata), (hAddr, hValu)⟩ cs
    let cs ← BufCache.beginSync cs
    let cs ← AsyncRecArray.syncAligned descSig xp ndesc nndesc cs
    let cs ← AsyncRecArray.syncAligned dataSig xp ndata nndata cs
    let cs ← Hdr.sync xp cs
    let cs ← BufCache.endSync cs
    pure (cs, true)
  else pure (cs, false)

/-- Check the log after a crash, and roll it back if its blocks do not match the header. -/
def recover (xp : LogXparams) (cs : CacheState) : Prog CacheState := do
  let (cs, header) ← Hdr.read xp cs
  let (prevNdesc, prevNdata) := header.previousLength
  let (ndesc, ndata) := header.currentLength
  let (addrChecksum, valuChecksum) := header.checksum
  let (cs, wal) ← AsyncRecArray.readAll descSig xp ndesc cs
  let (cs, vl) ← AsyncRecArray.readAll dataSig xp ndata cs
  let defaultHash ← Prog.hash defaultValu
  let hAddr ← hashList defaultHash (descSig.ipack wal)
  let hValu ← hashList defaultHash vl
  if addrChecksum = hAddr ∧ valuChecksum = hValu then pure cs
  else do
    Prog.debug "hash mismatch" 0
    let (cs, wal) ← AsyncRecArray.readAll descSig xp prevNdesc cs
    let (cs, vl) ← AsyncRecArray.readAll dataSig xp prevNdata cs
    let addrChecksum ← hashList defaultHash (descSig.ipack wal)
    let valuChecksum ← hashList defaultHash vl
    let cs ← Hdr.write xp ⟨(prevNdesc, prevNdata), (prevNdesc, prevNdata),
      (addrChecksum, valuChecksum)⟩ cs
    Hdr.syncNow xp cs

end PaddedLog

/-! ### The log without its padding -/

namespace DLog

variable [Platform]

def read : LogXparams → CacheState → Prog (CacheState × PaddedLog.Contents) := PaddedLog.read

def init : LogXparams → CacheState → Prog CacheState := PaddedLog.init

def trunc : LogXparams → CacheState → Prog CacheState := PaddedLog.trunc

def avail : LogXparams → CacheState → Prog (CacheState × ℕ) := PaddedLog.avail

def extend : LogXparams → PaddedLog.Contents → CacheState → Prog (CacheState × Bool) :=
  PaddedLog.extend

def recover : LogXparams → CacheState → Prog CacheState := PaddedLog.recover

end DLog

end Fscq
