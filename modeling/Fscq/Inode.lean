import Fscq.BlockPtrTight

/-!
# Inodes

An inode is a record of the inode array: the number of blocks of the file, its attributes and its
block pointers.  The records are cached in memory.
-/

namespace Fscq

open CrashProg

namespace INODE

/-! ### The records -/

def iattrtype : Rec.Ty := .recF
  [("bytes", .wordF 64), ("uid", .wordF 32), ("gid", .wordF 32), ("dev", .wordF 64),
    ("mtime", .wordF 32), ("atime", .wordF 32), ("ctime", .wordF 32), ("itype", .wordF 8),
    ("unused", .wordF 24)]

def nDirect : ℕ := 7

def irectype : Rec.Ty := .recF
  [("len", .wordF addrlen), ("attrs", iattrtype), ("indptr", .wordF addrlen),
    ("dindptr", .wordF addrlen), ("tindptr", .wordF addrlen),
    ("blocks", .arrayF (.wordF addrlen) nDirect)]

/-- The array of inodes. -/
def irecSig : RASig InodeXparams where
  raStart := InodeXparams.ixStart
  raLen := InodeXparams.ixLen
  itemtype := irectype
  itemsPerVal := valulen / irectype.len
  blocksz_ok := by rw [valulen_is]; rfl

abbrev IAttr : Type := iattrtype.data

abbrev IRec : Type := irectype.data

/-- A record from its fields. -/
def mkIRec (len : Waddr) (attrs : IAttr) (indptr dindptr tindptr : Waddr) (blocks : List Waddr) :
    IRec := (len, attrs, indptr, dindptr, tindptr, blocks, ())

def irLen : IRec → ℕ
  | ((len : Waddr), _) => len.toNat

def irAttrs : IRec → IAttr
  | (_, attrs, _) => attrs

def irIndPtr : IRec → ℕ
  | (_, _, (indptr : Waddr), _) => indptr.toNat

def irDindPtr : IRec → ℕ
  | (_, _, _, (dindptr : Waddr), _) => dindptr.toNat

def irTindPtr : IRec → ℕ
  | (_, _, _, _, (tindptr : Waddr), _) => tindptr.toNat

def irBlocks : IRec → List Waddr
  | (_, _, _, _, _, blocks, _) => blocks

def updLen : IRec → ℕ → IRec
  | (_, r), v => (addr2w v, r)

def updIRec : IRec → (len ibptr dibptr tibptr : ℕ) → List Waddr → IRec
  | (_, attrs, _), len, ibptr, dibptr, tibptr, dbns =>
    mkIRec (addr2w len) attrs (addr2w ibptr) (addr2w dibptr) (addr2w tibptr) dbns

def updAttrs : IRec → IAttr → IRec
  | (len, _, r), attrs => (len, attrs, r)

theorem mkIRec_addr2w (l : Waddr) (a : IAttr) (i d t : Waddr) (b : List Waddr) :
    mkIRec l a i d t b = mkIRec l a (addr2w i.toNat) (addr2w d.toNat) (addr2w t.toNat) b := by
  simp [addr2w]

/-- The block pointers of an inode. -/
def bptrSig : BlockPtrSig IRec IAttr where
  nDirect := nDirect
  nDirect_bound := by decide
  irLen := irLen
  irIndPtr := irIndPtr
  irDindPtr := irDindPtr
  irTindPtr := irTindPtr
  irBlocks := irBlocks
  irAttrs := irAttrs
  updLen := updLen
  updIRec := updIRec
  updIRec_eq_updLen := by
    rintro ⟨l, a, i, d, t, b, u⟩ len h
    exact mkIRec_addr2w (addr2w len) a i d t b
  len_updIRec := by
    rintro ⟨l, a, i, d, t, b, u⟩ len i' d' t' bns h
    exact toNat_addr2w h
  indPtr_updIRec := by
    rintro ⟨l, a, i, d, t, b, u⟩ len i' d' t' bns h
    exact toNat_addr2w h
  dindPtr_updIRec := by
    rintro ⟨l, a, i, d, t, b, u⟩ len i' d' t' bns h
    exact toNat_addr2w h
  tindPtr_updIRec := by
    rintro ⟨l, a, i, d, t, b, u⟩ len i' d' t' bns h
    exact toNat_addr2w h
  blocks_updIRec := by
    rintro ⟨l, a, i, d, t, b, u⟩ len i' d' t' bns
    rfl
  attrs_updIRec := by
    rintro ⟨l, a, i, d, t, b, u⟩ len i' d' t' bns
    rfl
  len_lt ir := (ir.1 : Waddr).isLt
  indPtr_lt ir := (ir.2.2.1 : Waddr).isLt
  dindPtr_lt ir := (ir.2.2.2.1 : Waddr).isLt
  tindPtr_lt ir := (ir.2.2.2.2.1 : Waddr).isLt

/-! ### Attributes -/

def iattr0 : IAttr := Rec.ofWord iattrtype 0

def aBytes : IAttr → BitVec 64
  | ((bytes : BitVec 64), _) => bytes

inductive IAttrUpdArg
  | uBytes (v : BitVec 64)
  | uMTime (v : BitVec 32)
  | uType (v : BitVec 8)
  | uDev (v : BitVec 64)

def iattrUpd : IAttr → IAttrUpdArg → IAttr
  | (_, e), .uBytes v => (v, e)
  | (bytes, uid, gid, dev, _, e), .uMTime v => (bytes, uid, gid, dev, v, e)
  | (bytes, uid, gid, dev, mtime, atime, ctime, _, e), .uType v =>
    (bytes, uid, gid, dev, mtime, atime, ctime, v, e)
  | (bytes, uid, gid, _, e), .uDev v => (bytes, uid, gid, v, e)

/-! ### The programs -/

/-- The largest number of blocks of a file. -/
def nBlocks : ℕ := BlockPtr.nBlocks bptrSig

abbrev Cache := irecSig.Cache

variable (xp : InodeXparams) (inum : ℕ)

def init : TxnProg Unit := irecSig.init xp

def getlen (cache : Cache) : TxnProg (Cache × ℕ) := do
  let (cache, ir) ← irecSig.getCached xp inum cache
  pure (cache, irLen ir)

def getattrs (cache : Cache) : TxnProg (Cache × IAttr) := do
  let (cache, i) ← irecSig.getCached xp inum cache
  pure (cache, irAttrs i)

def setattrs (attr : IAttr) (cache : Cache) : TxnProg Cache := do
  let (cache, i) ← irecSig.getCached xp inum cache
  irecSig.putCached xp inum (updAttrs i attr) cache

def updattr (a : IAttrUpdArg) (cache : Cache) : TxnProg Cache := do
  let (cache, i) ← irecSig.getCached xp inum cache
  irecSig.putCached xp inum (updAttrs i (iattrUpd (irAttrs i) a)) cache

def getbnum (off : ℕ) (cache : Cache) : TxnProg (Cache × Waddr) := do
  let (cache, ir) ← irecSig.getCached xp inum cache
  let r ← BlockPtr.get bptrSig ir off
  pure (cache, r)

def getallbnum (cache : Cache) : TxnProg (Cache × List Waddr) := do
  let (cache, ir) ← irecSig.getCached xp inum cache
  let r ← BlockPtr.read bptrSig ir
  pure (cache, r)

def shrink (bxp : BallocXparams) (nr : ℕ) (cache : Cache) (ms : BmapCacheType) :
    TxnProg (Cache × BmapCacheType) := do
  let (cache, ir) ← irecSig.getCached xp inum cache
  let (ms, ir') ← BlockPtr.shrink bptrSig bxp ir nr ms
  let cache ← irecSig.putCached xp inum ir' cache
  pure (cache, ms)

/-- Shrinks and sets the attributes, with one write of the record. -/
def reset (bxp : BallocXparams) (nr : ℕ) (attr : IAttr) (cache : Cache) (ms : BmapCacheType) :
    TxnProg (Cache × BmapCacheType) := do
  let (cache, ir) ← irecSig.getCached xp inum cache
  let (ms, ir') ← BlockPtr.shrink bptrSig bxp ir nr ms
  let cache ← irecSig.putCached xp inum (updAttrs ir' attr) cache
  pure (cache, ms)

def grow (bxp : BallocXparams) (bn : ℕ) (cache : Cache) (ms : BmapCacheType) :
    TxnProg (Cache × BmapCacheType × Res Unit) := do
  let (cache, ir) ← irecSig.getCached xp inum cache
  let (ms, r) ← BlockPtr.grow bptrSig bxp ir (addr2w bn) ms
  match r with
  | .error e => pure (cache, ms, .error e)
  | .ok ir' => do
    let cache ← irecSig.putCached xp inum ir' cache
    pure (cache, ms, .ok ())

theorem atMost_updattr (a : IAttrUpdArg) (cache : Cache) :
    Txn.AtMost 1 (updattr xp inum a cache) :=
  (RASig.atMost_getCached xp inum cache).after fun _ => RASig.atMost_putCached xp inum _ _

theorem atMost_getbnum (off : ℕ) (cache : Cache) : Txn.AtMost 0 (getbnum xp inum off cache) :=
  (RASig.atMost_getCached xp inum cache).after fun _ =>
    (BlockPtr.atMost_get bptrSig _ off).after fun _ => Txn.atMost_pure 0 _

theorem atMost_getlen (cache : Cache) : Txn.AtMost 0 (getlen xp inum cache) :=
  (RASig.atMost_getCached xp inum cache).after fun _ => Txn.atMost_pure 0 _

theorem atMost_grow (bxp : BallocXparams) (bn : ℕ) (cache : Cache) (ms : BmapCacheType) :
    Txn.AtMost 7 (grow xp inum bxp bn cache ms) := by
  apply (RASig.atMost_getCached xp inum cache).after
  rintro ⟨cache', ir⟩
  apply (BlockPtr.atMost_ptrGrow bxp ir (addr2w bn) ms).bind (k := 1)
  rintro ⟨ms', _ | ir'⟩
  · exact Txn.atMost_pure 1 _
  · exact (RASig.atMost_putCached xp inum ir' cache').bind fun _ => Txn.atMost_pure 0 _

/-! ## The inodes of a memory -/

/-- The number of inodes. -/
def ninodes : ℕ := xp.ixLen * irecSig.itemsPerVal

variable (m : Mem)

def irec : IRec := irecSig.item m xp inum

/-- The blocks of a file. -/
def blocks : List ℕ := BlockPtr.recBlocks bptrSig m (irec xp inum m)

/-- The index blocks of a file. -/
def nodes : Multiset ℕ := BlockPtr.recNodes bptrSig m (irec xp inum m)

def attrs : IAttr := irAttrs (irec xp inum m)

/-- The index blocks on the way to a block of a file. -/
def path (off : ℕ) : List ℕ := BlockPtr.recPath bptrSig m (irec xp inum m) off

/-- A file has no pointers past its end and no index blocks without pointers. -/
def Tight : Prop := BlockPtr.Tight bptrSig m (irec xp inum m)

/-- The number of index blocks that are missing for one more block of a file. -/
def missing : ℕ :=
  BlockPtr.recMissing bptrSig m (irec xp inum m) (bptrSig.irLen (irec xp inum m))

variable {xp inum m} {n bn nr off : ℕ} {bxp : BallocXparams} {cache : Cache} {ir : IRec} {attr : IAttr}
  {ms : BmapCacheType} {m' : Mem} {ms' : BmapCacheType}

theorem length_blocks : (blocks xp inum m).length = irLen (irec xp inum m) :=
  BlockPtr.length_recBlocks

theorem card_nodes_le (h : Tight xp inum m) (hnd : (nodes xp inum m).Nodup) :
    (nodes xp inum m).card ≤ 3 * (blocks xp inum m).length := by
  rw [length_blocks]
  exact BlockPtr.Tight.card_recNodes_le h hnd

theorem missing_le (xp : InodeXparams) (inum : ℕ) (m : Mem) : missing xp inum m ≤ 3 :=
  (Nat.le_add_left _ _).trans (BlockPtr.length_recPath_add_recMissing_le m _ _)

theorem wellFormed_iattr (a : IAttr) : Rec.WellFormed iattrtype a := by
  obtain ⟨b, u, g, d, m, at', c, t, u', u''⟩ := a
  simp [iattrtype, Rec.WellFormed, Rec.WellFormedFields]

theorem wellFormed_iff : Rec.WellFormed irectype ir ↔ (irBlocks ir).length = nDirect := by
  obtain ⟨l, a, i, d, t, b, u⟩ := ir
  have ha := wellFormed_iattr a
  simp only [irectype, Rec.WellFormed, Rec.WellFormedFields, irBlocks]
  tauto

theorem length_irBlocks : (irBlocks (irec xp inum m)).length = nDirect :=
  wellFormed_iff.1 (RASig.wellFormed_item (R := irecSig) m xp inum)

theorem irBlocks_updAttrs : irBlocks (updAttrs ir attr) = irBlocks ir := by
  obtain ⟨l, a, i, d, t, b, u⟩ := ir
  rfl

theorem irAttrs_updAttrs : irAttrs (updAttrs ir attr) = attr := by
  obtain ⟨l, a, i, d, t, b, u⟩ := ir
  rfl

theorem irLen_updAttrs : irLen (updAttrs ir attr) = irLen ir := by
  obtain ⟨l, a, i, d, t, b, u⟩ := ir
  rfl

theorem recNodes_updAttrs :
    BlockPtr.recNodes bptrSig m (updAttrs ir attr) = BlockPtr.recNodes bptrSig m ir := by
  obtain ⟨l, a, i, d, t, b, u⟩ := ir
  rfl

theorem tight_updAttrs :
    BlockPtr.Tight bptrSig m (updAttrs ir attr) ↔ BlockPtr.Tight bptrSig m ir := by
  obtain ⟨l, a, i, d, t, b, u⟩ := ir
  exact ⟨fun h => ⟨h.past, h.hold⟩, fun h => ⟨h.past, h.hold⟩⟩

theorem recBlocks_updAttrs :
    BlockPtr.recBlocks bptrSig m (updAttrs ir attr) = BlockPtr.recBlocks bptrSig m ir := by
  obtain ⟨l, a, i, d, t, b, u⟩ := ir
  rfl

/-- The memory with one record replaced. -/
def putRec (m : Mem) (xp : InodeXparams) (inum : ℕ) (ir : IRec) : Mem := irecSig.putItem m xp inum ir

theorem irec_putRec (h : (irBlocks ir).length = nDirect) (j : ℕ) :
    irec xp j (putRec m xp inum ir) = if j = inum then ir else irec xp j m :=
  RASig.item_putItem (R := irecSig) (wellFormed_iff.2 h)

theorem putRec_of_not_mem (h : inum < ninodes xp) {a : ℕ} (ha : a ∉ irecSig.region xp) :
    putRec m xp inum ir a = m a := RASig.putItem_of_not_mem (R := irecSig) h ha

theorem irec_congr (h : inum < ninodes xp) (hm : ∀ a ∈ irecSig.region xp, m' a = m a) :
    irec xp inum m' = irec xp inum m := RASig.item_congr (R := irecSig) h hm

/-- The inodes and the bitmap are in different places behind the blocks of the bitmap. -/
structure Layout (n : ℕ) (xp : InodeXparams) (bxp : BallocXparams) : Prop where
  fits : irecSig.Fits n xp
  balloc : bxp.Ok n
  above : BALLOCC.nbits bxp ≤ xp.ixStart
  disjoint : ∀ a ∈ BALLOCC.bmp.region bxp, a ∉ irecSig.region xp

/-! ### Reading -/

theorem wp_getRec {Q : Cache × IRec → Mem → Prop} (hf : irecSig.Fits n xp) (hi : inum < ninodes xp)
    (hc : irecSig.CacheOk m xp cache)
    (hQ : ∀ cache' : Cache, irecSig.CacheOk m xp cache' → Q (cache', irec xp inum m) m) :
    Txn.wp n (irecSig.getCached xp inum cache) Q m := RASig.wp_getCached hf hi hc hQ

theorem wp_putRec {Q : Cache → Mem → Prop} (hf : irecSig.Fits n xp) (hi : inum < ninodes xp)
    (hw : (irBlocks ir).length = nDirect) (hc : irecSig.CacheOk m xp cache)
    (hQ : ∀ cache' : Cache, irecSig.CacheOk (putRec m xp inum ir) xp cache' →
      Q cache' (putRec m xp inum ir)) :
    Txn.wp n (irecSig.putCached xp inum ir cache) Q m :=
  RASig.wp_putCached hf hi (wellFormed_iff.2 hw) hc hQ

theorem wp_getlen {Q : Cache × ℕ → Mem → Prop} (hf : irecSig.Fits n xp) (hi : inum < ninodes xp)
    (hc : irecSig.CacheOk m xp cache)
    (hQ : ∀ cache' : Cache, irecSig.CacheOk m xp cache' → Q (cache', (blocks xp inum m).length) m) :
    Txn.wp n (getlen xp inum cache) Q m := by
  apply wp_bind
  apply wp_getRec hf hi hc
  intro cache' hc'
  apply wp_pure
  rw [← length_blocks]
  exact hQ cache' hc'

theorem wp_getattrs {Q : Cache × IAttr → Mem → Prop} (hf : irecSig.Fits n xp)
    (hi : inum < ninodes xp) (hc : irecSig.CacheOk m xp cache)
    (hQ : ∀ cache' : Cache, irecSig.CacheOk m xp cache' → Q (cache', attrs xp inum m) m) :
    Txn.wp n (getattrs xp inum cache) Q m := by
  apply wp_bind
  apply wp_getRec hf hi hc
  intro cache' hc'
  exact wp_pure (hQ cache' hc')

theorem wp_getbnum {Q : Cache × Waddr → Mem → Prop} (hf : irecSig.Fits n xp)
    (hi : inum < ninodes xp) (hc : irecSig.CacheOk m xp cache)
    (hl : (blocks xp inum m).length ≤ nBlocks) (ho : off < (blocks xp inum m).length)
    (hv : ∀ b ∈ nodes xp inum m, b < n)
    (hQ : ∀ (cache' : Cache) (w : Waddr), irecSig.CacheOk m xp cache' →
      w.toNat = (blocks xp inum m).getD off 0 → Q (cache', w) m) :
    Txn.wp n (getbnum xp inum off cache) Q m := by
  apply wp_bind
  apply wp_getRec hf hi hc
  intro cache' hc'
  apply wp_bind
  apply BlockPtr.wp_ptrGet (ho.trans_le hl) hv
  intro w hw
  apply wp_pure
  apply hQ cache' w hc'
  rw [List.getD_eq_getElem _ _ ho]
  simp [blocks, BlockPtr.recBlocks, hw]

theorem wp_getallbnum {Q : Cache × List Waddr → Mem → Prop} (hf : irecSig.Fits n xp)
    (hi : inum < ninodes xp) (hc : irecSig.CacheOk m xp cache)
    (hl : (blocks xp inum m).length ≤ nBlocks) (hv : ∀ b ∈ nodes xp inum m, b < n)
    (hQ : ∀ (cache' : Cache) (l : List Waddr), irecSig.CacheOk m xp cache' →
      l.map BitVec.toNat = blocks xp inum m → Q (cache', l) m) :
    Txn.wp n (getallbnum xp inum cache) Q m := by
  rw [length_blocks] at hl
  apply wp_bind
  apply wp_getRec hf hi hc
  intro cache' hc'
  apply wp_bind
  apply BlockPtr.wp_ptrRead hl length_irBlocks hv
  intro l hl'
  exact wp_pure (hQ cache' l hc' hl')

/-! ### Writing -/

/-- What an operation on one inode does: it writes the inode array, index blocks of the inode and
free blocks, and the blocks that become or cease to be index blocks are taken from or given to the
allocator. -/
structure Changed (xp : InodeXparams) (bxp : BallocXparams) (inum : ℕ) (m : Mem)
    (ms : BmapCacheType) (m' : Mem) (ms' : BmapCacheType) : Prop where
  step : BALLOCC.Step bxp {a | a ∈ nodes xp inum m + BlockPtr.freeSet m bxp ms ∨
    a ∈ irecSig.region xp} m ms m' ms'
  other : ∀ j < ninodes xp, j ≠ inum → irec xp j m' = irec xp j m
  acc : nodes xp inum m' + BlockPtr.freeSet m' bxp ms' = nodes xp inum m + BlockPtr.freeSet m bxp ms

/-- Replacing a record after an operation on its trees. -/
theorem changed_putRec (hx : Layout n xp bxp) (hi : inum < ninodes xp)
    (hw : (irBlocks ir).length = nDirect)
    (hst : BALLOCC.Step bxp {a | a ∈ nodes xp inum m + BlockPtr.freeSet m bxp ms} m ms m' ms')
    (hg : BlockPtr.Good bxp m ms (nodes xp inum m))
    (hacc : BlockPtr.recNodes bptrSig m' ir + BlockPtr.freeSet m' bxp ms' =
      nodes xp inum m + BlockPtr.freeSet m bxp ms) :
    Changed xp bxp inum m ms (putRec m' xp inum ir) ms' ∧
      nodes xp inum (putRec m' xp inum ir) = BlockPtr.recNodes bptrSig m' ir ∧
      (irLen ir ≤ nBlocks →
        blocks xp inum (putRec m' xp inum ir) = BlockPtr.recBlocks bptrSig m' ir) ∧
      irec xp inum (putRec m' xp inum ir) = ir ∧
      ∀ b ∈ BlockPtr.recNodes bptrSig m' ir, putRec m' xp inum ir b = m' b := by
  have hnot : ∀ b < BALLOCC.nbits bxp, b ∉ irecSig.region xp := by
    intro b hb hr
    have h₁ : xp.ixStart ≤ b := hr.1
    have h₂ := hx.above
    omega
  have hagree : ∀ b ∈ BlockPtr.recNodes bptrSig m' ir, putRec m' xp inum ir b = m' b := by
    intro b hb
    apply putRec_of_not_mem hi
    apply hnot
    have hb' : b ∈ nodes xp inum m + BlockPtr.freeSet m bxp ms := by
      rw [← hacc]
      exact Multiset.mem_add.2 (.inl hb)
    exact (hg.valid b hb').2
  have hself : irec xp inum (putRec m' xp inum ir) = ir := by rw [irec_putRec hw, if_pos rfl]
  have hnodes : nodes xp inum (putRec m' xp inum ir) = BlockPtr.recNodes bptrSig m' ir := by
    rw [nodes, hself, BlockPtr.recNodes_congr hagree]
  have hreg : ∀ a ∈ BALLOCC.bmp.region bxp, putRec m' xp inum ir a = m' a :=
    fun a ha => putRec_of_not_mem hi (hx.disjoint a ha)
  refine ⟨⟨⟨?_, ?_⟩, ?_, ?_⟩, hnodes, ?_, hself, hagree⟩
  · intro a ha haW
    rw [putRec_of_not_mem hi fun hr => haW (.inr hr)]
    exact hst.frame a ha fun h => haW (.inl h)
  · exact fun hc => (hst.coh hc).congr hreg
  · intro j hj hne
    rw [irec_putRec hw, if_neg hne]
    apply irec_congr hj
    intro a ha
    apply hst.frame a fun hb => hx.disjoint a hb ha
    exact fun hb => hnot a (hg.valid a hb).2 ha
  · rw [hnodes, BlockPtr.freeSet_congr hreg, hacc]
  · intro hl
    rw [blocks, hself]
    exact BlockPtr.recBlocks_congr hagree hl

/-- Changing the attributes only. -/
theorem wp_putAttrs {Q : Cache → Mem → Prop} (hx : Layout n xp bxp) (hi : inum < ninodes xp)
    (hc : irecSig.CacheOk m xp cache) (hl : (blocks xp inum m).length ≤ nBlocks)
    (hg : BlockPtr.Good bxp m ms (nodes xp inum m))
    (hQ : ∀ (cache' : Cache) m', irecSig.CacheOk m' xp cache' → Changed xp bxp inum m ms m' ms →
      (∀ a ∉ irecSig.region xp, m' a = m a) →
      nodes xp inum m' = nodes xp inum m → blocks xp inum m' = blocks xp inum m →
      attrs xp inum m' = attr → (Tight xp inum m → Tight xp inum m') → Q cache' m') :
    Txn.wp n (irecSig.putCached xp inum (updAttrs (irec xp inum m) attr) cache) Q m := by
  have hw : (irBlocks (updAttrs (irec xp inum m) attr)).length = nDirect := by
    rw [irBlocks_updAttrs, length_irBlocks]
  have hacc : BlockPtr.recNodes bptrSig m (updAttrs (irec xp inum m) attr) +
      BlockPtr.freeSet m bxp ms = nodes xp inum m + BlockPtr.freeSet m bxp ms := by
    rw [recNodes_updAttrs, nodes]
  have hch := changed_putRec hx hi hw (AllocSig.Step.refl _ _ _ _ _) hg hacc
  apply wp_putRec hx.fits hi hw hc
  intro cache' hc'
  apply hQ cache' _ hc' hch.1 (fun a ha => putRec_of_not_mem hi ha)
  · rw [hch.2.1, recNodes_updAttrs, nodes]
  · rw [hch.2.2.1 (by rwa [irLen_updAttrs, ← length_blocks]), recBlocks_updAttrs, blocks]
  · rw [attrs, irec_putRec hw, if_pos rfl, irAttrs_updAttrs]
  · intro ht
    rw [Tight, hch.2.2.2.1]
    exact (tight_updAttrs.2 ht).congr hch.2.2.2.2

/-- Dropping blocks from the end of a file, with new attributes. -/
theorem wp_shrinkWith {Q : Cache × BmapCacheType → Mem → Prop} {f : IRec → IRec}
    (hx : Layout n xp bxp) (hi : inum < ninodes xp) (hc : irecSig.CacheOk m xp cache)
    (hl : (blocks xp inum m).length ≤ nBlocks) (hg : BlockPtr.Good bxp m ms (nodes xp inum m))
    (hf : ∀ ir, f ir = ir ∨ ∃ attr, f ir = updAttrs ir attr)
    (hQ : ∀ (cache' : Cache) ms' m' ir, irecSig.CacheOk m' xp cache' →
      Changed xp bxp inum m ms m' ms' →
      nodes xp inum m' ≤ nodes xp inum m →
      blocks xp inum m' = (blocks xp inum m).take ((blocks xp inum m).length - nr) →
      irAttrs ir = attrs xp inum m → attrs xp inum m' = irAttrs (f ir) →
      (Tight xp inum m → Tight xp inum m') → Q (cache', ms') m') :
    Txn.wp n (do
      let (cache, ir) ← irecSig.getCached xp inum cache
      let (ms, ir') ← BlockPtr.shrink bptrSig bxp ir nr ms
      let cache ← irecSig.putCached xp inum (f ir') cache
      pure (cache, ms)) Q m := by
  rw [length_blocks] at hl
  apply wp_bind
  apply wp_getRec hx.fits hi hc
  intro cache₁ hc₁
  apply wp_bind
  apply BlockPtr.wp_ptrShrink_tight hx.balloc length_irBlocks hl hg
  intro ms₁ m₁ ir' hs htight
  -- the attributes do not matter for the pointers
  have hnodes : BlockPtr.recNodes bptrSig m₁ (f ir') = BlockPtr.recNodes bptrSig m₁ ir' := by
    rcases hf ir' with h | ⟨attr, h⟩ <;> rw [h]
    exact recNodes_updAttrs
  have hblocks : BlockPtr.recBlocks bptrSig m₁ (f ir') = BlockPtr.recBlocks bptrSig m₁ ir' := by
    rcases hf ir' with h | ⟨attr, h⟩ <;> rw [h]
    exact recBlocks_updAttrs
  have hw : (irBlocks (f ir')).length = nDirect := by
    rcases hf ir' with h | ⟨attr, h⟩ <;> rw [h]
    · exact hs.direct
    · rw [irBlocks_updAttrs]
      exact hs.direct
  have hlen' : irLen (f ir') = irLen (irec xp inum m) - nr := by
    rcases hf ir' with h | ⟨attr, h⟩ <;> rw [h]
    · exact hs.len
    · rw [irLen_updAttrs]
      exact hs.len
  have hnot : ∀ a ∈ irecSig.region xp, m₁ a = m a := by
    intro a ha
    apply hs.step.frame a fun hb => hx.disjoint a hb ha
    intro hb
    have h₁ : xp.ixStart ≤ a := ha.1
    have h₂ := hg.lt_nbits hb
    have h₃ := hx.above
    omega
  have hch := changed_putRec hx hi hw
    (hs.step.mono fun a ha => Multiset.mem_add.2 (.inl ha)) hg (hnodes ▸ hs.acc)
  dsimp only
  apply wp_bind
  apply wp_putRec hx.fits hi hw (hc₁.congr hnot)
  intro cache₂ hc₂
  apply wp_pure
  apply hQ cache₂ ms₁ _ ir' hc₂ hch.1
  · rw [hch.2.1, hnodes]
    exact hs.sub
  · rw [hch.2.2.1 (by rw [hlen']; exact (Nat.sub_le _ _).trans hl), hblocks]
    have hl' : bptrSig.irLen ir' = irLen (irec xp inum m) - nr := hs.len
    apply List.ext_getElem
    · simp only [BlockPtr.length_recBlocks, hl', List.length_take, length_blocks]
      omega
    · intro i h₁ h₂
      rw [BlockPtr.length_recBlocks, hl'] at h₁
      simp only [BlockPtr.recBlocks, blocks, List.getElem_map, List.getElem_range,
        List.getElem_take]
      exact hs.ptr i h₁
  · exact hs.attrs
  · rw [attrs, irec_putRec hw, if_pos rfl]
  · intro ht
    have ht' : BlockPtr.Tight bptrSig m₁ (f ir') := by
      rcases hf ir' with h | ⟨attr, h⟩ <;> rw [h]
      · exact (htight ht).1
      · exact tight_updAttrs.2 (htight ht).1
    rw [Tight, hch.2.2.2.1]
    exact ht'.congr hch.2.2.2.2

theorem wp_shrink {Q : Cache × BmapCacheType → Mem → Prop} (hx : Layout n xp bxp)
    (hi : inum < ninodes xp) (hc : irecSig.CacheOk m xp cache)
    (hl : (blocks xp inum m).length ≤ nBlocks) (hg : BlockPtr.Good bxp m ms (nodes xp inum m))
    (hQ : ∀ (cache' : Cache) ms' m', irecSig.CacheOk m' xp cache' →
      Changed xp bxp inum m ms m' ms' →
      nodes xp inum m' ≤ nodes xp inum m →
      blocks xp inum m' = (blocks xp inum m).take ((blocks xp inum m).length - nr) →
      attrs xp inum m' = attrs xp inum m → (Tight xp inum m → Tight xp inum m') →
      Q (cache', ms') m') :
    Txn.wp n (shrink xp inum bxp nr cache ms) Q m := by
  apply wp_shrinkWith (f := id) hx hi hc hl hg fun ir => .inl rfl
  intro cache' ms' m' ir hc' hch hsub hb ha ha' ht
  exact hQ cache' ms' m' hc' hch hsub hb (ha'.trans ha) ht

theorem wp_reset {Q : Cache × BmapCacheType → Mem → Prop} (hx : Layout n xp bxp)
    (hi : inum < ninodes xp) (hc : irecSig.CacheOk m xp cache)
    (hl : (blocks xp inum m).length ≤ nBlocks) (hg : BlockPtr.Good bxp m ms (nodes xp inum m))
    (hQ : ∀ (cache' : Cache) ms' m', irecSig.CacheOk m' xp cache' →
      Changed xp bxp inum m ms m' ms' →
      nodes xp inum m' ≤ nodes xp inum m →
      blocks xp inum m' = (blocks xp inum m).take ((blocks xp inum m).length - nr) →
      attrs xp inum m' = attr → (Tight xp inum m → Tight xp inum m') → Q (cache', ms') m') :
    Txn.wp n (reset xp inum bxp nr attr cache ms) Q m := by
  apply wp_shrinkWith (f := fun ir => updAttrs ir attr) hx hi hc hl hg fun ir => .inr ⟨attr, rfl⟩
  intro cache' ms' m' ir hc' hch hsub hb ha ha' ht
  exact hQ cache' ms' m' hc' hch hsub hb (ha'.trans irAttrs_updAttrs) ht

/-- Adding a block at the end of a file, unless there are not enough free blocks for the missing index
blocks. -/
theorem wp_grow {Q : Cache × BmapCacheType × Res Unit → Mem → Prop} (hx : Layout n xp bxp)
    (hi : inum < ninodes xp) (hc : irecSig.CacheOk m xp cache)
    (hl : (blocks xp inum m).length < nBlocks) (hg : BlockPtr.Good bxp m ms (nodes xp inum m))
    (h0 : bn ≠ 0) (hbn : bn < 2 ^ addrlen)
    (hQe : (BlockPtr.freeSet m bxp ms).card < missing xp inum m →
      ∀ (cache' : Cache) ms' m', irecSig.CacheOk m' xp cache' → BlockPtr.Leaks bxp m ms m' ms' →
        BlockPtr.freeSet m' bxp ms' = 0 → Q (cache', ms', .error .ENOSPCBLOCK) m')
    (hQ : ∀ (cache' : Cache) ms' m', irecSig.CacheOk m' xp cache' →
      Changed xp bxp inum m ms m' ms' → nodes xp inum m ≤ nodes xp inum m' →
      (nodes xp inum m').card = (nodes xp inum m).card + missing xp inum m →
      blocks xp inum m' = blocks xp inum m ++ [bn] →
      attrs xp inum m' = attrs xp inum m → (Tight xp inum m → Tight xp inum m') →
      Q (cache', ms', .ok ()) m') :
    Txn.wp n (grow xp inum bxp bn cache ms) Q m := by
  have hw0 : addr2w bn ≠ 0 := by
    intro h
    have := toNat_addr2w hbn
    rw [h] at this
    exact h0 this.symm
  rw [length_blocks] at hl
  apply wp_bind
  apply wp_getRec hx.fits hi hc
  intro cache₁ hc₁
  apply wp_bind
  apply BlockPtr.wp_ptrGrow hx.balloc length_irBlocks hl hw0 hg
  · intro hlack ms' m' hlk hnone
    apply wp_pure (hQe hlack _ _ _ _ hlk hnone)
    exact hc₁.congr fun a ha => hlk.step.frame a (fun hb => hx.disjoint a hb ha) (Set.notMem_empty a)
  · intro ms₁ m₁ ir' hs
    have hnot : ∀ a ∈ irecSig.region xp, m₁ a = m a := by
      intro a ha
      apply hs.step.frame a fun hb => hx.disjoint a hb ha
      intro hb
      have h₁ : xp.ixStart ≤ a := ha.1
      have h₂ := (hg.valid a hb).2
      have h₃ := hx.above
      omega
    have hch := changed_putRec hx hi hs.direct hs.step hg hs.acc
    dsimp only
    apply wp_bind
    apply wp_putRec hx.fits hi hs.direct (hc₁.congr hnot)
    intro cache₂ hc₂
    apply wp_pure
    apply hQ cache₂ ms₁ _ hc₂ hch.1
    · rw [hch.2.1]
      exact hs.adds.le
    · rw [hch.2.1]
      exact hs.adds.card
    · have hl' : bptrSig.irLen ir' = irLen (irec xp inum m) + 1 := hs.len
      have hsucc : irLen ir' ≤ nBlocks := hl'.trans_le hl
      rw [hch.2.2.1 hsucc]
      have hptr : ∀ off ≤ irLen (irec xp inum m), BlockPtr.ptr bptrSig m₁ ir' off =
          if off = irLen (irec xp inum m) then (addr2w bn).toNat
          else BlockPtr.ptr bptrSig m (irec xp inum m) off :=
        fun off ho => hs.ptr off (ho.trans_lt hl)
      rw [BlockPtr.recBlocks, hl', List.range_succ, List.map_append, List.map_singleton]
      congr 1
      · apply List.map_congr_left
        intro i hi'
        have hi' := List.mem_range.1 hi'
        rw [hptr i hi'.le, if_neg hi'.ne]
      · rw [hptr _ le_rfl, if_pos rfl, toNat_addr2w hbn]
    · rw [attrs, irec_putRec hs.direct, if_pos rfl]
      exact hs.attrs
    · intro ht
      rw [Tight, hch.2.2.2.1]
      apply (hs.tight hl _ ht).congr hch.2.2.2.2
      rwa [toNat_addr2w hbn]

/-- Dropping all blocks of an inode in the cache writes the bitmap and the inode. -/
theorem aboveAt_shrink_all {lo nr inum : ℕ} {xp : InodeXparams} {bxp : BallocXparams} {cache : Cache}
    {x : IRec} (hx : cache[inum]? = some x) (hlen : irLen x ≤ nr) (hi : lo ≤ xp.ixStart)
    (hb : lo ≤ bxp.bmapStart) (ms : BmapCacheType) (m : Mem) :
    Txn.AboveAt lo (shrink xp inum bxp nr cache ms) m := by
  refine Txn.AboveAt.bind ((RASig.atMost_getCached _ _ _).above _ m)
    (RASig.does_getCached_of_some hx m) ?_
  rintro r m₁ rfl
  have hir : bptrSig.irLen x ≤ nr := hlen
  have hshrink : Txn.AboveAt lo (BlockPtr.shrink bptrSig bxp x nr ms) m₁ :=
    fun a ha => hb.trans (BlockPtr.aboveAt_shrink_all bxp hir ms m₁ a ha)
  have hput : ∀ ir, Txn.Above lo (irecSig.putCached xp inum ir cache) := fun ir =>
    ((RASig.above_put xp inum ir).mono hi).bind fun _ => Txn.above_pure _ _
  refine Txn.AboveAt.bind hshrink (R := fun _ _ => True) trivial fun r m₂ _ => ?_
  exact (hput r.2).bind (fun _ => Txn.above_pure _ _) m₂

end INODE

end Fscq
