import Fscq.AsyncFSProof

/-!
# A new file system

What `mkfs` leaves on the disk: no inode is in use but the root, which is an empty directory, and the
blocks are split between the two allocators.
-/

namespace Fscq

open CrashProg

open BFILE (MemState)

namespace AFS

/-! ### The layout -/

section

variable {dataBitmaps inodeBitmaps logDescrBlocks magic : ℕ}

theorem itemsPerVal_irecSig : INODE.irecSig.itemsPerVal = 32 := by
  change valulen / INODE.irectype.len = 32
  rw [valulen_is]
  rfl

theorem itemsPerVal_descSig : PaddedLog.descSig.itemsPerVal = 512 := by
  change valulen / addrlen = 512
  rw [valulen_is]
  rfl

theorem dataSize_computeXparams :
    MLog.dataSize (computeXparams dataBitmaps inodeBitmaps logDescrBlocks magic).log =
      dataBitmaps * valulen + inodeBitmaps * valulen / 32 + inodeBitmaps + dataBitmaps +
        dataBitmaps := by
  rw [← itemsPerVal_irecSig]
  change 1 + _ + _ - 1 = _
  rw [Nat.add_assoc, Nat.add_sub_cancel_left]

theorem consecutive_computeXparams :
    Consecutive 0 (computeXparams dataBitmaps inodeBitmaps logDescrBlocks magic).regions
      (computeXparams dataBitmaps inodeBitmaps logDescrBlocks magic).maxBlock := by
  refine ⟨rfl, rfl, ?_, ?_, ?_, ?_, ?_, ?_, ?_, ?_⟩ <;> simp only [computeXparams, Consecutive] <;> omega

theorem nbits_inodeAlloc : IAlloc.nbits (computeXparams dataBitmaps inodeBitmaps logDescrBlocks magic) =
    INODE.ninodes (computeXparams dataBitmaps inodeBitmaps logDescrBlocks magic).inode := by
  change inodeBitmaps * valulen =
    inodeBitmaps * valulen / INODE.irecSig.itemsPerVal * INODE.irecSig.itemsPerVal
  rw [itemsPerVal_irecSig, valulen_is]
  omega

/-- For all sizes the parts of the disk lie one after the other and fill it.  Each block bitmap has a
bit for each data block, the inode bitmap one for each inode, and the log has a data block for each
address of its descriptors. -/
theorem layout_exact (dataBitmaps inodeBitmaps logDescrBlocks magic : ℕ) :
    let fsxp := computeXparams dataBitmaps inodeBitmaps logDescrBlocks magic
    Consecutive 0 fsxp.regions fsxp.maxBlock ∧
    (fsxp.regions.Pairwise fun r s => Disjoint r.blocks s.blocks) ∧
    (∀ b, (∃ r ∈ fsxp.regions, b ∈ r.blocks) ↔ b < fsxp.maxBlock) ∧
    BALLOCC.nbits fsxp.blockAlloc1 = fsxp.inode.ixStart ∧
    BALLOCC.nbits fsxp.blockAlloc2 = fsxp.inode.ixStart ∧
    IAlloc.nbits fsxp = INODE.ninodes fsxp.inode ∧
    fsxp.log.logLen = fsxp.log.logDescLen * PaddedLog.descSig.itemsPerVal := by
  have hcons := @consecutive_computeXparams dataBitmaps inodeBitmaps logDescrBlocks magic
  refine ⟨hcons, hcons.pairwise, fun b => ?_, rfl, rfl, nbits_inodeAlloc, rfl⟩
  rw [hcons.mem_iff]
  exact and_iff_right (Nat.zero_le b)

/-- The parts of the file system do not overlap. -/
theorem parts_computeXparams (hd : dataBitmaps ≠ 0)
    (hsz : (computeXparams dataBitmaps inodeBitmaps logDescrBlocks magic).maxBlock ≤ 2 ^ addrlen) :
    (computeXparams dataBitmaps inodeBitmaps logDescrBlocks magic).Parts
      (MLog.dataSize (computeXparams dataBitmaps inodeBitmaps logDescrBlocks magic).log) where
  pos := Nat.pos_of_ne_zero hd
  bmaps := rfl
  data := le_rfl
  inode := le_rfl
  ialloc := le_rfl
  balloc₁ := le_rfl
  balloc₂ := by
    rw [dataSize_computeXparams, ← itemsPerVal_irecSig]
    exact le_rfl
  words := by
    rw [dataSize_computeXparams, ← itemsPerVal_irecSig]
    simp only [computeXparams] at hsz
    omega
  inodes := nbits_inodeAlloc

theorem ok_computeXparams (hd : dataBitmaps ≠ 0) (hi : inodeBitmaps ≤ valulen * valulen)
    (hsz : (computeXparams dataBitmaps inodeBitmaps logDescrBlocks magic).maxBlock ≤ 2 ^ addrlen) :
    (computeXparams dataBitmaps inodeBitmaps logDescrBlocks magic).Ok
      (MLog.dataSize (computeXparams dataBitmaps inodeBitmaps logDescrBlocks magic).log) where
  toParts := parts_computeXparams hd hsz
  inums := by
    change inodeBitmaps * valulen / INODE.irecSig.itemsPerVal * INODE.irecSig.itemsPerVal ≤ _
    refine (Nat.div_mul_le_self _ _).trans ((Nat.mul_le_mul_right valulen hi).trans ?_)
    rw [valulen_is]
    decide

/-- The log is behind the data section and does not overlap it. -/
theorem layout_computeXparams
    (hsz : (computeXparams dataBitmaps inodeBitmaps logDescrBlocks magic).maxBlock < 2 ^ addrlen) :
    PaddedLog.Layout (computeXparams dataBitmaps inodeBitmaps logDescrBlocks magic).maxBlock
      (computeXparams dataBitmaps inodeBitmaps logDescrBlocks magic).log where
  start_le := by
    change 1 ≤ 1 + _ + _
    rw [Nat.add_assoc]
    exact Nat.le_add_right 1 _
  header_lt := Nat.lt_succ_self _
  desc_le := le_rfl
  data_le := le_rfl
  logLen_eq := rfl
  size_lt := hsz

theorem two_le_ninodes (hi : inodeBitmaps ≠ 0) :
    2 ≤ INODE.ninodes (computeXparams dataBitmaps inodeBitmaps logDescrBlocks magic).inode := by
  rw [← nbits_inodeAlloc]
  change 2 ≤ inodeBitmaps * valulen
  rw [valulen_is]
  omega

end

/-- The sizes of the parts of a file system, as `mkfs` takes them. -/
structure Geometry where
  dataBitmaps : ℕ
  inodeBitmaps : ℕ
  logDescrBlocks : ℕ
  data_pos : dataBitmaps ≠ 0
  inode_pos : inodeBitmaps ≠ 0
  inode_le : inodeBitmaps ≤ valulen * valulen
  size : (computeXparams dataBitmaps inodeBitmaps logDescrBlocks magicNumber).maxBlock < 2 ^ addrlen

namespace Geometry

variable (g : Geometry)

abbrev fsxp : FsXparams :=
  computeXparams g.dataBitmaps g.inodeBitmaps g.logDescrBlocks magicNumber

/-- The number of blocks of the data section. -/
abbrev dataSize : ℕ := MLog.dataSize g.fsxp.log

theorem ok : g.fsxp.Ok g.dataSize := ok_computeXparams g.data_pos g.inode_le g.size.le

theorem dataSize_lt : g.dataSize < 2 ^ addrlen := by
  have h := g.size
  rw [dataSize, dataSize_computeXparams, ← itemsPerVal_irecSig]
  simp only [computeXparams] at h
  omega

theorem two_le_ninodes : 2 ≤ INODE.ninodes g.fsxp.inode := AFS.two_le_ninodes g.inode_pos

/-- A descriptor block has the addresses of 512 blocks. -/
theorem le_logLen (h : 0 < g.fsxp.log.logLen) : 512 ≤ g.fsxp.log.logLen := by
  have hlen : g.fsxp.log.logLen = g.logDescrBlocks * PaddedLog.descSig.itemsPerVal := rfl
  rw [hlen, itemsPerVal_descSig] at h ⊢
  omega

theorem layout : PaddedLog.Layout g.fsxp.maxBlock g.fsxp.log := layout_computeXparams g.size

end Geometry

/-! ### Empty inodes -/

theorem item0_irecSig : INODE.irecSig.item0 =
    INODE.mkIRec 0 INODE.iattr0 0 0 0 (Rec.ofWord (.arrayF (.wordF addrlen) INODE.nDirect) 0) := by
  have h : INODE.irecSig.item0 = Rec.ofWord (.recF
    [("len", .wordF addrlen), ("attrs", INODE.iattrtype), ("indptr", .wordF addrlen),
      ("dindptr", .wordF addrlen), ("tindptr", .wordF addrlen),
      ("blocks", .arrayF (.wordF addrlen) INODE.nDirect)]) 0 := rfl
  rw [h, Rec.ofWord_recF_zero, Rec.ofWord_recF_zero, Rec.ofWord_recF_zero, Rec.ofWord_recF_zero,
    Rec.ofWord_recF_zero, Rec.ofWord_recF_zero]
  rfl

section

variable {n : ℕ} {fsxp : FsXparams} {m m' : Mem} {i : ℕ}

theorem roots_item0 (lvl : ℕ) : BlockPtr.roots INODE.bptrSig INODE.irecSig.item0 lvl = 0 := by
  rw [item0_irecSig]
  match lvl with
  | 0 => rfl
  | 1 => rfl
  | _ + 2 => rfl

/-- An inode whose record is zero has no pointers. -/
theorem tight_of_item0 (h : INODE.irec fsxp.inode i m = INODE.irecSig.item0) :
    INODE.Tight fsxp.inode i m := by
  rw [INODE.Tight, h]
  apply BlockPtr.Tight.of_null roots_item0
  rw [item0_irecSig]
  exact Rec.arrayOfWord_zero _ INODE.nDirect

/-- An inode whose record is zero has no blocks. -/
theorem file_of_item0 (h : INODE.irec fsxp.inode i m = INODE.irecSig.item0) :
    BFILE.blocks fsxp m i = [] ∧ BFILE.owned fsxp m i = 0 ∧
      BFILE.file fsxp m i = DIRTREE.bfile0 := by
  have hroots := fun lvl => h ▸ roots_item0 lvl
  rw [item0_irecSig] at h
  have hblocks : BFILE.blocks fsxp m i = [] := by
    apply List.eq_nil_of_length_eq_zero
    rw [INODE.length_blocks, h]
    rfl
  have hnodes : BFILE.nodes fsxp m i = 0 := by
    change ∑ lvl ∈ Finset.range 3,
      BlockPtr.treeNodes m lvl (BlockPtr.roots INODE.bptrSig (INODE.irec fsxp.inode i m) lvl) = 0
    apply Finset.sum_eq_zero
    intro lvl _
    rw [hroots]
    exact RadixTree.nodes_root_zero m lvl
  refine ⟨hblocks, ?_, ?_⟩
  · rw [BFILE.owned, hnodes, hblocks]
    rfl
  · rw [BFILE.file, hblocks, INODE.attrs, h]
    rfl

/-! ### The bitmaps -/

/-- The blocks from one up to `half` are in use for the first allocator, the others for the second;
only the bitmaps have been written since `m`. -/
structure Shuffled (fsxp : FsXparams) (m : Mem) (half : ℕ) (m' : Mem) : Prop where
  pos : 1 ≤ half
  frame : ∀ a, (∀ b, a ∉ BALLOCC.bmp.region (BFILE.bxpOf fsxp b)) → m' a = m a
  fst : ∀ bn < fsxp.nblocks,
    BALLOCC.bit m' fsxp.blockAlloc1 bn = decide (1 ≤ bn ∧ bn < half)
  snd : ∀ bn < fsxp.nblocks,
    BALLOCC.bit m' fsxp.blockAlloc2 bn = !decide (1 ≤ bn ∧ bn < half)

/-- One more block is taken from the first allocator and given to the second. -/
theorem Shuffled.succ (hx : fsxp.Parts n) (h : Shuffled fsxp m i m') (hi : i < fsxp.nblocks) :
    Shuffled fsxp m (i + 1) (BALLOCC.setBitMem (BALLOCC.setBitMem m' fsxp.blockAlloc1 i
      AllocSig.inuse) fsxp.blockAlloc2 i AllocSig.avail) := by
  have hnb : BALLOCC.nbits fsxp.blockAlloc2 = fsxp.nblocks := BFILE.nbits_bxpOf hx false
  have h₁ : ∀ a ∉ BALLOCC.bmp.region fsxp.blockAlloc1,
      BALLOCC.setBitMem m' fsxp.blockAlloc1 i AllocSig.inuse a = m' a :=
    fun a ha => AllocSig.setBitMem_of_not_mem hi ha
  have h₂ : ∀ m₁ : Mem, ∀ a ∉ BALLOCC.bmp.region fsxp.blockAlloc2,
      BALLOCC.setBitMem m₁ fsxp.blockAlloc2 i AllocSig.avail a = m₁ a :=
    fun m₁ a ha => AllocSig.setBitMem_of_not_mem (hnb ▸ hi) ha
  have hpos := h.pos
  constructor
  case pos => omega
  case frame =>
    intro a ha
    rw [h₂ _ a (ha false), h₁ a (ha true), h.frame a ha]
  case fst =>
    intro bn hbn
    rw [AllocSig.bit_congr hbn fun a ha => h₂ _ a (BFILE.not_mem_region_other (b := false) hx ha),
      AllocSig.bit_setBitMem, h.fst bn hbn]
    rcases eq_or_ne bn i with rfl | hne
    · simp [AllocSig.inuse, hpos]
    · rw [if_neg hne]
      exact decide_eq_decide.2 (by omega)
  case snd =>
    intro bn hbn
    have hbit : BALLOCC.bit (BALLOCC.setBitMem m' fsxp.blockAlloc1 i AllocSig.inuse)
        fsxp.blockAlloc2 bn = BALLOCC.bit m' fsxp.blockAlloc2 bn :=
      AllocSig.bit_congr (hnb ▸ hbn) fun a ha =>
        h₁ a (BFILE.not_mem_region_other (b := true) hx ha)
    rw [AllocSig.bit_setBitMem, hbit, h.snd bn hbn]
    rcases eq_or_ne bn i with rfl | hne
    · simp [AllocSig.avail, hpos]
    · rw [if_neg hne]
      exact congrArg _ (decide_eq_decide.2 (by omega))

theorem wp_shuffleAllocs (hx : fsxp.Parts n)
    {Q : BmapCacheType × BmapCacheType → Mem → Prop} (h : Shuffled fsxp m 1 m)
    (hQ : ∀ m', Shuffled fsxp m (fsxp.nblocks / 2) m' → Q (none, none) m') :
    Txn.wp n (BFILE.shuffleAllocs fsxp.blockAlloc (none, none)) Q m := by
  have hpos : 2 ≤ fsxp.nblocks := by
    have h₁ := hx.pos
    have h₂ : fsxp.nblocks = fsxp.blockAlloc1.bmapNBlocks * valulen := rfl
    rw [h₂, valulen_is]
    omega
  have hnb : BALLOCC.nbits fsxp.blockAlloc2 = fsxp.nblocks := BFILE.nbits_bxpOf hx false
  apply Txn.wp_post (Q := fun cms m' => cms = ((none, none) : BmapCacheType × BmapCacheType) ∧
    Shuffled fsxp m (fsxp.nblocks / 2) m')
  · apply wp_forN (fun i cms m' => cms = ((none, none) : BmapCacheType × BmapCacheType) ∧
      Shuffled fsxp m i m') (N := fsxp.nblocks / 2)
    · rintro i _ m' hi ⟨rfl, hs⟩
      have hin : i < fsxp.nblocks := by omega
      refine wp_bind (wp_bind (AllocSig.wp_bmapSteal (BFILE.ballocOk hx true).fits hin (wp_pure ?_)))
      refine wp_bind (wp_bind (AllocSig.wp_bmapFree (BFILE.ballocOk hx false).fits (hnb ▸ hin)
        (wp_pure (wp_pure ?_))))
      exact ⟨rfl, hs.succ hx hin⟩
    · change 1 + (fsxp.nblocks / 2 - 1) = fsxp.nblocks / 2
      omega
    · exact ⟨rfl, h⟩
  · rintro _ m' ⟨rfl, hs⟩
    exact hQ m' hs

theorem Shuffled.mem_freeOf_true (h : Shuffled fsxp m i m') {a : ℕ} :
    a ∈ BFILE.freeOf fsxp m' (none, none) true ↔ i ≤ a ∧ a < fsxp.nblocks := by
  have hpos := h.pos
  change a ∈ BALLOCC.bmapFree m' fsxp.blockAlloc1 ↔ _
  rw [AllocSig.mem_bmapFree]
  change a < fsxp.nblocks ∧ _ ↔ _
  constructor
  · rintro ⟨ha, h0, hb⟩
    rw [h.fst a ha, AllocSig.avail, decide_eq_false_iff_not] at hb
    omega
  · rintro ⟨hia, ha⟩
    rw [h.fst a ha, AllocSig.avail, decide_eq_false_iff_not]
    omega

theorem Shuffled.mem_freeOf_false (hx : fsxp.Parts n) (h : Shuffled fsxp m i m')
    (hi : i ≤ fsxp.nblocks) {a : ℕ} :
    a ∈ BFILE.freeOf fsxp m' (none, none) false ↔ 1 ≤ a ∧ a < i := by
  have hnb : BALLOCC.nbits fsxp.blockAlloc2 = fsxp.nblocks := BFILE.nbits_bxpOf hx false
  change a ∈ BALLOCC.bmapFree m' fsxp.blockAlloc2 ↔ _
  rw [AllocSig.mem_bmapFree, hnb]
  constructor
  · rintro ⟨ha, h0, hb⟩
    rw [h.snd a ha, AllocSig.avail, Bool.not_eq_false', decide_eq_true_eq] at hb
    exact hb
  · rintro ⟨h1, hai⟩
    have ha : a < fsxp.nblocks := by omega
    rw [h.snd a ha, AllocSig.avail, Bool.not_eq_false', decide_eq_true_eq]
    exact ⟨ha, by omega, h1, hai⟩

/-- The blocks that are free for the two allocators. -/
theorem Shuffled.freeOf_add (hx : fsxp.Parts n) (h : Shuffled fsxp m i m') (hi : i ≤ fsxp.nblocks) :
    BFILE.freeOf fsxp m' (none, none) true + BFILE.freeOf fsxp m' (none, none) false =
      BFILE.allBlocks fsxp := by
  have hnd : ∀ b, (BFILE.freeOf fsxp m' (none, none) b).Nodup := by
    intro b
    cases b <;> exact Multiset.coe_nodup.2 AllocSig.nodup_bmapFree
  have hdisj : Disjoint (BFILE.freeOf fsxp m' (none, none) true)
      (BFILE.freeOf fsxp m' (none, none) false) := by
    rw [Multiset.disjoint_left]
    intro a ha ha'
    rw [h.mem_freeOf_true] at ha
    rw [h.mem_freeOf_false hx hi] at ha'
    omega
  rw [(Multiset.nodup_add.2 ⟨hnd true, hnd false, hdisj⟩).ext BFILE.nodup_allBlocks]
  intro a
  have hpos := h.pos
  rw [Multiset.mem_add, h.mem_freeOf_true, h.mem_freeOf_false hx hi, BFILE.mem_allBlocks]
  omega

/-- Both allocators have free blocks. -/
theorem Shuffled.freeOf_ne_zero (hx : fsxp.Parts n) (h : Shuffled fsxp m (fsxp.nblocks / 2) m')
    (b : Bool) : BFILE.freeOf fsxp m' (none, none) b ≠ 0 := by
  have hnb : 4 ≤ fsxp.nblocks := by
    have h₁ := hx.pos
    have h₂ : fsxp.nblocks = fsxp.blockAlloc1.bmapNBlocks * valulen := rfl
    rw [h₂, valulen_is]
    omega
  cases b with
  | true =>
    have hmem := h.mem_freeOf_true.2 ⟨le_rfl, by omega⟩
    exact fun h0 => Multiset.notMem_zero _ (h0 ▸ hmem)
  | false =>
    have hmem := (h.mem_freeOf_false hx (Nat.div_le_self _ 2)).2 ⟨le_rfl, by omega⟩
    exact fun h0 => Multiset.notMem_zero _ (h0 ▸ hmem)

/-! ### The file layer -/

/-- A tree without inodes. -/
structure Fresh (fsxp : FsXparams) (m : Mem) (ms : MemState) : Prop where
  inv : DIRTREE.Inv fsxp 0 ∅ (fun _ => false) m ms
  total : BFILE.total fsxp m ms = BFILE.allBlocks fsxp
  coh : BFILE.Coherent fsxp m ms.msAllocC
  tight : BFILE.Tight fsxp m
  bits : IAlloc.Uniform m fsxp AllocSig.avail
  list : IAlloc.freeList m fsxp ms.msIAllocC =
    List.range' 1 (INODE.ninodes fsxp.inode - 1)
  room : ∀ b, BFILE.freeOf fsxp m ms.msAllocC b ≠ 0

/-- The inodes that are free when none is in use. -/
theorem bmapFree_of_uniform (h : IAlloc.Uniform m fsxp AllocSig.avail) :
    IAlloc.bmapFree m fsxp = List.range' 1 (IAlloc.nbits fsxp - 1) := by
  have hall : (List.range (IAlloc.nbits fsxp)).filter
      (fun bn => bn ≠ 0 ∧ IAlloc.bit m fsxp bn = AllocSig.avail) =
      (List.range (IAlloc.nbits fsxp)).filter fun bn => bn ≠ 0 := by
    apply List.filter_congr
    intro bn hbn
    rw [h bn (List.mem_range.1 hbn)]
    simp
  rw [AllocSig.bmapFree, hall]
  cases IAlloc.nbits fsxp with
  | zero => rfl
  | succ k =>
    have hself : (List.range' 1 k).filter (fun bn => decide (bn ≠ 0)) = List.range' 1 k := by
      rw [List.filter_eq_self]
      intro a ha
      have := (List.mem_range'_1.1 ha).1
      simpa using by omega
    rw [List.range_eq_range', List.range'_succ, List.filter_cons]
    simpa using hself

theorem fresh_of_shuffled (hx : fsxp.Parts n) (hs : Shuffled fsxp m (fsxp.nblocks / 2) m')
    (hrec : ∀ j < INODE.ninodes fsxp.inode, INODE.irec fsxp.inode j m' = INODE.irecSig.item0)
    (hu : IAlloc.Uniform m' fsxp AllocSig.avail) : Fresh fsxp m' BFILE.msEmpty := by
  have hfile := fun j hj => file_of_item0 (hrec j hj)
  have hlist : IAlloc.freeList m' fsxp none = List.range' 1 (INODE.ninodes fsxp.inode - 1) := by
    rw [← hx.inodes]
    exact bmapFree_of_uniform hu
  have htotal : BFILE.total fsxp m' BFILE.msEmpty = BFILE.allBlocks fsxp := by
    rw [BFILE.total, Finset.sum_eq_zero fun j hj => (hfile j (Finset.mem_range.1 hj)).2.1, add_zero]
    exact hs.freeOf_add hx (Nat.div_le_self _ 2)
  refine ⟨?_, htotal, ?_, fun j hj => tight_of_item0 (hrec j hj), hu, hlist, hs.freeOf_ne_zero hx⟩
  · constructor
    case inv =>
      refine ⟨RASig.cacheOk_empty, fun j hj => ?_, htotal.le⟩
      rw [(hfile j hj).1]
      exact Nat.zero_le _
    case inodes =>
      change (IAlloc.freeList m' fsxp none : Multiset ℕ) + 0 = _
      rw [hlist, add_zero]
      rfl
    case icoh =>
      intro l hl
      cases hl
    case dir => exact fun d hd => absurd hd (Finset.notMem_empty d)
    case flag => exact fun d hd => absurd hd (Finset.notMem_empty d)
    case cache =>
      intro d r hr
      simp [BFILE.msEmpty] at hr
    case free => exact fun j hj _ => (hfile j hj).2.2
    case forest => exact ⟨rfl, fun v hv => absurd hv (Finset.notMem_empty v)⟩
  · intro b l hl
    cases b <;> cases hl

theorem wp_bfileInit (hx : fsxp.Parts n) {Q : MemState → Mem → Prop}
    (hQ : ∀ m', Fresh fsxp m' BFILE.msEmpty → Q BFILE.msEmpty m') :
    Txn.wp n (BFILE.init fsxp.inode fsxp.blockAlloc fsxp) Q m := by
  refine wp_bind (AllocSig.wp_initNofree (BFILE.ballocOk hx false).fits ?_)
  intro m₁ _ (hu₁ : BALLOCC.Uniform m₁ fsxp.blockAlloc2 AllocSig.inuse)
  refine wp_bind (AllocSig.wp_init (BFILE.ballocOk hx true).fits ?_)
  intro m₂ hf₂ (hu₂ : BALLOCC.Uniform m₂ fsxp.blockAlloc1 AllocSig.avail)
  refine wp_bind (AllocSig.wp_init (BFILE.iallocFits hx) ?_)
  intro m₃ hf₃ hu₃
  refine wp_bind (RASig.wp_init (BFILE.inodeFits hx) ?_)
  generalize hm₄ : INODE.irecSig.fill m₃ fsxp.inode INODE.irecSig.item0 = m₄
  have hf₄ : ∀ a ∉ INODE.irecSig.region fsxp.inode, m₄ a = m₃ a := by
    intro a ha
    rw [← hm₄, RASig.fill_of_not_mem ha]
  have hi₄ : ∀ i < INODE.ninodes fsxp.inode,
      INODE.irec fsxp.inode i m₄ = INODE.irecSig.item0 := by
    intro i hi
    rw [← hm₄]
    exact RASig.item_fill (RASig.wellFormed_item0 _) hi
  -- the bitmaps of the blocks have not been written since they were made
  have hbmap : ∀ b, ∀ a ∈ BALLOCC.bmp.region (BFILE.bxpOf fsxp b), m₄ a = m₂ a := by
    intro b a ha
    rw [hf₄ a fun hr => ?_, hf₃ a fun hr => (BFILE.not_mem_region_ialloc hx hr).2.2 b ha]
    have h₁ := (BFILE.mem_region_inode hx hr).2
    have h₂ := (BFILE.mem_region_bxpOf hx ha).1
    omega
  have hs : Shuffled fsxp m₄ 1 m₄ := by
    refine ⟨le_rfl, fun _ _ => rfl, fun bn hbn => ?_, fun bn hbn => ?_⟩
    · rw [AllocSig.bit_congr hbn (hbmap true), hu₂ bn hbn]
      exact (decide_eq_false (by omega)).symm
    · have hbn' : bn < BALLOCC.nbits fsxp.blockAlloc2 := by
        rwa [show BALLOCC.nbits fsxp.blockAlloc2 = fsxp.nblocks from BFILE.nbits_bxpOf hx false]
      have hm : ∀ a ∈ BALLOCC.bmp.region fsxp.blockAlloc2, m₄ a = m₁ a := fun a ha => by
        rw [hbmap false a ha, hf₂ a (BFILE.not_mem_region_other (b := true) hx ha)]
      rw [AllocSig.bit_congr hbn' hm, hu₁ bn hbn', decide_eq_false (by omega)]
      rfl
  refine wp_bind (wp_shuffleAllocs hx hs ?_)
  intro m₅ hs₅
  have hi₅ : ∀ i < INODE.ninodes fsxp.inode,
      INODE.irec fsxp.inode i m₅ = INODE.irecSig.item0 := by
    intro i hi
    rw [← hi₄ i hi]
    apply INODE.irec_congr hi
    intro a ha
    apply hs₅.frame
    intro b hb
    have h₁ := (BFILE.mem_region_inode hx ha).2
    have h₂ := (BFILE.mem_region_bxpOf hx hb).1
    omega
  have hu₅ : IAlloc.Uniform m₅ fsxp AllocSig.avail := by
    intro bn hbn
    rw [← hu₃ bn hbn]
    apply AllocSig.bit_congr hbn
    intro a ha
    obtain ⟨-, hnot, hnotb⟩ := BFILE.not_mem_region_ialloc hx ha
    rw [hs₅.frame a hnotb, hf₄ a hnot]
  exact wp_pure (hQ m₅ (fresh_of_shuffled hx hs₅ hi₅ hu₅))

/-! ### The transaction of mkfs -/

/-- The one transaction of `mkfs`. -/
def mkfsTxn (fsxp : FsXparams) : TxnProg (BmapCacheType × Option ℕ) := do
  let ms ← BFILE.init fsxp.inode fsxp.blockAlloc fsxp
  IAlloc.alloc fsxp ms.msIAllocC

/-- All bitmaps and all inodes are written. -/
theorem mem_writes_mkfsTxn {a : ℕ} (m : Mem) (ha : (∃ b, a ∈ BALLOCC.bmp.region (BFILE.bxpOf fsxp b)) ∨
    a ∈ IAlloc.bmp.region fsxp ∨ a ∈ INODE.irecSig.region fsxp.inode) :
    a ∈ Txn.writes (mkfsTxn fsxp) m := by
  refine Txn.mem_writes_bind.2 (.inl (Txn.mem_writes_bind.2 ?_))
  rcases ha with ⟨b, ha⟩ | ha | ha
  · cases b with
    | false =>
      exact .inl (Txn.mem_writes_bind.2 (.inl (Txn.mem_writes_bind.2
        (.inl (RASig.mem_writes_init.2 ha)))))
    | true =>
      exact .inr (Txn.mem_writes_bind.2 (.inl (Txn.mem_writes_bind.2
        (.inl (RASig.mem_writes_init.2 ha)))))
  · refine .inr (Txn.mem_writes_bind.2 (.inr (Txn.mem_writes_bind.2 (.inl ?_))))
    exact Txn.mem_writes_bind.2 (.inl (RASig.mem_writes_init.2 ha))
  · refine .inr (Txn.mem_writes_bind.2 (.inr (Txn.mem_writes_bind.2 (.inr ?_))))
    exact Txn.mem_writes_bind.2 (.inl (RASig.mem_writes_init.2 ha))

/-- The transaction writes behind the blocks of the files only. -/
theorem above_bfileInit (hx : fsxp.Parts n) :
    Txn.Above fsxp.nblocks (BFILE.init fsxp.inode fsxp.blockAlloc fsxp) := by
  have h₁ := hx.data
  have h₂ := hx.inode
  have h₃ := hx.ialloc
  have h₄ := hx.balloc₁
  have hb₁ : fsxp.nblocks ≤ fsxp.blockAlloc1.bmapStart := by omega
  have hb₂ : fsxp.nblocks ≤ fsxp.blockAlloc2.bmapStart := by omega
  have hi : fsxp.nblocks ≤ fsxp.inodeAlloc.bmapStart := by omega
  have hshuffle : ∀ cms, Txn.Above fsxp.nblocks (BFILE.shuffleAllocs fsxp.blockAlloc cms) := by
    intro cms
    apply Txn.above_forN
    intro i cms
    refine (((AllocSig.above_bmapSteal _ i).mono hb₁).bind fun _ => Txn.above_pure _ _).bind ?_
    intro c₁
    refine (((AllocSig.above_bmapFree _ i).mono hb₂).bind fun _ => Txn.above_pure _ _).bind ?_
    exact fun c₂ => Txn.above_pure _ _
  refine ((AllocSig.above_initNofree _).mono hb₂).bind fun fcms => ?_
  refine ((AllocSig.above_init _).mono hb₁).bind fun scms => ?_
  refine ((AllocSig.above_init _).mono hi).bind fun ialc => ?_
  refine ((Txn.above_writeRange _ _).mono h₁).bind fun _ => ?_
  exact (hshuffle _).bind fun cms => Txn.above_pure _ _

/-- It writes the blocks from the inodes on. -/
theorem bounds_mkfsTxn (hx : fsxp.Parts n) (m : Mem) {a : ℕ}
    (ha : a ∈ Txn.writes (mkfsTxn fsxp) m) : fsxp.nblocks ≤ a ∧ a < n := by
  constructor
  · have hlo : fsxp.nblocks ≤ fsxp.inodeAlloc.bmapStart := by
      have h₁ := hx.data
      have h₂ := hx.inode
      omega
    exact ((above_bfileInit hx).bind fun ms => (AllocSig.above_alloc fsxp _).mono hlo) m a ha
  · refine (Txn.writes_of_wp (wp_bind (wp_bfileInit (Q := fun ms m' => Txn.wp n
      (IAlloc.alloc fsxp ms.msIAllocC) (fun _ _ => True) m') hx fun m' _ => ?_)) a ha).2
    exact AllocSig.wp_alloc (BFILE.iallocFits hx) (fun bn hbn => (AllocSig.mem_bmapFree.1 hbn).1)
      (fun _ => trivial) fun _ _ _ _ => trivial

theorem size_mkfsTxn_le (hx : fsxp.Parts n) (m : Mem) :
    Txn.size (mkfsTxn fsxp) m ≤ n - fsxp.nblocks := by
  have hsub : (Txn.writes (mkfsTxn fsxp) m).toFinset ⊆ Finset.Ico fsxp.nblocks n := fun a ha =>
    Finset.mem_Ico.2 (bounds_mkfsTxn hx m (List.mem_toFinset.1 ha))
  have hle := Finset.card_le_card hsub
  rwa [Nat.card_Ico] at hle

variable [Platform] {xp : LogXparams} {A : LogSt}

/-- A new file system has an empty root directory, all blocks are free or in a file, and the caches
agree with the disk. -/
structure New (fsxp : FsXparams) (xp : LogXparams) (L : LogSt) (ams : MemState) : Prop where
  txn : L.txn = ∅
  pend : L.pend = []
  tree : DIRTREE.Inv fsxp {fsxp.rootInum} {fsxp.rootInum}
    (Function.update (fun _ => false) fsxp.rootInum true) L.disk.cur ams
  total : BFILE.total fsxp L.disk.cur ams = BFILE.allBlocks fsxp
  coh : BFILE.Coherent fsxp L.disk.cur ams.msAllocC
  tight : BFILE.Tight fsxp L.disk.cur
  root : BFILE.file fsxp L.disk.cur fsxp.rootInum = DIRTREE.bfile0
  bits : ∀ i < INODE.ninodes fsxp.inode,
    IAlloc.bit L.disk.cur fsxp i = if i = fsxp.rootInum then AllocSig.inuse else AllocSig.avail
  list : IAlloc.freeList L.disk.cur fsxp ams.msIAllocC =
    List.range' 2 (INODE.ninodes fsxp.inode - 2)
  alloc : ams.msAlloc = true
  room : ∀ b, BFILE.freeOf fsxp L.disk.cur ams.msAllocC b ≠ 0
  log : 0 < xp.logLen

/-- It is made exactly when the log can hold what the transaction writes. -/
theorem wp_mkfs (hx : fsxp.Parts n) (hroot : fsxp.rootInum = 1)
    (hin : 2 ≤ INODE.ninodes fsxp.inode) (htxn : A.txn = ∅) {Q : Res MemState → LogSt → Prop}
    (hQe : xp.logLen < Txn.size (mkfsTxn fsxp) A.read → ∀ L, Q (.error .ELOGOVERFLOW) L)
    (hQ : Txn.size (mkfsTxn fsxp) A.read ≤ xp.logLen →
      ∀ ams L, New fsxp xp L ams → Q (.ok ams) L) :
    LogProg.wp n xp (mkfs fsxp) Q (fun _ => True) A := by
  refine wp_bind (LogProg.wp_begin trivial (wp_bind (LogProg.wp_lift (fun _ => trivial) ?_)))
  apply Txn.wp_post (Txn.wp_run_eq (wp_bfileInit (Q := fun ms m' => ms = BFILE.msEmpty ∧
    Fresh fsxp m' BFILE.msEmpty) hx fun m' hf => ⟨rfl, hf⟩))
  rintro _ m₁ ⟨hrun, rfl, hf⟩ t ht
  refine wp_bind (LogProg.wp_lift (fun _ => trivial) ?_)
  rw [ht.read]
  have hlist : IAlloc.freeList m₁ fsxp none = _ := hf.list
  rw [show INODE.ninodes fsxp.inode - 1 = INODE.ninodes fsxp.inode - 2 + 1 by omega,
    List.range'_succ] at hlist
  have hr : ∀ bn ∈ IAlloc.freeList m₁ fsxp none, bn < IAlloc.nbits fsxp :=
    fun bn hbn => (AllocSig.mem_bmapFree.1 hbn).1
  apply AllocSig.wp_alloc (BFILE.iallocFits hx) hr
  · intro hnil
    rw [hnil] at hlist
    cases hlist
  · intro bn l hl hst t' ht'
    have hbn : bn = 1 := (List.cons.inj (hl.symm.trans hlist)).1
    have hread : ({ A with txn := t } : LogSt).read = m₁ := ht.read
    have hmem : ∀ b, b ∈ t' ↔ b ∈ Txn.writes (mkfsTxn fsxp) A.read := by
      intro b
      rw [ht'.dom, hread, ht.mem_writes htxn, mkfsTxn, Txn.mem_writes_bind, hrun]
    have hsize : t'.toList.length = Txn.size (mkfsTxn fsxp) A.read := Txn.length_eq_card hmem
    dsimp only
    rw [if_pos (hbn.trans hroot.symm)]
    refine wp_bind (LogProg.wp_commit_of trivial trivial trivial ?_ ?_)
    · intro hlen L' hL'
      refine wp_bind (LogProg.wp_flushsync trivial (wp_pure ?_))
      apply hQ (hsize ▸ hlen)
      have hcur : L'.flushall.disk.cur =
          IAlloc.setBitMem m₁ fsxp bn AllocSig.inuse := by
        rw [LogSt.disk_flushall, hL'.disk, LogSt.disk_push]
        exact ht'.read
      have hm : ∀ a ∉ IAlloc.bmp.region fsxp,
          IAlloc.setBitMem m₁ fsxp bn AllocSig.inuse a = m₁ a :=
        fun a ha => hst.frame a ha (Set.notMem_empty a)
      have htree := hf.inv.add hx hl hm (hst.coh hf.inv.icoh) true
      obtain ⟨-, hmv⟩ := hf.inv.inv.ialloc hx hm (some l)
      have hlt : bn < INODE.ninodes fsxp.inode := by omega
      rw [← hcur] at htree hmv
      have hroot' : fsxp.rootInum = bn := hroot.trans hbn.symm
      constructor
      case txn => exact hL'.txn
      case pend => rfl
      case tree =>
        rw [hroot']
        exact htree
      case total => exact hmv.total.trans hf.total
      case coh => exact hmv.coh hf.coh
      case tight => exact hmv.tight hf.tight
      case root =>
        rw [hroot', hmv.file hf.inv.inv hlt (Set.notMem_empty bn)]
        exact hf.inv.free bn hlt (Finset.notMem_empty bn)
      case bits =>
        intro i hi
        rw [hcur, hroot', AllocSig.bit_setBitMem, hf.bits i (hx.inodes.symm ▸ hi)]
      case list =>
        change l = _
        exact (List.cons.inj (hl.symm.trans hlist)).2
      case alloc => rfl
      case room =>
        rw [hcur]
        exact fun b hb => hf.room b ((BFILE.freeOf_ialloc hx hm _ b).symm.trans hb)
      case log =>
        have hpos : 0 < fsxp.blockAlloc2.bmapNBlocks := hx.bmaps.symm ▸ hx.pos
        have hfst : fsxp.blockAlloc2.bmapStart ∈ BALLOCC.bmp.region fsxp.blockAlloc2 :=
          ⟨le_rfl, Nat.lt_add_of_pos_right hpos⟩
        have hw := (hmem _).2 (mem_writes_mkfsTxn A.read (.inl ⟨false, hfst⟩))
        exact (Txn.length_pos_of_mem hw).trans_le hlen
    · exact fun hlen L' _ => wp_pure (hQe (hsize ▸ hlen) _)

end

end AFS

end Fscq
