import Fscq.BFile

/-!
# Files and the blocks they own

No block is in two places among the data blocks and the index blocks of the files and the free
blocks of the two allocators: `BFILE.Inv`.  The programs of the file
layer keep this invariant, they change no file but their own (`BFILE.Step`), and they do to the
contents and the attributes of their file what their names say.
-/

namespace Fscq

open CrashProg

/-- The number of blocks that files can use. -/
def FsXparams.nblocks (fsxp : FsXparams) : ℕ := BALLOCC.nbits fsxp.blockAlloc1

/-- The parts of the file system follow each other in the data section: the blocks of the files, the
inodes, the bitmap of the inodes and the bitmaps of the blocks. -/
structure FsXparams.Parts (n : ℕ) (fsxp : FsXparams) : Prop where
  pos : 0 < fsxp.blockAlloc1.bmapNBlocks
  bmaps : fsxp.blockAlloc2.bmapNBlocks = fsxp.blockAlloc1.bmapNBlocks
  data : fsxp.nblocks ≤ fsxp.inode.ixStart
  inode : fsxp.inode.ixStart + fsxp.inode.ixLen ≤ fsxp.inodeAlloc.bmapStart
  ialloc : fsxp.inodeAlloc.bmapStart + fsxp.inodeAlloc.bmapNBlocks ≤ fsxp.blockAlloc1.bmapStart
  balloc₁ : fsxp.blockAlloc1.bmapStart + fsxp.blockAlloc1.bmapNBlocks ≤ fsxp.blockAlloc2.bmapStart
  balloc₂ : fsxp.blockAlloc2.bmapStart + fsxp.blockAlloc2.bmapNBlocks ≤ n
  words : n ≤ 2 ^ addrlen
  inodes : IAlloc.nbits fsxp = INODE.ninodes fsxp.inode

/-- In addition the inode numbers fit into the entries of a directory. -/
structure FsXparams.Ok (n : ℕ) (fsxp : FsXparams) : Prop extends FsXparams.Parts n fsxp where
  inums : INODE.ninodes fsxp.inode ≤ 2 ^ addrlen

namespace BFILE

open INODE (irecSig ninodes irec)

open BlockPtr (freeSet Good)

/-- The parameters of one of the allocators. -/
abbrev bxpOf (fsxp : FsXparams) (b : Bool) : BallocXparams := pickBalloc fsxp.blockAlloc b

section

variable {n : ℕ} {fsxp : FsXparams} (hx : fsxp.Parts n)

include hx

theorem nbits_bxpOf (b : Bool) : BALLOCC.nbits (bxpOf fsxp b) = fsxp.nblocks := by
  have h := hx.bmaps
  cases b
  · change fsxp.blockAlloc2.bmapNBlocks * valulen = fsxp.blockAlloc1.bmapNBlocks * valulen
    rw [h]
  · rfl

theorem nblocks_pos : 0 < fsxp.nblocks := by
  have h : fsxp.nblocks = fsxp.blockAlloc1.bmapNBlocks * valulen := rfl
  rw [h, valulen_is]
  have := hx.pos
  omega

theorem mem_region_bxpOf {b : Bool} {a : ℕ} (h : a ∈ BALLOCC.bmp.region (bxpOf fsxp b)) :
    fsxp.inodeAlloc.bmapStart + fsxp.inodeAlloc.bmapNBlocks ≤ a ∧ a < n ∧
      (b = true ↔ a < fsxp.blockAlloc2.bmapStart) := by
  have h₁ := hx.ialloc
  have h₂ := hx.balloc₁
  have h₃ := hx.balloc₂
  cases b
  · have h : fsxp.blockAlloc2.bmapStart ≤ a ∧
        a < fsxp.blockAlloc2.bmapStart + fsxp.blockAlloc2.bmapNBlocks := h
    simp only [Bool.false_eq_true, false_iff]
    omega
  · have h : fsxp.blockAlloc1.bmapStart ≤ a ∧
        a < fsxp.blockAlloc1.bmapStart + fsxp.blockAlloc1.bmapNBlocks := h
    simp only [true_iff]
    omega

theorem mem_region_inode {a : ℕ} (h : a ∈ irecSig.region fsxp.inode) :
    fsxp.nblocks ≤ a ∧ a < fsxp.inodeAlloc.bmapStart := by
  have h : fsxp.inode.ixStart ≤ a ∧ a < fsxp.inode.ixStart + fsxp.inode.ixLen := h
  have h₁ := hx.data
  have h₂ := hx.inode
  omega

theorem not_mem_region_ialloc {a : ℕ} (h : a ∈ IAlloc.bmp.region fsxp) :
    fsxp.nblocks ≤ a ∧ a ∉ irecSig.region fsxp.inode ∧
      ∀ b, a ∉ BALLOCC.bmp.region (bxpOf fsxp b) := by
  have h : fsxp.inodeAlloc.bmapStart ≤ a ∧
    a < fsxp.inodeAlloc.bmapStart + fsxp.inodeAlloc.bmapNBlocks := h
  have h₁ := hx.data
  have h₂ := hx.inode
  refine ⟨by omega, fun hr => ?_, fun b hr => ?_⟩
  · have := (mem_region_inode hx hr).2
    omega
  · have := (mem_region_bxpOf hx hr).1
    omega

theorem not_mem_region_other {b : Bool} {a : ℕ} (h : a ∈ BALLOCC.bmp.region (bxpOf fsxp (!b))) :
    a ∉ BALLOCC.bmp.region (bxpOf fsxp b) := by
  intro h'
  have h₁ := (mem_region_bxpOf hx h).2.2
  have h₂ := (mem_region_bxpOf hx h').2.2
  cases b <;> simp at h₁ h₂ <;> omega

theorem ballocOk (b : Bool) : (bxpOf fsxp b).Ok n := by
  have hp := nblocks_pos hx
  have h₁ := hx.data
  have h₂ := hx.inode
  have h₃ := hx.ialloc
  have h₄ := hx.balloc₁
  have h₅ := hx.balloc₂
  have hb := nbits_bxpOf hx b
  have hstart : fsxp.nblocks ≤ (bxpOf fsxp b).bmapStart ∧
      (bxpOf fsxp b).bmapStart + (bxpOf fsxp b).bmapNBlocks ≤ n := by
    cases b
    · change _ ≤ fsxp.blockAlloc2.bmapStart ∧ _
      exact ⟨by omega, h₅⟩
    · change _ ≤ fsxp.blockAlloc1.bmapStart ∧
        fsxp.blockAlloc1.bmapStart + fsxp.blockAlloc1.bmapNBlocks ≤ n
      exact ⟨by omega, by omega⟩
  refine ⟨⟨?_, hstart.2⟩, hb ▸ hstart.1, hx.words⟩
  change (bxpOf fsxp b).bmapStart ≠ 0
  omega

theorem inodeFits : irecSig.Fits n fsxp.inode := by
  have hp := nblocks_pos hx
  have h₁ := hx.data
  have h₂ := hx.inode
  have h₃ := hx.ialloc
  have h₄ := hx.balloc₁
  have h₅ := hx.balloc₂
  constructor
  · change fsxp.inode.ixStart ≠ 0
    omega
  · change fsxp.inode.ixStart + fsxp.inode.ixLen ≤ n
    omega

theorem layout (b : Bool) : INODE.Layout n fsxp.inode (bxpOf fsxp b) where
  fits := inodeFits hx
  balloc := ballocOk hx b
  above := nbits_bxpOf hx b ▸ hx.data
  disjoint a ha hr := by
    have h₁ := (mem_region_bxpOf hx ha).1
    have h₂ := (mem_region_inode hx hr).2
    omega

theorem iallocFits : IAlloc.bmp.Fits n fsxp := by
  have hp := nblocks_pos hx
  have h₁ := hx.data
  have h₂ := hx.inode
  have h₃ := hx.ialloc
  have h₄ := hx.balloc₁
  have h₅ := hx.balloc₂
  constructor
  · change fsxp.inodeAlloc.bmapStart ≠ 0
    omega
  · change fsxp.inodeAlloc.bmapStart + fsxp.inodeAlloc.bmapNBlocks ≤ n
    omega

end

/-! ### The files of a memory -/

section

variable (fsxp : FsXparams) (m : Mem) (i : ℕ)

abbrev blocks : List ℕ := INODE.blocks fsxp.inode i m

abbrev nodes : Multiset ℕ := INODE.nodes fsxp.inode i m

/-- The blocks of a file, data and index blocks. -/
def owned : Multiset ℕ := nodes fsxp m i + (blocks fsxp m i : Multiset ℕ)

/-- A file: its contents and its attributes. -/
structure BFile where
  data : List Valu
  attr : INODE.IAttr

/-- The file of an inode. -/
def file : BFile := ⟨(blocks fsxp m i).map m, INODE.attrs fsxp.inode i m⟩

/-- The free blocks of one of the allocators. -/
def freeOf (alc : BmapCacheType × BmapCacheType) (b : Bool) : Multiset ℕ :=
  freeSet m (bxpOf fsxp b) (pickBalloc alc b)

/-- A file can have one more block: it is not too big, and there are free blocks for the new one and
for the missing index blocks. -/
def CanGrow (ms : MemState) (inum : ℕ) : Prop :=
  (blocks fsxp m inum).length < INODE.nBlocks ∧
    INODE.missing fsxp.inode inum m < (freeOf fsxp m ms.msAllocC ms.msAlloc).card

/-- The error when a file cannot grow. -/
def growErr : Errno :=
  if (blocks fsxp m i).length < INODE.nBlocks then .ENOSPCBLOCK else .EFBIG

/-- No file has pointers past its end or index blocks without pointers. -/
def Tight : Prop := ∀ j < ninodes fsxp.inode, INODE.Tight fsxp.inode j m

/-- The blocks in the dirty set of a file belong to it. -/
def Marked (ms : MemState) : Prop :=
  ∀ j < ninodes fsxp.inode, ∀ a ∈ getDirty j ms.msDBlocks, a ∈ blocks fsxp m j

/-- All blocks that files can use. -/
def allBlocks : Multiset ℕ := (List.range' 1 (fsxp.nblocks - 1) : List ℕ)

/-- The blocks that are free or owned by a file. -/
def total (ms : MemState) : Multiset ℕ :=
  freeOf fsxp m ms.msAllocC true + freeOf fsxp m ms.msAllocC false +
    ∑ i ∈ Finset.range (ninodes fsxp.inode), owned fsxp m i

/-- The invariant of the file layer: no block is in two places. -/
structure Inv (ms : MemState) : Prop where
  icache : irecSig.CacheOk m fsxp.inode ms.msICache
  len : ∀ i < ninodes fsxp.inode, (blocks fsxp m i).length ≤ INODE.nBlocks
  own : total fsxp m ms ≤ allBlocks fsxp

/-- The cached free lists of blocks agree with the bitmaps. -/
def Coherent (alc : BmapCacheType × BmapCacheType) : Prop :=
  ∀ b, BALLOCC.Coh m (bxpOf fsxp b) (pickBalloc alc b)

end

variable {n inum : ℕ} {fsxp : FsXparams} {m m' m'' : Mem} {ms ms' ms'' : MemState} {b : Bool}
  {S T : Set ℕ}

theorem nodup_allBlocks : (allBlocks fsxp).Nodup :=
  Multiset.coe_nodup.2 List.nodup_range'

theorem mem_allBlocks {a : ℕ} : a ∈ allBlocks fsxp ↔ a ≠ 0 ∧ a < fsxp.nblocks := by
  rw [allBlocks, Multiset.mem_coe, List.mem_range'_1]
  omega

/-- The blocks of a file, the free blocks of one allocator and all others. -/
theorem total_split (fsxp : FsXparams) (m : Mem) (ms : MemState) (hi : inum < ninodes fsxp.inode)
    (b : Bool) : total fsxp m ms =
    owned fsxp m inum + freeOf fsxp m ms.msAllocC b + (freeOf fsxp m ms.msAllocC (!b) +
      ∑ i ∈ (Finset.range (ninodes fsxp.inode)).erase inum, owned fsxp m i) := by
  rw [total, ← Finset.add_sum_erase _ _ (Finset.mem_range.2 hi)]
  cases b
  · change _ = _ + freeOf fsxp m ms.msAllocC false + (freeOf fsxp m ms.msAllocC true + _)
    abel
  · change _ = _ + freeOf fsxp m ms.msAllocC true + (freeOf fsxp m ms.msAllocC false + _)
    abel

theorem Inv.nodup_total (h : Inv fsxp m ms) : (total fsxp m ms).Nodup :=
  Multiset.nodup_of_le h.own nodup_allBlocks

/-- A block of a file that is not the one in question is neither owned by that one nor free. -/
theorem Inv.not_mem (h : Inv fsxp m ms) (hi : inum < ninodes fsxp.inode) {j a : ℕ}
    (hj : j < ninodes fsxp.inode) (hne : j ≠ inum) (ha : a ∈ owned fsxp m j) :
    a ∉ owned fsxp m inum + freeOf fsxp m ms.msAllocC b := by
  have hnd := h.nodup_total
  rw [total_split fsxp m ms hi b] at hnd
  have ha' : a ∈ freeOf fsxp m ms.msAllocC (!b) +
      ∑ i ∈ (Finset.range (ninodes fsxp.inode)).erase inum, owned fsxp m i := by
    rw [Multiset.mem_add, Multiset.mem_sum]
    exact .inr ⟨j, Finset.mem_erase.2 ⟨hne, Finset.mem_range.2 hj⟩, ha⟩
  exact fun hmem => Multiset.disjoint_left.1 (Multiset.nodup_add.1 hnd).2.2 hmem ha'

theorem Inv.owned_add_free_le (h : Inv fsxp m ms) (hi : inum < ninodes fsxp.inode) (b : Bool) :
    owned fsxp m inum + freeOf fsxp m ms.msAllocC b ≤ allBlocks fsxp := by
  refine le_trans ?_ h.own
  rw [total_split fsxp m ms hi b]
  exact Multiset.le_add_right _ _

theorem Inv.mem_allBlocks_of_owned (h : Inv fsxp m ms) (hi : inum < ninodes fsxp.inode) {a : ℕ}
    (ha : a ∈ owned fsxp m inum) : a ≠ 0 ∧ a < fsxp.nblocks :=
  mem_allBlocks.1 (Multiset.mem_of_le (h.owned_add_free_le hi true) (Multiset.mem_add.2 (.inl ha)))

/-- The blocks that a file and an allocator have are in use for the allocator. -/
theorem Inv.good (hx : fsxp.Ok n) (h : Inv fsxp m ms) (hi : inum < ninodes fsxp.inode) (b : Bool) :
    Good (bxpOf fsxp b) m (pickBalloc ms.msAllocC b) (owned fsxp m inum) := by
  have hle := h.owned_add_free_le hi b
  refine ⟨Multiset.nodup_of_le hle nodup_allBlocks, fun a ha => ?_⟩
  rw [nbits_bxpOf hx.toParts]
  exact mem_allBlocks.1 (Multiset.mem_of_le hle ha)

theorem Inv.good_nodes (hx : fsxp.Ok n) (h : Inv fsxp m ms) (hi : inum < ninodes fsxp.inode)
    (b : Bool) : Good (bxpOf fsxp b) m (pickBalloc ms.msAllocC b) (nodes fsxp m inum) :=
  (h.good hx hi b).mono (Multiset.le_add_right _ _)

/-! ### Steps of the file layer -/

/-- How files change: only the files in `S` do, blocks that a file loses become free on the side that
is not used for growing, and blocks that a file gets are dirty. -/
structure Moves (fsxp : FsXparams) (S : Set ℕ) (m : Mem) (ms : MemState) (m' : Mem)
    (ms' : MemState) : Prop where
  other : ∀ j < ninodes fsxp.inode, j ∉ S →
    irec fsxp.inode j m' = irec fsxp.inode j m ∧ ∀ a ∈ owned fsxp m j, m' a = m a
  msAlloc : ms'.msAlloc = ms.msAlloc
  giveData : ∀ j < ninodes fsxp.inode, ∀ a ∈ blocks fsxp m j,
    a ∈ blocks fsxp m' j ∨ a ∈ freeOf fsxp m' ms'.msAllocC (!ms.msAlloc)
  giveNodes : ∀ j < ninodes fsxp.inode, ∀ a ∈ nodes fsxp m j,
    a ∈ nodes fsxp m' j ∨ a ∈ freeOf fsxp m' ms'.msAllocC (!ms.msAlloc)
  free : ∀ a ∈ freeOf fsxp m ms.msAllocC (!ms.msAlloc),
    a ∈ freeOf fsxp m' ms'.msAllocC (!ms.msAlloc)
  dirty : ∀ j < ninodes fsxp.inode, ∀ a ∈ blocks fsxp m' j, a ∉ getDirty j ms'.msDBlocks →
    a ∈ blocks fsxp m j ∧ a ∉ getDirty j ms.msDBlocks
  total : total fsxp m' ms' = total fsxp m ms
  coh : Coherent fsxp m ms.msAllocC → Coherent fsxp m' ms'.msAllocC
  tight : Tight fsxp m → Tight fsxp m'
  marked : Marked fsxp m ms → Marked fsxp m' ms'

/-- What the programs of the file layer do: they move blocks and leave the inode allocator alone. -/
structure Step (fsxp : FsXparams) (S : Set ℕ) (m : Mem) (ms : MemState) (m' : Mem)
    (ms' : MemState) : Prop extends Moves fsxp S m ms m' ms' where
  ialloc : ∀ a ∈ IAlloc.bmp.region fsxp, m' a = m a
  msIAlloc : ms'.msIAllocC = ms.msIAllocC

/-- A file whose inode and index blocks have not been written has the same blocks as before. -/
theorem layout_congr {i : ℕ} (hl : (blocks fsxp m i).length ≤ INODE.nBlocks)
    (hr : irec fsxp.inode i m' = irec fsxp.inode i m) (hn : ∀ a ∈ nodes fsxp m i, m' a = m a) :
    nodes fsxp m' i = nodes fsxp m i ∧ blocks fsxp m' i = blocks fsxp m i := by
  constructor
  · simp only [nodes, INODE.nodes]
    rw [hr]
    exact BlockPtr.recNodes_congr hn
  · rw [blocks, INODE.length_blocks] at hl
    simp only [blocks, INODE.blocks]
    rw [hr]
    exact BlockPtr.recBlocks_congr hn hl

theorem tight_congr {i : ℕ} (hr : irec fsxp.inode i m' = irec fsxp.inode i m)
    (hn : ∀ a ∈ nodes fsxp m i, m' a = m a) (h : INODE.Tight fsxp.inode i m) :
    INODE.Tight fsxp.inode i m' := by
  rw [INODE.Tight, hr]
  exact BlockPtr.Tight.congr h hn

/-- A file whose inode and blocks have not been written is the same as before. -/
theorem view_congr {i : ℕ} (hl : (blocks fsxp m i).length ≤ INODE.nBlocks)
    (hr : irec fsxp.inode i m' = irec fsxp.inode i m) (ha : ∀ a ∈ owned fsxp m i, m' a = m a) :
    nodes fsxp m' i = nodes fsxp m i ∧ blocks fsxp m' i = blocks fsxp m i ∧
      owned fsxp m' i = owned fsxp m i ∧ file fsxp m' i = file fsxp m i := by
  have hblock : ∀ a ∈ blocks fsxp m i, m' a = m a :=
    fun a h => ha a (Multiset.mem_add.2 (.inr h))
  obtain ⟨h₁, h₂⟩ := layout_congr hl hr fun a h => ha a (Multiset.mem_add.2 (.inl h))
  refine ⟨h₁, h₂, by rw [owned, h₁, h₂, owned], ?_⟩
  rw [file, h₂, INODE.attrs, hr, List.map_congr_left hblock, file]
  rfl

theorem Moves.view (hi : Inv fsxp m ms) (h : Moves fsxp S m ms m' ms') {j : ℕ}
    (hj : j < ninodes fsxp.inode) (hS : j ∉ S) :
    nodes fsxp m' j = nodes fsxp m j ∧ blocks fsxp m' j = blocks fsxp m j ∧
      owned fsxp m' j = owned fsxp m j ∧ file fsxp m' j = file fsxp m j :=
  view_congr (hi.len j hj) (h.other j hj hS).1 (h.other j hj hS).2

theorem Moves.file (hi : Inv fsxp m ms) (h : Moves fsxp S m ms m' ms') {j : ℕ}
    (hj : j < ninodes fsxp.inode) (hS : j ∉ S) : file fsxp m' j = BFILE.file fsxp m j :=
  (h.view hi hj hS).2.2.2

theorem Moves.trans (hi : Inv fsxp m ms) (h : Moves fsxp S m ms m' ms')
    (h' : Moves fsxp T m' ms' m'' ms'') : Moves fsxp (S ∪ T) m ms m'' ms'' where
  other j hj hST := by
    have hS : j ∉ S := fun hs => hST (.inl hs)
    have hT : j ∉ T := fun ht => hST (.inr ht)
    have ho := (h.view hi hj hS).2.2.1
    obtain ⟨hr, ha⟩ := h.other j hj hS
    obtain ⟨hr', ha'⟩ := h'.other j hj hT
    exact ⟨hr'.trans hr, fun a hm => (ha' a (ho ▸ hm)).trans (ha a hm)⟩
  msAlloc := h'.msAlloc.trans h.msAlloc
  giveData j hj a ha := by
    have hf := h'.free a
    have hg := h'.giveData j hj a
    rw [h.msAlloc] at hf hg
    exact (h.giveData j hj a ha).elim hg fun hm => .inr (hf hm)
  giveNodes j hj a ha := by
    have hf := h'.free a
    have hg := h'.giveNodes j hj a
    rw [h.msAlloc] at hf hg
    exact (h.giveNodes j hj a ha).elim hg fun hm => .inr (hf hm)
  free a ha := by
    have hf := h'.free a
    rw [h.msAlloc] at hf
    exact hf (h.free a ha)
  dirty j hj a ha hd := by
    obtain ⟨ha', hd'⟩ := h'.dirty j hj a ha hd
    exact h.dirty j hj a ha' hd'
  total := h'.total.trans h.total
  coh hc := h'.coh (h.coh hc)
  tight ht := h'.tight (h.tight ht)
  marked hk := h'.marked (h.marked hk)

theorem Moves.trans_self (hi : Inv fsxp m ms) (h : Moves fsxp S m ms m' ms')
    (h' : Moves fsxp S m' ms' m'' ms'') : Moves fsxp S m ms m'' ms'' := by
  have := h.trans hi h'
  rwa [Set.union_self] at this

theorem Moves.mono (h : Moves fsxp S m ms m' ms') (hST : S ⊆ T) : Moves fsxp T m ms m' ms' :=
  { h with other := fun j hj hT => h.other j hj fun hs => hT (hST hs) }

/-- Only caches other than those of the allocators change. -/
theorem Step.of_eq (fsxp : FsXparams) (S : Set ℕ) (m : Mem) {ms ms' : MemState}
    (h₁ : ms'.msAlloc = ms.msAlloc) (h₂ : ms'.msAllocC = ms.msAllocC)
    (h₃ : ms'.msIAllocC = ms.msIAllocC) (h₄ : ms'.msDBlocks = ms.msDBlocks) :
    Step fsxp S m ms m ms' where
  other _ _ _ := ⟨rfl, fun _ _ => rfl⟩
  msAlloc := h₁
  giveData _ _ _ ha := .inl ha
  giveNodes _ _ _ ha := .inl ha
  free _ ha := h₂ ▸ ha
  dirty _ _ _ ha hd := ⟨ha, h₄ ▸ hd⟩
  total := by rw [BFILE.total, h₂, BFILE.total]
  coh h := h₂ ▸ h
  tight h := h
  marked hk j hj a ha := hk j hj a (h₄ ▸ ha)
  ialloc _ _ := rfl
  msIAlloc := h₃

theorem Step.refl (fsxp : FsXparams) (S : Set ℕ) (m : Mem) (ms : MemState) :
    Step fsxp S m ms m ms := Step.of_eq fsxp S m rfl rfl rfl rfl

theorem Step.withICache (fsxp : FsXparams) (S : Set ℕ) (m : Mem) (ms : MemState) (c : INODE.Cache) :
    Step fsxp S m ms m { ms with msICache := c } := Step.of_eq fsxp S m rfl rfl rfl rfl

theorem Step.trans_self (hi : Inv fsxp m ms) (h : Step fsxp S m ms m' ms')
    (h' : Step fsxp S m' ms' m'' ms'') : Step fsxp S m ms m'' ms'' where
  toMoves := h.toMoves.trans_self hi h'.toMoves
  ialloc a ha := (h'.ialloc a ha).trans (h.ialloc a ha)
  msIAlloc := h'.msIAlloc.trans h.msIAlloc

/-- What writing the blocks that a file has leaves as it is: where its blocks are, and which blocks
are free. -/
structure Kept (fsxp : FsXparams) (inum : ℕ) (m : Mem) (ms : MemState) (m' : Mem) (ms' : MemState) :
    Prop where
  blocks : BFILE.blocks fsxp m' inum = BFILE.blocks fsxp m inum
  nodes : BFILE.nodes fsxp m' inum = BFILE.nodes fsxp m inum
  free : ∀ b, freeOf fsxp m' ms'.msAllocC b = freeOf fsxp m ms.msAllocC b
  msDBlocks : ms'.msDBlocks = ms.msDBlocks

theorem Kept.trans (h : Kept fsxp inum m ms m' ms') (h' : Kept fsxp inum m' ms' m'' ms'') :
    Kept fsxp inum m ms m'' ms'' where
  blocks := h'.blocks.trans h.blocks
  nodes := h'.nodes.trans h.nodes
  free b := (h'.free b).trans (h.free b)
  msDBlocks := h'.msDBlocks.trans h.msDBlocks

/-- Only caches other than those of the allocators change. -/
theorem Kept.of_eq (fsxp : FsXparams) (inum : ℕ) (m : Mem) (h₁ : ms'.msAllocC = ms.msAllocC)
    (h₂ : ms'.msDBlocks = ms.msDBlocks) : Kept fsxp inum m ms m ms' :=
  ⟨rfl, rfl, fun _ => by rw [h₁], h₂⟩

/-- An edit of one file with the help of the allocator `b`: the file and the allocator exchange
blocks, and nothing else is written. -/
structure Edit (fsxp : FsXparams) (b : Bool) (inum : ℕ) (m : Mem) (ms : MemState) (m' : Mem)
    (ms' : MemState) : Prop where
  frame : ∀ a, a ∉ BALLOCC.bmp.region (bxpOf fsxp b) → a ∉ irecSig.region fsxp.inode →
    a ∉ owned fsxp m inum + freeOf fsxp m ms.msAllocC b → m' a = m a
  other : ∀ j < ninodes fsxp.inode, j ≠ inum → irec fsxp.inode j m' = irec fsxp.inode j m
  icache : irecSig.CacheOk m' fsxp.inode ms'.msICache
  len : (blocks fsxp m' inum).length ≤ INODE.nBlocks
  acc : owned fsxp m' inum + freeOf fsxp m' ms'.msAllocC b =
    owned fsxp m inum + freeOf fsxp m ms.msAllocC b
  side : pickBalloc ms'.msAllocC (!b) = pickBalloc ms.msAllocC (!b)
  coh : BALLOCC.Coh m (bxpOf fsxp b) (pickBalloc ms.msAllocC b) →
    BALLOCC.Coh m' (bxpOf fsxp b) (pickBalloc ms'.msAllocC b)
  msIAlloc : ms'.msIAllocC = ms.msIAllocC
  msAlloc : ms'.msAlloc = ms.msAlloc
  dirty : ∀ j, j ≠ inum → getDirty j ms'.msDBlocks = getDirty j ms.msDBlocks
  tight : INODE.Tight fsxp.inode inum m → INODE.Tight fsxp.inode inum m'

section

variable (hx : fsxp.Ok n) (hinv : Inv fsxp m ms) (hi : inum < ninodes fsxp.inode)
  (h : Edit fsxp b inum m ms m' ms')

include hx hinv hi h

/-- An edit writes nothing else behind the blocks of the files. -/
theorem Edit.high {a : ℕ} (ha : fsxp.nblocks ≤ a) (hb : a ∉ BALLOCC.bmp.region (bxpOf fsxp b))
    (hr : a ∉ irecSig.region fsxp.inode) : m' a = m a := by
  apply h.frame a hb hr
  intro hmem
  have := ((hinv.good hx hi b).valid a hmem).2
  rw [nbits_bxpOf hx.toParts] at this
  omega

theorem Edit.region_other {a : ℕ} (ha : a ∈ BALLOCC.bmp.region (bxpOf fsxp (!b))) : m' a = m a := by
  have h₁ := (mem_region_bxpOf hx.toParts ha).1
  have h₂ := hx.data
  have h₃ := hx.inode
  apply h.high hx hinv hi (by omega) (not_mem_region_other hx.toParts ha)
  intro hr
  have := (mem_region_inode hx.toParts hr).2
  omega

theorem Edit.free_other : freeOf fsxp m' ms'.msAllocC (!b) = freeOf fsxp m ms.msAllocC (!b) := by
  rw [freeOf, h.side, BlockPtr.freeSet_congr fun a ha => h.region_other hx hinv hi ha, freeOf]

theorem Edit.agree {j : ℕ} (hj : j < ninodes fsxp.inode) (hne : j ≠ inum) :
    ∀ a ∈ owned fsxp m j, m' a = m a := by
  intro a ha
  have hlt := (hinv.mem_allBlocks_of_owned hj ha).2
  apply h.frame a
  · intro hr
    have := (hinv.good hx hj b).not_mem_region (ballocOk hx.toParts b) ha
    exact this hr
  · intro hr
    have := (mem_region_inode hx.toParts hr).1
    omega
  · exact hinv.not_mem hi hj hne ha

theorem Edit.total : total fsxp m' ms' = BFILE.total fsxp m ms := by
  have hsum : ∑ i ∈ (Finset.range (ninodes fsxp.inode)).erase inum, owned fsxp m' i =
      ∑ i ∈ (Finset.range (ninodes fsxp.inode)).erase inum, owned fsxp m i := by
    apply Finset.sum_congr rfl
    intro j hj
    rw [Finset.mem_erase, Finset.mem_range] at hj
    exact (view_congr (hinv.len j hj.2) (h.other j hj.2 hj.1) (h.agree hx hinv hi hj.2 hj.1)).2.2.1
  rw [total_split fsxp m' ms' hi b, total_split fsxp m ms hi b, h.acc, h.free_other hx hinv hi, hsum]

theorem Edit.inv : Inv fsxp m' ms' where
  icache := h.icache
  len j hj := by
    rcases eq_or_ne j inum with rfl | hne
    · exact h.len
    · rw [(view_congr (hinv.len j hj) (h.other j hj hne) (h.agree hx hinv hi hj hne)).2.1]
      exact hinv.len j hj
  own := h.total hx hinv hi ▸ hinv.own

/-- An edit is a step; what is left to say is where the blocks go that the file loses. -/
theorem Edit.step
    (hdata : ∀ a ∈ blocks fsxp m inum,
      a ∈ blocks fsxp m' inum ∨ a ∈ freeOf fsxp m' ms'.msAllocC (!ms.msAlloc))
    (hnodes : ∀ a ∈ nodes fsxp m inum,
      a ∈ nodes fsxp m' inum ∨ a ∈ freeOf fsxp m' ms'.msAllocC (!ms.msAlloc))
    (hfree : ∀ a ∈ freeOf fsxp m ms.msAllocC (!ms.msAlloc),
      a ∈ freeOf fsxp m' ms'.msAllocC (!ms.msAlloc))
    (hdirty : ∀ a ∈ blocks fsxp m' inum, a ∉ getDirty inum ms'.msDBlocks →
      a ∈ blocks fsxp m inum ∧ a ∉ getDirty inum ms.msDBlocks)
    (hmarked : (∀ a ∈ getDirty inum ms.msDBlocks, a ∈ blocks fsxp m inum) →
      ∀ a ∈ getDirty inum ms'.msDBlocks, a ∈ blocks fsxp m' inum) :
    Step fsxp {inum} m ms m' ms' where
  other j hj hne := ⟨h.other j hj hne, h.agree hx hinv hi hj hne⟩
  ialloc a ha := by
    obtain ⟨h₁, h₂, h₃⟩ := not_mem_region_ialloc hx.toParts ha
    exact h.high hx hinv hi h₁ (h₃ b) h₂
  msIAlloc := h.msIAlloc
  msAlloc := h.msAlloc
  giveData j hj a ha := by
    rcases eq_or_ne j inum with rfl | hne
    · exact hdata a ha
    · rw [(view_congr (hinv.len j hj) (h.other j hj hne) (h.agree hx hinv hi hj hne)).2.1]
      exact .inl ha
  giveNodes j hj a ha := by
    rcases eq_or_ne j inum with rfl | hne
    · exact hnodes a ha
    · rw [(view_congr (hinv.len j hj) (h.other j hj hne) (h.agree hx hinv hi hj hne)).1]
      exact .inl ha
  free := hfree
  dirty j hj a ha hd := by
    rcases eq_or_ne j inum with rfl | hne
    · exact hdirty a ha hd
    · rw [(view_congr (hinv.len j hj) (h.other j hj hne) (h.agree hx hinv hi hj hne)).2.1] at ha
      rw [h.dirty j hne] at hd
      exact ⟨ha, hd⟩
  total := h.total hx hinv hi
  coh hc := by
    have hother : BALLOCC.Coh m' (bxpOf fsxp (!b)) (pickBalloc ms'.msAllocC (!b)) := by
      rw [h.side]
      exact (hc (!b)).congr fun a ha => h.region_other hx hinv hi ha
    intro b'
    rcases eq_or_ne b' b with rfl | hne
    · exact h.coh (hc b')
    · obtain rfl : b' = !b := by
        cases b <;> cases b' <;> simp_all
      exact hother
  tight ht j hj := by
    rcases eq_or_ne j inum with rfl | hne
    · exact h.tight (ht j hj)
    · exact tight_congr (h.other j hj hne)
        (fun a ha => h.agree hx hinv hi hj hne a (Multiset.mem_add.2 (.inl ha))) (ht j hj)
  marked hk j hj a ha := by
    rcases eq_or_ne j inum with rfl | hne
    · exact hmarked (hk j hj) a ha
    · rw [h.dirty j hne] at ha
      rw [(view_congr (hinv.len j hj) (h.other j hj hne) (h.agree hx hinv hi hj hne)).2.1]
      exact hk j hj a ha

/-- An edit that takes nothing from the file. -/
theorem Edit.step_of_le (hb : b = ms.msAlloc) (hdata : ∀ a ∈ blocks fsxp m inum, a ∈ blocks fsxp m' inum)
    (hnodes : nodes fsxp m inum ≤ nodes fsxp m' inum)
    (hdirty : ∀ a ∈ blocks fsxp m' inum, a ∉ getDirty inum ms'.msDBlocks →
      a ∈ blocks fsxp m inum ∧ a ∉ getDirty inum ms.msDBlocks)
    (hmarked : ∀ a ∈ getDirty inum ms'.msDBlocks,
      a ∈ getDirty inum ms.msDBlocks ∨ a ∈ blocks fsxp m' inum) :
    Step fsxp {inum} m ms m' ms' := by
  apply h.step hx hinv hi (fun a ha => .inl (hdata a ha))
    (fun a ha => .inl (Multiset.mem_of_le hnodes ha)) _ hdirty
  · exact fun hk a ha => (hmarked a ha).elim (fun hd => hdata a (hk a hd)) id
  · intro a ha
    rw [← hb] at ha ⊢
    rwa [h.free_other hx hinv hi]

end

end BFILE

end Fscq
