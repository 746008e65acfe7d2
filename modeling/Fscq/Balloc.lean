import Fscq.FSLayout
import Fscq.LogRecArray

/-!
# Bitmap allocators

An allocator keeps a bit for each object in a range of blocks and, once it has read them, a list of
the free objects in memory.  Object zero is never handed out.  The blocks of files come from two
such allocators and the inodes from a third one.
-/

namespace Fscq

open CrashProg

/-- The place of a bitmap. -/
structure AllocSig (XParams : Type) where
  bmpStart : XParams → ℕ
  bmpLen : XParams → ℕ

abbrev BmapCacheType := Option (List ℕ)

namespace AllocSig

variable {XParams : Type} (S : AllocSig XParams)

def wordSize : ℕ := 8

/-- The bitmap as an array of bytes. -/
def bmp : RASig XParams where
  raStart := S.bmpStart
  raLen := S.bmpLen
  itemtype := .wordF wordSize
  itemsPerVal := valulen / wordSize
  blocksz_ok := by rw [valulen_is]; rfl

/-! ### Bits -/

def avail : Bool := false

def inuse : Bool := true

def bits {sz : ℕ} (s : BitVec sz) : List Bool := (List.range sz).map s.getLsbD

def setBit {sz : ℕ} (s : BitVec sz) (b : Bool) (index : ℕ) : BitVec sz :=
  if b then s ||| BitVec.twoPow sz index else s &&& ~~~ BitVec.twoPow sz index

def bitsToFreelist : List Bool → ℕ → List ℕ
  | [], _ => []
  | b :: l, start =>
    let freelist := bitsToFreelist l (start + 1)
    if b = inuse then freelist else if start = 0 then freelist else start :: freelist

def wordToFreelist {sz : ℕ} (b : BitVec sz) (start : ℕ) : List ℕ := bitsToFreelist (bits b) start

def itemlistToFreelist' {sz : ℕ} : List (BitVec sz) → ℕ → List ℕ
  | [], _ => []
  | b :: bs, start => wordToFreelist b start ++ itemlistToFreelist' bs (start + sz)

def itemlistToFreelist {sz : ℕ} (bs : List (BitVec sz)) : List ℕ := itemlistToFreelist' bs 0

def hasAvail (s : BitVec wordSize) : Bool := if s = BitVec.allOnes wordSize then false else true

/-- Object zero counts as used. -/
def availNonzero (s : BitVec wordSize) (i : ℕ) : Bool :=
  if i = 0 then hasAvail (s ||| 1) else hasAvail s

def ifindByte (s : BitVec wordSize) : Option (ℕ × Bool) :=
  ifindList (fun b _ => if b = avail then true else false) (bits s) 0

/-! ### The bitmap -/

namespace Bmap

def free (xp : XParams) (bn : ℕ) : TxnProg Unit := do
  let s ← S.bmp.get xp (bn / wordSize)
  S.bmp.put xp (bn / wordSize) (@setBit wordSize s avail (bn % wordSize))

def steal (xp : XParams) (bn : ℕ) : TxnProg Unit := do
  let s ← S.bmp.get xp (bn / wordSize)
  S.bmp.put xp (bn / wordSize) (@setBit wordSize s inuse (bn % wordSize))

/-- The index of a byte with a free object, the place of the object in it, and the byte. -/
def ifindAvailNonzero (xp : XParams) : TxnProg (Option (ℕ × ℕ × BitVec wordSize)) := do
  let r : Option (ℕ × BitVec wordSize) ← S.bmp.ifind xp availNonzero
  match r with
  | none => pure none
  | some (bn, nonfull) =>
    match ifindByte (if bn = 0 then nonfull ||| 1 else nonfull) with
    | none => pure none -- won't happen
    | some (i, _) => pure (some (bn, i, nonfull))

/-- Find a free object in the bitmap and take it. -/
def alloc (xp : XParams) : TxnProg (Option ℕ) := do
  let r ← ifindAvailNonzero S xp
  match r with
  | none => pure none
  | some (bn, index, s) => do
    S.bmp.put xp bn (setBit s inuse index)
    pure (some (bn * wordSize + index))

def getFreeBlocks (xp : XParams) : TxnProg (List ℕ) := do
  let r ← S.bmp.read xp (S.bmpLen xp)
  pure (@itemlistToFreelist wordSize r)

def init (xp : XParams) : TxnProg Unit := S.bmp.init xp

/-- Initialise the bitmap with no free objects. -/
def initNofree (xp : XParams) : TxnProg Unit := do
  S.bmp.init xp
  S.bmp.write xp (List.replicate (S.bmpLen xp * S.bmp.itemsPerVal) (BitVec.allOnes wordSize))

end Bmap

/-! ### The allocator with a cached free list -/

def freelist0 : BmapCacheType := none

def init (xp : XParams) : TxnProg BmapCacheType := do
  Bmap.init S xp
  pure freelist0

def initNofree (xp : XParams) : TxnProg BmapCacheType := do
  Bmap.initNofree S xp
  pure freelist0

def getFreeBlocks (xp : XParams) (ms : BmapCacheType) : TxnProg (BmapCacheType × List ℕ) :=
  match ms with
  | some x => pure (ms, x)
  | none => do
    let freelist ← Bmap.getFreeBlocks S xp
    pure (some freelist, freelist)

def cacheFreeBlock (a : ℕ) (ms : BmapCacheType) : BmapCacheType := ms.map (a :: ·)

def alloc (xp : XParams) (ms : BmapCacheType) : TxnProg (BmapCacheType × Option ℕ) := do
  let (ms, freelist) ← S.getFreeBlocks xp ms
  match freelist with
  | [] => pure (ms, none)
  | bn :: freelist' => do
    Bmap.steal S xp bn
    pure (some freelist', some bn)

def free (xp : XParams) (bn : ℕ) (ms : BmapCacheType) : TxnProg BmapCacheType := do
  Bmap.free S xp bn
  pure (cacheFreeBlock bn ms)

def steal (xp : XParams) (bn : ℕ) (_ms : BmapCacheType) : TxnProg BmapCacheType := do
  Bmap.steal S xp bn
  pure freelist0

def freevec (xp : XParams) (l : List ℕ) (ms : BmapCacheType) : TxnProg BmapCacheType :=
  forN (fun i ms => S.free xp (l.getD i 0) ms) 0 l.length ms

/-! ## What the bitmap says -/

/-- The number of objects. -/
def nbits (xp : XParams) : ℕ := S.bmpLen xp * valulen

/-- A byte of the bitmap. -/
def byteAt (m : Mem) (xp : XParams) (ix : ℕ) : BitVec wordSize := S.bmp.item m xp ix

/-- The bit of an object. -/
def bit (m : Mem) (xp : XParams) (bn : ℕ) : Bool :=
  (S.byteAt m xp (bn / wordSize)).getLsbD (bn % wordSize)

/-- The memory with the bit of an object set. -/
def setBitMem (m : Mem) (xp : XParams) (bn : ℕ) (b : Bool) : Mem :=
  S.bmp.putItem m xp (bn / wordSize)
    (setBit (S.byteAt m xp (bn / wordSize)) b (bn % wordSize))

/-- The free objects of the bitmap. -/
def bmapFree (m : Mem) (xp : XParams) : List ℕ :=
  (List.range (S.nbits xp)).filter fun bn => bn ≠ 0 ∧ S.bit m xp bn = avail

/-- The free objects that the allocator knows or will find. -/
def freeList (m : Mem) (xp : XParams) (ms : BmapCacheType) : List ℕ := ms.getD (S.bmapFree m xp)

/-- The cached list and the bitmap have the same free objects. -/
def Coh (m : Mem) (xp : XParams) (ms : BmapCacheType) : Prop :=
  ∀ l, ms = some l → l.Perm (S.bmapFree m xp)

theorem Coh.perm {S : AllocSig XParams} {m : Mem} {xp : XParams} {ms : BmapCacheType}
    (h : S.Coh m xp ms) : (S.freeList m xp ms).Perm (S.bmapFree m xp) := by
  cases ms with
  | none => exact .refl _
  | some l => exact h l rfl

variable {S} {n bn bn' : ℕ} {xp : XParams} {m m' : Mem} {ms : BmapCacheType} {b : Bool}

theorem itemsPerVal_bmp : S.bmp.itemsPerVal * wordSize = valulen := by
  rw [valulen_is]
  change valulen / wordSize * wordSize = 32768
  rw [valulen_is]
  rfl

theorem nbits_eq (xp : XParams) : S.nbits xp = S.bmpLen xp * S.bmp.itemsPerVal * wordSize := by
  rw [nbits, Nat.mul_assoc, itemsPerVal_bmp]

theorem div_lt_of_lt_nbits (h : bn < S.nbits xp) :
    bn / wordSize < S.bmp.raLen xp * S.bmp.itemsPerVal := by
  rw [nbits_eq] at h
  exact (Nat.div_lt_iff_lt_mul (by decide)).2 h

theorem getLsbD_setBit {sz : ℕ} (s : BitVec sz) (b : Bool) {i : ℕ} (hi : i < sz) (j : ℕ) :
    (setBit s b i).getLsbD j = if j = i then b else s.getLsbD j := by
  cases b with
  | false =>
    rw [setBit, if_neg (by simp), BitVec.getLsbD_and, BitVec.getLsbD_not, BitVec.getLsbD_twoPow]
    rcases eq_or_ne j i with rfl | h
    · simp [hi]
    · rw [if_neg h]
      rcases Nat.lt_or_ge j sz with hj | hj
      · simp [hj, h.symm]
      · simp [BitVec.getLsbD_of_ge s j hj]
  | true =>
    rw [setBit, if_pos rfl, BitVec.getLsbD_or, BitVec.getLsbD_twoPow]
    rcases eq_or_ne j i with rfl | h
    · simp [hi]
    · simp [h, h.symm]

/-- The bits of a word in the bitmap. -/
theorem bit_word (m : Mem) (xp : XParams) (i : ℕ) {j : ℕ} (hj : j < wordSize) :
    S.bit m xp (i * wordSize + j) = (S.byteAt m xp i).getLsbD j := by
  have h₁ : (i * wordSize + j) / wordSize = i := by
    rw [Nat.mul_comm, Nat.mul_add_div (by decide), Nat.div_eq_of_lt hj, Nat.add_zero]
  have h₂ : (i * wordSize + j) % wordSize = j := by
    rw [Nat.mul_comm, Nat.mul_add_mod, Nat.mod_eq_of_lt hj]
  rw [bit, h₁, h₂]

theorem byteAt_putItem (m : Mem) (xp : XParams) (ix jx : ℕ) (x : BitVec wordSize) :
    S.byteAt (S.bmp.putItem m xp ix x) xp jx = if jx = ix then x else S.byteAt m xp jx :=
  RASig.item_putItem (R := S.bmp) trivial

theorem bit_setBitMem (m : Mem) (xp : XParams) (bn bn' : ℕ) (b : Bool) :
    S.bit (S.setBitMem m xp bn b) xp bn' = if bn' = bn then b else S.bit m xp bn' := by
  have hmod : bn % wordSize < wordSize := Nat.mod_lt _ (by decide)
  rw [bit, setBitMem, byteAt_putItem]
  rcases eq_or_ne (bn' / wordSize) (bn / wordSize) with hd | hd
  · rw [if_pos hd, getLsbD_setBit _ _ hmod]
    have : bn' % wordSize = bn % wordSize ↔ bn' = bn := by
      constructor
      · intro hm
        rw [← Nat.div_add_mod bn' wordSize, ← Nat.div_add_mod bn wordSize, hd, hm]
      · rintro rfl
        rfl
    rcases eq_or_ne bn' bn with rfl | hne
    · rw [if_pos rfl, if_pos rfl]
    · rw [if_neg (this.not.2 hne), if_neg hne, bit, hd]
  · rw [if_neg hd, if_neg (fun h => hd (by rw [h])), bit]

theorem setBitMem_of_not_mem (h : bn < S.nbits xp) {a : ℕ} (ha : a ∉ S.bmp.region xp) :
    S.setBitMem m xp bn b a = m a := RASig.putItem_of_not_mem (div_lt_of_lt_nbits h) ha

theorem bit_congr (h : bn < S.nbits xp) (hm : ∀ a ∈ S.bmp.region xp, m' a = m a) :
    S.bit m' xp bn = S.bit m xp bn := by
  rw [bit, byteAt, RASig.item_congr (div_lt_of_lt_nbits h) hm]
  rfl

theorem mem_bmapFree : bn ∈ S.bmapFree m xp ↔ bn < S.nbits xp ∧ bn ≠ 0 ∧ S.bit m xp bn = avail := by
  simp [bmapFree]

theorem nodup_bmapFree : (S.bmapFree m xp).Nodup := List.Nodup.filter _ List.nodup_range

theorem bmapFree_congr (hm : ∀ a ∈ S.bmp.region xp, m' a = m a) :
    S.bmapFree m' xp = S.bmapFree m xp := by
  apply List.filter_congr
  intro bn hbn
  rw [bit_congr (List.mem_range.1 hbn) hm]

theorem freeList_congr (hm : ∀ a ∈ S.bmp.region xp, m' a = m a) :
    S.freeList m' xp ms = S.freeList m xp ms := by
  rw [freeList, bmapFree_congr hm, freeList]

theorem Coh.congr (h : S.Coh m xp ms) (hm : ∀ a ∈ S.bmp.region xp, m' a = m a) :
    S.Coh m' xp ms := by
  intro l hl
  rw [bmapFree_congr hm]
  exact h l hl

/-- A bitmap from which an object has been taken. -/
theorem bmapFree_steal : S.bmapFree (S.setBitMem m xp bn inuse) xp = (S.bmapFree m xp).erase bn := by
  rw [nodup_bmapFree.erase_eq_filter, bmapFree, bmapFree, List.filter_filter]
  apply List.filter_congr
  intro x _
  rw [bit_setBitMem]
  rcases eq_or_ne x bn with rfl | h
  · simp [inuse, avail]
  · simp [h]

/-- A bitmap to which an object has been returned. -/
theorem bmapFree_free (h : bn ∉ S.bmapFree m xp) (h0 : bn ≠ 0) (hn : bn < S.nbits xp) :
    (S.bmapFree (S.setBitMem m xp bn avail) xp).Perm (bn :: S.bmapFree m xp) := by
  apply (List.perm_ext_iff_of_nodup nodup_bmapFree (List.nodup_cons.2 ⟨h, nodup_bmapFree⟩)).2
  intro x
  rw [List.mem_cons, mem_bmapFree, mem_bmapFree, bit_setBitMem]
  rcases eq_or_ne x bn with rfl | hx
  · simp [h0, hn]
  · simp [hx]

/-! ### Reading the bitmap -/

theorem bitsToFreelist_bits {sz : ℕ} (p : ℕ → Bool) (start : ℕ) :
    bitsToFreelist ((List.range sz).map fun i => p (start + i)) start =
      (List.range' start sz).filter fun bn => bn ≠ 0 ∧ p bn = avail := by
  induction sz generalizing start with
  | zero => rfl
  | succ sz ih =>
    have e : (List.range (sz + 1)).map (fun i => p (start + i)) =
        p start :: (List.range sz).map (fun i => p (start + 1 + i)) := by
      rw [List.range_succ_eq_map, List.map_cons, List.map_map]
      congr 1
      apply List.map_congr_left
      intro i _
      rw [Function.comp_apply, Nat.succ_eq_add_one, Nat.add_assoc start 1 i, Nat.add_comm 1 i]
    rw [e, bitsToFreelist, ih, List.range'_succ, List.filter_cons]
    cases hp : p start
    · rcases eq_or_ne start 0 with rfl | h0
      · simp [inuse]
      · simp [inuse, avail, h0]
    · simp [inuse, avail]

theorem itemlistToFreelist'_eq (xp : XParams) (k cnt : ℕ) :
    itemlistToFreelist' ((List.range' k cnt).map (S.byteAt m xp)) (k * wordSize) =
      (List.range' (k * wordSize) (cnt * wordSize)).filter
        fun bn => bn ≠ 0 ∧ S.bit m xp bn = avail := by
  induction cnt generalizing k with
  | zero => simp [itemlistToFreelist']
  | succ cnt ih =>
    have hw : wordToFreelist (S.byteAt m xp k) (k * wordSize) =
        (List.range' (k * wordSize) wordSize).filter
          fun bn => bn ≠ 0 ∧ S.bit m xp bn = avail := by
      rw [← bitsToFreelist_bits, wordToFreelist, bits]
      congr 1
      apply List.map_congr_left
      exact fun i hi => (bit_word m xp k (List.mem_range.1 hi)).symm
    have e : k * wordSize + wordSize = (k + 1) * wordSize := by ring
    rw [List.range'_succ, List.map_cons, itemlistToFreelist', hw, e, ih, ← List.filter_append, ← e,
      List.range'_append_1]
    congr 2
    ring

/-- Reading the whole bitmap finds its free objects. -/
theorem itemlistToFreelist_items (m : Mem) (xp : XParams) :
    @itemlistToFreelist wordSize
      (S.bmp.items (Txn.blocks m (S.bmp.raStart xp) (S.bmp.raLen xp))) = S.bmapFree m xp := by
  have hitems : (S.bmp.items (Txn.blocks m (S.bmp.raStart xp) (S.bmp.raLen xp)) :
      List (BitVec wordSize)) =
      (List.range' 0 (S.bmpLen xp * S.bmp.itemsPerVal)).map (S.byteAt m xp) := by
    rw [← List.range_eq_range']
    exact RASig.items_blocks m xp _
  have h := itemlistToFreelist'_eq (S := S) (m := m) xp 0 (S.bmpLen xp * S.bmp.itemsPerVal)
  rw [Nat.zero_mul, ← hitems, ← nbits_eq, ← List.range_eq_range'] at h
  exact h

/-! ## What the programs do -/

/-- What the steps of an allocator leave alone: they write the bitmap, and here also the blocks of
a set `W`, and they keep the cached list and the bitmap together. -/
structure Step (S : AllocSig XParams) (xp : XParams) (W : Set ℕ) (m : Mem) (ms : BmapCacheType)
    (m' : Mem) (ms' : BmapCacheType) : Prop where
  frame : ∀ a, a ∉ S.bmp.region xp → a ∉ W → m' a = m a
  coh : S.Coh m xp ms → S.Coh m' xp ms'

theorem Step.refl (S : AllocSig XParams) (xp : XParams) (W : Set ℕ) (m : Mem) (ms : BmapCacheType) :
    S.Step xp W m ms m ms := ⟨fun _ _ _ => rfl, id⟩

theorem Step.trans {W W' : Set ℕ} {m'' : Mem} {ms' ms'' : BmapCacheType}
    (h : S.Step xp W m ms m' ms') (h' : S.Step xp W' m' ms' m'' ms'') (hW : W ⊆ W') :
    S.Step xp W' m ms m'' ms'' :=
  ⟨fun a ha haW => (h'.frame a ha haW).trans (h.frame a ha fun hx => haW (hW hx)),
    fun hc => h'.coh (h.coh hc)⟩

theorem Step.mono {W W' : Set ℕ} {ms' : BmapCacheType} (h : S.Step xp W m ms m' ms')
    (hW : W ⊆ W') : S.Step xp W' m ms m' ms' :=
  (Step.refl S xp W m ms).trans ⟨fun a ha haW => h.frame a ha fun hx => haW (hW hx), h.coh⟩
    hW

theorem wp_bmapSteal {Q : Unit → Mem → Prop} (hf : S.bmp.Fits n xp) (h : bn < S.nbits xp)
    (hQ : Q () (S.setBitMem m xp bn inuse)) : Txn.wp n (Bmap.steal S xp bn) Q m := by
  apply wp_bind
  apply RASig.wp_get hf (div_lt_of_lt_nbits h)
  exact RASig.wp_put hf (div_lt_of_lt_nbits h) hQ

theorem wp_bmapFree {Q : Unit → Mem → Prop} (hf : S.bmp.Fits n xp) (h : bn < S.nbits xp)
    (hQ : Q () (S.setBitMem m xp bn avail)) : Txn.wp n (Bmap.free S xp bn) Q m := by
  apply wp_bind
  apply RASig.wp_get hf (div_lt_of_lt_nbits h)
  exact RASig.wp_put hf (div_lt_of_lt_nbits h) hQ

theorem wp_getFreeBlocks {Q : BmapCacheType × List ℕ → Mem → Prop} (hf : S.bmp.Fits n xp)
    (hQ : Q (some (S.freeList m xp ms), S.freeList m xp ms) m) :
    Txn.wp n (S.getFreeBlocks xp ms) Q m := by
  unfold getFreeBlocks
  split
  next x => exact wp_pure hQ
  next =>
    apply wp_bind
    apply wp_bind
    apply RASig.wp_readItems hf.bound
    apply wp_pure
    apply wp_pure
    exact (congrArg (fun l => Q (some l, l) m) (itemlistToFreelist_items m xp)).mpr hQ

/-- The first free object, if there is one, is taken. -/
theorem wp_alloc {Q : BmapCacheType × Option ℕ → Mem → Prop} (hf : S.bmp.Fits n xp)
    (hr : ∀ bn ∈ S.freeList m xp ms, bn < S.nbits xp)
    (hnone : S.freeList m xp ms = [] → Q (some [], none) m)
    (hsome : ∀ bn l, S.freeList m xp ms = bn :: l →
      S.Step xp ∅ m ms (S.setBitMem m xp bn inuse) (some l) →
      Q (some l, some bn) (S.setBitMem m xp bn inuse)) :
    Txn.wp n (S.alloc xp ms) Q m := by
  apply wp_bind
  apply wp_getFreeBlocks hf
  cases hfl : S.freeList m xp ms with
  | nil => exact wp_pure (hnone hfl)
  | cons bn l =>
    have hbn : bn < S.nbits xp := hr bn (by rw [hfl]; exact List.mem_cons_self)
    apply wp_bind
    apply wp_bmapSteal hf hbn
    apply wp_pure
    refine hsome bn l hfl ⟨fun a ha _ => setBitMem_of_not_mem hbn ha, ?_⟩
    intro hc l' hl'
    obtain rfl := Option.some.inj hl'
    have hp : (bn :: l).Perm (S.bmapFree m xp) := by
      rw [← hfl, freeList]
      cases hms : ms with
      | none => exact List.Perm.refl _
      | some k => exact hc k hms
    rw [bmapFree_steal]
    have := hp.erase bn
    rwa [List.erase_cons_head] at this

/-- An object that is not free becomes free. -/
theorem wp_free {Q : BmapCacheType → Mem → Prop} (hf : S.bmp.Fits n xp) (h0 : bn ≠ 0)
    (hn : bn < S.nbits xp) (hbn : bn ∉ S.freeList m xp ms)
    (hQ : ∀ ms' m', S.Step xp ∅ m ms m' ms' →
      (S.freeList m' xp ms').Perm (bn :: S.freeList m xp ms) → Q ms' m') :
    Txn.wp n (S.free xp bn ms) Q m := by
  apply wp_bind
  apply wp_bmapFree hf hn
  apply wp_pure
  apply hQ
  · refine ⟨fun a ha _ => setBitMem_of_not_mem hn ha, ?_⟩
    intro hc l hl
    cases hms : ms with
    | none => simp [hms, cacheFreeBlock] at hl
    | some k =>
      obtain rfl : bn :: k = l := by simpa [hms, cacheFreeBlock] using hl
      have hk := hc k hms
      have hbn' : bn ∉ S.bmapFree m xp := by
        rw [freeList, hms, Option.getD_some] at hbn
        exact fun h => hbn (hk.mem_iff.2 h)
      exact (hk.cons bn).trans (bmapFree_free hbn' h0 hn).symm
  · cases ms with
    | none => exact bmapFree_free hbn h0 hn
    | some k => exact List.Perm.refl _

/-- A list of objects becomes free. -/
theorem wp_freevec {Q : BmapCacheType → Mem → Prop} {l : List ℕ} (hf : S.bmp.Fits n xp)
    (hl : ∀ bn ∈ l, bn ≠ 0 ∧ bn < S.nbits xp) (hnd : (l ++ S.freeList m xp ms).Nodup)
    (hQ : ∀ ms' m', S.Step xp ∅ m ms m' ms' →
      (S.freeList m' xp ms').Perm (l ++ S.freeList m xp ms) → Q ms' m') :
    Txn.wp n (S.freevec xp l ms) Q m := by
  apply Txn.wp_post (Q := fun ms' m' => S.Step xp ∅ m ms m' ms' ∧
    (S.freeList m' xp ms').Perm (l.take l.length ++ S.freeList m xp ms))
  · apply wp_forN (fun i ms' m' => S.Step xp ∅ m ms m' ms' ∧
      (S.freeList m' xp ms').Perm (l.take i ++ S.freeList m xp ms)) (N := l.length)
    · rintro i ms' m' hi ⟨hst, hp⟩
      have hmem : l[i] ∈ l := List.getElem_mem hi
      rw [List.getD_eq_getElem _ _ hi]
      apply wp_free hf (hl _ hmem).1 (hl _ hmem).2
      · -- the object is still in the rest of the list
        rw [hp.mem_iff]
        have hsplit : l = l.take i ++ l[i] :: l.drop (i + 1) := by
          rw [List.getElem_cons_drop, List.take_append_drop]
        rw [hsplit, List.append_assoc, List.nodup_append] at hnd
        intro hx
        rcases List.mem_append.1 hx with hx | hx
        · exact hnd.2.2 _ hx _ (List.mem_append_left _ List.mem_cons_self) rfl
        · have := (List.nodup_cons.1 hnd.2.1).1
          exact this (List.mem_append_right _ hx)
      · intro ms'' m'' hst' hp'
        refine ⟨hst.trans hst' (Set.Subset.refl _), hp'.trans ?_⟩
        rw [List.take_succ_eq_append_getElem hi, List.append_assoc, List.singleton_append]
        exact (hp.cons _).trans List.perm_middle.symm
    · omega
    · exact ⟨Step.refl S xp ∅ m ms, by simp⟩
  · rintro ms' m' ⟨hst, hp⟩
    rw [List.take_length] at hp
    exact hQ ms' m' hst hp

/-! ### Making a bitmap -/

/-- All objects of the bitmap are free, or all are in use. -/
def Uniform (S : AllocSig XParams) (m : Mem) (xp : XParams) (b : Bool) : Prop :=
  ∀ bn < S.nbits xp, S.bit m xp bn = b

theorem wp_init {Q : BmapCacheType → Mem → Prop} (hf : S.bmp.Fits n xp)
    (hQ : ∀ m', (∀ a ∉ S.bmp.region xp, m' a = m a) → S.Uniform m' xp avail → Q none m') :
    Txn.wp n (S.init xp) Q m := by
  refine wp_bind (RASig.wp_init hf (wp_pure (hQ _ ?_ ?_)))
  · exact fun a ha => RASig.fill_of_not_mem ha
  · intro bn hbn
    rw [bit, byteAt, RASig.item_fill (RASig.wellFormed_item0 _) (div_lt_of_lt_nbits hbn)]
    exact BitVec.getLsbD_zero

theorem wp_initNofree {Q : BmapCacheType → Mem → Prop} (hf : S.bmp.Fits n xp)
    (hQ : ∀ m', (∀ a ∉ S.bmp.region xp, m' a = m a) → S.Uniform m' xp inuse → Q none m') :
    Txn.wp n (S.initNofree xp) Q m := by
  have hw : Rec.WellFormed S.bmp.itemtype (BitVec.allOnes wordSize) := trivial
  refine wp_bind (wp_bind (RASig.wp_init hf ?_))
  rw [RASig.write, RASig.ipack_replicate hw]
  refine RASig.wp_writeFill hf (wp_pure (hQ _ ?_ ?_))
  · exact fun a ha => (RASig.fill_of_not_mem ha).trans (RASig.fill_of_not_mem ha)
  · intro bn hbn
    rw [bit, byteAt, RASig.item_fill hw (div_lt_of_lt_nbits hbn)]
    simp [inuse, Nat.mod_lt _ (show 0 < wordSize by decide)]

/-! ### Where an allocator writes -/

theorem above_bmapSteal (xp : XParams) (bn : ℕ) :
    Txn.Above (S.bmpStart xp) (Bmap.steal S xp bn) :=
  ((RASig.atMost_get xp _).above _).bind fun _ => RASig.above_put xp _ _

theorem above_bmapFree (xp : XParams) (bn : ℕ) : Txn.Above (S.bmpStart xp) (Bmap.free S xp bn) :=
  ((RASig.atMost_get xp _).above _).bind fun _ => RASig.above_put xp _ _

theorem above_init (xp : XParams) : Txn.Above (S.bmpStart xp) (S.init xp) :=
  (Txn.above_writeRange _ _).bind fun _ => Txn.above_pure _ _

theorem above_initNofree (xp : XParams) : Txn.Above (S.bmpStart xp) (S.initNofree xp) :=
  ((Txn.above_writeRange _ _).bind fun _ => Txn.above_writeRange _ _).bind
    fun _ => Txn.above_pure _ _

theorem atMost_getFreeBlocks (xp : XParams) (ms : BmapCacheType) :
    Txn.AtMost 0 (S.getFreeBlocks xp ms) := by
  cases ms with
  | some l => exact Txn.atMost_pure 0 _
  | none =>
    have hread : Txn.AtMost 0 (S.bmp.read xp (S.bmpLen xp)) := Txn.atMost_readRange _ _ _ _
    exact (hread.bind fun _ => Txn.atMost_pure 0 _).bind fun _ => Txn.atMost_pure 0 _

theorem atMost_alloc (xp : XParams) (ms : BmapCacheType) : Txn.AtMost 1 (S.alloc xp ms) := by
  apply (atMost_getFreeBlocks xp ms).after
  rintro ⟨ms', _ | ⟨bn, l⟩⟩
  · exact Txn.atMost_pure 1 _
  · exact ((RASig.atMost_get xp _).after fun _ => RASig.atMost_put xp _ _).bind
      fun _ => Txn.atMost_pure 0 _

theorem above_alloc (xp : XParams) (ms : BmapCacheType) :
    Txn.Above (S.bmpStart xp) (S.alloc xp ms) := by
  apply ((atMost_getFreeBlocks xp ms).above _).bind
  rintro ⟨ms', _ | ⟨bn, l⟩⟩
  · exact Txn.above_pure _ _
  · exact (above_bmapSteal xp bn).bind fun _ => Txn.above_pure _ _

end AllocSig

/-- The allocators of blocks. -/
def BALLOCC : AllocSig BallocXparams := ⟨BallocXparams.bmapStart, BallocXparams.bmapNBlocks⟩

/-- The allocator of inodes. -/
def IAlloc : AllocSig FsXparams :=
  ⟨fun xp => xp.inodeAlloc.bmapStart, fun xp => xp.inodeAlloc.bmapNBlocks⟩

end Fscq
