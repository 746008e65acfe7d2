import Fscq.BFileShrink
import Fscq.Fuse
import Fscq.Hslib.WordSlice
import Mathlib.Order.CompletePartialOrder

/-!
# The bytes of a file

A file is read and written in pieces of blocks.  `byteAt` is the byte at an offset of a list of
blocks; the results say which bytes the pieces of a range cover, and what reading and writing them
does to these bytes.
-/

namespace Fscq

open Hslib (ByteString bs2i)

namespace Fuse

/-! ### Blocks of bytes -/

variable {v : Valu} {bs : ByteString} {data : List Valu} {p b : ℕ}

theorem w2bs_spec (v : Valu) : (w2bs v).length = 4096 ∧ bs2i (w2bs v) = v.toNat := by
  have hv : v.toNat < 2 ^ (8 * (4096 : ℤ).toNat) := v.isLt.trans_eq (congrArg (2 ^ ·) valulen_is)
  obtain ⟨bs, hbs⟩ := Hslib.exists_i2bs (k := 4096) (by decide) hv
  obtain ⟨-, hval, hlen⟩ := Hslib.i2bs_eq_some_iff.1 hbs
  have heq : w2bs v = bs := by rw [w2bs, hbs, Option.getD_some]
  rw [heq]
  exact ⟨by exact_mod_cast hlen, hval⟩

@[simp] theorem length_w2bs (v : Valu) : (w2bs v).length = 4096 := (w2bs_spec v).1

theorem w2bs_of_bs2i (hlen : bs.length = 4096) (hval : bs2i bs = v.toNat) : w2bs v = bs := by
  rw [w2bs, Hslib.i2bs_eq_some_iff.2 ⟨by decide, hval, by rw [hlen]; rfl⟩, Option.getD_some]

/-- The bytes that have been put into a block are read back. -/
theorem w2bs_wbs (h : bs.length = 4096) : w2bs (wbs bs) = bs := by
  apply w2bs_of_bs2i h
  have hlt := Hslib.bs2i_lt bs
  have h0 := Hslib.bs2i_nonneg bs
  rw [h, ← show valulen = 8 * 4096 from valulen_is] at hlt
  rw [wbs, BitVec.toNat_ofInt, Int.toNat_of_nonneg (Int.emod_nonneg _ (by positivity))]
  rw [Int.emod_eq_of_lt h0 (by exact_mod_cast hlt)]

theorem w2bs_zero : w2bs 0 = List.replicate 4096 0 := by
  apply w2bs_of_bs2i List.length_replicate
  rw [Hslib.bs2i_zeros]
  rfl

/-- The byte at an offset of a list of blocks, and zero behind them. -/
def byteAt (data : List Valu) (p : ℕ) : UInt8 :=
  (w2bs (data.getD (p / 4096) 0)).getD (p % 4096) 0

theorem byteAt_of_le (h : 4096 * data.length ≤ p) : byteAt data p = 0 := by
  have hlen : data.length ≤ p / 4096 := by omega
  rw [byteAt, List.getD_eq_default data 0 hlen, w2bs_zero]
  apply List.getD_replicate
  exact Nat.mod_lt p (by decide)

theorem byteAt_set (hb : b < data.length) :
    byteAt (data.set b v) p = if p / 4096 = b then (w2bs v).getD (p % 4096) 0 else byteAt data p := by
  rw [byteAt, List.getD_eq_getElem?_getD (l := data.set b v), List.getElem?_set]
  by_cases h : p / 4096 = b
  · rw [if_pos h.symm, if_pos hb, if_pos h, Option.getD_some]
  · rw [if_neg (Ne.symm h), if_neg h, ← List.getD_eq_getElem?_getD, byteAt]

/-! ### Ranges -/

/-- The part of a range of bytes that is in a block. -/
def rangeAt (off count b : ℕ) : BlockRange where
  blk := b
  off := max off (4096 * b) - 4096 * b
  count := min (off + count) (4096 * (b + 1)) - max off (4096 * b)

theorem rangeAt_blk (off count b : ℕ) : (rangeAt off count b).blk = b := rfl

theorem rangeAt_off (off count b : ℕ) :
    (rangeAt off count b).off = (max off (4096 * b) - 4096 * b : ℕ) := by
  show ((max off (4096 * b) : ℕ) : ℤ) - 4096 * b = _
  omega

theorem rangeAt_count {off count b : ℕ} (h : max off (4096 * b) ≤ min (off + count) (4096 * (b + 1))) :
    (rangeAt off count b).count =
      (min (off + count) (4096 * (b + 1)) - max off (4096 * b) : ℕ) := by
  show ((min (off + count) (4096 * (b + 1)) : ℕ) : ℤ) - (max off (4096 * b) : ℕ) = _
  omega

/-- A block that a range of bytes touches, or the block where an empty range is. -/
def Touches (off count b : ℕ) : Prop := off / 4096 ≤ b ∧ b < (off + count + 4095) / 4096

theorem Touches.le {off count b : ℕ} (h : Touches off count b) :
    max off (4096 * b) ≤ min (off + count) (4096 * (b + 1)) := by
  obtain ⟨h₁, h₂⟩ := h
  omega

/-- The number of blocks that a range starts behind, and that of those that it touches. -/
theorem computeRangesInt_eq (off count : ℕ) : computeRangesInt off count =
    (List.range' (off / 4096) ((off + count + 4095) / 4096 - off / 4096)).map
      (rangeAt off count) := by
  have hbs : blocksize = 4096 := by
    rw [blocksize, valulen_is]
    rfl
  have hlen : (enumFromTo ((off : ℤ) / 4096) (((off : ℤ) + count - 1) / 4096)).length =
      (off + count + 4095) / 4096 - off / 4096 := by
    rw [enumFromTo, List.length_map, List.length_range]
    omega
  rw [computeRangesInt, hbs]
  apply List.ext_getElem
  · simp only [List.length_map, List.length_zip, List.length_append, List.length_replicate,
      List.length_singleton, List.length_range', hlen]
    omega
  · intro j h₁ h₂
    rw [List.length_map, List.length_range'] at h₂
    simp only [List.getElem_map, List.getElem_zip, List.getElem_range', List.getElem_append,
      List.getElem_replicate, List.length_replicate, List.length_singleton,
      List.getElem_singleton, rangeAt, enumFromTo, List.getElem_range, List.length_map,
      List.length_range, BlockRange.mk.injEq]
    refine ⟨by omega, ?_, ?_⟩
    · split_ifs <;> omega
    · split_ifs <;> omega

/-! ### The contents of a file -/

/-- The size of a file in bytes. -/
def size (f : BFILE.BFile) : ℕ := (INODE.aBytes f.attr).toNat

/-- The bytes of a file. -/
def bytes (f : BFILE.BFile) : ByteString := (List.range (size f)).map (byteAt f.data)

/-- The blocks of a file hold its bytes, and zeros behind them. -/
structure Padded (f : BFILE.BFile) : Prop where
  fits : size f ≤ 4096 * f.data.length
  zero : ∀ p, size f ≤ p → byteAt f.data p = 0

@[simp] theorem length_bytes (f : BFILE.BFile) : (bytes f).length = size f := by
  rw [bytes, List.length_map, List.length_range]

theorem getD_bytes {f : BFILE.BFile} (h : Padded f) (p : ℕ) :
    (bytes f).getD p 0 = byteAt f.data p := by
  rw [bytes, List.getD_eq_getElem?_getD, List.getElem?_map]
  by_cases hp : p < size f
  · rw [List.getElem?_range hp]
    rfl
  · rw [List.getElem?_eq_none (by simpa using hp), h.zero p (Nat.not_lt.1 hp)]
    rfl

/-- A part of the bytes of a file. -/
theorem take_drop_bytes (f : BFILE.BFile) (off count : ℕ) : ((bytes f).drop off).take count =
    (List.range' (min off (size f)) (min count (size f - min off (size f)))).map
      (byteAt f.data) := by
  apply List.ext_getElem
  · rw [List.length_take, List.length_drop, length_bytes, List.length_map, List.length_range']
    omega
  · intro j h₁ h₂
    rw [List.length_map, List.length_range'] at h₂
    simp only [List.getElem_take, List.getElem_drop, bytes, List.getElem_map, List.getElem_range,
      List.getElem_range']
    congr 1
    omega

theorem byteAt_nil (p : ℕ) : byteAt [] p = 0 := byteAt_of_le (Nat.zero_le p)

/-- New blocks hold zeros. -/
theorem byteAt_resized (data : List Valu) (k p : ℕ) :
    byteAt (BFILE.resized data k) p = if p < 4096 * k then byteAt data p else 0 := by
  have hdiv : p < 4096 * k ↔ p / 4096 < k := by omega
  have hget : (BFILE.resized data k).getD (p / 4096) 0 =
      if p / 4096 < k then data.getD (p / 4096) 0 else 0 := by
    rw [BFILE.resized]
    simp only [List.getD_eq_getElem?_getD, List.getElem?_append, List.getElem?_take,
      List.length_take, List.getElem?_replicate]
    split_ifs with h₁ h₂ h₃ h₄ h₅
    all_goals try omega
    all_goals first | rfl | (rw [List.getElem?_eq_none (by omega)]; rfl)
  rw [byteAt, hget]
  by_cases h : p / 4096 < k
  · rw [if_pos h, if_pos (hdiv.2 h), byteAt]
  · rw [if_neg h, if_neg fun hlt => h (hdiv.1 hlt), w2bs_zero]
    exact List.getD_replicate 0 (Nat.mod_lt p (by decide))

/-! ### Reading -/

/-- The bytes of a range, from the bytes of its parts. -/
theorem flatten_ranges {α : Type*} (g : ℕ → α) (off count : ℕ) (s k : ℕ) (hs : off ≤ 4096 * (s + 1))
    (hk : 4096 * (s + k) < off + count + 4096) :
    ((List.range' s k).map fun b => (List.range' (max off (4096 * b))
      (min (off + count) (4096 * (b + 1)) - max off (4096 * b))).map g).flatten =
    (List.range' (max off (4096 * s))
      (min (off + count) (4096 * (s + k)) - max off (4096 * s))).map g := by
  induction k generalizing s with
  | zero =>
    have h0 : min (off + count) (4096 * (s + 0)) - max off (4096 * s) = 0 := by omega
    rw [h0]
    rfl
  | succ k ih =>
    rw [List.range'_succ, List.map_cons, List.flatten_cons]
    cases k with
    | zero => simp
    | succ k =>
      have e : s + 1 + (k + 1) = s + (k + 1 + 1) := by omega
      rw [ih (s + 1) (by omega) (by omega), ← List.map_append, e]
      congr 1
      have hlen : min (off + count) (4096 * (s + (k + 1 + 1))) - max off (4096 * s) =
          (min (off + count) (4096 * (s + 1)) - max off (4096 * s)) +
            (min (off + count) (4096 * (s + (k + 1 + 1))) - max off (4096 * (s + 1))) := by omega
      have hstart : max off (4096 * (s + 1)) = max off (4096 * s) +
          (min (off + count) (4096 * (s + 1)) - max off (4096 * s)) := by omega
      rw [hlen, ← List.range'_append_1, ← hstart]

/-- The bytes of a block in a range. -/
theorem take_drop_w2bs (data : List Valu) {b lo c : ℕ} (hlo : 4096 * b ≤ lo)
    (hhi : lo + c ≤ 4096 * (b + 1)) :
    ((w2bs (data.getD b 0)).drop (lo - 4096 * b)).take c = (List.range' lo c).map (byteAt data) := by
  apply List.ext_getElem
  · rw [List.length_take, List.length_drop, length_w2bs, List.length_map, List.length_range']
    omega
  · intro j h₁ h₂
    rw [List.length_map, List.length_range'] at h₂
    have hdiv : (lo + 1 * j) / 4096 = b := by omega
    have hmod : (lo + 1 * j) % 4096 = lo - 4096 * b + j := by omega
    rw [List.getElem_take, List.getElem_drop, List.getElem_map, List.getElem_range', byteAt, hdiv,
      hmod]
    exact List.getElem_eq_getD 0

/-! ### Writing -/

/-- The bytes that a piece leaves in a block. -/
def newBlock (initLen : ℕ) (old : Valu) (r : BlockRange) (piece : ByteString) : ByteString :=
  if r.count = blocksize then piece
  else
    let old := if initLen ≤ r.blk * blocksize ∨
        (r.off = 0 ∧ initLen ≤ r.blk * blocksize + r.count)
      then List.replicate blocksize.toNat 0 else w2bs old
    old.take r.off.toNat ++ (piece ++ old.drop (r.off + r.count).toNat)

/-- The blocks of a file after a piece has been written. -/
def putPiece (initLen : ℕ) (data : List Valu) (p : BlockRange × ByteString) : List Valu :=
  data.set p.1.blk.toNat (wbs (newBlock initLen (data.getD p.1.blk.toNat 0) p.1 p.2))

theorem length_putPiece (initLen : ℕ) (data : List Valu) (p : BlockRange × ByteString) :
    (putPiece initLen data p).length = data.length := List.length_set

theorem length_foldl_putPiece (initLen : ℕ) (l : List (BlockRange × ByteString))
    (data : List Valu) : (l.foldl (putPiece initLen) data).length = data.length := by
  induction l generalizing data with
  | nil => rfl
  | cons p l ih => rw [List.foldl_cons, ih, length_putPiece]

/-- A list of which a part has been replaced. -/
theorem getD_splice {α : Type*} {old piece : List α} {lo : ℕ} {d : α} (q : ℕ)
    (h : lo + piece.length ≤ old.length) :
    (old.take lo ++ (piece ++ old.drop (lo + piece.length))).getD q d =
      if lo ≤ q ∧ q < lo + piece.length then piece.getD (q - lo) d else old.getD q d := by
  have hlen : (old.take lo).length = lo := by
    rw [List.length_take]
    omega
  simp only [List.getD_eq_getElem?_getD, List.getElem?_append, hlen, List.getElem?_take,
    List.getElem?_drop]
  split_ifs with h₁ h₂ h₃ h₄ h₅
  all_goals try omega
  all_goals first | rfl | (congr 2; omega)

section

variable {off initLen : ℕ} {buf : ByteString} {b : ℕ} {old : Valu}

/-- The piece of a buffer that is written to a block. -/
def pieceAt (off : ℕ) (buf : ByteString) (b : ℕ) : ByteString :=
  (buf.drop (max off (4096 * b) - off)).take
    (min (off + buf.length) (4096 * (b + 1)) - max off (4096 * b))

theorem computeRangePieces_eq (off : ℕ) (buf : ByteString) : computeRangePieces off buf =
    (List.range' (off / 4096) ((off + buf.length + 4095) / 4096 - off / 4096)).map
      fun b => (rangeAt off buf.length b, pieceAt off buf b) := by
  have hbs : blocksize = 4096 := by
    rw [blocksize, valulen_is]
    rfl
  rw [computeRangePieces, computeRangesInt_eq, List.map_map, List.zip_map']
  apply List.map_congr_left
  intro b hb
  rw [List.mem_range'_1] at hb
  have ht : Touches off buf.length b := ⟨hb.1, by omega⟩
  have hbuf : ((b : ℤ) * 4096 + (max off (4096 * b) - 4096 * b : ℕ) - off).toNat =
      max off (4096 * b) - off := by omega
  rw [Function.comp_apply, pieceAt, hbs, rangeAt_blk, rangeAt_off, rangeAt_count ht.le, hbuf,
    Int.toNat_natCast]

theorem length_pieceAt (h : Touches off buf.length b) : (pieceAt off buf b).length =
    min (off + buf.length) (4096 * (b + 1)) - max off (4096 * b) := by
  obtain ⟨h₁, h₂⟩ := h
  rw [pieceAt, List.length_take, List.length_drop]
  omega

/-- A piece has the bytes of its part of the buffer. -/
theorem pieceAt_eq (h : Touches off buf.length b) : pieceAt off buf b =
    (List.range' (max off (4096 * b))
      (min (off + buf.length) (4096 * (b + 1)) - max off (4096 * b))).map
        fun p => buf.getD (p - off) 0 := by
  have hlen := length_pieceAt h
  apply List.ext_getElem
  · rw [hlen, List.length_map, List.length_range']
  · intro j h₁ h₂
    have hj : max off (4096 * b) - off + j = max off (4096 * b) + 1 * j - off := by omega
    simp only [pieceAt, List.getElem_take, List.getElem_drop, List.getElem_map,
      List.getElem_range', hj]
    exact List.getElem_eq_getD 0

/-- The pieces of a buffer make up the buffer. -/
theorem flatten_pieces (off : ℕ) (buf : ByteString) :
    ((computeRangePieces off buf).map Prod.snd).flatten = buf := by
  have hpieces : (computeRangePieces off buf).map Prod.snd =
      (List.range' (off / 4096) ((off + buf.length + 4095) / 4096 - off / 4096)).map fun b =>
        (List.range' (max off (4096 * b))
          (min (off + buf.length) (4096 * (b + 1)) - max off (4096 * b))).map
            fun p => buf.getD (p - off) 0 := by
    rw [computeRangePieces_eq, List.map_map]
    apply List.map_congr_left
    intro b hb
    rw [List.mem_range'_1] at hb
    exact pieceAt_eq ⟨hb.1, by omega⟩
  have hstart : max off (4096 * (off / 4096)) = off := by omega
  have hend : min (off + buf.length)
      (4096 * (off / 4096 + ((off + buf.length + 4095) / 4096 - off / 4096))) - off =
        buf.length := by omega
  rw [hpieces, flatten_ranges _ _ _ _ _ (by omega) (by omega), hstart, hend]
  apply List.ext_getElem
  · rw [List.length_map, List.length_range']
  · intro j h₁ h₂
    simp [h₂]

/-- A piece replaces its bytes of a block, whether or not the old block is read: where it is not, the
other bytes of the block are behind the end of the file. -/
theorem getD_newBlock (h : Touches off buf.length b)
    (hz : ∀ q < 4096, initLen ≤ 4096 * b + q → (w2bs old).getD q 0 = 0) :
    (newBlock initLen old (rangeAt off buf.length b) (pieceAt off buf b)).length = 4096 ∧
    ∀ q < 4096, (newBlock initLen old (rangeAt off buf.length b) (pieceAt off buf b)).getD q 0 =
      if off ≤ 4096 * b + q ∧ 4096 * b + q < off + buf.length then
        buf.getD (4096 * b + q - off) 0 else (w2bs old).getD q 0 := by
  have hbs : blocksize = 4096 := by
    rw [blocksize, valulen_is]
    rfl
  have hlen := length_pieceAt h
  have hle := h.le
  have hget : ∀ p, max off (4096 * b) ≤ p → p < min (off + buf.length) (4096 * (b + 1)) →
      (pieceAt off buf b).getD (p - max off (4096 * b)) 0 = buf.getD (p - off) 0 := by
    intro p h₁ h₂
    have e : max off (4096 * b) - off + (p - max off (4096 * b)) = p - off := by omega
    rw [pieceAt, List.getD_eq_getElem?_getD, List.getElem?_take, if_pos (by omega),
      List.getElem?_drop, e, ← List.getD_eq_getElem?_getD]
  -- what is around the piece is as in the old block
  have hsplice : ∀ bs : ByteString, bs.length = 4096 →
      (∀ q < 4096, ¬ (off ≤ 4096 * b + q ∧ 4096 * b + q < off + buf.length) →
        bs.getD q 0 = (w2bs old).getD q 0) →
      (bs.take (max off (4096 * b) - 4096 * b) ++ (pieceAt off buf b ++ bs.drop
        (max off (4096 * b) - 4096 * b + (pieceAt off buf b).length))).length = 4096 ∧
      ∀ q < 4096, (bs.take (max off (4096 * b) - 4096 * b) ++ (pieceAt off buf b ++ bs.drop
        (max off (4096 * b) - 4096 * b + (pieceAt off buf b).length))).getD q 0 =
        if off ≤ 4096 * b + q ∧ 4096 * b + q < off + buf.length then
          buf.getD (4096 * b + q - off) 0 else (w2bs old).getD q 0 := by
    intro bs hbslen hout
    constructor
    · rw [List.length_append, List.length_append, List.length_take, List.length_drop]
      omega
    · intro q hq
      rw [getD_splice q (by omega)]
      by_cases hin : off ≤ 4096 * b + q ∧ 4096 * b + q < off + buf.length
      · have hq' : q - (max off (4096 * b) - 4096 * b) = 4096 * b + q - max off (4096 * b) := by
          omega
        rw [if_pos (by omega), if_pos hin, hq', hget (4096 * b + q) (by omega) (by omega)]
      · rw [if_neg (by omega), if_neg hin, hout q hq hin]
  rw [newBlock, hbs, rangeAt_blk, rangeAt_off, rangeAt_count hle, ← hlen, ← Nat.cast_add,
    Int.toNat_natCast, Int.toNat_natCast]
  split_ifs with hwhole hzero
  · have hwhole : (pieceAt off buf b).length = 4096 := by exact_mod_cast hwhole
    refine ⟨hwhole, fun q hq => ?_⟩
    rw [if_pos (by omega), ← hget (4096 * b + q) (by omega) (by omega)]
    congr 1
    omega
  · apply hsplice _ List.length_replicate
    intro q hq hout
    rw [hz q hq (by omega)]
    exact List.getD_replicate 0 hq
  · exact hsplice _ (length_w2bs old) fun _ _ _ => rfl

end

/-- The bytes of a file that a range covers. -/
def BlockRange.bytes (r : BlockRange) : Set ℤ :=
  Set.Ico (r.blk * 4096 + r.off) (r.blk * 4096 + r.off + r.count)

theorem mem_bytes_rangeAt {off count b : ℕ} (h : Touches off count b) {x : ℤ} :
    x ∈ (rangeAt off count b).bytes ↔ (off ≤ x ∧ x < off + count) ∧ x / 4096 = b := by
  have hle := h.le
  rw [BlockRange.bytes, rangeAt_blk, rangeAt_off, rangeAt_count hle, Set.mem_Ico]
  omega

/-- The ranges cut an interval of bytes at the boundaries of the blocks, and the pieces cut a buffer
in the same way. -/
theorem ranges_exact (off count : ℕ) :
    (computeRangesInt off count).IsChain (fun r s => s.blk = r.blk + 1) ∧
    (∀ r ∈ computeRangesInt off count, 0 ≤ r.off ∧ 0 ≤ r.count ∧ r.off + r.count ≤ 4096) ∧
    (computeRangesInt off count).Pairwise (fun r s => Disjoint r.bytes s.bytes) ∧
    (⋃ r ∈ computeRangesInt off count, r.bytes) = Set.Ico (off : ℤ) (off + count) ∧
    ∀ buf, (computeRangePieces off buf).map Prod.fst = computeRangesInt off buf.length ∧
      (∀ p ∈ computeRangePieces off buf, (p.2.length : ℤ) = p.1.count) ∧
      ((computeRangePieces off buf).map Prod.snd).flatten = buf := by
  have htouch : ∀ {count b : ℕ},
      b ∈ List.range' (off / 4096) ((off + count + 4095) / 4096 - off / 4096) →
      Touches off count b := by
    intro count b hb
    rw [List.mem_range'_1] at hb
    exact ⟨hb.1, by omega⟩
  rw [computeRangesInt_eq]
  refine ⟨?_, ?_, ?_, ?_, fun buf => ⟨?_, ?_, flatten_pieces off buf⟩⟩
  · rw [List.isChain_map]
    apply (List.isChain_range' _ _ 1).imp
    rintro a b rfl
    exact Nat.cast_succ a
  · intro r hr
    obtain ⟨b, hb, rfl⟩ := List.mem_map.1 hr
    have hle := (htouch hb).le
    rw [rangeAt_off, rangeAt_count hle]
    omega
  · rw [List.pairwise_map]
    refine List.Pairwise.imp_of_mem (fun ha hb hlt => ?_) List.pairwise_lt_range'
    rw [Set.disjoint_left]
    intro x hx hx'
    rw [mem_bytes_rangeAt (htouch ha)] at hx
    rw [mem_bytes_rangeAt (htouch hb)] at hx'
    omega
  · ext x
    simp only [Set.mem_iUnion, List.mem_map, exists_prop, Set.mem_Ico]
    constructor
    · rintro ⟨r, ⟨b, hb, rfl⟩, hx⟩
      exact ((mem_bytes_rangeAt (htouch hb)).1 hx).1
    · intro hx
      have hb : (x / 4096).toNat ∈
          List.range' (off / 4096) ((off + count + 4095) / 4096 - off / 4096) := by
        rw [List.mem_range'_1]
        omega
      exact ⟨_, ⟨_, hb, rfl⟩, (mem_bytes_rangeAt (htouch hb)).2 ⟨hx, by omega⟩⟩
  · rw [computeRangePieces_eq, computeRangesInt_eq, List.map_map]
    rfl
  · intro p hp
    rw [computeRangePieces_eq] at hp
    obtain ⟨b, hb, rfl⟩ := List.mem_map.1 hp
    rw [length_pieceAt (htouch hb), rangeAt_count (htouch hb).le]

/-- Blocks that are changed one after the other. -/
theorem getD_foldl_set {α : Type*} (g : ℕ → α → α) (d : α) (s k : ℕ) (data : List α)
    (h : s + k ≤ data.length) (j : ℕ) :
    ((List.range' s k).foldl (fun data b => data.set b (g b (data.getD b d))) data).getD j d =
      if s ≤ j ∧ j < s + k then g j (data.getD j d) else data.getD j d := by
  induction k generalizing s data with
  | zero =>
    rw [if_neg (by omega)]
    rfl
  | succ k ih =>
    have hset : ∀ j, (data.set s (g s (data.getD s d))).getD j d =
        if j = s then g s (data.getD s d) else data.getD j d := by
      intro j
      rw [List.getD_eq_getElem?_getD, List.getElem?_set]
      by_cases hj : j = s
      · rw [if_pos hj.symm, if_pos (by omega), if_pos hj]
        rfl
      · rw [if_neg (Ne.symm hj), if_neg hj, ← List.getD_eq_getElem?_getD]
    rw [List.range'_succ, List.foldl_cons, ih _ _ (by rw [List.length_set]; omega), hset]
    by_cases hj : j = s
    · subst hj
      rw [if_neg (by omega), if_pos rfl, if_pos (by omega)]
    · rw [if_neg hj]
      by_cases hin : s + 1 ≤ j ∧ j < s + 1 + k
      · rw [if_pos hin, if_pos (by omega)]
      · rw [if_neg hin, if_neg (by omega)]

/-- The bytes of a file after all pieces of a buffer have been written to its blocks. -/
theorem byteAt_putPieces {off initLen : ℕ} {buf : ByteString} {data : List Valu}
    (hlen : (off + buf.length + 4095) / 4096 ≤ data.length)
    (hz : ∀ p, initLen ≤ p → byteAt data p = 0) (p : ℕ) :
    byteAt ((computeRangePieces off buf).foldl (putPiece initLen) data) p =
      if off ≤ p ∧ p < off + buf.length then buf.getD (p - off) 0 else byteAt data p := by
  have hp := Nat.div_add_mod p 4096
  have hget := getD_foldl_set (fun b old => wbs (newBlock initLen old (rangeAt off buf.length b)
    (pieceAt off buf b))) 0 (off / 4096) ((off + buf.length + 4095) / 4096 - off / 4096) data
    (by omega) (p / 4096)
  rw [computeRangePieces_eq, List.foldl_map, byteAt]
  simp only [putPiece, rangeAt_blk, Int.toNat_natCast]
  rw [hget]
  by_cases hb : off / 4096 ≤ p / 4096 ∧
      p / 4096 < off / 4096 + ((off + buf.length + 4095) / 4096 - off / 4096)
  · have ht : Touches off buf.length (p / 4096) := ⟨hb.1, by omega⟩
    have hz' : ∀ q < 4096, initLen ≤ 4096 * (p / 4096) + q →
        (w2bs (data.getD (p / 4096) 0)).getD q 0 = 0 := by
      intro q hq hle
      have h := hz _ hle
      rwa [byteAt, show (4096 * (p / 4096) + q) / 4096 = p / 4096 by omega,
        show (4096 * (p / 4096) + q) % 4096 = q by omega] at h
    obtain ⟨hlen', hnew⟩ := getD_newBlock ht hz'
    rw [if_pos hb, w2bs_wbs hlen', hnew _ (Nat.mod_lt p (by decide)), hp, byteAt]
  · rw [if_neg hb, if_neg (by omega), byteAt]

/-! ### Files that are written -/

/-- The blocks that a write fills: a file that is too short has been given new ones. -/
def roomFor (f : BFILE.BFile) (endpos : ℕ) : List Valu :=
  if size f < endpos then BFILE.resized f.data ((endpos + 4095) / 4096) else f.data

/-- The file after a write. -/
def written (f : BFILE.BFile) (bs : ByteString) (offset : ℕ) : BFILE.BFile where
  data := (computeRangePieces offset bs).foldl (putPiece (size f)) (roomFor f (offset + bs.length))
  attr := if size f < offset + bs.length then
    INODE.iattrUpd f.attr (.uBytes (BitVec.ofNat 64 (offset + bs.length))) else f.attr

/-- What a write leaves of the bytes of a file; a hole reads as zeros. -/
def writeAt (old : ByteString) (off : ℕ) (data : ByteString) : ByteString :=
  old.take off ++ List.replicate (off - old.length) 0 ++ data ++ old.drop (off + data.length)

theorem length_resized (data : List Valu) (k : ℕ) : (BFILE.resized data k).length = k := by
  rw [BFILE.resized, List.length_append, List.length_take, List.length_replicate]
  omega

theorem length_written (f : BFILE.BFile) (bs : ByteString) (offset : ℕ) :
    (written f bs offset).data.length = (roomFor f (offset + bs.length)).length :=
  length_foldl_putPiece ..

theorem length_writeAt (old : ByteString) (off : ℕ) (data : ByteString) :
    (writeAt old off data).length = max old.length (off + data.length) := by
  simp only [writeAt, List.length_append, List.length_take, List.length_replicate,
    List.length_drop]
  omega

theorem getD_writeAt (old : ByteString) (off : ℕ) (data : ByteString) (p : ℕ) :
    (writeAt old off data).getD p 0 =
      if off ≤ p ∧ p < off + data.length then data.getD (p - off) 0 else old.getD p 0 := by
  simp only [writeAt, List.getD_eq_getElem?_getD, List.getElem?_append, List.length_append,
    List.length_take, List.length_replicate, List.getElem?_take, List.getElem?_replicate,
    List.getElem?_drop]
  split_ifs
  all_goals try omega
  all_goals first | rfl | (congr 2; omega) | (rw [List.getElem?_eq_none (by omega)]; rfl)

section

variable {f : BFILE.BFile} {bs : ByteString} {offset : ℕ}

theorem size_written (hend : offset + bs.length < 2 ^ 64) :
    size (written f bs offset) = max (size f) (offset + bs.length) := by
  rw [size, written]
  split_ifs with hlt
  · show (BitVec.ofNat 64 (offset + bs.length)).toNat = _
    rw [BitVec.toNat_ofNat, Nat.mod_eq_of_lt hend]
    omega
  · show size f = _
    omega

theorem length_roomFor_ge (hfits : size f ≤ 4096 * f.data.length) (endpos : ℕ) :
    max (size f) endpos ≤ 4096 * (roomFor f endpos).length := by
  rw [roomFor]
  split_ifs with hlt
  · rw [length_resized]
    omega
  · omega

/-- The new blocks do not change the bytes. -/
theorem byteAt_roomFor (h : Padded f) (endpos p : ℕ) :
    byteAt (roomFor f endpos) p = byteAt f.data p := by
  rw [roomFor]
  split_ifs with hlt
  · rw [byteAt_resized]
    split_ifs with hp
    · rfl
    · exact (h.zero p (by omega)).symm
  · rfl

theorem byteAt_written (h : Padded f) (p : ℕ) : byteAt (written f bs offset).data p =
    if offset ≤ p ∧ p < offset + bs.length then bs.getD (p - offset) 0 else byteAt f.data p := by
  have hroom := length_roomFor_ge h.fits (offset + bs.length)
  rw [written, byteAt_putPieces (by omega), byteAt_roomFor h]
  intro p hp
  rw [byteAt_roomFor h, h.zero p hp]

theorem Padded.written (h : Padded f) (hend : offset + bs.length < 2 ^ 64) :
    Padded (written f bs offset) where
  fits := by
    rw [size_written hend, length_written]
    exact length_roomFor_ge h.fits _
  zero p hp := by
    rw [size_written hend] at hp
    rw [byteAt_written h, if_neg (by omega), h.zero p (by omega)]

/-- The bytes of a file are changed by a write as they should be. -/
theorem bytes_written (h : Padded f) (hend : offset + bs.length < 2 ^ 64) :
    bytes (Fuse.written f bs offset) = writeAt (bytes f) offset bs := by
  apply List.ext_getElem
  · rw [length_bytes, length_writeAt, length_bytes, size_written hend]
  · intro p h₁ h₂
    rw [List.getElem_eq_getD 0, List.getElem_eq_getD 0, getD_bytes (h.written hend),
      byteAt_written h, getD_writeAt, getD_bytes h]

end

end Fuse

end Fscq
