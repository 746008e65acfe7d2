import Fscq.AsyncDisk
import Fscq.ListUtils
import Fscq.Rec

/-!
# Arrays of records in blocks

An array of records is stored in a range of blocks, a fixed number of records in each.  `RASig`
gives the place and the layout of such an array; `block2val` and `val2block` convert between a block
and its records.
-/

namespace Fscq

/-- The place and the layout of an array of records. -/
structure RASig (XParams : Type) where
  raStart : XParams → ℕ
  raLen : XParams → ℕ
  itemtype : Rec.Ty
  itemsPerVal : ℕ
  blocksz_ok : valulen = (Rec.Ty.arrayF itemtype itemsPerVal).len

namespace RASig

variable {XParams : Type} (R : RASig XParams)

abbrev Item : Type := R.itemtype.data

def item0 : R.Item := Rec.ofWord R.itemtype 0

abbrev blocktype : Rec.Ty := .arrayF R.itemtype R.itemsPerVal

/-- Pack the records of a block. -/
def block2val (b : List R.Item) : Valu := (Rec.toWord R.blocktype b).cast R.blocksz_ok.symm

/-- Unpack the records of a block. -/
def val2block (v : Valu) : List R.Item := Rec.ofWord R.blocktype (v.cast R.blocksz_ok)

/-- Pack a list of records into blocks. -/
def ipack (items : List R.Item) : List Valu :=
  (listChunk items R.itemsPerVal R.item0).map R.block2val

def nopadIpack (items : List R.Item) : List Valu :=
  (nopadListChunk items R.itemsPerVal).map R.block2val

/-- Append the records of a block to a list. -/
def iunpack (r : List R.Item) (v : Valu) : List R.Item := r ++ R.val2block v

theorem blocksz : valulen = R.itemsPerVal * R.itemtype.len := by
  have := R.blocksz_ok
  rwa [Rec.Ty.len] at this

def val2word (v : Valu) : BitVec (R.itemsPerVal * R.itemtype.len) := v.cast R.blocksz

def word2val (w : BitVec (R.itemsPerVal * R.itemtype.len)) : Valu := w.cast R.blocksz.symm

/-- An item of a block, without unpacking the block. -/
def selNVal2block (v : Valu) (idx : ℕ) : R.Item :=
  Rec.ofWord R.itemtype (Rec.wordSelNShift R.itemsPerVal R.itemtype.len idx (R.val2word v))

/-- A block with one item replaced, without unpacking the block. -/
def block2valUpdNVal2block (v : Valu) (idx : ℕ) (item : R.Item) : Valu :=
  R.word2val (Rec.wordUpdNShift R.itemsPerVal R.itemtype.len idx (R.val2word v)
    (Rec.toWord R.itemtype item))

theorem itemsPerVal_pos : 0 < R.itemsPerVal := by
  have := R.blocksz_ok
  rw [valulen_is, Rec.Ty.len] at this
  rcases Nat.eq_zero_or_pos R.itemsPerVal with h | h
  · simp [h] at this
  · exact h

@[simp] theorem length_val2block (v : Valu) : (R.val2block v).length = R.itemsPerVal := by
  have := Rec.wellFormed_ofWord R.blocktype (v.cast R.blocksz_ok)
  simp only [blocktype, Rec.WellFormed] at this
  exact this.1

theorem wellFormed_val2block (v : Valu) : ∀ x ∈ R.val2block v, Rec.WellFormed R.itemtype x := by
  have := Rec.wellFormed_ofWord R.blocktype (v.cast R.blocksz_ok)
  simp only [blocktype, Rec.WellFormed] at this
  exact this.2

@[simp] theorem block2val_val2block (v : Valu) : R.block2val (R.val2block v) = v := by
  rw [block2val, val2block, Rec.toWord_ofWord, Rec.cast_cast_self]

theorem val2block_block2val {b : List R.Item} (hb : b.length = R.itemsPerVal)
    (hw : ∀ x ∈ b, Rec.WellFormed R.itemtype x) : R.val2block (R.block2val b) = b := by
  rw [block2val, val2block, Rec.cast_cast_self]
  refine Rec.ofWord_toWord R.blocktype b ?_
  simp only [Rec.WellFormed]
  exact ⟨hb, hw⟩

/-- A short list of records is packed as if it were padded with zero records. -/
theorem val2block_block2val_of_le {b : List R.Item} (hb : b.length ≤ R.itemsPerVal)
    (hw : ∀ x ∈ b, Rec.WellFormed R.itemtype x) :
    R.val2block (R.block2val b) = setlen b R.itemsPerVal R.item0 := by
  rw [block2val, val2block, Rec.cast_cast_self]
  simp only [Rec.toWord, Rec.ofWord]
  rw [setlen_of_le hb]
  exact Rec.arrayOfWord_arrayToWord_of_le (fun x hx => Rec.ofWord_toWord _ x (hw x hx)) hb

/-- A single record is packed into one block, with zeros behind it. -/
theorem nopadIpack_singleton (x : R.Item) : R.nopadIpack [x] = [R.block2val [x]] := by
  have hpos := R.itemsPerVal_pos
  have htake : [x].take R.itemsPerVal = [x] := List.take_of_length_le hpos
  rw [nopadIpack, nopadListChunk, List.length_singleton, divup_of_lt Nat.one_pos hpos,
    nopadListChunk', nopadListChunk', htake]
  rfl

theorem toNat_block2val_singleton (x : R.Item) :
    (R.block2val [x]).toNat = (Rec.toWord R.itemtype x).toNat := by
  have hzero : ∀ k, (Rec.arrayToWord (Rec.toWord R.itemtype) k []).toNat = 0 := by
    intro k
    cases k <;> rfl
  have harray : ∀ k, 0 < k → (Rec.arrayToWord (Rec.toWord R.itemtype) k [x]).toNat =
      (Rec.toWord R.itemtype x).toNat := by
    rintro (_ | k) hk
    · exact absurd hk (lt_irrefl 0)
    · rw [Rec.arrayToWord, BitVec.toNat_cast, toNat_combine, hzero, Nat.zero_mul, Nat.add_zero]
  have hword : Rec.toWord R.blocktype [x] =
      Rec.arrayToWord (Rec.toWord R.itemtype) R.itemsPerVal [x] := by
    simp only [Rec.toWord]
    rfl
  rw [block2val, BitVec.toNat_cast, hword]
  exact harray _ R.itemsPerVal_pos

theorem val2block_eq (v : Valu) :
    R.val2block v = Rec.arrayOfWord (Rec.ofWord R.itemtype) R.itemsPerVal (R.val2word v) := by
  rw [val2block]
  unfold Rec.ofWord
  rfl

theorem val2block_zero : R.val2block 0 = List.replicate R.itemsPerVal R.item0 := by
  have h : R.val2word 0 = 0 := by simp [val2word]
  rw [val2block_eq, h, Rec.arrayOfWord_zero]
  rfl

theorem selNVal2block_eq (v : Valu) {idx : ℕ} (h : idx < R.itemsPerVal) (d : R.Item) :
    R.selNVal2block v idx = (R.val2block v).getD idx d := by
  rw [List.getD_eq_getElem?_getD, val2block_eq, Rec.getElem?_arrayOfWord _ _ _ _ h]
  rfl

theorem val2block_updN (v : Valu) {idx : ℕ} (h : idx < R.itemsPerVal) {item : R.Item}
    (hw : Rec.WellFormed R.itemtype item) :
    R.val2block (R.block2valUpdNVal2block v idx item) = (R.val2block v).set idx item := by
  have hv : R.val2word (R.block2valUpdNVal2block v idx item) = Rec.wordUpdNShift R.itemsPerVal
      R.itemtype.len idx (R.val2word v) (Rec.toWord R.itemtype item) := Rec.cast_cast_self R.blocksz.symm _ _
  rw [val2block_eq, hv, Rec.arrayOfWord_wordUpdNShift _ _ _ _ _ h, Rec.ofWord_toWord _ _ hw,
    ← val2block_eq]

/-- The records of a list of blocks. -/
def items (vl : List Valu) : List R.Item := vl.flatMap R.val2block

theorem foldl_iunpack (vl : List Valu) (r : List R.Item) :
    vl.foldl R.iunpack r = r ++ R.items vl := by
  induction vl generalizing r with
  | nil => simp [items]
  | cons v vl ih => simp [items, ih, iunpack]

@[simp] theorem length_items (vl : List Valu) :
    (R.items vl).length = vl.length * R.itemsPerVal := by
  induction vl with
  | nil => simp [items]
  | cons v vl ih =>
    rw [items, List.flatMap_cons, List.length_append, ← items, ih, length_val2block,
      List.length_cons]
    ring

theorem items_append (vl vl' : List Valu) : R.items (vl ++ vl') = R.items vl ++ R.items vl' := by
  simp [items]

theorem setlen_val2block_append (v : Valu) (l : List R.Item) :
    setlen (R.val2block v ++ l) R.itemsPerVal R.item0 = R.val2block v := by
  simp [setlen]

/-- Unpacking blocks and packing them again gives the blocks back. -/
theorem ipack_items (vl : List Valu) : R.ipack (R.items vl) = vl := by
  unfold ipack listChunk
  rw [length_items, divup_mul R.itemsPerVal_pos]
  induction vl with
  | nil => rfl
  | cons v vl ih =>
    have hd : (R.val2block v ++ R.items vl).drop R.itemsPerVal = R.items vl := by
      simp
    rw [items, List.flatMap_cons, ← items, List.length_cons, listChunk', List.map_cons, hd, ih,
      setlen_val2block_append, block2val_val2block]

@[simp] theorem length_nopadIpack (l : List R.Item) :
    (R.nopadIpack l).length = divup l.length R.itemsPerVal := by simp [nopadIpack]

theorem mem_nopadListChunk' {sz nr : ℕ} {l c : List R.Item} (h : c ∈ nopadListChunk' l sz nr) :
    c.length ≤ sz ∧ ∀ x ∈ c, x ∈ l := by
  induction nr generalizing l with
  | zero => simp [nopadListChunk'] at h
  | succ nr ih =>
    rw [nopadListChunk', List.mem_cons] at h
    rcases h with rfl | h
    · exact ⟨by simp, fun x hx => List.mem_of_mem_take hx⟩
    · exact ⟨(ih h).1, fun x hx => List.mem_of_mem_drop ((ih h).2 x hx)⟩

/-- The blocks of a packed list hold its records and zero records up to the end of a block. -/
theorem items_nopadIpack {l : List R.Item} (hw : ∀ x ∈ l, Rec.WellFormed R.itemtype x) :
    R.items (R.nopadIpack l) =
      l ++ List.replicate (divup l.length R.itemsPerVal * R.itemsPerVal - l.length) R.item0 := by
  rw [← flatMap_nopadListChunk R.itemsPerVal_pos, items, nopadIpack, List.flatMap_map]
  refine List.flatMap_congr fun c hc => ?_
  have := R.mem_nopadListChunk' hc
  exact R.val2block_block2val_of_le this.1 fun x hx => hw x (this.2 x hx)

end RASig

end Fscq
