import Mathlib.Data.List.GetD
import Fscq.AsyncDisk

/-!
# Blocks as bytes

A block is taken apart into its bytes, the lowest first, and put together again.  A block with the
older values it may still hold becomes a list of bytes, each with its own older values: the list of
histories is transposed.  The two directions are inverse to each other.
-/

namespace Fscq

abbrev Byte := BitVec 8

abbrev Bytes (n : ℕ) := BitVec (n * 8)

def byte0 : Byte := 0

def byte2bytes (b : Byte) : Bytes 1 := b.cast (Nat.one_mul 8).symm

/-- Concatenation; the first bytes are the low ones. -/
def bcombine {sz1 sz2 : ℕ} (bs1 : Bytes sz1) (bs2 : Bytes sz2) : Bytes (sz1 + sz2) :=
  (combine bs1 bs2).cast (Nat.add_mul sz1 sz2 8).symm

def bsplit1 (sz1 sz2 : ℕ) (bs : Bytes (sz1 + sz2)) : Bytes sz1 :=
  split1 (sz1 * 8) (sz2 * 8) (bs.cast (Nat.add_mul sz1 sz2 8))

def bsplit2 (sz1 sz2 : ℕ) (bs : Bytes (sz1 + sz2)) : Bytes sz2 :=
  split2 (sz1 * 8) (sz2 * 8) (bs.cast (Nat.add_mul sz1 sz2 8))

/-- The bytes of a word, the lowest first. -/
def bsplitList : {sz : ℕ} → Bytes sz → List Byte
  | 0, _ => []
  | sz + 1, w =>
    let w' : Bytes (1 + sz) := w.cast (congrArg (· * 8) (Nat.add_comm sz 1))
    (bsplit1 1 sz w').cast (Nat.one_mul 8) :: bsplitList (bsplit2 1 sz w')

/-- The word with the given bytes, the lowest first. -/
def bcombineList : (l : List Byte) → Bytes l.length
  | [] => 0
  | h :: l =>
    (bcombine (byte2bytes h) (bcombineList l)).cast (congrArg (· * 8) (Nat.add_comm 1 l.length))

theorem valubytes_is : valubytes = 4096 := by
  unfold valubytes
  rfl

theorem valulen_eq_bytes : valulen = valubytes * 8 := by rw [valulen_is, valubytes_is]

def valu2bytes (v : Valu) : Bytes valubytes := v.cast valulen_eq_bytes

def bytes2valu (v : Bytes valubytes) : Valu := v.cast valulen_eq_bytes.symm

/-- A word of at most one block, padded with zeros; a longer word is dropped. -/
def bytes2valubytes {sz : ℕ} (b : Bytes sz) : Bytes valubytes :=
  if h : sz ≤ valubytes then
    (bcombine b (0 : Bytes (valubytes - sz))).cast (congrArg (· * 8) (Nat.add_sub_of_le h))
  else 0

def list2valu (l : List Byte) : Valu := bytes2valu (bytes2valubytes (bcombineList l))

def valu2list (v : Valu) : List Byte := bsplitList (valu2bytes v)

def valu0 : Valu := bytes2valu 0

/-- The latest value of a byte and its older values. -/
abbrev Byteset := Byte × List Byte

def byteset0 : Byteset := (byte0, [])

section Transpose

variable {α : Type}

def list2byteset (d : α) : List α → α × List α
  | [] => (d, [])
  | h :: t => (h, t)

def byteset2list (nel : α × List α) : List α := nel.1 :: nel.2

def selN' (i : ℕ) (d : α) (l : List α) : α := l.getD i d

/-- The first `i` columns of a list of rows. -/
def transposeRec (d : α) : List (List α) → ℕ → List (List α)
  | _, 0 => []
  | [], _ + 1 => []
  | r :: rs, i + 1 =>
    (r :: rs).map (selN' 0 d) :: transposeRec d ((r :: rs).map (List.drop 1)) i

end Transpose

def valuset2bytesetsRec (vs : List (List Byte)) (i : ℕ) : List (List Byte) :=
  transposeRec byte0 vs i

def valuset2bytesets (vs : Valuset) : List Byteset :=
  (valuset2bytesetsRec ((byteset2list vs).map valu2list) valubytes).map (list2byteset byte0)

def bytesets2valusetRec (bs : List (List Byte)) (i : ℕ) : List (List Byte) :=
  transposeRec byte0 bs i

def bytesets2valuset (bs : List Byteset) : Valuset :=
  list2byteset valu0 ((bytesets2valusetRec (bs.map byteset2list)
    (byteset2list (bs.getD 0 byteset0)).length).map list2valu)

/-! ## Bytes -/

section Bytes

variable {n m : ℕ}

theorem toNat_bcombine (a : Bytes n) (b : Bytes m) :
    (bcombine a b).toNat = a.toNat + b.toNat * 2 ^ (n * 8) := by
  rw [bcombine, BitVec.toNat_cast, toNat_combine]

theorem toNat_bsplit1 (w : Bytes (n + m)) : (bsplit1 n m w).toNat = w.toNat % 2 ^ (n * 8) := by
  rw [bsplit1, toNat_split1, BitVec.toNat_cast]

theorem toNat_bsplit2 (w : Bytes (n + m)) : (bsplit2 n m w).toNat = w.toNat / 2 ^ (n * 8) := by
  rw [bsplit2, toNat_split2, BitVec.toNat_cast]

theorem toNat_bcombineList_cons (h : Byte) (l : List Byte) :
    (bcombineList (h :: l)).toNat = h.toNat + (bcombineList l).toNat * 256 := by
  simp [bcombineList, toNat_bcombine, byte2bytes]

@[simp] theorem length_bsplitList (w : Bytes n) : (bsplitList w).length = n := by
  induction n with
  | zero => rfl
  | succ n ih => rw [bsplitList, List.length_cons, ih]

/-- A list is that of the bytes of a word when it is put together to the same number. -/
theorem bsplitList_eq {w : Bytes n} {l : List Byte} (hlen : l.length = n)
    (h : w.toNat = (bcombineList l).toNat) : bsplitList w = l := by
  induction n generalizing l with
  | zero => rw [List.length_eq_zero_iff.1 hlen, bsplitList]
  | succ n ih =>
    obtain _ | ⟨b, l⟩ := l
    · simp at hlen
    · rw [toNat_bcombineList_cons] at h
      have hb : b.toNat < 256 := b.isLt
      rw [bsplitList, List.cons.injEq]
      constructor
      · apply BitVec.eq_of_toNat_eq
        rw [BitVec.toNat_cast, toNat_bsplit1, BitVec.toNat_cast]
        omega
      · apply ih (Nat.succ.inj hlen)
        rw [toNat_bsplit2, BitVec.toNat_cast]
        omega

theorem toNat_bcombineList_bsplitList (w : Bytes n) :
    (bcombineList (bsplitList w)).toNat = w.toNat := by
  induction n with
  | zero =>
    have hw : w.toNat < 2 ^ (0 * 8) := w.isLt
    rw [bsplitList, bcombineList]
    simp at hw ⊢
    exact hw.symm
  | succ n ih =>
    rw [bsplitList, toNat_bcombineList_cons, ih, BitVec.toNat_cast, toNat_bsplit1, toNat_bsplit2,
      BitVec.toNat_cast]
    omega

theorem toNat_bytes2valubytes (h : n ≤ valubytes) (b : Bytes n) :
    (bytes2valubytes b).toNat = b.toNat := by
  rw [bytes2valubytes, dif_pos h, BitVec.toNat_cast, toNat_bcombine]
  simp

@[simp] theorem length_valu2list (v : Valu) : (valu2list v).length = valubytes :=
  length_bsplitList _

theorem valu2list_list2valu {l : List Byte} (h : l.length = valubytes) :
    valu2list (list2valu l) = l := by
  apply bsplitList_eq h
  rw [valu2bytes, BitVec.toNat_cast, list2valu, bytes2valu, BitVec.toNat_cast,
    toNat_bytes2valubytes h.le]

theorem list2valu_valu2list (v : Valu) : list2valu (valu2list v) = v := by
  apply BitVec.eq_of_toNat_eq
  rw [list2valu, bytes2valu, BitVec.toNat_cast, toNat_bytes2valubytes (length_valu2list v).le,
    valu2list, toNat_bcombineList_bsplitList, valu2bytes, BitVec.toNat_cast]

theorem map_valu2list {l : List (List Byte)} (h : ∀ c ∈ l, c.length = valubytes) :
    (l.map list2valu).map valu2list = l := by
  rw [List.map_map]
  exact (List.map_congr_left fun c hc => valu2list_list2valu (h c hc)).trans (List.map_id l)

theorem map_list2valu (l : List Valu) : (l.map valu2list).map list2valu = l := by
  rw [List.map_map]
  exact (List.map_congr_left fun v _ => list2valu_valu2list v).trans (List.map_id l)

end Bytes

/-! ## Transposing -/

section Transpose

variable {α : Type} {d : α} {rows : List (List α)} {n : ℕ}

theorem byteset2list_list2byteset {l : List α} (h : l ≠ []) :
    byteset2list (list2byteset d l) = l := by
  obtain _ | ⟨a, l⟩ := l
  · exact absurd rfl h
  · rfl

theorem map_byteset2list {l : List (List α)} (h : ∀ c ∈ l, c ≠ []) :
    (l.map (list2byteset d)).map byteset2list = l := by
  rw [List.map_map]
  exact (List.map_congr_left fun c hc => byteset2list_list2byteset (h c hc)).trans (List.map_id l)

theorem map_list2byteset (l : List (α × List α)) :
    (l.map byteset2list).map (list2byteset d) = l := by
  rw [List.map_map]
  exact List.map_id l

theorem selN'_drop (j : ℕ) (l : List α) : selN' j d (l.drop 1) = selN' (j + 1) d l := by
  cases l <;> simp [selN']

/-- Peeling off one column after the other gives the columns by their index. -/
theorem transposeRec_eq (h : rows ≠ []) (n : ℕ) :
    transposeRec d rows n = (List.range n).map fun j => rows.map (selN' j d) := by
  induction n generalizing rows with
  | zero => cases rows <;> rfl
  | succ n ih =>
    obtain _ | ⟨r, rs⟩ := rows
    · exact absurd rfl h
    · rw [transposeRec, ih (by simp)]
      simp only [List.range_succ_eq_map, List.map_cons, List.map_map, Function.comp_def,
        selN'_drop, Nat.succ_eq_add_one]

/-- The columns of the columns are the rows. -/
theorem transposeRec_transposeRec (h : rows ≠ []) (hn : n ≠ 0) (hlen : ∀ r ∈ rows, r.length = n) :
    transposeRec d (transposeRec d rows n) rows.length = rows := by
  have hcols : transposeRec d rows n ≠ [] := by
    rw [transposeRec_eq h]
    simpa using hn
  rw [transposeRec_eq hcols, transposeRec_eq h]
  apply List.ext_getElem
  · simp
  · intro i hi hi'
    rw [List.getElem_map, List.getElem_range, List.map_map]
    apply List.ext_getElem
    · simp [hlen _ (List.getElem_mem hi')]
    · intro j hj hj'
      simp [selN', hi', hj']

/-- A column holds one entry of each row. -/
theorem length_of_mem_transposeRec (h : rows ≠ []) {c : List α} (hc : c ∈ transposeRec d rows n) :
    c.length = rows.length := by
  rw [transposeRec_eq h, List.mem_map] at hc
  obtain ⟨j, -, rfl⟩ := hc
  rw [List.length_map]

theorem length_transposeRec (h : rows ≠ []) (n : ℕ) : (transposeRec d rows n).length = n := by
  rw [transposeRec_eq h, List.length_map, List.length_range]

end Transpose

/-- The bytes of a block with the older values of each are put together to the block. -/
theorem bytesets2valuset_valuset2bytesets (vs : Valuset) :
    bytesets2valuset (valuset2bytesets vs) = vs := by
  have hrows : (byteset2list vs).map valu2list ≠ [] := by simp [byteset2list]
  have hlen : ∀ r ∈ (byteset2list vs).map valu2list, r.length = valubytes := by simp
  have hv : valubytes ≠ 0 := by simp [valubytes_is]
  have hcols : ∀ c ∈ valuset2bytesetsRec ((byteset2list vs).map valu2list) valubytes,
      c.length = (byteset2list vs).length := by
    intro c hc
    rw [length_of_mem_transposeRec hrows hc, List.length_map]
  have hne : ∀ c ∈ valuset2bytesetsRec ((byteset2list vs).map valu2list) valubytes, c ≠ [] := by
    intro c hc
    exact List.ne_nil_of_length_pos ((hcols c hc).symm ▸ Nat.succ_pos _)
  have hfuel : (byteset2list ((valuset2bytesets vs).getD 0 byteset0)).length =
      ((byteset2list vs).map valu2list).length := by
    have h0 : 0 < (valuset2bytesets vs).length := by
      rw [valuset2bytesets, List.length_map, valuset2bytesetsRec, length_transposeRec hrows]
      exact Nat.pos_of_ne_zero hv
    rw [List.getD_eq_getElem _ _ h0, List.length_map]
    apply hcols
    rw [← map_byteset2list hne]
    exact List.mem_map_of_mem (List.getElem_mem h0)
  rw [bytesets2valuset, hfuel, valuset2bytesets, map_byteset2list hne, bytesets2valusetRec,
    valuset2bytesetsRec, transposeRec_transposeRec hrows hv hlen, map_list2valu]
  rfl

/-- The histories of the bytes of a block are put together and taken apart again. -/
theorem valuset2bytesets_bytesets2valuset {bs : List Byteset} {n : ℕ} (hbs : bs.length = valubytes)
    (hn : ∀ b ∈ bs, b.2.length = n) : valuset2bytesets (bytesets2valuset bs) = bs := by
  have h0 : 0 < bs.length := by rw [hbs, valubytes_is]; decide
  have hrows : bs.map byteset2list ≠ [] := by
    exact List.ne_nil_of_length_pos (List.length_map byteset2list ▸ h0)
  have hlen : ∀ r ∈ bs.map byteset2list, r.length = n + 1 := by
    intro r hr
    obtain ⟨b, hb, rfl⟩ := List.mem_map.1 hr
    rw [byteset2list, List.length_cons, hn b hb]
  have hfuel : (byteset2list (bs.getD 0 byteset0)).length = n + 1 := by
    rw [List.getD_eq_getElem _ _ h0]
    exact hlen _ (List.mem_map_of_mem (List.getElem_mem h0))
  have hcols : ∀ c ∈ bytesets2valusetRec (bs.map byteset2list) (n + 1), c.length = valubytes := by
    intro c hc
    rw [length_of_mem_transposeRec hrows hc, List.length_map, hbs]
  have hne : (bytesets2valusetRec (bs.map byteset2list) (n + 1)).map list2valu ≠ [] := by
    apply List.ne_nil_of_length_pos
    rw [List.length_map, bytesets2valusetRec, length_transposeRec hrows]
    exact n.succ_pos
  rw [bytesets2valuset, hfuel, valuset2bytesets, byteset2list_list2byteset hne, map_valu2list hcols,
    valuset2bytesetsRec, bytesets2valusetRec, ← hbs, ← List.length_map byteset2list,
    transposeRec_transposeRec hrows n.succ_ne_zero hlen, map_list2byteset]

/-- Block histories and lists of byte histories of one length are the transposes of each other. -/
theorem bytesets_transpose : (∀ vs : Valuset, bytesets2valuset (valuset2bytesets vs) = vs) ∧
    ∀ (bs : List Byteset) (n : ℕ), bs.length = 4096 → (∀ b ∈ bs, b.2.length = n) →
      valuset2bytesets (bytesets2valuset bs) = bs := by
  refine ⟨bytesets2valuset_valuset2bytesets, ?_⟩
  intro bs n hbs hn
  exact valuset2bytesets_bytesets2valuset (hbs.trans valubytes_is.symm) hn

namespace Sample

/-- A block of nines that still may be a block of sevens or of zeros. -/
theorem bytesets_transpose_nines :
    valuset2bytesets (bytesets2valuset (List.replicate 4096 (9, [7, 0]))) =
      List.replicate 4096 (9, [7, 0]) := by
  apply bytesets_transpose.2 _ 2 List.length_replicate
  intro b hb
  rw [List.eq_of_mem_replicate hb]
  rfl

end Sample

end Fscq
