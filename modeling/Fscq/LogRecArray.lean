import Mathlib.Data.List.GetD
import Fscq.RecArrayUtils
import Fscq.Txn

/-!
# Arrays of records in the log

Arrays of records that are read and written inside a transaction, with and without a cache of the
records in memory.
-/

namespace Fscq

open CrashProg

namespace RASig

variable {XParams : Type} (R : RASig XParams)

/-! ### The programs -/

def get (xp : XParams) (ix : ℕ) : TxnProg R.Item := do
  let v ← Txn.readArray (R.raStart xp) (ix / R.itemsPerVal)
  pure (R.selNVal2block v (ix % R.itemsPerVal))

def put (xp : XParams) (ix : ℕ) (item : R.Item) : TxnProg Unit := do
  let v ← Txn.readArray (R.raStart xp) (ix / R.itemsPerVal)
  Txn.writeArray (R.raStart xp) (ix / R.itemsPerVal)
    (R.block2valUpdNVal2block v (ix % R.itemsPerVal) item)

/-- Find the first record that satisfies a condition. -/
def ifind (xp : XParams) (cond : R.Item → ℕ → Bool) : TxnProg (Option (ℕ × R.Item)) :=
  forN (fun i ret =>
    if ret.isSome then pure ret
    else do
      let v ← Txn.readArray (R.raStart xp) i
      pure (ifindList cond (R.val2block v) (i * R.itemsPerVal))) 0 (R.raLen xp) none

/-- Read the records of the first `nblocks` blocks. -/
def read (xp : XParams) (nblocks : ℕ) : TxnProg (List R.Item) :=
  Txn.readRange (R.raStart xp) nblocks R.iunpack []

/-- Write records from the beginning of the array. -/
def write (xp : XParams) (items : List R.Item) : TxnProg Unit :=
  Txn.writeRange (R.raStart xp) (R.ipack items)

/-- Set all records to zero. -/
def init (xp : XParams) : TxnProg Unit :=
  Txn.writeRange (R.raStart xp) (List.replicate (R.raLen xp) 0)

/-! ### The records of a memory -/

/-- The record at an index. -/
def item (m : Mem) (xp : XParams) (ix : ℕ) : R.Item :=
  (R.val2block (m (R.raStart xp + ix / R.itemsPerVal))).getD (ix % R.itemsPerVal) R.item0

/-- The memory with the record at an index replaced. -/
def putItem (m : Mem) (xp : XParams) (ix : ℕ) (x : R.Item) : Mem :=
  Function.update m (R.raStart xp + ix / R.itemsPerVal)
    (R.block2valUpdNVal2block (m (R.raStart xp + ix / R.itemsPerVal)) (ix % R.itemsPerVal) x)

/-- The blocks of an array. -/
def region (xp : XParams) : Set ℕ := {a | R.raStart xp ≤ a ∧ a < R.raStart xp + R.raLen xp}

/-- The array is in the data section and does not start at its first block. -/
structure Fits (n : ℕ) (xp : XParams) : Prop where
  start : R.raStart xp ≠ 0
  bound : R.raStart xp + R.raLen xp ≤ n

variable {R} {n ix jx : ℕ} {xp : XParams} {m m' : Mem} {x : R.Item}

theorem div_lt_raLen (h : ix < R.raLen xp * R.itemsPerVal) : ix / R.itemsPerVal < R.raLen xp :=
  (Nat.div_lt_iff_lt_mul R.itemsPerVal_pos).2 h

theorem mod_lt_itemsPerVal (ix : ℕ) : ix % R.itemsPerVal < R.itemsPerVal :=
  Nat.mod_lt _ R.itemsPerVal_pos

theorem mem_region (h : ix < R.raLen xp * R.itemsPerVal) :
    R.raStart xp + ix / R.itemsPerVal ∈ R.region xp := by
  exact ⟨Nat.le_add_right _ _, Nat.add_lt_add_left (div_lt_raLen h) _⟩

theorem wellFormed_item (m : Mem) (xp : XParams) (ix : ℕ) :
    Rec.WellFormed R.itemtype (R.item m xp ix) := by
  apply R.wellFormed_val2block (m (R.raStart xp + ix / R.itemsPerVal))
  rw [item, List.getD_eq_getElem _ _ (by simpa using mod_lt_itemsPerVal ix)]
  exact List.getElem_mem _

theorem item_putItem (hx : Rec.WellFormed R.itemtype x) :
    R.item (R.putItem m xp ix x) xp jx = if jx = ix then x else R.item m xp jx := by
  rw [item, putItem]
  rcases eq_or_ne (jx / R.itemsPerVal) (ix / R.itemsPerVal) with hd | hd
  · rw [hd, Function.update_self, R.val2block_updN _ (mod_lt_itemsPerVal ix) hx,
      List.getD_eq_getElem _ _ (by simpa using mod_lt_itemsPerVal jx), List.getElem_set]
    rcases eq_or_ne jx ix with rfl | hne
    · rw [if_pos rfl, if_pos rfl]
    · have hm : ¬ ix % R.itemsPerVal = jx % R.itemsPerVal := by
        intro hm
        apply hne
        rw [← Nat.div_add_mod jx R.itemsPerVal, ← Nat.div_add_mod ix R.itemsPerVal, hd, hm]
      rw [if_neg hm, if_neg hne, item, hd,
        List.getD_eq_getElem _ _ (by simpa using mod_lt_itemsPerVal jx)]
  · have hne : jx ≠ ix := fun h => hd (by rw [h])
    rw [Function.update_of_ne (by omega), if_neg hne, item]

theorem putItem_of_not_mem (h : ix < R.raLen xp * R.itemsPerVal) {a : ℕ} (ha : a ∉ R.region xp) :
    R.putItem m xp ix x a = m a := by
  apply Function.update_of_ne
  rintro rfl
  exact ha (mem_region h)

theorem item_congr (h : ix < R.raLen xp * R.itemsPerVal) (hm : ∀ a ∈ R.region xp, m' a = m a) :
    R.item m' xp ix = R.item m xp ix := by
  rw [item, hm _ (mem_region h), item]

/-- The records of the first blocks of an array are the records at its first indices. -/
theorem items_blocks (m : Mem) (xp : XParams) (nblocks : ℕ) :
    R.items (Txn.blocks m (R.raStart xp) nblocks) =
      (List.range (nblocks * R.itemsPerVal)).map (R.item m xp) := by
  induction nblocks with
  | zero => simp [Txn.blocks, items]
  | succ k ih =>
    have hlast : R.items [m (R.raStart xp + k)] =
        (List.range R.itemsPerVal).map fun i => R.item m xp (k * R.itemsPerVal + i) := by
      apply List.ext_getElem
      · simp
      · intro i h₁ h₂
        have hi : i < R.itemsPerVal := by simpa using h₂
        have e₁ : (k * R.itemsPerVal + i) / R.itemsPerVal = k := by
          rw [Nat.mul_comm, Nat.mul_add_div R.itemsPerVal_pos, Nat.div_eq_of_lt hi, Nat.add_zero]
        have e₂ : (k * R.itemsPerVal + i) % R.itemsPerVal = i := by
          rw [Nat.mul_comm, Nat.mul_add_mod, Nat.mod_eq_of_lt hi]
        simp only [List.getElem_map, List.getElem_range, item, e₁, e₂]
        rw [List.getD_eq_getElem _ _ (by simpa using hi)]
        simp [items]
    have e : (k + 1) * R.itemsPerVal = k * R.itemsPerVal + R.itemsPerVal := by ring
    rw [Txn.blocks_succ, items_append, ih, hlast, e, List.range_add, List.map_append, List.map_map]
    rfl

theorem wp_get {Q : R.Item → Mem → Prop} (hf : R.Fits n xp) (h : ix < R.raLen xp * R.itemsPerVal)
    (hQ : Q (R.item m xp ix) m) : Txn.wp n (R.get xp ix) Q m := by
  apply wp_bind
  apply Txn.wp_readArray ((mem_region h).2.trans_le hf.bound)
  apply wp_pure
  rw [R.selNVal2block_eq _ (mod_lt_itemsPerVal ix) R.item0]
  exact hQ

theorem wp_put {Q : Unit → Mem → Prop} (hf : R.Fits n xp) (h : ix < R.raLen xp * R.itemsPerVal)
    (hQ : Q () (R.putItem m xp ix x)) : Txn.wp n (R.put xp ix x) Q m := by
  have ha : R.raStart xp + ix / R.itemsPerVal < n := (mem_region h).2.trans_le hf.bound
  apply wp_bind
  apply Txn.wp_readArray ha
  exact Txn.wp_writeArray (fun h0 => hf.start (Nat.eq_zero_of_add_eq_zero_right h0)) ha hQ

/-- The search finds the first record of the array that satisfies the condition. -/
theorem wp_ifind {cond : R.Item → ℕ → Bool} {Q : Option (ℕ × R.Item) → Mem → Prop}
    (hf : R.Fits n xp)
    (hQ : Q (ifindList cond ((List.range (R.raLen xp * R.itemsPerVal)).map (R.item m xp)) 0) m) :
    Txn.wp n (R.ifind xp cond) Q m := by
  rw [← items_blocks] at hQ
  -- the blocks before the index have been searched
  refine wp_mono (wp_forN (N := R.raLen xp) (fun i r m' => m' = m ∧
    r = ifindList cond (R.items (Txn.blocks m (R.raStart xp) i)) 0) ?_ _ 0 none m (by omega)
    ⟨rfl, rfl⟩) ?_ fun _ => id
  · rintro i r m' hi ⟨rfl, rfl⟩
    have hnext : ifindList cond (R.items (Txn.blocks m' (R.raStart xp) (i + 1))) 0 =
        (ifindList cond (R.items (Txn.blocks m' (R.raStart xp) i)) 0).or
          (ifindList cond (R.val2block (m' (R.raStart xp + i))) (i * R.itemsPerVal)) := by
      rw [Txn.blocks_succ, items_append, ifindList_append, length_items, Txn.length_blocks,
        Nat.zero_add]
      simp [items]
    cases hr : ifindList cond (R.items (Txn.blocks m' (R.raStart xp) i)) 0 with
    | some x =>
      rw [hr] at hnext
      exact wp_pure ⟨rfl, hnext.symm⟩
    | none =>
      rw [hr] at hnext
      rw [if_neg (by simp)]
      apply wp_bind
      apply Txn.wp_readArray ((Nat.add_lt_add_left hi _).trans_le hf.bound)
      exact wp_pure ⟨rfl, hnext.symm⟩
  · rintro r m' ⟨rfl, rfl⟩
    exact hQ

theorem wp_readItems {Q : List R.Item → Mem → Prop} {nblocks : ℕ} (hf : R.raStart xp + nblocks ≤ n)
    (hQ : Q (R.items (Txn.blocks m (R.raStart xp) nblocks)) m) :
    Txn.wp n (R.read xp nblocks) Q m := by
  apply Txn.wp_readRange hf
  rw [R.foldl_iunpack, List.nil_append]
  exact hQ

/-- A block of equal records. -/
def fillVal (R : RASig XParams) (x : R.Item) : Valu := R.block2val (List.replicate R.itemsPerVal x)

theorem val2block_fillVal (hx : Rec.WellFormed R.itemtype x) :
    R.val2block (R.fillVal x) = List.replicate R.itemsPerVal x := by
  apply R.val2block_block2val (List.length_replicate ..)
  intro y hy
  rw [List.eq_of_mem_replicate hy]
  exact hx

theorem fillVal_item0 : R.fillVal R.item0 = 0 := by
  rw [fillVal, ← R.val2block_zero, R.block2val_val2block]

theorem ipack_replicate (hx : Rec.WellFormed R.itemtype x) (k : ℕ) :
    R.ipack (List.replicate (k * R.itemsPerVal) x) = List.replicate k (R.fillVal x) := by
  have h : R.items (List.replicate k (R.fillVal x)) = List.replicate (k * R.itemsPerVal) x := by
    apply List.eq_replicate_iff.2
    constructor
    · simp
    · intro y hy
      obtain ⟨v, hv, hy⟩ := List.mem_flatMap.1 hy
      rw [List.eq_of_mem_replicate hv, val2block_fillVal hx] at hy
      exact List.eq_of_mem_replicate hy
  rw [← h, R.ipack_items]

/-- An array of equal records. -/
def fill (R : RASig XParams) (m : Mem) (xp : XParams) (x : R.Item) : Mem :=
  Txn.writeBlocks m (R.raStart xp) (List.replicate (R.raLen xp) (R.fillVal x))

theorem fill_of_not_mem {a : ℕ} (ha : a ∉ R.region xp) : R.fill m xp x a = m a := by
  rw [fill, Txn.writeBlocks, List.length_replicate]
  exact if_neg ha

theorem item_fill (hx : Rec.WellFormed R.itemtype x) (h : ix < R.raLen xp * R.itemsPerVal) :
    R.item (R.fill m xp x) xp ix = x := by
  have hd := div_lt_raLen h
  have hv : R.fill m xp x (R.raStart xp + ix / R.itemsPerVal) = R.fillVal x := by
    rw [fill, Txn.writeBlocks, List.length_replicate,
      if_pos ⟨Nat.le_add_right _ _, Nat.add_lt_add_left hd _⟩, Nat.add_sub_cancel_left,
      List.getD_replicate _ hd]
  rw [item, hv, val2block_fillVal hx, List.getD_replicate _ (mod_lt_itemsPerVal ix)]

theorem wellFormed_item0 (R : RASig XParams) : Rec.WellFormed R.itemtype R.item0 :=
  Rec.wellFormed_ofWord _ _

theorem wp_writeFill {Q : Unit → Mem → Prop} (hf : R.Fits n xp)
    (hQ : Q () (R.fill m xp x)) :
    Txn.wp n (Txn.writeRange (R.raStart xp) (List.replicate (R.raLen xp) (R.fillVal x))) Q m := by
  apply Txn.wp_writeRange hf.start _ hQ
  rw [List.length_replicate]
  exact hf.bound

theorem mem_writes_init {a : ℕ} : a ∈ Txn.writes (R.init xp) m ↔ a ∈ R.region xp := by
  rw [init, Txn.writes_writeRange, List.length_replicate, List.mem_range'_1]
  rfl

theorem wp_init {Q : Unit → Mem → Prop} (hf : R.Fits n xp) (hQ : Q () (R.fill m xp R.item0)) :
    Txn.wp n (R.init xp) Q m := by
  rw [init, ← R.fillVal_item0]
  exact wp_writeFill hf hQ

/-! ### The cache of records -/

abbrev Cache (R : RASig XParams) := AddrMap R.Item

def getCached (R : RASig XParams) (xp : XParams) (ix : ℕ) (cache : R.Cache) :
    TxnProg (R.Cache × R.Item) :=
  match cache[ix]? with
  | some v => pure (cache, v)
  | none => do
    let v ← R.get xp ix
    pure (cache.insert ix v, v)

def putCached (R : RASig XParams) (xp : XParams) (ix : ℕ) (item : R.Item) (cache : R.Cache) :
    TxnProg R.Cache := do
  R.put xp ix item
  pure (cache.insert ix item)

/-- The cached records are those of the memory. -/
def CacheOk (R : RASig XParams) (m : Mem) (xp : XParams) (cache : R.Cache) : Prop :=
  ∀ (ix : ℕ) (x : R.Item), cache[ix]? = some x →
    ix < R.raLen xp * R.itemsPerVal ∧ x = R.item m xp ix

variable {cache : R.Cache}

theorem cacheOk_empty : R.CacheOk m xp ∅ := by
  intro ix x h
  simp at h

theorem getElem?_insert (ix jx : ℕ) (x : R.Item) :
    (cache.insert ix x)[jx]? = if jx = ix then some x else cache[jx]? := by
  rw [Std.ExtTreeMap.getElem?_insert]
  rcases eq_or_ne jx ix with rfl | h
  · simp
  · rw [if_neg (by simpa using h.symm), if_neg h]

theorem CacheOk.insert (h : R.CacheOk m xp cache) (hi : ix < R.raLen xp * R.itemsPerVal) :
    R.CacheOk m xp (cache.insert ix (R.item m xp ix)) := by
  intro jx y hy
  rw [getElem?_insert] at hy
  split_ifs at hy with hj
  · exact ⟨hj ▸ hi, by rw [hj, Option.some.inj hy]⟩
  · exact h jx y hy

theorem CacheOk.congr (h : R.CacheOk m xp cache) (hm : ∀ a ∈ R.region xp, m' a = m a) :
    R.CacheOk m' xp cache := by
  intro ix x hx
  obtain ⟨hi, hv⟩ := h ix x hx
  rw [item_congr hi hm]
  exact ⟨hi, hv⟩

/-- A lookup finds the record, and leaves the memory as it is. -/
theorem wp_getCached {Q : R.Cache × R.Item → Mem → Prop} (hf : R.Fits n xp)
    (h : ix < R.raLen xp * R.itemsPerVal) (hc : R.CacheOk m xp cache)
    (hQ : ∀ cache' : R.Cache, R.CacheOk m xp cache' → Q (cache', R.item m xp ix) m) :
    Txn.wp n (R.getCached xp ix cache) Q m := by
  unfold getCached
  split
  next v hv =>
    apply wp_pure
    rw [(hc ix v hv).2]
    exact hQ _ hc
  next hv =>
    apply wp_bind
    apply wp_get hf h
    apply wp_pure
    exact hQ _ (hc.insert h)

theorem wp_putCached {Q : R.Cache → Mem → Prop} (hf : R.Fits n xp)
    (h : ix < R.raLen xp * R.itemsPerVal) (hx : Rec.WellFormed R.itemtype x)
    (hc : R.CacheOk m xp cache)
    (hQ : ∀ cache' : R.Cache, R.CacheOk (R.putItem m xp ix x) xp cache' →
      Q cache' (R.putItem m xp ix x)) :
    Txn.wp n (R.putCached xp ix x cache) Q m := by
  apply wp_bind
  apply wp_put hf h
  apply wp_pure
  apply hQ
  intro jx y hy
  rw [getElem?_insert] at hy
  rw [item_putItem hx]
  split_ifs at hy ⊢ with hj
  · exact ⟨hj ▸ h, (Option.some.inj hy).symm⟩
  · exact hc jx y hy

theorem atMost_get (xp : XParams) (ix : ℕ) : Txn.AtMost 0 (R.get xp ix) :=
  (Txn.atMost_read _).after fun _ => Txn.atMost_pure 0 _

theorem atMost_put (xp : XParams) (ix : ℕ) (x : R.Item) : Txn.AtMost 1 (R.put xp ix x) :=
  (Txn.atMost_read _).after fun _ => Txn.atMost_write _ _

theorem atMost_getCached (xp : XParams) (ix : ℕ) (cache : R.Cache) :
    Txn.AtMost 0 (R.getCached xp ix cache) := by
  unfold getCached
  split
  · exact Txn.atMost_pure 0 _
  · exact (atMost_get xp ix).after fun _ => Txn.atMost_pure 0 _

theorem atMost_putCached (xp : XParams) (ix : ℕ) (x : R.Item) (cache : R.Cache) :
    Txn.AtMost 1 (R.putCached xp ix x cache) :=
  (atMost_put xp ix x).bind fun _ => Txn.atMost_pure 0 _

theorem above_put (xp : XParams) (ix : ℕ) (x : R.Item) : Txn.Above (R.raStart xp) (R.put xp ix x) :=
  ((Txn.atMost_read _).above _).bind fun _ => Txn.above_write (Nat.le_add_right _ _) _

/-- A record that has been read is in the cache. -/
theorem does_getCached (xp : XParams) (ix : ℕ) (cache : R.Cache) (m : Mem) :
    Txn.Does (R.getCached xp ix cache) (fun r _ => r.1[ix]? = some r.2) m := by
  unfold getCached
  split
  · next h => exact Txn.does_pure h
  · exact Std.ExtTreeMap.getElem?_insert_self

theorem does_getCached_of_some {xp : XParams} {ix : ℕ} {cache : R.Cache} {x : R.Item}
    (h : cache[ix]? = some x) (m : Mem) :
    Txn.Does (R.getCached xp ix cache) (fun r _ => r = (cache, x)) m := by
  unfold getCached
  rw [h]
  rfl

end RASig

end Fscq
