import Fscq.LogRecArray

/-!
# Arrays of records as lists

The records of an array are a list.  Packing a list into blocks and unpacking them gives the list back,
up to padding; reading and writing one record is indexing and updating the list; and in every run of
the programs with a cache the cached records are those of the list.
-/

namespace Fscq

open CrashProg

variable {α : Type}

/-! ### Packing -/

theorem setlen_take (l : List α) (sz : ℕ) (d : α) : setlen (l.take sz) sz d = setlen l sz d := by
  have h : sz - min sz l.length = sz - l.length := by omega
  rw [setlen, setlen, List.take_take, min_self, List.length_take, h]

theorem listChunk'_eq (sz : ℕ) (d : α) (nr : ℕ) (l : List α) :
    listChunk' l sz d nr = (nopadListChunk' l sz nr).map fun c => setlen c sz d := by
  induction nr generalizing l with
  | zero => rfl
  | succ nr ih => rw [listChunk', nopadListChunk', List.map_cons, ih, setlen_take]

/-- The pieces of a list with the last one padded. -/
theorem flatten_listChunk {sz : ℕ} (hsz : 0 < sz) (d : α) (l : List α) :
    (listChunk l sz d).flatten = setlen l (divup l.length sz * sz) d := by
  rw [setlen_of_le (le_divup_mul hsz), ← flatMap_nopadListChunk hsz d l, List.flatMap_def,
    listChunk, listChunk'_eq, nopadListChunk]

namespace RASig

variable {XParams : Type} {R : RASig XParams} {n ix : ℕ} {xp : XParams} {m m' : Mem} {x : R.Item}
  {l : List R.Item}

theorem mem_listChunk {c : List R.Item} (hw : ∀ x ∈ l, Rec.WellFormed R.itemtype x)
    (h : c ∈ listChunk l R.itemsPerVal R.item0) :
    c.length = R.itemsPerVal ∧ ∀ x ∈ c, Rec.WellFormed R.itemtype x := by
  rw [listChunk, listChunk'_eq] at h
  obtain ⟨c, hc, rfl⟩ := List.mem_map.1 h
  refine ⟨length_setlen .., fun x hx => ?_⟩
  rcases List.mem_append.1 hx with hx | hx
  · exact hw x ((R.mem_nopadListChunk' hc).2 x (List.mem_of_mem_take hx))
  · rw [List.eq_of_mem_replicate hx]
    exact R.wellFormed_item0

/-- The blocks of a packed list hold its records, padded to whole blocks. -/
theorem items_ipack (hw : ∀ x ∈ l, Rec.WellFormed R.itemtype x) :
    R.items (R.ipack l) = setlen l (divup l.length R.itemsPerVal * R.itemsPerVal) R.item0 := by
  rw [← flatten_listChunk R.itemsPerVal_pos, items, ipack, List.flatMap_map, ← List.flatMap_id]
  refine List.flatMap_congr fun c hc => ?_
  have hc := mem_listChunk hw hc
  exact R.val2block_block2val hc.1 hc.2

/-! ### The list of an array -/

/-- The blocks of the array hold the records of the list. -/
structure Rep (R : RASig XParams) (m : Mem) (xp : XParams) (l : List R.Item) : Prop where
  length : l.length = R.raLen xp * R.itemsPerVal
  wellFormed : ∀ x ∈ l, Rec.WellFormed R.itemtype x
  blocks : Txn.blocks m (R.raStart xp) (R.raLen xp) = R.ipack l

/-- It is the list of the records at all indices. -/
theorem rep_iff : R.Rep m xp l ↔
    l = (List.range (R.raLen xp * R.itemsPerVal)).map (R.item m xp) := by
  constructor
  · intro h
    have hpad : setlen l (divup l.length R.itemsPerVal * R.itemsPerVal) R.item0 = l := by
      rw [h.length, divup_mul R.itemsPerVal_pos, ← h.length, setlen_of_le le_rfl]
      simp
    rw [← items_blocks, h.blocks, items_ipack h.wellFormed, hpad]
  · rintro rfl
    refine ⟨by simp, fun x hx => ?_, ?_⟩
    · obtain ⟨i, -, rfl⟩ := List.mem_map.1 hx
      exact wellFormed_item m xp i
    · rw [← items_blocks, ipack_items]

/-- Each memory holds some list in the array. -/
theorem rep_items (m : Mem) (xp : XParams) :
    R.Rep m xp ((List.range (R.raLen xp * R.itemsPerVal)).map (R.item m xp)) := rep_iff.2 rfl

theorem Rep.lt (h : R.Rep m xp l) (hi : ix < l.length) : ix < R.raLen xp * R.itemsPerVal :=
  hi.trans_eq h.length

theorem Rep.getElem? (h : R.Rep m xp l) (hi : ix < l.length) : l[ix]? = some (R.item m xp ix) := by
  have hlt := h.lt hi
  rw [rep_iff.1 h, List.getElem?_map, List.getElem?_range hlt, Option.map_some]

theorem Rep.getD (h : R.Rep m xp l) (hi : ix < l.length) :
    l.getD ix R.item0 = R.item m xp ix := by
  rw [List.getD_eq_getElem?_getD, h.getElem? hi, Option.getD_some]

theorem Rep.congr (h : R.Rep m xp l) (hm : ∀ a ∈ R.region xp, m' a = m a) : R.Rep m' xp l := by
  rw [rep_iff] at h ⊢
  rw [h]
  refine List.map_congr_left fun i hi => ?_
  exact (item_congr (List.mem_range.1 hi) hm).symm

/-- Replacing a record of the memory replaces it in the list. -/
theorem Rep.putItem (h : R.Rep m xp l) (hx : Rec.WellFormed R.itemtype x) :
    R.Rep (R.putItem m xp ix x) xp (l.set ix x) := by
  rw [rep_iff] at h ⊢
  apply List.ext_getElem
  · rw [h]
    simp
  · intro j h₁ h₂
    rw [List.getElem_map, List.getElem_range, item_putItem hx, List.getElem_set]
    by_cases hj : ix = j
    · rw [if_pos hj, if_pos hj.symm]
    · rw [if_neg hj, if_neg (Ne.symm hj)]
      simp [h]

/-! ### Runs with a cache -/

/-- The memory, the cache and the list after some reads and writes through the cache, with changes
of other blocks in between. -/
inductive Reach (R : RASig XParams) (xp : XParams) : Mem → R.Cache → List R.Item → Prop
  | start {m : Mem} {l : List R.Item} (h : R.Rep m xp l) : Reach R xp m ∅ l
  | get {m : Mem} {cache : R.Cache} {l : List R.Item} {ix : ℕ} (h : Reach R xp m cache l)
      (hi : ix < l.length) :
      Reach R xp (Txn.run (R.getCached xp ix cache) m).2
        (Txn.run (R.getCached xp ix cache) m).1.1 l
  | put {m : Mem} {cache : R.Cache} {l : List R.Item} {ix : ℕ} {x : R.Item}
      (h : Reach R xp m cache l) (hi : ix < l.length) (hx : Rec.WellFormed R.itemtype x) :
      Reach R xp (Txn.run (R.putCached xp ix x cache) m).2
        (Txn.run (R.putCached xp ix x cache) m).1 (l.set ix x)
  | other {m m' : Mem} {cache : R.Cache} {l : List R.Item} (h : Reach R xp m cache l)
      (hm : ∀ a ∈ R.region xp, m' a = m a) : Reach R xp m' cache l

variable {cache : R.Cache}

theorem wp_getList (hf : R.Fits n xp) (h : R.Rep m xp l) (hi : ix < l.length) :
    Txn.wp n (R.get xp ix) (fun r m' => r = l.getD ix R.item0 ∧ m' = m) m :=
  wp_get hf (h.lt hi) ⟨(h.getD hi).symm, rfl⟩

theorem wp_putList (hf : R.Fits n xp) (h : R.Rep m xp l) (hi : ix < l.length)
    (hx : Rec.WellFormed R.itemtype x) :
    Txn.wp n (R.put xp ix x) (fun _ m' => R.Rep m' xp (l.set ix x) ∧
      ∀ a ∉ R.region xp, m' a = m a) m :=
  wp_put hf (h.lt hi) ⟨h.putItem hx, fun _ => putItem_of_not_mem (h.lt hi)⟩

theorem wp_getCachedList (hf : R.Fits n xp) (h : R.Rep m xp l) (hc : R.CacheOk m xp cache)
    (hi : ix < l.length) :
    Txn.wp n (R.getCached xp ix cache) (fun r m' => r.2 = l.getD ix R.item0 ∧ m' = m ∧
      R.CacheOk m xp r.1) m :=
  wp_getCached hf (h.lt hi) hc fun _ hc' => ⟨(h.getD hi).symm, rfl, hc'⟩

theorem wp_putCachedList (hf : R.Fits n xp) (h : R.Rep m xp l) (hc : R.CacheOk m xp cache)
    (hi : ix < l.length) (hx : Rec.WellFormed R.itemtype x) :
    Txn.wp n (R.putCached xp ix x cache) (fun cache' m' => R.Rep m' xp (l.set ix x) ∧
      R.CacheOk m' xp cache') m :=
  wp_putCached hf (h.lt hi) hx hc fun _ hc' => ⟨h.putItem hx, hc'⟩

/-- The list is in the memory, and the cache holds a part of it. -/
theorem Reach.inv (hf : R.Fits n xp) (h : R.Reach xp m cache l) :
    R.Rep m xp l ∧ R.CacheOk m xp cache := by
  induction h with
  | start h => exact ⟨h, cacheOk_empty⟩
  | get _ hi ih =>
    obtain ⟨-, hm, hc⟩ := Txn.wp_run (wp_getCachedList hf ih.1 ih.2 hi)
    rw [hm]
    exact ⟨ih.1, hc⟩
  | put _ hi hx ih => exact Txn.wp_run (wp_putCachedList hf ih.1 ih.2 hi hx)
  | other _ hm ih => exact ⟨ih.1.congr hm, ih.2.congr hm⟩

/-- Packed lists are unpacked again, up to padding; reading and writing one record is indexing and
updating the list; and in every run with a cache the cached records are those in the memory, so that
reading with and without the cache gives the same. -/
theorem records_refine_list (hf : R.Fits n xp) :
    (∀ l : List R.Item, (∀ x ∈ l, Rec.WellFormed R.itemtype x) →
      (R.ipack l).foldl R.iunpack [] =
        setlen l (divup l.length R.itemsPerVal * R.itemsPerVal) R.item0) ∧
    (∀ m l ix, R.Rep m xp l → ix < l.length →
      Txn.wp n (R.get xp ix) (fun r m' => r = l.getD ix R.item0 ∧ m' = m) m ∧
      ∀ x, Rec.WellFormed R.itemtype x →
        Txn.wp n (R.put xp ix x) (fun _ m' => R.Rep m' xp (l.set ix x) ∧
          ∀ a ∉ R.region xp, m' a = m a) m) ∧
    ∀ m cache l, R.Reach xp m cache l → R.Rep m xp l ∧
      (∀ (ix : ℕ) (x : R.Item), cache[ix]? = some x → ix < l.length ∧ x = R.item m xp ix ∧
        x = l.getD ix R.item0) ∧
      ∀ ix < l.length,
        Txn.wp n (R.getCached xp ix cache) (fun r m' => r.2 = l.getD ix R.item0 ∧ m' = m) m ∧
        Txn.wp n (R.get xp ix) (fun r m' => r = l.getD ix R.item0 ∧ m' = m) m ∧
        (Txn.run (R.getCached xp ix cache) m).1.2 = (Txn.run (R.get xp ix) m).1 := by
  refine ⟨fun l hw => ?_, fun m l ix h hi => ?_, fun m cache l h => ?_⟩
  · rw [foldl_iunpack, List.nil_append, items_ipack hw]
  · exact ⟨wp_getList hf h hi, fun x hx => wp_putList hf h hi hx⟩
  · obtain ⟨hrep, hc⟩ := h.inv hf
    refine ⟨hrep, fun ix x hx => ?_, fun ix hi => ?_⟩
    · obtain ⟨hi, hv⟩ := hc ix x hx
      have hlt : ix < l.length := hi.trans_eq hrep.length.symm
      exact ⟨hlt, hv, hv.trans (hrep.getD hlt).symm⟩
    · have hcached := wp_getCachedList hf hrep hc hi
      have hget := wp_getList hf hrep hi
      refine ⟨Txn.wp_post hcached fun r m' h' => ⟨h'.1, h'.2.1⟩, hget, ?_⟩
      rw [(Txn.wp_run hcached).1, (Txn.wp_run hget).1]

end RASig

namespace Sample

/-- A block of addresses. -/
def addrRecords : RASig Unit where
  raStart _ := 1
  raLen _ := 1
  itemtype := .wordF addrlen
  itemsPerVal := valulen / addrlen
  blocksz_ok := valulen_eq_addrs

def anAddr : addrRecords.Item := (7 : Waddr)

theorem fits_addrRecords : addrRecords.Fits 2 () := ⟨by decide, by decide⟩

/-- An address is written through the cache and read again. -/
theorem records_refine_list_addrs :
    let s := Txn.run (addrRecords.putCached () 3 anAddr ∅) fun _ => 0
    Txn.wp 2 (addrRecords.getCached () 3 s.1) (fun r m' => r.2 = anAddr ∧ m' = s.2) s.2 := by
  intro s
  have hrep : addrRecords.Rep (fun _ => 0) () _ := RASig.rep_items _ ()
  have hlen : 3 < ((List.range (addrRecords.raLen () * addrRecords.itemsPerVal)).map
      (addrRecords.item (fun _ => 0) ())).length := by
    simp [addrRecords, valulen_is, addrlen]
  have hreach : addrRecords.Reach () s.2 s.1 _ :=
    RASig.Reach.put (x := anAddr) (.start hrep) hlen trivial
  obtain ⟨-, -, hget⟩ := (RASig.records_refine_list fits_addrRecords).2.2 _ _ _ hreach
  refine Txn.wp_post (hget 3 (by rwa [List.length_set])).1 fun r m' h => ⟨?_, h.2⟩
  rw [h.1, List.getD_eq_getElem?_getD, List.getElem?_set_self hlen]
  rfl

end Sample

end Fscq
