import Fscq.BFileShrink

/-!
# Arrays of records in files

A file can hold an array of records, with as many records in each block as fit.
-/

namespace Fscq

open CrashProg

/-- The layout of the records of a file. -/
structure FileRASig where
  itemtype : Rec.Ty
  itemsPerVal : ℕ
  blocksz_ok : valulen = (Rec.Ty.arrayF itemtype itemsPerVal).len

namespace FileRASig

/-- The records as an array in the blocks of a file. -/
def ra (F : FileRASig) : RASig BFILE.BFile where
  raStart _ := 0
  raLen f := f.data.length
  itemtype := F.itemtype
  itemsPerVal := F.itemsPerVal
  blocksz_ok := F.blocksz_ok

abbrev Item (F : FileRASig) := F.ra.Item

variable (F : FileRASig) (ixp : InodeXparams) (inum : ℕ)

/-! ### The programs -/

def block0 : List F.Item := F.ra.val2block 0

def get (ix : ℕ) (ms : BFILE.MemState) : TxnProg (BFILE.MemState × F.Item) := do
  let (ms, v) ← BFILE.readArray ixp inum 0 (ix / F.itemsPerVal) ms
  pure (ms, F.ra.selNVal2block v (ix % F.itemsPerVal))

def put (ix : ℕ) (item : F.Item) (ms : BFILE.MemState) : TxnProg BFILE.MemState := do
  let (ms, v) ← BFILE.readArray ixp inum 0 (ix / F.itemsPerVal) ms
  BFILE.writeArray ixp inum 0 (ix / F.itemsPerVal)
    (F.ra.block2valUpdNVal2block v (ix % F.itemsPerVal) item) ms

/-- Add a block to the file with the record as its first. -/
def extend (bxps : BallocXparams × BallocXparams) (item : F.Item) (ms : BFILE.MemState) :
    TxnProg (BFILE.MemState × Res Unit) :=
  BFILE.grow ixp inum bxps (F.ra.block2val (F.block0.set 0 item)) ms

def readall (ms : BFILE.MemState) : TxnProg (BFILE.MemState × List F.Item) := do
  let (ms, nr) ← BFILE.getlen ixp inum ms
  BFILE.readRange ixp inum 0 nr F.ra.iunpack [] ms

/-- Find the first record that satisfies a condition. -/
def ifind (cond : F.Item → ℕ → Bool) (ms : BFILE.MemState) :
    TxnProg (BFILE.MemState × Option (ℕ × F.Item)) := do
  let (ms, nr) ← BFILE.getlen ixp inum ms
  forN (fun i r =>
    if r.2.isSome then pure r
    else do
      let (ms, v) ← BFILE.readArray ixp inum 0 i r.1
      pure (ms, ifindList cond (F.ra.val2block v) (i * F.itemsPerVal))) 0 nr (ms, none)

theorem atMost_get (ix : ℕ) (ms : BFILE.MemState) : Txn.AtMost 0 (F.get ixp inum ix ms) :=
  (BFILE.atMost_readArray ixp inum 0 _ ms).after fun _ => Txn.atMost_pure 0 _

theorem atMost_put (ix : ℕ) (item : F.Item) (ms : BFILE.MemState) :
    Txn.AtMost 1 (F.put ixp inum ix item ms) :=
  (BFILE.atMost_readArray ixp inum 0 _ ms).after fun _ => BFILE.atMost_write ixp inum _ _ _

theorem atMost_readall (ms : BFILE.MemState) : Txn.AtMost 0 (F.readall ixp inum ms) := by
  apply (BFILE.atMost_getlen ixp inum ms).after
  intro x
  apply Txn.atMost_forN
  exact fun i r => (BFILE.atMost_readArray ixp inum 0 i r.1).after fun _ => Txn.atMost_pure 0 _

theorem atMost_ifind (cond : F.Item → ℕ → Bool) (ms : BFILE.MemState) :
    Txn.AtMost 0 (F.ifind ixp inum cond ms) := by
  apply (BFILE.atMost_getlen ixp inum ms).after
  intro x
  apply Txn.atMost_forN
  intro i r
  split_ifs
  · exact Txn.atMost_pure 0 _
  · exact (BFILE.atMost_readArray ixp inum 0 i r.1).after fun _ => Txn.atMost_pure 0 _

/-! ### What they do -/

/-- The records of a file. -/
def items (f : BFILE.BFile) : List F.Item := F.ra.items f.data

variable {F} {n inum ix : ℕ} {fsxp : FsXparams} {m : Mem} {ms : BFILE.MemState} {item : F.Item}
  {cond : F.Item → ℕ → Bool}

theorem itemsPerVal_pos : 0 < F.itemsPerVal := F.ra.itemsPerVal_pos

theorem length_items (f : BFILE.BFile) : (F.items f).length = f.data.length * F.itemsPerVal :=
  F.ra.length_items f.data

theorem items_set (data : List Valu) (hix : ix < data.length * F.itemsPerVal) {v : Valu}
    (hv : F.ra.val2block v =
      (F.ra.val2block (data.getD (ix / F.itemsPerVal) 0)).set (ix % F.itemsPerVal) item) :
    F.ra.items (data.set (ix / F.itemsPerVal) v) = (F.ra.items data).set ix item := by
  have hpos : 0 < F.itemsPerVal := itemsPerVal_pos
  induction data generalizing ix with
  | nil => simp at hix
  | cons w data ih =>
    have hcons : ∀ (w : Valu) (data : List Valu),
        F.ra.items (w :: data) = F.ra.val2block w ++ F.ra.items data :=
      fun w data => List.flatMap_cons
    have hlen : (F.ra.val2block w).length = F.itemsPerVal := F.ra.length_val2block w
    rcases Nat.lt_or_ge ix F.itemsPerVal with h | h
    · have e₁ : ix / F.itemsPerVal = 0 := Nat.div_eq_of_lt h
      rw [e₁, Nat.mod_eq_of_lt h] at hv
      rw [e₁, List.set_cons_zero, hcons, hcons, hv, List.getD_cons_zero,
        List.set_append_left _ _ (hlen ▸ h)]
    · have e₁ : ix / F.itemsPerVal = (ix - F.itemsPerVal) / F.itemsPerVal + 1 :=
        Nat.div_eq_sub_div hpos h
      have e₂ : ix % F.itemsPerVal = (ix - F.itemsPerVal) % F.itemsPerVal := Nat.mod_eq_sub_mod h
      have hix' : ix - F.itemsPerVal < data.length * F.itemsPerVal := by
        rw [List.length_cons, Nat.add_mul, Nat.one_mul] at hix
        omega
      rw [e₁, e₂, List.getD_cons_succ] at hv
      rw [e₁, List.set_cons_succ, hcons, hcons, ih hix' hv,
        List.set_append_right _ _ (hlen ▸ h), hlen]

theorem getD_items (data : List Valu) (hix : ix < data.length * F.itemsPerVal) :
    (F.ra.items data).getD ix F.ra.item0 =
      (F.ra.val2block (data.getD (ix / F.itemsPerVal) 0)).getD (ix % F.itemsPerVal) F.ra.item0 :=
  BlockPtr.getD_flatMap_const itemsPerVal_pos F.ra.item0 0 data ix
    (fun v _ => F.ra.length_val2block v) hix

/-- A loop over the blocks of a file that reads each of them. -/
theorem wp_readLoop {α : Type} {step : ℕ → BFILE.MemState × α → TxnProg (BFILE.MemState × α)}
    {Q : BFILE.MemState × α → Mem → Prop} (hinv : BFILE.Inv fsxp m ms) (g : ℕ → α)
    (hstep : ∀ i ms', i < (BFILE.file fsxp m inum).data.length → BFILE.Inv fsxp m ms' →
      ∀ Q' : BFILE.MemState × α → Mem → Prop,
      (∀ c, BFILE.Inv fsxp m { ms' with msICache := c } →
        Q' ({ ms' with msICache := c }, g (i + 1)) m) → Txn.wp n (step i (ms', g i)) Q' m)
    (hQ : ∀ c, BFILE.Inv fsxp m { ms with msICache := c } →
      Q ({ ms with msICache := c }, g (BFILE.file fsxp m inum).data.length) m) :
    Txn.wp n (forN step 0 (BFILE.file fsxp m inum).data.length (ms, g 0)) Q m := by
  let I : ℕ → BFILE.MemState × α → Mem → Prop := fun i r m' => m' = m ∧
    ∃ c, r = ({ ms with msICache := c }, g i) ∧ BFILE.Inv fsxp m { ms with msICache := c }
  apply Txn.wp_post (Q := I (BFILE.file fsxp m inum).data.length)
  · apply wp_forN I
    · rintro i r m' hil ⟨rfl, c, rfl, hinv'⟩
      apply hstep i _ hil hinv'
      exact fun c' hinv'' => ⟨rfl, c', rfl, hinv''⟩
    · omega
    · exact ⟨rfl, ms.msICache, rfl, hinv⟩
  · rintro r m' ⟨rfl, c, rfl, hinv'⟩
    exact hQ c hinv'

theorem items_take_succ (data : List Valu) {i : ℕ} (hil : i < data.length) :
    F.ra.items (data.take (i + 1)) = F.ra.items (data.take i) ++ F.ra.val2block (data.getD i 0) := by
  rw [List.take_succ_eq_append_getElem hil, F.ra.items_append, List.getD_eq_getElem _ _ hil]
  congr 1
  rw [RASig.items, List.flatMap_singleton]

section

variable (hx : fsxp.Ok n) (hinv : BFILE.Inv fsxp m ms) (hi : inum < INODE.ninodes fsxp.inode)

include hx hinv hi

theorem wp_get {Q : BFILE.MemState × F.Item → Mem → Prop}
    (hix : ix < (F.items (BFILE.file fsxp m inum)).length)
    (hQ : ∀ c, BFILE.Inv fsxp m { ms with msICache := c } →
      Q ({ ms with msICache := c }, (F.items (BFILE.file fsxp m inum)).getD ix F.ra.item0) m) :
    Txn.wp n (F.get fsxp.inode inum ix ms) Q m := by
  rw [length_items] at hix
  have hd : ix / F.itemsPerVal < (BFILE.file fsxp m inum).data.length :=
    (Nat.div_lt_iff_lt_mul itemsPerVal_pos).2 hix
  apply wp_bind
  unfold BFILE.readArray
  rw [Nat.zero_add]
  apply BFILE.wp_read hx hinv hi hd
  intro c hinv'
  apply wp_pure
  have e : F.ra.selNVal2block ((BFILE.file fsxp m inum).data.getD (ix / F.itemsPerVal) 0)
      (ix % F.itemsPerVal) = (F.items (BFILE.file fsxp m inum)).getD ix F.ra.item0 := by
    have hmod : ix % F.itemsPerVal < F.ra.itemsPerVal := Nat.mod_lt _ itemsPerVal_pos
    rw [F.ra.selNVal2block_eq _ hmod F.ra.item0, items, getD_items _ hix]
  rw [e]
  exact hQ c hinv'

theorem wp_put {Q : BFILE.MemState → Mem → Prop}
    (hix : ix < (F.items (BFILE.file fsxp m inum)).length)
    (hw : Rec.WellFormed F.itemtype item)
    (hQ : ∀ c m', BFILE.Inv fsxp m' { ms with msICache := c } →
      BFILE.Step fsxp {inum} m ms m' { ms with msICache := c } →
      BFILE.Kept fsxp inum m ms m' { ms with msICache := c } →
      F.items (BFILE.file fsxp m' inum) = (F.items (BFILE.file fsxp m inum)).set ix item →
      (BFILE.file fsxp m' inum).attr = (BFILE.file fsxp m inum).attr →
      Q { ms with msICache := c } m') :
    Txn.wp n (F.put fsxp.inode inum ix item ms) Q m := by
  rw [length_items] at hix
  have hd : ix / F.itemsPerVal < (BFILE.file fsxp m inum).data.length :=
    (Nat.div_lt_iff_lt_mul itemsPerVal_pos).2 hix
  apply wp_bind
  unfold BFILE.readArray
  rw [Nat.zero_add]
  apply BFILE.wp_read hx hinv hi hd
  intro c hinv'
  unfold BFILE.writeArray
  rw [Nat.zero_add]
  apply BFILE.wp_write hx hinv' hi hd
  intro c' m' hinv'' hst hk hfile
  apply hQ c' m' hinv''
  · exact (BFILE.Step.withICache fsxp {inum} m ms c).trans_self hinv hst
  · exact ⟨hk.blocks, hk.nodes, hk.free, hk.msDBlocks⟩
  · rw [items, hfile]
    apply items_set _ hix
    exact F.ra.val2block_updN _ (Nat.mod_lt _ itemsPerVal_pos) hw
  · rw [hfile]

theorem wp_extend {Q : BFILE.MemState × Res Unit → Mem → Prop}
    (hw : Rec.WellFormed F.itemtype item)
    (hQe : ¬ BFILE.CanGrow fsxp m ms inum → ∀ ms' m', BFILE.Inv fsxp m' ms' →
      BFILE.Leaks fsxp m ms m' ms' → Q (ms', .error (BFILE.growErr fsxp m inum)) m')
    (hQ : BFILE.CanGrow fsxp m ms inum → ∀ ms' m', BFILE.Inv fsxp m' ms' →
      BFILE.Step fsxp {inum} m ms m' ms' → ms'.msCache = ms.msCache →
      F.items (BFILE.file fsxp m' inum) =
        F.items (BFILE.file fsxp m inum) ++ F.block0.set 0 item →
      (BFILE.file fsxp m' inum).attr = (BFILE.file fsxp m inum).attr → Q (ms', .ok ()) m') :
    Txn.wp n (F.extend fsxp.inode inum fsxp.blockAlloc item ms) Q m := by
  apply BFILE.wp_grow hx hinv hi
  · exact fun hlack ms' m' hinv' hlk _ => hQe hlack ms' m' hinv' hlk
  intro hgrow ms' m' hinv' hst hmsc _ hfile
  apply hQ hgrow ms' m' hinv' hst hmsc
  · have hblock : F.ra.val2block (F.ra.block2val (F.block0.set 0 item)) = F.block0.set 0 item := by
      apply F.ra.val2block_block2val
      · rw [List.length_set]
        exact F.ra.length_val2block 0
      · intro x hx'
        rcases List.mem_or_eq_of_mem_set hx' with h | rfl
        · exact F.ra.wellFormed_val2block 0 x h
        · exact hw
    rw [items, hfile, F.ra.items_append, items]
    congr 1
    rw [RASig.items, List.flatMap_singleton, hblock]
  · rw [hfile]

theorem wp_readall {Q : BFILE.MemState × List F.Item → Mem → Prop}
    (hQ : ∀ c, BFILE.Inv fsxp m { ms with msICache := c } →
      Q ({ ms with msICache := c }, F.items (BFILE.file fsxp m inum)) m) :
    Txn.wp n (F.readall fsxp.inode inum ms) Q m := by
  apply wp_bind
  apply BFILE.wp_getlen hx hinv hi
  intro c hinv'
  apply wp_readLoop hinv' fun i => F.ra.items ((BFILE.file fsxp m inum).data.take i)
  · intro i ms' hil hinv'' Q' hQ'
    apply wp_bind
    unfold BFILE.readArray
    rw [Nat.zero_add]
    apply BFILE.wp_read hx hinv'' hi hil
    intro c' hinv''
    apply wp_pure
    rw [items_take_succ _ hil] at hQ'
    exact hQ' c' hinv''
  · intro c' hinv''
    rw [List.take_length]
    exact hQ c' hinv''

theorem wp_ifind {Q : BFILE.MemState × Option (ℕ × F.Item) → Mem → Prop}
    (hQ : ∀ c, BFILE.Inv fsxp m { ms with msICache := c } →
      Q ({ ms with msICache := c }, ifindList cond (F.items (BFILE.file fsxp m inum)) 0) m) :
    Txn.wp n (F.ifind fsxp.inode inum cond ms) Q m := by
  apply wp_bind
  apply BFILE.wp_getlen hx hinv hi
  intro c hinv'
  apply wp_readLoop hinv'
    fun i => ifindList cond (F.ra.items ((BFILE.file fsxp m inum).data.take i)) 0
  · intro i ms' hil hinv'' Q' hQ'
    have hnext : ifindList cond (F.ra.items ((BFILE.file fsxp m inum).data.take (i + 1))) 0 =
        (ifindList cond (F.ra.items ((BFILE.file fsxp m inum).data.take i)) 0).or
          (ifindList cond (F.ra.val2block ((BFILE.file fsxp m inum).data.getD i 0))
            (i * F.itemsPerVal)) := by
      rw [items_take_succ _ hil, ifindList_append, F.ra.length_items, List.length_take,
        Nat.min_eq_left hil.le, Nat.zero_add]
      rfl
    cases hf : ifindList cond (F.ra.items ((BFILE.file fsxp m inum).data.take i)) 0 with
    | some r =>
      rw [hf] at hnext
      rw [hnext] at hQ'
      exact wp_pure (hQ' _ hinv'')
    | none =>
      rw [hf] at hnext
      rw [hnext] at hQ'
      dsimp only
      rw [if_neg (by simp)]
      apply wp_bind
      unfold BFILE.readArray
      rw [Nat.zero_add]
      apply BFILE.wp_read hx hinv'' hi hil
      intro c' hinv''
      exact wp_pure (hQ' c' hinv'')
  · intro c' hinv''
    rw [List.take_length]
    exact hQ c' hinv''

end

end FileRASig

end Fscq
