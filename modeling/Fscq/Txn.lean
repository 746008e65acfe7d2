import Fscq.Log

/-!
# Programs inside a transaction

The layers above the log read and write blocks inside a transaction.  Their programs are written
over these two operations, with the memory state of the log left implicit.  A transaction sees one
value for each block of the data section, so that its programs are functions on such memories;
`Txn.wp n p Q m` says that `p` ends with `Q` and that every address it uses is below `n`, and no
write goes to address zero.  `Txn.compile` puts the memory state of the log back in, and
`Txn.wp_compile` shows that the compiled program does what the program does.
-/

namespace Fscq

open CrashProg

/-- What a transaction sees of the disk. -/
abbrev Mem := ℕ → Valu

inductive TxnOp : Type → Type 1
  | read (a : ℕ) : TxnOp Valu
  | write (a : ℕ) (v : Valu) : TxnOp Unit

abbrev TxnProg := CrashProg.Prog TxnOp

namespace Txn

variable {α β : Type}

/-! ### The operations -/

def read (a : ℕ) : TxnProg Valu := .op (.read a)

def write (a : ℕ) (v : Valu) : TxnProg Unit := .op (.write a v)

def readArray (a i : ℕ) : TxnProg Valu := read (a + i)

def writeArray (a i : ℕ) (v : Valu) : TxnProg Unit := write (a + i) v

/-- Fold over `nr` blocks starting at `a`. -/
def readRange (a nr : ℕ) (vfold : α → Valu → α) (v₀ : α) : TxnProg α :=
  forN (fun i pf => do
    let v ← readArray a i
    pure (vfold pf v)) 0 nr v₀

def writeRange (a : ℕ) (l : List Valu) : TxnProg Unit :=
  forN (fun i _ => writeArray a i (l.getD i 0)) 0 l.length ()

/-! ### The meaning of a program -/

def apply : ∀ {α : Type}, TxnOp α → Mem → α × Mem
  | _, .read a, m => (m a, m)
  | _, .write a v, m => ((), Function.update m a v)

/-- Run a program on what the transaction sees. -/
def run (p : TxnProg α) (m : Mem) : α × Mem := CrashProg.run apply p m

/-- The addresses that a program writes, in order. -/
def writes : ∀ {α : Type}, TxnProg α → Mem → List ℕ
  | _, .ret _, _ => []
  | _, .op (.read _), _ => []
  | _, .op (.write a _), _ => [a]
  | _, .bind p k, m => writes p m ++ writes (k (run p m).1) (run p m).2

/-- An operation fails outside of the data section, and a write at address zero. -/
def sem (n : ℕ) : Sem Mem TxnOp where
  step m o m' v := apply o m = (v, m')
  fail _ o := match o with
    | .read a => n ≤ a
    | .write a _ => a = 0 ∨ n ≤ a
  crash _ := False

/-- The program ends with `Q`, and all its addresses are below `n`. -/
abbrev wp (n : ℕ) (p : TxnProg α) (Q : α → Mem → Prop) (m : Mem) : Prop :=
  CrashProg.wp (sem n) p Q (fun _ => False) m

variable {n a i nr : ℕ} {v : Valu} {m : Mem}

theorem wp_run {p : TxnProg α} {Q : α → Mem → Prop} (h : wp n p Q m) :
    Q (run p m).1 (run p m).2 :=
  CrashProg.wp_run (f := apply) (fun _ _ => rfl) h

theorem wp_run_eq {p : TxnProg α} {Q : α → Mem → Prop} (h : wp n p Q m) :
    wp n p (fun v m' => run p m = (v, m') ∧ Q v m') m := by
  intro out e
  cases out with
  | failed => exact h _ e
  | crashed m' => exact h _ e
  | finished m' v => exact ⟨run_eq_of_exec (f := apply) (fun _ _ _ _ => id) e, h _ e⟩

/-- The writes of a program go to the data section and not to block zero. -/
theorem writes_of_wp {p : TxnProg α} {Q : α → Mem → Prop} (h : wp n p Q m) :
    ∀ a ∈ writes p m, a ≠ 0 ∧ a < n := by
  induction p generalizing m with
  | ret v => exact fun a ha => absurd ha List.not_mem_nil
  | op o =>
    cases o with
    | read b => exact fun a ha => absurd ha List.not_mem_nil
    | write b v =>
      have hf : ¬ (b = 0 ∨ n ≤ b) := fun hf => h _ (.fail hf)
      intro a ha
      obtain rfl := List.mem_singleton.1 ha
      omega
  | bind p k ihp ihk =>
    have hp := wp_of_bind h
    intro a ha
    rcases List.mem_append.1 ha with ha | ha
    · exact ihp hp a ha
    · have hk := wp_run hp
      exact ihk _ hk a ha

theorem wp_post {p : TxnProg α} {Q Q' : α → Mem → Prop} (h : wp n p Q m)
    (hQ : ∀ v m', Q v m' → Q' v m') : wp n p Q' m := wp_mono h hQ fun _ => id

theorem wp_read {Q : Valu → Mem → Prop} (ha : a < n) (hQ : Q (m a) m) : wp n (read a) Q m := by
  apply wp_op
  · exact Nat.not_le.2 ha
  · exact False.elim
  · rintro m' v h
    obtain ⟨rfl, rfl⟩ := Prod.mk.inj h
    exact hQ

theorem wp_write {Q : Unit → Mem → Prop} (h0 : a ≠ 0) (ha : a < n)
    (hQ : Q () (Function.update m a v)) : wp n (write a v) Q m := by
  apply wp_op
  · rintro (h | h)
    · exact h0 h
    · exact Nat.not_le.2 ha h
  · exact False.elim
  · rintro m' v h
    obtain ⟨rfl, rfl⟩ := Prod.mk.inj h
    exact hQ

theorem wp_readArray {Q : Valu → Mem → Prop} (ha : a + i < n) (hQ : Q (m (a + i)) m) :
    wp n (readArray a i) Q m := wp_read ha hQ

theorem wp_writeArray {Q : Unit → Mem → Prop} (h0 : a + i ≠ 0) (ha : a + i < n)
    (hQ : Q () (Function.update m (a + i) v)) : wp n (writeArray a i v) Q m := wp_write h0 ha hQ

/-- The blocks of a range. -/
def blocks (m : Mem) (a nr : ℕ) : List Valu := (List.range nr).map fun i => m (a + i)

theorem blocks_succ (m : Mem) (a nr : ℕ) : blocks m a (nr + 1) = blocks m a nr ++ [m (a + nr)] := by
  simp [blocks, List.range_succ]

@[simp] theorem length_blocks (m : Mem) (a nr : ℕ) : (blocks m a nr).length = nr := by simp [blocks]

theorem wp_readRange {vfold : α → Valu → α} {v₀ : α} {Q : α → Mem → Prop} (ha : a + nr ≤ n)
    (hQ : Q ((blocks m a nr).foldl vfold v₀) m) : wp n (readRange a nr vfold v₀) Q m := by
  apply wp_post (Q := fun pf m' => m' = m ∧ pf = (blocks m a nr).foldl vfold v₀)
  · apply wp_forN (fun i pf m' => m' = m ∧ pf = (blocks m a i).foldl vfold v₀) (N := nr)
    · rintro i pf m' hi ⟨rfl, rfl⟩
      apply wp_bind
      apply wp_readArray (by omega)
      apply wp_pure
      exact ⟨rfl, by rw [blocks_succ, List.foldl_append]; rfl⟩
    · omega
    · exact ⟨rfl, rfl⟩
  · rintro _ _ ⟨rfl, rfl⟩
    exact hQ

/-- A list of blocks written over a range. -/
def writeBlocks (m : Mem) (a : ℕ) (l : List Valu) : Mem :=
  fun b => if a ≤ b ∧ b < a + l.length then l.getD (b - a) 0 else m b

theorem wp_writeRange {l : List Valu} {Q : Unit → Mem → Prop} (h0 : a ≠ 0) (ha : a + l.length ≤ n)
    (hQ : Q () (writeBlocks m a l)) : wp n (writeRange a l) Q m := by
  have hstep : ∀ i < l.length, Function.update (fun b => if a ≤ b ∧ b < a + i
      then l.getD (b - a) 0 else m b) (a + i) (l.getD i 0) =
      fun b => if a ≤ b ∧ b < a + (i + 1) then l.getD (b - a) 0 else m b := by
    intro i hi
    funext b
    rcases eq_or_ne b (a + i) with rfl | hb
    · simp
    · rw [Function.update_of_ne hb]
      simp only [show (b < a + (i + 1)) ↔ b < a + i by omega]
  apply wp_post (Q := fun _ m' => m' = writeBlocks m a l)
  · apply wp_forN (fun i _ m' => m' = fun b => if a ≤ b ∧ b < a + i then l.getD (b - a) 0 else m b)
      (N := l.length)
    · rintro i _ m' hi rfl
      apply wp_writeArray (by omega) (by omega)
      exact hstep i hi
    · omega
    · funext b
      rw [if_neg (by omega)]
  · rintro _ _ rfl
    exact hQ

/-! ### How much a program writes -/

theorem mem_writes_bind {p : TxnProg β} {q : β → TxnProg α} {b : ℕ} :
    b ∈ writes (p >>= q) m ↔ b ∈ writes p m ∨ b ∈ writes (q (run p m).1) (run p m).2 :=
  List.mem_append

theorem writes_writeRange (a : ℕ) (l : List Valu) (m : Mem) :
    writes (writeRange a l) m = List.range' a l.length := by
  have h : ∀ (n i : ℕ) (m : Mem),
      writes (forN (fun i _ => writeArray a i (l.getD i 0)) i n ()) m = List.range' (a + i) n := by
    intro n
    induction n with
    | zero => exact fun _ _ => rfl
    | succ n ih =>
      intro i m
      rw [List.range'_succ, Nat.add_assoc, ← ih (i + 1)]
      rfl
  exact h l.length 0 m

/-- The program makes at most `k` writes. -/
def AtMost (k : ℕ) (p : TxnProg α) : Prop := ∀ m, (writes p m).length ≤ k

theorem atMost_pure (k : ℕ) (v : α) : AtMost k (pure v) := fun _ => Nat.zero_le k

theorem atMost_read (a : ℕ) : AtMost 0 (read a) := fun _ => le_rfl

theorem atMost_write (a : ℕ) (v : Valu) : AtMost 1 (write a v) := fun _ => le_rfl

theorem AtMost.bind {j k : ℕ} {p : TxnProg β} {q : β → TxnProg α} (hp : AtMost j p)
    (hq : ∀ v, AtMost k (q v)) : AtMost (j + k) (p >>= q) := by
  intro m
  have h : writes (p >>= q) m = writes p m ++ writes (q (run p m).1) (run p m).2 := rfl
  rw [h, List.length_append]
  exact Nat.add_le_add (hp m) (hq _ _)

/-- A read before a program. -/
theorem AtMost.after {k : ℕ} {p : TxnProg β} {q : β → TxnProg α} (hp : AtMost 0 p)
    (hq : ∀ v, AtMost k (q v)) : AtMost k (p >>= q) := by
  have := hp.bind hq
  rwa [Nat.zero_add] at this

theorem AtMost.mono {j k : ℕ} {p : TxnProg α} (hp : AtMost j p) (h : j ≤ k) : AtMost k p :=
  fun m => (hp m).trans h

/-- A program that follows another one, for the answers that this one can give. -/
theorem AtMost.bind_run {j k : ℕ} {p : TxnProg β} {q : β → TxnProg α} (hp : AtMost j p)
    (hq : ∀ m, AtMost k (q (run p m).1)) : AtMost (j + k) (p >>= q) := by
  intro m
  have h : writes (p >>= q) m = writes p m ++ writes (q (run p m).1) (run p m).2 := rfl
  rw [h, List.length_append]
  exact Nat.add_le_add (hp m) (hq m _)

theorem atMost_forN_mul {c : ℕ} {f : ℕ → α → TxnProg α} (hf : ∀ i x, AtMost c (f i x)) :
    ∀ (k i : ℕ) (x : α), AtMost (k * c) (forN f i k x)
  | 0, _, x => atMost_pure _ x
  | k + 1, i, x =>
    ((hf i x).bind fun x' => atMost_forN_mul hf k (i + 1) x').mono (by rw [Nat.succ_mul]; omega)

theorem atMost_forN {f : ℕ → α → TxnProg α} (hf : ∀ i x, AtMost 0 (f i x)) (k i : ℕ) (x : α) :
    AtMost 0 (forN f i k x) := atMost_forN_mul hf k i x

/-- The program writes at or above the address `lo` only. -/
def Above (lo : ℕ) (p : TxnProg α) : Prop := ∀ m, ∀ a ∈ writes p m, lo ≤ a

theorem above_pure (lo : ℕ) (v : α) : Above lo (pure v) := fun _ _ h => absurd h List.not_mem_nil

theorem above_write {lo : ℕ} (h : lo ≤ a) (v : Valu) : Above lo (write a v) := by
  intro m b hb
  obtain rfl := List.mem_singleton.1 hb
  exact h

theorem AtMost.above {p : TxnProg α} (h : AtMost 0 p) (lo : ℕ) : Above lo p := by
  intro m b hb
  rw [List.eq_nil_of_length_eq_zero (Nat.le_zero.1 (h m))] at hb
  exact absurd hb List.not_mem_nil

theorem Above.bind {lo : ℕ} {p : TxnProg β} {q : β → TxnProg α} (hp : Above lo p)
    (hq : ∀ v, Above lo (q v)) : Above lo (p >>= q) := by
  intro m b hb
  rcases mem_writes_bind.1 hb with hb | hb
  · exact hp m b hb
  · exact hq _ _ b hb

theorem Above.mono {lo lo' : ℕ} {p : TxnProg α} (hp : Above lo p) (h : lo' ≤ lo) : Above lo' p :=
  fun m b hb => h.trans (hp m b hb)

theorem above_forN {lo : ℕ} {f : ℕ → α → TxnProg α} (hf : ∀ i x, Above lo (f i x)) :
    ∀ (k i : ℕ) (x : α), Above lo (forN f i k x)
  | 0, _, x => above_pure lo x
  | k + 1, i, x => (hf i x).bind fun x' => above_forN hf k (i + 1) x'

theorem above_writeRange (a : ℕ) (l : List Valu) : Above a (writeRange a l) := by
  intro m b hb
  rw [writes_writeRange, List.mem_range'_1] at hb
  exact hb.1

theorem atMost_readRange (a nr : ℕ) (vfold : α → Valu → α) (v₀ : α) :
    AtMost 0 (readRange a nr vfold v₀) :=
  atMost_forN (fun i _ => (atMost_read (a + i)).after fun _ => atMost_pure 0 _) nr 0 v₀

theorem above_forEach {ι : Type} {lo : ℕ} {f : ι → α → TxnProg α} (hf : ∀ i x, Above lo (f i x)) :
    ∀ (l : List ι) (x : α), Above lo (forEach f l x)
  | [], x => above_pure lo x
  | i :: l, x => (hf i x).bind fun x' => above_forEach hf l x'

theorem atMost_forEach {ι : Type} {f : ι → α → TxnProg α} (hf : ∀ i x, AtMost 0 (f i x)) :
    ∀ (l : List ι) (x : α), AtMost 0 (forEach f l x)
  | [], x => atMost_pure 0 x
  | i :: l, x => (hf i x).bind fun x' => atMost_forEach hf l x'

/-- A block that a program does not write. -/
theorem run_of_not_mem_writes {p : TxnProg α} {b : ℕ} (h : b ∉ writes p m) :
    (run p m).2 b = m b := by
  induction p generalizing m with
  | ret v => rfl
  | op o =>
    cases o with
    | read c => rfl
    | write c v => exact Function.update_of_ne (fun e => h (List.mem_singleton.2 e)) _ _
  | bind p k ihp ihk =>
    have h' : b ∉ writes p m ∧ b ∉ writes (k (run p m).1) (run p m).2 :=
      not_or.1 fun hb => h (List.mem_append.2 hb)
    exact (ihk _ h'.2).trans (ihp h'.1)

theorem Above.run_eq {lo b : ℕ} {p : TxnProg α} (h : Above lo p) (hb : b < lo) (m : Mem) :
    (run p m).2 b = m b := run_of_not_mem_writes fun hm => absurd (h m b hm) (Nat.not_le.2 hb)

/-! ### What a program leaves -/

/-- The program ends with `Q`, whether or not its addresses are good. -/
def Does (p : TxnProg α) (Q : α → Mem → Prop) (m : Mem) : Prop := Q (run p m).1 (run p m).2

theorem does_pure {x : α} {Q : α → Mem → Prop} (h : Q x m) : Does (pure x) Q m := h

theorem does_bind {p : TxnProg β} {k : β → TxnProg α} {Q : α → Mem → Prop}
    (h : Does p (fun x m' => Does (k x) Q m') m) : Does (p >>= k) Q m := h

theorem Does.post {p : TxnProg α} {Q Q' : α → Mem → Prop} (h : Does p Q m)
    (hQ : ∀ x m', Q x m' → Q' x m') : Does p Q' m := hQ _ _ h

theorem Above.does {lo : ℕ} {p : TxnProg α} (h : Above lo p) (m : Mem) :
    Does p (fun _ m' => ∀ b < lo, m' b = m b) m := fun _ hb => h.run_eq hb m

/-- From this memory the program writes at or above the address `lo` only. -/
def AboveAt (lo : ℕ) (p : TxnProg α) (m : Mem) : Prop := ∀ a ∈ writes p m, lo ≤ a

theorem aboveAt_pure (lo : ℕ) (v : α) : AboveAt lo (pure v) m := above_pure lo v m

theorem AboveAt.bind {lo : ℕ} {p : TxnProg β} {q : β → TxnProg α} {R : β → Mem → Prop}
    (hp : AboveAt lo p m) (hR : Does p R m) (hq : ∀ x m', R x m' → AboveAt lo (q x) m') :
    AboveAt lo (p >>= q) m := by
  intro b hb
  rcases mem_writes_bind.1 hb with hb | hb
  · exact hp b hb
  · exact hq _ _ hR b hb

/-- What a program does besides, where its addresses are good. -/
theorem wp_does {p : TxnProg α} {Q R : α → Mem → Prop} (h : wp n p Q m) (hR : Does p R m) :
    wp n p (fun x m' => Q x m' ∧ R x m') m := by
  apply wp_post (wp_run_eq h)
  rintro x m' ⟨e, hQ⟩
  rw [Does, e] at hR
  exact ⟨hQ, hR⟩

/-! ## Transactions in the log -/

/-- An operation on the abstract state of the log. -/
def applyLog : ∀ {α : Type}, TxnOp α → LogSt → α × LogSt
  | _, .read a, A => (A.read a, A)
  | _, .write a v, A => ((), A.write a v)

/-- What a program leaves in the active transaction: the transaction sees the memory `m`, and holds
the blocks that the program has written. -/
structure Logs (p : TxnProg α) (A : LogSt) (t : Valumap) (m : Mem) : Prop where
  read : { A with txn := t }.read = m
  dom : ∀ a, a ∈ t ↔ a ∈ A.txn ∨ a ∈ writes p A.read

/-- All addresses of the transaction are below `n`, and none is zero. -/
def InRange (n : ℕ) (t : Valumap) : Prop := ∀ e ∈ t.toList, e.1 ≠ 0 ∧ e.1 < n

theorem mem_of_mem_toList {t : Valumap} {e : ℕ × Valu} (he : e ∈ t.toList) : e.1 ∈ t := by
  rw [Std.ExtTreeMap.mem_iff_isSome_getElem?,
    Std.ExtTreeMap.mem_toList_iff_getElem?_eq_some.1 he]
  rfl

theorem length_pos_of_mem {t : Valumap} (h : a ∈ t) : 0 < t.toList.length := by
  obtain ⟨v, hv⟩ := Option.isSome_iff_exists.1 (Std.ExtTreeMap.mem_iff_isSome_getElem?.1 h)
  exact List.length_pos_of_mem (Std.ExtTreeMap.mem_toList_iff_getElem?_eq_some.2 hv)

theorem Logs.mem_writes {p : TxnProg α} {A : LogSt} {t : Valumap} {m : Mem} (h : Logs p A t m)
    (hA : A.txn = ∅) {a : ℕ} : a ∈ t ↔ a ∈ writes p A.read := by
  rw [h.dom, hA]
  constructor
  · exact fun h => h.resolve_left Std.ExtTreeMap.not_mem_empty
  · exact .inr

theorem Logs.inRange {p : TxnProg α} {A : LogSt} {t : Valumap} {m : Mem} (h : Logs p A t m)
    (hA : A.txn = ∅) (hp : ∀ a ∈ writes p A.read, a ≠ 0 ∧ a < n) : InRange n t :=
  fun e he => hp e.1 ((h.mem_writes hA).1 (mem_of_mem_toList he))

/-- A transaction holds no more blocks than have been written. -/
theorem Logs.length_le_writes {p : TxnProg α} {A : LogSt} {t : Valumap} {m : Mem}
    (h : Logs p A t m) (hA : A.txn = ∅) : t.toList.length ≤ (writes p A.read).length := by
  have hsub : t.toList.map Prod.fst ⊆ writes p A.read := by
    intro a ha
    obtain ⟨e, he, rfl⟩ := List.mem_map.1 ha
    exact (h.mem_writes hA).1 (mem_of_mem_toList he)
  calc t.toList.length = (t.toList.map Prod.fst).length := by rw [List.length_map]
    _ ≤ (writes p A.read).length := ((nodup_toList_keys t).subperm hsub).length_le

/-- The number of blocks that a program writes. -/
def size (p : TxnProg α) (m : Mem) : ℕ := (writes p m).toFinset.card

theorem length_eq_card {t : Valumap} {l : List ℕ} (h : ∀ a, a ∈ t ↔ a ∈ l) :
    t.toList.length = l.toFinset.card := by
  have heq : (t.toList.map Prod.fst).toFinset = l.toFinset := by
    ext a
    rw [List.mem_toFinset, List.mem_toFinset, ← h, Std.ExtTreeMap.mem_iff_isSome_getElem?,
      Option.isSome_iff_exists, List.mem_map]
    constructor
    · rintro ⟨e, he, rfl⟩
      exact ⟨e.2, Std.ExtTreeMap.mem_toList_iff_getElem?_eq_some.1 he⟩
    · rintro ⟨v, hv⟩
      exact ⟨(a, v), Std.ExtTreeMap.mem_toList_iff_getElem?_eq_some.2 hv, rfl⟩
  rw [← heq, List.toFinset_card_of_nodup (nodup_toList_keys t), List.length_map]

theorem Logs.length_eq {p : TxnProg α} {A : LogSt} {t : Valumap} {m : Mem} (h : Logs p A t m)
    (hA : A.txn = ∅) : t.toList.length = size p A.read :=
  length_eq_card fun _ => h.mem_writes hA

theorem Logs.length_le {k : ℕ} {p : TxnProg α} {A : LogSt} {t : Valumap} {m : Mem}
    (h : Logs p A t m) (hA : A.txn = ∅) (hp : AtMost k p) : t.toList.length ≤ k :=
  (h.length_le_writes hA).trans (hp A.read)

theorem Logs.eq_empty {p : TxnProg α} {A : LogSt} {t : Valumap} {m : Mem} (h : Logs p A t m)
    (hA : A.txn = ∅) (hp : AtMost 0 p) : t = ∅ := by
  have hlen := h.length_le hA hp
  rw [Std.ExtTreeMap.length_toList, Nat.le_zero] at hlen
  exact Std.ExtTreeMap.eq_empty_iff_size_eq_zero.2 hlen

/-- A transaction whose addresses are between two bounds. -/
theorem length_le_of_bounds {t : Valumap} {lo : ℕ} (h : ∀ e ∈ t.toList, lo ≤ e.1 ∧ e.1 < n) :
    t.toList.length ≤ n - lo := by
  have hsub : t.toList.map Prod.fst ⊆ List.range' lo (n - lo) := by
    intro b hb
    obtain ⟨e, he, rfl⟩ := List.mem_map.1 hb
    have := h e he
    rw [List.mem_range'_1]
    omega
  calc t.toList.length = (t.toList.map Prod.fst).length := by rw [List.length_map]
    _ ≤ (List.range' lo (n - lo)).length := ((nodup_toList_keys t).subperm hsub).length_le
    _ = n - lo := List.length_range'

/-- Run a program in the active transaction. -/
def exec (p : TxnProg α) (A : LogSt) : α × LogSt := CrashProg.run applyLog p A

end Txn

namespace LogSt

theorem read_write (A : LogSt) (a : ℕ) (v : Valu) :
    (A.write a v).read = Function.update A.read a v := by
  funext b
  rcases eq_or_ne a b with rfl | h
  · simp [LogSt.read, LogSt.write, LogSt.disk]
  · simp [LogSt.read, LogSt.write, LogSt.disk, Std.ExtTreeMap.getElem?_insert, h,
      Function.update_of_ne h.symm]

end LogSt

namespace Txn

variable {α β : Type}

/-- A program in the active transaction changes what the transaction sees, and nothing else. -/
theorem exec_eq (p : TxnProg α) (A : LogSt) :
    (exec p A).1 = (run p A.read).1 ∧ (exec p A).2.read = (run p A.read).2 ∧
      (exec p A).2.base = A.base ∧ (exec p A).2.pend = A.pend := by
  induction p generalizing A with
  | ret v => exact ⟨rfl, rfl, rfl, rfl⟩
  | op o =>
    cases o with
    | read a => exact ⟨rfl, rfl, rfl, rfl⟩
    | write a v => exact ⟨rfl, A.read_write a v, rfl, rfl⟩
  | bind p k ihp ihk =>
    obtain ⟨h₁, h₂, h₃, h₄⟩ := ihp A
    have hrun : run (.bind p k) A.read = run (k (exec p A).1) (exec p A).2.read := by
      rw [h₁, h₂]
      rfl
    have hexec : exec (.bind p k) A = exec (k (exec p A).1) (exec p A).2 := rfl
    obtain ⟨h₁', h₂', h₃', h₄'⟩ := ihk (exec p A).1 (exec p A).2
    rw [hrun, hexec]
    exact ⟨h₁', h₂', h₃'.trans h₃, h₄'.trans h₄⟩

/-- What it leaves in the transaction. -/
theorem logs_exec (p : TxnProg α) (A : LogSt) : Logs p A (exec p A).2.txn (run p A.read).2 := by
  constructor
  case read =>
    obtain ⟨-, hr, hb, hp⟩ := exec_eq p A
    rw [← hr, ← hb, ← hp]
  case dom =>
    induction p generalizing A with
    | ret v => exact fun a => by simp [writes, exec, CrashProg.run]
    | op o =>
      cases o with
      | read b => exact fun a => by simp [writes, exec, CrashProg.run, applyLog]
      | write b v =>
        intro a
        change a ∈ A.txn.insert b v ↔ a ∈ A.txn ∨ a ∈ [b]
        rw [Std.ExtTreeMap.mem_insert, compare_eq_iff_eq, List.mem_singleton, or_comm, eq_comm]
    | bind p k ihp ihk =>
      intro a
      obtain ⟨h₁, h₂, -, -⟩ := exec_eq p A
      have hexec : exec (.bind p k) A = exec (k (exec p A).1) (exec p A).2 := rfl
      rw [hexec, ihk, ihp, writes, List.mem_append, or_assoc, h₁, h₂]

section

variable [Platform]

/-- The program over the log, with the memory state of the log explicit. -/
def compile (xp : LogXparams) : ∀ {α : Type}, TxnProg α → LOG.MemState → Prog (LOG.MemState × α)
  | _, .ret v, ms => pure (ms, v)
  | _, .op (.read a), ms => LOG.read xp a ms
  | _, .op (.write a v), ms => do
    let ms ← LOG.write xp a v ms
    pure (ms, ())
  | _, .bind p k, ms => do
    let r ← compile xp p ms
    compile xp (k r.2) r.1

/-- The compiled program does to the log what the program does to its transaction. -/
theorem wp_compile {N : ℕ} {xp : LogXparams} {D : Set Mem} (hl : PaddedLog.Layout N xp)
    {p : TxnProg α} {Q : α → Mem → Prop} {A : LogSt} {ms : LOG.MemState} {s : St}
    (h : LOG.LState N xp A ms s) (hD : A.crashes xp ⊆ D)
    (hp : wp (MLog.dataSize xp) p Q A.read) :
    CrashProg.wp diskSem (compile xp p ms)
      (fun r s' => r.2 = (exec p A).1 ∧ LOG.LState N xp (exec p A).2 r.1 s' ∧
        Q r.2 (exec p A).2.read) (LOG.LCrash N xp D) s := by
  induction p generalizing A ms s with
  | ret v => exact wp_pure ⟨rfl, h, CrashProg.wp_run (f := apply) (fun _ _ => rfl) hp⟩
  | op o =>
    have hQ := wp_run hp
    cases o with
    | read a =>
      have ha : a < MLog.dataSize xp := Nat.not_le.1 fun hf => hp _ (.fail hf)
      apply LOG.wp_read hl h ha hD
      intro ms' s' h'
      exact ⟨rfl, h', hQ⟩
    | write a v =>
      have ha : ¬ (a = 0 ∨ MLog.dataSize xp ≤ a) := fun hf => hp _ (.fail hf)
      apply wp_bind
      apply LOG.wp_write h (by omega) (by omega)
      intro ms' h'
      refine wp_pure ⟨rfl, h', ?_⟩
      rw [show (exec (.op (.write a v)) A).2 = A.write a v from rfl, A.read_write]
      exact hQ
  | bind p k ihp ihk =>
    apply wp_seq
    · exact ihp h hD (wp_of_bind hp)
    · rintro ⟨ms', v⟩ s' ⟨rfl, h', hQ⟩
      apply ihk _ h' _ hQ
      have hexec := exec_eq p A
      rw [LogSt.crashes, hexec.2.2.1, hexec.2.2.2]
      exact hD

end

end Txn

end Fscq
