import Mathlib.Tactic

/-!
# The operation queue

`opqueue.c` hands operations from the FUSE threads to the thread that runs the file system, through
a ring of 256 slots.  `execute` and `getOp` are the sections under the spinlock, which run alone; the
tests that the threads make before they take the lock read the same two counters and change nothing.
The counters are 32-bit signed integers that are never reset.

A queue with its history is good if it behaves as a first-in first-out queue.  It is good in every
state reached exactly as long as fewer than `2 ^ 31` operations were enqueued.
-/

namespace Fscq.Hslib

/-- The ring; `QUEUE_MAX_SIZE` is 256. -/
structure OpQueue (α : Type) where
  ops : Fin 256 → Option α
  puts : BitVec 32
  gets : BitVec 32

namespace OpQueue

variable {α : Type}

def initial : OpQueue α := ⟨fun _ => none, 0, 0⟩

/-- The slot of a counter, its signed remainder; there is none if that is negative. -/
def slot (n : BitVec 32) : Option (Fin 256) :=
  let i := (n.srem 256#32).toInt
  if h : 0 ≤ i ∧ i < 256 then some ⟨i.toNat, by omega⟩ else none

/-- The test `q.puts <= q.gets`. -/
def isEmpty (q : OpQueue α) : Bool := q.puts.sle q.gets

/-- The test `q.puts - q.gets >= QUEUE_MAX_SIZE`. -/
def isFull (q : OpQueue α) : Bool := (256#32).sle (q.puts - q.gets)

/-- The locked section of `execute`: the new queue and whether the operation was put into it.
`none` is an access outside the array. -/
def execute (q : OpQueue α) (op : α) : Option (OpQueue α × Bool) :=
  if q.isFull then some (q, false)
  else (slot q.puts).map fun i =>
    (⟨Function.update q.ops i (some op), q.puts + 1, q.gets⟩, true)

/-- The locked section of `get_op`: the new queue and what the slot held, unless the queue is seen as
empty. -/
def getOp (q : OpQueue α) : Option (OpQueue α × Option (Option α)) :=
  if q.isEmpty then some (q, none)
  else (slot q.gets).map fun i => (⟨q.ops, q.puts, q.gets + 1⟩, some (q.ops i))

end OpQueue

/-! ## Runs -/

/-- What a thread does next. -/
inductive QueueEvent (α : Type) where
  | execute (op : α)
  | getOp

/-- The queue, the operations put into it and those that were returned. -/
structure QueueRun (α : Type) where
  queue : OpQueue α
  enqueued : List α
  returned : List (Option α)

namespace QueueRun

variable {α : Type}

def initial : QueueRun α := ⟨.initial, [], []⟩

def step (s : QueueRun α) : QueueEvent α → Option (QueueRun α)
  | .execute op => (s.queue.execute op).map fun
    | (q, true) => ⟨q, s.enqueued ++ [op], s.returned⟩
    | (q, false) => ⟨q, s.enqueued, s.returned⟩
  | .getOp => s.queue.getOp.map fun
    | (q, some r) => ⟨q, s.enqueued, s.returned ++ [r]⟩
    | (q, none) => ⟨q, s.enqueued, s.returned⟩

/-- A run of the threads, in the order in which they get the lock. -/
def run (s : QueueRun α) : List (QueueEvent α) → Option (QueueRun α)
  | [] => some s
  | e :: es => (s.step e).bind fun s => s.run es

/-- The queue as its users see it. -/
structure Good (s : QueueRun α) : Prop where
  /-- What was returned are the operations enqueued first, each once and in order. -/
  fifo : s.returned = (s.enqueued.take s.returned.length).map some
  /-- No operation that is not returned yet was overwritten. -/
  kept : ∀ k op, s.returned.length ≤ k → s.enqueued[k]? = some op →
    s.queue.ops ⟨k % 256, Nat.mod_lt _ (by decide)⟩ = some op
  /-- They are in different slots. -/
  room : s.enqueued.length ≤ s.returned.length + 256
  /-- The next accesses stay within the array. -/
  index : (OpQueue.slot s.queue.puts).isSome ∧ (OpQueue.slot s.queue.gets).isSome
  /-- A queue that holds an operation is not seen as empty. -/
  nonempty : s.returned.length < s.enqueued.length → s.queue.isEmpty = false

end QueueRun

/-! ## Counters -/

namespace OpQueue

theorem toInt_counter {n : ℕ} (h : n < 2 ^ 32) :
    (BitVec.ofNat 32 n).toInt = if n < 2 ^ 31 then (n : ℤ) else n - 2 ^ 32 := by
  rw [BitVec.toInt_eq_toNat_bmod, BitVec.toNat_ofNat, Nat.mod_eq_of_lt h, Int.bmod_def]
  omega

theorem toInt_srem_counter (n : ℕ) :
    ((BitVec.ofNat 32 n).srem 256#32).toInt =
      (BitVec.ofNat 32 n).toInt.tmod 256 := by
  rw [BitVec.toInt_srem]
  rfl

theorem slot_counter {n : ℕ} (h : n < 2 ^ 31) :
    slot (BitVec.ofNat 32 n) = some ⟨n % 256, Nat.mod_lt _ (by decide)⟩ := by
  have hi : ((BitVec.ofNat 32 n).srem 256#32).toInt =
      (n % 256 : ℕ) := by
    rw [toInt_srem_counter, toInt_counter (by omega), if_pos h]
    exact (Int.ofNat_tmod n 256).symm
  have hlt := Nat.mod_lt n (show 0 < 256 by decide)
  simp only [slot, hi]
  rw [dif_pos (by omega)]
  rfl

/-- A wrapped counter has a slot only at a multiple of 256, where it is the right one. -/
theorem slot_counter_val {n : ℕ} (h : n < 2 ^ 32) {i : Fin 256}
    (hi : slot (BitVec.ofNat 32 n) = some i) : i = ⟨n % 256, Nat.mod_lt _ (by decide)⟩ := by
  by_cases hlt : n < 2 ^ 31
  · exact Option.some.inj (hi.symm.trans (slot_counter hlt))
  simp only [slot, toInt_srem_counter, toInt_counter h, if_neg hlt] at hi
  split_ifs at hi with hrange
  obtain rfl := Option.some.inj hi
  refine Fin.ext ?_
  have hneg : ((n : ℤ) - 2 ^ 32).tmod 256 = -(((2 ^ 32 - n) % 256 : ℕ) : ℤ) := by
    rw [show (n : ℤ) - 2 ^ 32 = -((2 ^ 32 - n : ℕ) : ℤ) by omega, Int.neg_tmod]
    exact congrArg Neg.neg (Int.ofNat_tmod _ 256).symm
  rw [hneg] at hrange
  simp only [hneg]
  omega

end OpQueue

/-! ## The invariant of a run -/

namespace QueueRun

variable {α : Type} {s s' : QueueRun α}

/-- What holds in every state reached, also after a counter has wrapped. -/
structure Inv (s : QueueRun α) : Prop where
  puts : s.queue.puts = BitVec.ofNat 32 s.enqueued.length
  gets : s.queue.gets = BitVec.ofNat 32 s.returned.length
  le : s.returned.length ≤ s.enqueued.length
  room : s.enqueued.length ≤ s.returned.length + 256
  small : s.returned.length < 2 ^ 31
  fifo : s.returned = (s.enqueued.take s.returned.length).map some
  kept : ∀ k op, s.returned.length ≤ k → s.enqueued[k]? = some op →
    s.queue.ops ⟨k % 256, Nat.mod_lt _ (by decide)⟩ = some op

theorem inv_initial : Inv (initial : QueueRun α) where
  puts := rfl
  gets := rfl
  le := le_rfl
  room := Nat.zero_le _
  small := Nat.two_pow_pos 31
  fifo := rfl
  kept _ _ _ h := nomatch h

theorem Inv.enqueued_lt (h : Inv s) : s.enqueued.length < 2 ^ 32 := by
  have h1 := h.room
  have h2 := h.small
  omega

/-- Until the counter wraps the queue is seen as empty exactly if it is; afterwards always. -/
theorem Inv.isEmpty_eq (h : Inv s) : s.queue.isEmpty = false ↔
    s.enqueued.length < 2 ^ 31 ∧ s.returned.length < s.enqueued.length := by
  have h1 := h.enqueued_lt
  have h2 := h.small
  rw [OpQueue.isEmpty, h.puts, h.gets, BitVec.sle_eq_decide, OpQueue.toInt_counter h1,
    OpQueue.toInt_counter (by omega), if_pos h2, decide_eq_false_iff_not]
  split_ifs <;> omega

theorem Inv.isFull_eq (h : Inv s) : s.queue.isFull = false ↔
    s.enqueued.length < s.returned.length + 256 := by
  have h1 := h.room
  have h2 := h.le
  have hsub : s.queue.puts - s.queue.gets =
      BitVec.ofNat 32 (s.enqueued.length - s.returned.length) := by
    rw [h.puts, h.gets]
    apply BitVec.eq_of_toNat_eq
    simp only [BitVec.toNat_sub, BitVec.toNat_ofNat]
    omega
  rw [OpQueue.isFull, hsub, BitVec.sle_eq_decide, show (256#32).toInt = 256 from rfl,
    OpQueue.toInt_counter (by omega), if_pos (by omega), decide_eq_false_iff_not]
  omega

theorem Inv.next_returned (h : Inv s) (hlt : s.returned.length < s.enqueued.length) :
    s.queue.ops ⟨s.returned.length % 256, Nat.mod_lt _ (by decide)⟩ =
      some s.enqueued[s.returned.length] :=
  h.kept _ _ le_rfl (List.getElem?_eq_getElem hlt)

theorem step_execute {op : α} (hs : s.step (.execute op) = some s') :
    s' = s ∨ s.queue.isFull = false ∧ ∃ i, OpQueue.slot s.queue.puts = some i ∧
      s' = ⟨⟨Function.update s.queue.ops i (some op), s.queue.puts + 1, s.queue.gets⟩,
        s.enqueued ++ [op], s.returned⟩ := by
  obtain ⟨⟨q, b⟩, hq, rfl⟩ := Option.map_eq_some_iff.mp hs
  rw [OpQueue.execute] at hq
  split_ifs at hq with hfull
  · obtain ⟨rfl, rfl⟩ := Prod.mk.inj (Option.some.inj hq)
    exact .inl rfl
  · obtain ⟨i, hi, hq⟩ := Option.map_eq_some_iff.mp hq
    obtain ⟨rfl, rfl⟩ := Prod.mk.inj hq
    exact .inr ⟨Bool.eq_false_iff.mpr hfull, i, hi, rfl⟩

theorem step_getOp (hs : s.step .getOp = some s') :
    s' = s ∨ s.queue.isEmpty = false ∧ ∃ i, OpQueue.slot s.queue.gets = some i ∧
      s' = ⟨⟨s.queue.ops, s.queue.puts, s.queue.gets + 1⟩, s.enqueued,
        s.returned ++ [s.queue.ops i]⟩ := by
  obtain ⟨⟨q, b⟩, hq, rfl⟩ := Option.map_eq_some_iff.mp hs
  rw [OpQueue.getOp] at hq
  split_ifs at hq with hempty
  · obtain ⟨rfl, rfl⟩ := Prod.mk.inj (Option.some.inj hq)
    exact .inl rfl
  · obtain ⟨i, hi, hq⟩ := Option.map_eq_some_iff.mp hq
    obtain ⟨rfl, rfl⟩ := Prod.mk.inj hq
    exact .inr ⟨Bool.eq_false_iff.mpr hempty, i, hi, rfl⟩

theorem Inv.execute (h : Inv s) {op : α} (hs : s.step (.execute op) = some s') : Inv s' := by
  obtain rfl | ⟨hfull, i, hi, rfl⟩ := step_execute hs
  · exact h
  rw [h.puts] at hi
  obtain rfl := OpQueue.slot_counter_val h.enqueued_lt hi
  have hroom := h.isFull_eq.mp hfull
  have hle := h.le
  refine ⟨?_, h.gets, ?_, ?_, h.small, ?_, ?_⟩ <;> dsimp only
  · rw [List.length_append, List.length_singleton, BitVec.ofNat_add, ← h.puts]
    rfl
  · rw [List.length_append]
    omega
  · rw [List.length_append, List.length_singleton]
    omega
  · rw [List.take_append_of_le_length hle]
    exact h.fifo
  · intro k op' hk hop
    rcases Nat.lt_trichotomy k s.enqueued.length with hlt | rfl | hgt
    · rw [List.getElem?_append_left hlt] at hop
      -- Fewer than 256 operations lie between the two counters.
      have hne : (⟨k % 256, Nat.mod_lt _ (by decide)⟩ : Fin 256) ≠
          ⟨s.enqueued.length % 256, Nat.mod_lt _ (by decide)⟩ := by
        intro heq
        have := Fin.mk.inj heq
        omega
      rw [Function.update_of_ne hne, h.kept k op' hk hop]
    · rw [List.getElem?_concat_length] at hop
      rw [Function.update_self, hop]
    · rw [List.getElem?_eq_none (by rw [List.length_append, List.length_singleton]; omega)] at hop
      cases hop

theorem Inv.getOp (h : Inv s) (hs : s.step .getOp = some s') : Inv s' := by
  obtain rfl | ⟨hempty, i, hi, rfl⟩ := step_getOp hs
  · exact h
  rw [h.gets] at hi
  have hsmall := h.small
  obtain rfl := OpQueue.slot_counter_val (by omega) hi
  obtain ⟨hput, hlt⟩ := h.isEmpty_eq.mp hempty
  have hroom := h.room
  refine ⟨h.puts, ?_, ?_, ?_, ?_, ?_, ?_⟩ <;> dsimp only
  · rw [List.length_append, List.length_singleton, BitVec.ofNat_add, ← h.gets]
    rfl
  · rw [List.length_append, List.length_singleton]
    exact hlt
  · rw [List.length_append, List.length_singleton]
    omega
  · rw [List.length_append, List.length_singleton]
    omega
  · rw [List.length_append, List.length_singleton, h.next_returned hlt, List.take_succ_eq_append_getElem hlt,
      List.map_append, ← h.fifo]
    rfl
  · intro k op' hk hop
    rw [List.length_append] at hk
    exact h.kept k op' (by omega) hop

theorem Inv.step (h : Inv s) {e : QueueEvent α} (hs : s.step e = some s') : Inv s' := by
  cases e with
  | execute op => exact h.execute hs
  | getOp => exact h.getOp hs

theorem Inv.run (h : Inv s) {es : List (QueueEvent α)} (hs : s.run es = some s') : Inv s' := by
  induction es generalizing s with
  | nil => exact Option.some.inj hs ▸ h
  | cons e es ih =>
    obtain ⟨t, ht, hs⟩ := Option.bind_eq_some_iff.mp hs
    exact ih (h.step ht) hs

theorem Inv.good_iff (h : Inv s) : Good s ↔ s.enqueued.length < 2 ^ 31 := by
  have hroom := h.room
  have hsmall := h.small
  constructor
  · intro hgood
    by_contra hwrap
    have := (h.isEmpty_eq.mp (hgood.nonempty (by omega))).1
    omega
  · intro hlt
    refine ⟨h.fifo, h.kept, h.room, ?_, fun hne => h.isEmpty_eq.mpr ⟨hlt, hne⟩⟩
    rw [h.puts, h.gets, OpQueue.slot_counter hlt, OpQueue.slot_counter hsmall]
    exact ⟨rfl, rfl⟩

/-- A `get_op` on a queue that holds an operation returns one. -/
theorem Inv.exists_getOp (h : Inv s) (hput : s.enqueued.length < 2 ^ 31)
    (hlt : s.returned.length < s.enqueued.length) : ∃ t, s.step .getOp = some t ∧
      t.enqueued = s.enqueued ∧ t.returned.length = s.returned.length + 1 := by
  have hempty := h.isEmpty_eq.mpr ⟨hput, hlt⟩
  have hstep : s.step .getOp = some ⟨⟨s.queue.ops, s.queue.puts, s.queue.gets + 1⟩, s.enqueued,
      s.returned ++ [s.queue.ops ⟨s.returned.length % 256, Nat.mod_lt _ (by decide)⟩]⟩ := by
    rw [QueueRun.step, OpQueue.getOp, hempty, if_neg Bool.false_ne_true, h.gets,
      OpQueue.slot_counter h.small]
    rfl
  exact ⟨_, hstep, rfl, by rw [List.length_append, List.length_singleton]⟩

/-- An `execute` on a queue that is not full puts the operation into it. -/
theorem Inv.exists_execute (h : Inv s) (hput : s.enqueued.length < 2 ^ 31)
    (hroom : s.enqueued.length < s.returned.length + 256) (op : α) :
    ∃ t, s.step (.execute op) = some t ∧ t.enqueued = s.enqueued ++ [op] ∧
      t.returned = s.returned := by
  have hfull := h.isFull_eq.mpr hroom
  have hstep : s.step (.execute op) = some
      ⟨⟨Function.update s.queue.ops ⟨s.enqueued.length % 256, Nat.mod_lt _ (by decide)⟩ (some op),
        s.queue.puts + 1, s.queue.gets⟩, s.enqueued ++ [op], s.returned⟩ := by
    rw [QueueRun.step, OpQueue.execute, hfull, if_neg Bool.false_ne_true, h.puts,
      OpQueue.slot_counter hput]
    rfl
  exact ⟨_, hstep, rfl, rfl⟩

/-- Every step of a run is possible until the counter wraps. -/
theorem Inv.exists_step (h : Inv s) (hput : s.enqueued.length < 2 ^ 31) (e : QueueEvent α) :
    ∃ t, s.step e = some t := by
  cases e with
  | execute op =>
    rw [QueueRun.step, OpQueue.execute, h.puts, OpQueue.slot_counter hput]
    split_ifs <;> exact ⟨_, rfl⟩
  | getOp =>
    rw [QueueRun.step, OpQueue.getOp, h.gets, OpQueue.slot_counter h.small]
    split_ifs <;> exact ⟨_, rfl⟩

theorem Inv.wrapped_of_run_none (h : Inv s) {es : List (QueueEvent α)} (hs : s.run es = none) :
    ∃ es' t, es' <+: es ∧ s.run es' = some t ∧ 2 ^ 31 ≤ t.enqueued.length := by
  induction es generalizing s with
  | nil => cases hs
  | cons e es ih =>
    by_cases hput : s.enqueued.length < 2 ^ 31
    · obtain ⟨t, ht⟩ := h.exists_step hput e
      have hrun : ∀ es, s.run (e :: es) = t.run es := fun es => by
        rw [QueueRun.run, ht, Option.bind_some]
      rw [hrun] at hs
      obtain ⟨es', u, hpre, hu, hwrap⟩ := ih (h.step ht) hs
      exact ⟨e :: es', u, List.cons_prefix_cons.mpr ⟨rfl, hpre⟩, by rw [hrun, hu], hwrap⟩
    · exact ⟨[], s, List.nil_prefix, rfl, not_lt.mp hput⟩

theorem Inv.drain (h : Inv s) (hput : s.enqueued.length < 2 ^ 31) {n : ℕ}
    (hn : s.returned.length + n = s.enqueued.length) :
    ∃ t, s.run (List.replicate n .getOp) = some t ∧ t.returned = s.enqueued.map some := by
  induction n generalizing s with
  | zero =>
    refine ⟨s, rfl, ?_⟩
    rw [h.fifo, List.take_of_length_le (by omega)]
  | succ n ih =>
    obtain ⟨t, ht, henq, hret⟩ := h.exists_getOp hput (by omega)
    obtain ⟨u, hu, hall⟩ := ih (h.step ht) (henq ▸ hput) (by rw [henq, hret]; omega)
    refine ⟨u, ?_, henq ▸ hall⟩
    rw [List.replicate_succ, QueueRun.run, ht, Option.bind_some, hu]

end QueueRun

open QueueRun

/-- In every run the queue is good as long as fewer than `2 ^ 31` operations were enqueued: it can go
on, and its operations can all be returned.  From then on it is not. -/
theorem opqueue_exact {α : Type} (es : List (QueueEvent α)) :
    (∀ s, initial.run es = some s → (s.Good ↔ s.enqueued.length < 2 ^ 31) ∧
      (s.enqueued.length < 2 ^ 31 → ∃ t,
        s.run (List.replicate (s.enqueued.length - s.returned.length) .getOp) = some t ∧
          t.returned = s.enqueued.map some)) ∧
    (initial.run es = none → ∃ es' s, es' <+: es ∧ initial.run es' = some s ∧
      2 ^ 31 ≤ s.enqueued.length) := by
  refine ⟨fun s hs => ?_, inv_initial.wrapped_of_run_none⟩
  have hinv := inv_initial.run hs
  have hle := hinv.le
  exact ⟨hinv.good_iff, fun hput => hinv.drain hput (by omega)⟩

/-- An operation put into the queue and returned. -/
theorem opqueue_exact_one : ∃ s : QueueRun ℕ,
    initial.run [.execute 7, .getOp] = some s ∧ s.enqueued = [7] ∧ s.Good := by
  refine ⟨⟨⟨Function.update (fun _ => none) 0 (some 7), 1, 1⟩, [7], [some 7]⟩, rfl, rfl, ?_⟩
  exact (((opqueue_exact [.execute 7, .getOp]).1 _ rfl).1).mpr (by decide)

/-- Operations that are each returned before the next is enqueued. -/
def pairs (n : ℕ) : List (QueueEvent Unit) := (List.replicate n [.execute (), .getOp]).flatten

theorem run_append {α : Type} (s : QueueRun α) (es fs : List (QueueEvent α)) :
    s.run (es ++ fs) = (s.run es).bind fun t => t.run fs := by
  induction es generalizing s with
  | nil => rfl
  | cons e es ih =>
    rw [List.cons_append, run, run, Option.bind_assoc]
    exact Option.bind_congr fun t _ => ih t

theorem run_pairs {n : ℕ} (h : n < 2 ^ 31) : ∃ s, initial.run (pairs n) = some s ∧
    s.enqueued.length = n ∧ s.returned.length = n := by
  induction n with
  | zero => exact ⟨initial, rfl, rfl, rfl⟩
  | succ n ih =>
    obtain ⟨s, hs, henq, hret⟩ := ih (by omega)
    have hinv := inv_initial.run hs
    obtain ⟨t, ht, htenq, htret⟩ := hinv.exists_execute (by omega) (by omega) ()
    have htlen : t.enqueued.length = n + 1 := by
      rw [htenq, List.length_append, List.length_singleton, henq]
    obtain ⟨u, hu, huenq, huret⟩ :=
      (hinv.step ht).exists_getOp (by omega) (by rw [htret, htlen]; omega)
    refine ⟨u, ?_, by rw [huenq, htlen], by rw [huret, htret, hret]⟩
    rw [pairs, List.replicate_succ', List.flatten_append, run_append]
    change (initial.run (pairs n)).bind _ = _
    rw [hs, Option.bind_some, List.flatten_singleton, run, ht, Option.bind_some, run, hu]
    rfl

/-- After `2 ^ 31` operations the queue holds one that it does not see. -/
theorem opqueue_wraps : ∃ s, initial.run (pairs (2 ^ 31 - 1) ++ [.execute ()]) = some s ∧
    s.returned.length < s.enqueued.length ∧ s.queue.isEmpty = true ∧ ¬ s.Good := by
  obtain ⟨s, hs, henq, hret⟩ := run_pairs (show 2 ^ 31 - 1 < 2 ^ 31 by decide)
  have hinv := inv_initial.run hs
  obtain ⟨t, ht, htenq, htret⟩ := hinv.exists_execute (by omega) (by omega) ()
  have htinv := hinv.step ht
  have htlen : t.enqueued.length = 2 ^ 31 := by
    rw [htenq, List.length_append, List.length_singleton]
    omega
  have hseen : t.queue.isEmpty = true := by
    rw [← Bool.not_eq_false, htinv.isEmpty_eq]
    omega
  have hheld : t.returned.length < t.enqueued.length := by
    rw [htret, htlen]
    omega
  refine ⟨t, ?_, hheld, hseen, fun hgood => ?_⟩
  · rw [run_append, hs, Option.bind_some, run, ht]
    rfl
  · rw [hgood.nonempty hheld] at hseen
    cases hseen

end Fscq.Hslib
