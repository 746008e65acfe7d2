import Fscq.LogEntries
import Fscq.LogHistory

/-!
# Writes past the log

A block can be written past the log while older values of it are in the active transaction, in the
pending transactions, in the memory log and in the disk log.  Each layer gets rid of its own values
before it hands the write down.  So reads return the value that was written directly, and no entry
for the block is left anywhere: what a later flush writes back, or a recovery replays, has been
written later.
-/

namespace Fscq

open CrashProg

open PaddedLog (Contents)

namespace ADisk

theorem writes_cur (avl : List (ℕ × Valu)) (m : ADisk) :
    (m.writes avl).cur = replayDisk avl m.cur := by
  induction avl generalizing m with
  | nil => rfl
  | cons av avl ih => exact ih (m.write av.1 av.2)

/-- The order of writes and of a transaction that does not hold their blocks does not matter. -/
theorem install_writes {mp : Valumap} (avl : List (ℕ × Valu)) (B : ADisk)
    (h : ∀ av ∈ avl, mp[av.1]? = none) : (B.writes avl).install mp = (B.install mp).writes avl := by
  induction avl generalizing B with
  | nil => rfl
  | cons av avl ih =>
    have hw := install_write B (h av List.mem_cons_self) av.2
    have hrest := ih (B.write av.1 av.2) fun av' h' => h av' (List.mem_cons_of_mem _ h')
    rw [hw] at hrest
    exact hrest

end ADisk

namespace LogSt

variable {A : LogSt} {P P' : ADisk → Prop} {xp : LogXparams} {a : ℕ} {v : Valu} {S : Set Valu}

/-- Writes past the log are writes to all disks that a crash may keep. -/
theorem Every.dwriteVecs {avl : List (ℕ × Valu)} (h : A.Every P)
    (hw : ∀ D, P D → P' (D.writes avl)) : (A.dwriteVecs avl).Every P' := by
  by_cases hov : overlap (avl.map Prod.fst) (GLog.collapse A.pend) = true
  · apply every_of_pend
    · rw [LogSt.dwriteVecs, if_pos hov]
      rfl
    · rw [LogSt.dwriteVecs, if_pos hov]
      exact hw _ h.disk
  · have hd : A.dwriteVecs avl = { A with base := A.base.writes avl, txn := ∅ } := by
      rw [LogSt.dwriteVecs, if_neg hov]
    rw [hd]
    intro k hk
    have hnone : ∀ av ∈ avl, (GLog.collapse (A.pend.take k))[av.1]? = none := by
      intro av hav
      apply GLog.collapse_append_none (q := A.pend.drop k)
      rw [List.take_append_drop]
      apply Std.ExtTreeMap.getElem?_eq_none
      exact fun hmem => hov (overlap_eq_true_iff.2 ⟨av.1, List.mem_map_of_mem hav, hmem⟩)
    have hupto : LogSt.upto { A with base := A.base.writes avl, txn := ∅ } k =
        (A.upto k).writes avl := by
      rw [upto, upto, GLog.installAll_eq, GLog.installAll_eq]
      exact ADisk.install_writes avl A.base hnone
    rw [hupto]
    exact hw _ (h k hk)

/-- A property of block `a` that holds whatever is done to the disk, if only values in `S` are
written to the block. -/
structure Stable (a : ℕ) (S : Set Valu) (P : ADisk → Prop) : Prop where
  install : ∀ (D : ADisk) (t : Valumap), P D → (∀ w, t[a]? = some w → w ∈ S) → P (D.install t)
  write : ∀ (D : ADisk) (b : ℕ) (w : Valu), P D → (b = a → w ∈ S) → P (D.write b w)
  sync : ∀ (D : ADisk) (T : Set ℕ), P D → P (D.sync T)

theorem Stable.writes {avl : List (ℕ × Valu)} {D : ADisk} (h : Stable a S P) (hD : P D)
    (hv : ∀ av ∈ avl, av.1 = a → av.2 ∈ S) : P (D.writes avl) := by
  induction avl generalizing D with
  | nil => exact hD
  | cons av avl ih =>
    exact ih (h.write D av.1 av.2 hD (hv av List.mem_cons_self))
      fun av' h' => hv av' (List.mem_cons_of_mem _ h')

/-- The block holds `v`. -/
theorem stable_cur_eq (a : ℕ) (v : Valu) : Stable a ∅ fun D => D.cur a = v where
  install D t h ht := by
    have hnone : t[a]? = none := by
      cases hv : t[a]? with
      | none => rfl
      | some w => exact absurd (ht w hv) (Set.notMem_empty w)
    simpa [ADisk.install, hnone] using h
  write D b w h hb := by
    have hne : a ≠ b := fun e => Set.notMem_empty w (hb e.symm)
    simpa [ADisk.write, hne] using h
  sync _ _ h := h

/-- The block holds one of the values. -/
theorem stable_cur_mem (a : ℕ) (S : Set Valu) : Stable a S fun D => D.cur a ∈ S where
  install D t h ht := by
    cases hv : t[a]? with
    | none => simpa [ADisk.install, hv] using h
    | some w => simpa [ADisk.install, hv] using ht w hv
  write D b w h hb := by
    rcases eq_or_ne a b with rfl | hne
    · simpa [ADisk.write] using hb rfl
    · simpa [ADisk.write, hne] using h
  sync _ _ h := h

/-- The block holds one of the values, also after a crash. -/
theorem stable_poss_subset (a : ℕ) (S : Set Valu) :
    Stable a S fun D => D.cur a ∈ S ∧ D.poss a ⊆ S where
  install D t h ht := by
    refine ⟨(stable_cur_mem a S).install D t h.1 ht, ?_⟩
    cases hv : t[a]? with
    | none => simpa [ADisk.install, hv] using h.2
    | some w => simpa [ADisk.install, hv] using ht w hv
  write D b w h hb := by
    refine ⟨(stable_cur_mem a S).write D b w h.1 hb, ?_⟩
    rcases eq_or_ne a b with rfl | hne
    · simpa [ADisk.write, Set.insert_subset_iff] using ⟨hb rfl, h.2⟩
    · simpa [ADisk.write, hne] using h.2
  sync D T h := ⟨h.1, fun x hx => h.2 hx.1⟩

theorem Stable.mono {T : Set Valu} (h : Stable a T P) (hS : S ⊆ T) : Stable a S P where
  install D t hD ht := h.install D t hD fun w hw => hS (ht w hw)
  write D b w hD hb := h.write D b w hD fun e => hS (hb e)
  sync := h.sync

/-- The property holds whatever a crash keeps, and the active transaction writes values in `S`. -/
def Keeps (a : ℕ) (S : Set Valu) (P : ADisk → Prop) (A : LogSt) : Prop :=
  A.Every P ∧ ∀ w, A.txn[a]? = some w → w ∈ S

theorem keeps_no_txn (h : A.Every P) (ht : A.txn = ∅) : Keeps a S P A := by
  refine ⟨h, fun w hw => ?_⟩
  rw [ht] at hw
  simp at hw

theorem Keeps.submit (hP : Stable a S P) (h : Keeps a S P A) : Keeps a S P (A.submit xp).1 := by
  apply keeps_no_txn _ (A.submit_txn xp)
  rw [LogSt.submit]
  split_ifs
  · have hpush : (A.push A.txn).Every P := by
      apply h.1.push
      rw [disk_push]
      exact hP.install _ _ h.1.disk h.2
    exact hpush
  · exact h.1

theorem Keeps.flushall (h : Keeps a S P A) : Keeps a S P A.flushall :=
  ⟨h.1.flushed .flushed, h.2⟩

theorem Keeps.crashes (h : Keeps a S P A) (hP : ∀ D, P D → D.poss a ⊆ S)
    (ha : a < MLog.dataSize xp) : A.crashes xp ⊆ {d | d a ∈ S} := by
  rintro d ⟨k, hk, hd⟩
  have hda := hd a
  rw [if_pos ha] at hda
  exact hP _ (h.1 k hk) hda

/-- A read returns what the property and the active transaction allow. -/
theorem Keeps.read (h : Keeps a S P A) {T : Set Valu} (hS : S ⊆ T) (hP : ∀ D, P D → D.cur a ∈ T) :
    A.read a ∈ T := by
  rw [LogSt.read]
  cases hv : A.txn[a]? with
  | none => exact hP _ h.1.disk
  | some w => exact hS (h.2 w hv)

theorem Keeps.abort (h : Keeps a S P A) : Keeps a S P A.abort := keeps_no_txn h.1 rfl

theorem Keeps.commit [Platform] (hP : Stable a S P) (h : Keeps a S P A) :
    Keeps a S P (A.commit xp).1 := by
  rw [commit_fst]
  split_ifs
  · exact (h.submit hP).flushall
  · exact h.submit hP

theorem Keeps.insert {b : ℕ} (h : Keeps a S P A) (hb : b = a → v ∈ S) :
    Keeps a S P (A.write b v) := by
  refine ⟨h.1, fun w hw => ?_⟩
  rw [LogSt.write, Std.ExtTreeMap.getElem?_insert] at hw
  split_ifs at hw with hab
  · obtain rfl : v = w := Option.some.inj hw
    exact hb (compare_eq_iff_eq.1 hab)
  · exact h.2 w hw

theorem dwrite_txn (A : LogSt) (a : ℕ) (v : Valu) : (A.dwrite a v).txn = A.txn.erase a := by
  rw [LogSt.dwrite]
  split_ifs <;> rfl

theorem Keeps.dwrite {b : ℕ} (hP : Stable a S P) (h : Keeps a S P A) (hb : b = a → v ∈ S) :
    Keeps a S P (A.dwrite b v) := by
  refine ⟨h.1.dwrite fun D hD => hP.write D b v hD hb, fun w hw => ?_⟩
  rw [dwrite_txn, Std.ExtTreeMap.getElem?_erase] at hw
  split_ifs at hw
  exact h.2 w hw

theorem dwriteVecs_txn (A : LogSt) (avl : List (ℕ × Valu)) : (A.dwriteVecs avl).txn = ∅ := by
  rw [LogSt.dwriteVecs]

theorem Keeps.dwriteVecs {avl : List (ℕ × Valu)} (hP : Stable a S P) (h : Keeps a S P A)
    (hv : ∀ av ∈ avl, av.1 = a → av.2 ∈ S) : Keeps a S P (A.dwriteVecs avl) :=
  keeps_no_txn (h.1.dwriteVecs fun _ hD => hP.writes hD hv) (A.dwriteVecs_txn avl)

theorem Keeps.sync (hP : Stable a S P) (h : Keeps a S P A) (T : Set ℕ) :
    Keeps a S P { A with base := A.base.sync T } :=
  ⟨h.1.sync fun D hD => hP.sync D T hD, h.2⟩

end LogSt

namespace LOG

/-- The calls of a client of the log, with the writes and syncs that go past it. -/
inductive Call
  | begin
  | abort
  | commit
  | commitRo
  | flushall
  | flushsync
  | read (a : ℕ)
  | write (a : ℕ) (v : Valu)
  | dwrite (a : ℕ) (v : Valu)
  | dwriteVecs (avl : List (ℕ × Valu))
  | dsync (a : ℕ)
  | dsyncVecs (al : List ℕ)
  | syncCache

namespace Call

/-- Calls access blocks of the data section; transactions do not write block zero. -/
def Valid (xp : LogXparams) : Call → Prop
  | .read a => a < MLog.dataSize xp
  | .write a _ => a ≠ 0 ∧ a < MLog.dataSize xp
  | .dwrite a _ => a < MLog.dataSize xp
  | .dwriteVecs avl => ∀ av ∈ avl, av.1 < MLog.dataSize xp
  | _ => True

/-- The call writes `v` to block `a` past the log. -/
def Direct (a : ℕ) (v : Valu) : Call → Prop
  | .dwrite b w => b = a ∧ w = v
  | .dwriteVecs avl => (replayMem avl ∅)[a]? = some v
  | _ => False

/-- The blocks that a call writes past the log. -/
def PastLog : Call → Set ℕ
  | .dwrite b _ => {b}
  | .dwriteVecs avl => {b | b ∈ avl.map Prod.fst}
  | _ => ∅

/-- The call writes only values in `S` to block `a`. -/
def WritesIn (a : ℕ) (S : Set Valu) : Call → Prop
  | .write b w => b = a → w ∈ S
  | .dwrite b w => b = a → w ∈ S
  | .dwriteVecs avl => ∀ av ∈ avl, av.1 = a → av.2 ∈ S
  | _ => True

/-- The call puts only values in `S` into the transaction for block `a`. -/
def LogsIn (a : ℕ) (S : Set Valu) : Call → Prop
  | .write b w => b = a → w ∈ S
  | _ => True

/-- The call syncs block `a`. -/
def Syncs (a : ℕ) : Call → Prop
  | .dsync b => b = a
  | .dsyncVecs al => a ∈ al
  | .syncCache => True
  | _ => False

/-- The abstract log after a call. -/
def after [Platform] (xp : LogXparams) (A : LogSt) : Call → LogSt
  | .begin => A
  | .abort => A.abort
  | .commit => (A.commit xp).1
  | .commitRo => A.abort
  | .flushall => A.flushall
  | .flushsync => A.flushall
  | .read _ => A
  | .write a v => A.write a v
  | .dwrite a v => A.dwrite a v
  | .dwriteVecs avl => A.dwriteVecs avl
  | .dsync a => A.dsync a
  | .dsyncVecs al => A.dsyncVecs al
  | .syncCache => A.syncCache

/-- The abstract log when the call is interrupted and has done something. -/
def mid (xp : LogXparams) (A : LogSt) : Call → LogSt
  | .commit => (A.submit xp).1
  | .dwriteVecs avl => A.dwriteVecs avl
  | _ => A

section

variable {xp : LogXparams} {A : LogSt} {P : ADisk → Prop} {a : ℕ} {v : Valu} {S T : Set Valu}
  {c : Call}

theorem WritesIn.mono (h : c.WritesIn a S) (hS : S ⊆ T) : c.WritesIn a T := by
  cases c with
  | write b w => exact fun e => hS (h e)
  | dwrite b w => exact fun e => hS (h e)
  | dwriteVecs avl => exact fun av hav e => hS (h av hav e)
  | _ => trivial

theorem Direct.lt_dataSize (hd : c.Direct a v) (hc : c.Valid xp) : a < MLog.dataSize xp := by
  cases c with
  | dwrite b w =>
    obtain ⟨rfl, rfl⟩ := hd
    exact hc
  | dwriteVecs avl => exact hc _ (mem_of_getElem?_replayMem hd)
  | _ => exact hd.elim

theorem Direct.mem_pastLog (hd : c.Direct a v) : a ∈ c.PastLog := by
  cases c with
  | dwrite b w => exact hd.1.symm
  | dwriteVecs avl => exact List.mem_map.2 ⟨(a, v), mem_of_getElem?_replayMem hd, rfl⟩
  | _ => exact hd.elim

theorem keeps_after [Platform] (hP : LogSt.Stable a S P) (hw : c.WritesIn a S)
    (h : LogSt.Keeps a S P A) : LogSt.Keeps a S P (c.after xp A) := by
  cases c with
  | begin => exact h
  | abort => exact h.abort
  | commit => exact h.commit hP
  | commitRo => exact h.abort
  | flushall => exact h.flushall
  | flushsync => exact h.flushall
  | read b => exact h
  | write b w => exact h.insert hw
  | dwrite b w => exact h.dwrite hP hw
  | dwriteVecs avl => exact h.dwriteVecs hP hw
  | dsync b => exact h.sync hP _
  | dsyncVecs al => exact h.sync hP _
  | syncCache => exact h.sync hP _

theorem keeps_mid (hP : LogSt.Stable a S P) (hw : c.WritesIn a S) (h : LogSt.Keeps a S P A) :
    LogSt.Keeps a S P (c.mid xp A) := by
  cases c with
  | commit => exact h.submit hP
  | dwriteVecs avl => exact h.dwriteVecs hP hw
  | _ => exact h

/-- A write past the log can be read back, and no transaction holds its block. -/
theorem Direct.keeps [Platform] (hd : c.Direct a v) (A : LogSt) :
    LogSt.Keeps a ∅ (fun D => D.cur a = v) (c.after xp A) := by
  have htrue : A.Every fun _ => True := fun _ _ => trivial
  cases c with
  | dwrite b w =>
    obtain ⟨rfl, rfl⟩ := hd
    constructor
    · exact LogSt.Every.dwrite (a := b) (v := w) htrue fun D _ => by simp [ADisk.write]
    · intro x hx
      rw [after, LogSt.dwrite_txn, Std.ExtTreeMap.getElem?_erase_self] at hx
      cases hx
  | dwriteVecs avl =>
    refine LogSt.keeps_no_txn (htrue.dwriteVecs fun D _ => ?_) (A.dwriteVecs_txn avl)
    have hv : (replayMem avl ∅)[a]? = some v := hd
    rw [ADisk.writes_cur, replayDisk_eq, hv]
    rfl
  | _ => exact hd.elim

/-- A sync leaves only values that a read may see. -/
theorem Syncs.keeps [Platform] (hs : c.Syncs a) (h : LogSt.Keeps a S (fun D => D.cur a ∈ S) A) :
    LogSt.Keeps a S (fun D => D.cur a ∈ S ∧ D.poss a ⊆ S) (c.after xp A) := by
  have hsync : ∀ T : Set ℕ, a ∈ T →
      LogSt.Keeps a S (fun D => D.cur a ∈ S ∧ D.poss a ⊆ S) { A with base := A.base.sync T } := by
    intro T ha
    refine ⟨h.1.sync fun D hD => ⟨hD, fun x hx => ?_⟩, h.2⟩
    rw [hx.2 ha]
    exact hD
  cases c with
  | dsync b => exact hsync {x | x = b} (show a = b from Eq.symm hs)
  | dsyncVecs al => exact hsync _ hs
  | syncCache => exact hsync _ (Set.mem_univ a)
  | _ => exact hs.elim

end

variable [Platform]

def exec (xp : LogXparams) (c : Call) (ms : MemState) : Prog MemState :=
  match c with
  | .begin => LOG.begin xp ms
  | .abort => LOG.abort xp ms
  | .commit => do
    let (ms, _) ← LOG.commit xp ms
    pure ms
  | .commitRo => LOG.commitRo xp ms
  | .flushall => LOG.flushall xp ms
  | .flushsync => LOG.flushsync xp ms
  | .read a => do
    let (ms, _) ← LOG.read xp a ms
    pure ms
  | .write a v => LOG.write xp a v ms
  | .dwrite a v => LOG.dwrite xp a v ms
  | .dwriteVecs avl => LOG.dwriteVecs xp avl ms
  | .dsync a => LOG.dsync xp a ms
  | .dsyncVecs al => LOG.dsyncVecs xp al ms
  | .syncCache => LOG.syncCache xp ms

end Call

variable [Platform]

/-- Calls one after the other. -/
def runCalls (xp : LogXparams) (cs : List Call) (ms : MemState) : Prog MemState :=
  forEach (Call.exec xp) cs ms

/-- The log has been initialised. -/
def Initialised (n : ℕ) (xp : LogXparams) (ms : MemState) (s : St) : Prop :=
  ms.msTxn = ∅ ∧ GLog.Initialised n xp ms.msLL s

/-- The states that a client of the log reaches. -/
def Reachable (n k : ℕ) (xp : LogXparams) : MemState → St → Prop :=
  Reaches diskSem Reboot (Initialised n xp) (Call.Valid xp) (Call.exec xp) (recoverBoot k xp)

/-- The states that it reaches from one state with calls that satisfy `V`, crashes and
recoveries. -/
def After (k : ℕ) (xp : LogXparams) (V : Call → Prop) (ms₀ : MemState) (s₀ : St) :
    MemState → St → Prop :=
  Reaches diskSem Reboot (fun ms s => ms = ms₀ ∧ s = s₀) (fun c => c.Valid xp ∧ V c)
    (Call.exec xp) (recoverBoot k xp)

/-- All entries of the transaction, the group log and the memory log are in `E`. -/
structure Holds (n : ℕ) (xp : LogXparams) (E : Set (ℕ × Valu)) (ms : MemState) (s : St) :
    Prop where
  glog : GLog.Holds n xp E ms.msLL s
  txn : ms.msTxn.toList ∈ MLog.LogsIn xp E

variable {n k : ℕ} {xp : LogXparams} {A : LogSt} {ms ms' : MemState} {s s' : St} {a : ℕ}
  {v : Valu} {S : Set Valu} {E E' : Set (ℕ × Valu)} {D : Set (ℕ → Valu)} {P : ADisk → Prop}
  {c : Call}

/-! ### One call -/

theorem wp_call (hl : PaddedLog.Layout n xp) (h : LState n xp A ms s) (hc : c.Valid xp)
    (hD : A.crashes xp ⊆ D) (hD' : (c.mid xp A).crashes xp ⊆ D) :
    wp diskSem (c.exec xp ms) (LState n xp (c.after xp A)) (LCrash n xp D) s := by
  cases c with
  | begin => exact wp_begin h id
  | abort => exact wp_abort h fun _ => id
  | commit =>
    apply wp_bind
    apply wp_commit hl h hD'
    exact fun ms' s' h' => wp_pure h'
  | commitRo => exact wp_commitRo h fun _ => id
  | flushall => exact wp_flushall hl h hD fun _ _ => id
  | flushsync => exact wp_flushsync hl h hD fun _ _ => id
  | read a =>
    apply wp_bind
    apply wp_read hl h hc hD
    exact fun ms' s' h' => wp_pure h'
  | write a v => exact wp_write h hc.1 hc.2 fun _ => id
  | dwrite a v => exact wp_dwrite hl h hc hD fun _ _ => id
  | dwriteVecs avl => exact wp_dwriteVecs hl h hc hD hD' fun _ _ => id
  | dsync a => exact wp_dsync hl h hD fun _ _ => id
  | dsyncVecs al => exact wp_dsyncVecs hl h hD fun _ _ => id
  | syncCache => exact wp_syncCache hl h hD fun _ _ => id

theorem Initialised.lstate (h : Initialised n xp ms s) : ∃ A, LState n xp A ms s := by
  obtain ⟨B, pend, hg⟩ := h.2.live
  exact ⟨⟨B, pend, ∅⟩, hg, h.1, txnRange_empty⟩

theorem Reachable.lstate (hl : PaddedLog.Layout n xp) (h : Reachable n k xp ms s) :
    ∃ A, LState n xp A ms s := by
  refine Reaches.inv (C := LCrash n xp Set.univ) (I := fun ms s => ∃ A, LState n xp A ms s) h
    (fun _ _ h => h.lstate) ?_ ?_ ?_
  · rintro c ms s hc ⟨A, h⟩
    refine wp_mono (wp_call hl h hc (Set.subset_univ _) (Set.subset_univ _)) ?_ fun _ => id
    exact fun ms' s' h' => ⟨_, h'⟩
  · rintro ms s ⟨A, h⟩
    exact h.crash hl (Set.subset_univ _)
  · intro s₁ s₂ hc hr
    refine wp_mono (wp_recoverBoot k hl hc hr) ?_ fun _ => id
    rintro ms' s' ⟨d, -, h'⟩
    exact ⟨_, h'⟩

/-! ### What block `a` holds -/

/-- The log represents a state in which `P` holds whatever a crash keeps. -/
def KeepsBlock (n : ℕ) (xp : LogXparams) (a : ℕ) (S : Set Valu) (P : ADisk → Prop) (ms : MemState)
    (s : St) : Prop :=
  ∃ A, LState n xp A ms s ∧ LogSt.Keeps a S P A

theorem KeepsBlock.wp_runCalls {cs : List Call} (hl : PaddedLog.Layout n xp)
    (hP : LogSt.Stable a S P) (h : KeepsBlock n xp a S P ms s)
    (hc : ∀ c ∈ cs, c.Valid xp ∧ c.WritesIn a S) :
    wp diskSem (runCalls xp cs ms) (KeepsBlock n xp a S P) (LCrash n xp Set.univ) s := by
  refine wp_mono (wp_forEach (fun cs ms s => KeepsBlock n xp a S P ms s ∧
    ∀ c ∈ cs, c.Valid xp ∧ c.WritesIn a S) ?_ cs ms s ⟨h, hc⟩) (fun _ _ h' => h'.1) fun _ => id
  rintro c cs ms s ⟨⟨A, h, hk⟩, hc⟩
  obtain ⟨hv, hw⟩ := hc c List.mem_cons_self
  refine wp_mono (wp_call hl h hv (Set.subset_univ _) (Set.subset_univ _)) ?_ fun _ => id
  intro ms' s' h'
  exact ⟨⟨_, h', c.keeps_after hP hw hk⟩, fun c' h' => hc c' (List.mem_cons_of_mem _ h')⟩

theorem KeepsBlock.wp_read (hl : PaddedLog.Layout n xp) (h : KeepsBlock n xp a S P ms s)
    (ha : a < MLog.dataSize xp) {T : Set Valu} (hS : S ⊆ T) (hP : ∀ D, P D → D.cur a ∈ T) :
    wp diskSem (read xp a ms) (fun r _ => r.2 ∈ T) (LCrash n xp Set.univ) s := by
  obtain ⟨A, h, hk⟩ := h
  exact LOG.wp_read hl h ha (Set.subset_univ _) fun _ _ _ => hk.read hS hP

/-- Once a block is synced, neither reads nor crashes leave the values written since. -/
theorem KeepsBlock.after {ms₀ : MemState} {s₀ : St} (hl : PaddedLog.Layout n xp)
    (ha : a < MLog.dataSize xp)
    (h₀ : KeepsBlock n xp a S (fun D => D.cur a ∈ S ∧ D.poss a ⊆ S) ms₀ s₀)
    (h : After k xp (Call.WritesIn a S) ms₀ s₀ ms s) :
    KeepsBlock n xp a S (fun D => D.cur a ∈ S ∧ D.poss a ⊆ S) ms s := by
  have hP := LogSt.stable_poss_subset a S
  refine Reaches.inv (C := LCrash n xp {d | d a ∈ S}) h ?_ ?_ ?_ ?_
  · rintro ms s ⟨rfl, rfl⟩
    exact h₀
  · rintro c ms s ⟨hv, hw⟩ ⟨A, h, hk⟩
    refine wp_mono (wp_call hl h hv (hk.crashes (fun _ => And.right) ha)
      ((c.keeps_mid hP hw hk).crashes (fun _ => And.right) ha)) ?_ fun _ => id
    exact fun ms' s' h' => ⟨_, h', c.keeps_after hP hw hk⟩
  · rintro ms s ⟨A, h, hk⟩
    exact h.crash hl (hk.crashes (fun _ => And.right) ha)
  · intro s₁ s₂ hc hr
    refine wp_mono (wp_recoverBoot k hl hc hr) ?_ fun _ => id
    rintro ms' s' ⟨d, hd, h'⟩
    refine ⟨_, h', LogSt.keeps_no_txn (LogSt.every_of_pend rfl ⟨hd, ?_⟩) rfl⟩
    rintro x rfl
    exact hd

/-! ### What the log holds -/

theorem LState.holds (h : LState n xp A ms s) : Holds n xp Set.univ ms s :=
  ⟨h.glog.holds, by rw [h.txn]; exact ⟨h.range, fun e _ => Set.mem_univ e⟩⟩

theorem holds_empty {mm : GLog.MemState} (h : GLog.Holds n xp E mm s) : Holds n xp E ⟨∅, mm⟩ s := by
  refine ⟨h, txnRange_empty, fun e he => ?_⟩
  rw [Std.ExtTreeMap.mem_toList_iff_getElem?_eq_some] at he
  simp at he

theorem Holds.mono (h : Holds n xp E ms s) (hE : E ⊆ E') : Holds n xp E' ms s :=
  ⟨h.glog.mono hE, MLog.logsIn_mono hE h.txn⟩

theorem Holds.insert {b : ℕ} {w : Valu} (h : Holds n xp E ms s) (hb : b ≠ 0 ∧ b < MLog.dataSize xp)
    (hE : (b, w) ∈ E) : Holds n xp E ⟨ms.msTxn.insert b w, ms.msLL⟩ s := by
  refine ⟨h.glog, txnRange_insert h.txn.1 hb.1 hb.2, ?_⟩
  rintro ⟨a, v⟩ he
  rw [Std.ExtTreeMap.mem_toList_iff_getElem?_eq_some, Std.ExtTreeMap.getElem?_insert] at he
  split_ifs at he with hab
  · obtain rfl : w = v := Option.some.inj he
    obtain rfl : b = a := compare_eq_iff_eq.1 hab
    exact hE
  · exact h.txn.2 _ (Std.ExtTreeMap.mem_toList_iff_getElem?_eq_some.2 he)

/-- No entry of the transaction without block `b` is for block `b`. -/
theorem Holds.txn_erase (h : Holds n xp E ms s) (b : ℕ) :
    (ms.msTxn.erase b).toList ∈ MLog.LogsIn xp {e ∈ E | ¬ e.1 = b} := by
  refine ⟨txnRange_erase h.txn.1, ?_⟩
  rintro ⟨a, v⟩ he
  rw [Std.ExtTreeMap.mem_toList_iff_getElem?_eq_some, Std.ExtTreeMap.getElem?_erase] at he
  split_ifs at he with hab
  refine ⟨h.txn.2 _ (Std.ExtTreeMap.mem_toList_iff_getElem?_eq_some.2 he), ?_⟩
  rintro rfl
  exact hab (compare_eq_iff_eq.2 rfl)

/-- A call adds only its own entries, and leaves none for the blocks that it writes past the log. -/
theorem Holds.wp_call (hl : PaddedLog.Layout n xp) (h : Holds n xp E ms s) (hc : c.Valid xp)
    (hE : ∀ b w, c = .write b w → (b, w) ∈ E) :
    wp diskSem (c.exec xp ms) (Holds n xp {e ∈ E | e.1 ∉ c.PastLog}) (MLog.HoldsCrash n xp E)
      s := by
  -- calls without writes past the log only have to keep the entries in `E`
  have hkeep : ∀ {ms' : MemState} {s'}, Holds n xp E ms' s' →
      Holds n xp {e ∈ E | e.1 ∉ (∅ : Set ℕ)} ms' s' := by
    intro ms' s' h'
    exact h'.mono fun e he => ⟨he, Set.notMem_empty e.1⟩
  cases c with
  | begin => exact wp_pure (hkeep h)
  | abort => exact wp_pure (hkeep (holds_empty h.glog))
  | commit =>
    apply wp_bind
    unfold commit
    apply wp_bind
    apply h.glog.wp_submit h.txn
    intro mm ok h'
    dsimp only
    split_ifs
    · apply wp_bind
      apply h'.wp_flushall hl
      exact fun mm' s' h'' _ => wp_pure (wp_pure (hkeep (holds_empty h'')))
    · exact wp_pure (wp_pure (hkeep (holds_empty h')))
  | commitRo => exact wp_pure (hkeep (holds_empty h.glog))
  | flushall =>
    apply wp_bind
    apply h.glog.wp_flushall hl
    exact fun mm s' h' _ => wp_pure (hkeep ⟨h', h.txn⟩)
  | flushsync =>
    apply wp_bind
    apply h.glog.wp_flushsync hl
    exact fun mm s' h' => wp_pure (hkeep ⟨h', h.txn⟩)
  | read a =>
    apply wp_bind
    unfold read
    split
    · exact wp_pure (wp_pure (hkeep h))
    · apply wp_bind
      apply h.glog.wp_read hl hc
      exact fun mm v s' h' => wp_pure (wp_pure (hkeep ⟨h', h.txn⟩))
  | write b w => exact wp_pure (hkeep (h.insert hc (hE b w rfl)))
  | dwrite b w =>
    apply wp_bind
    apply h.glog.wp_dwrite hl hc
    exact fun mm s' h' => wp_pure ⟨h', h.txn_erase b⟩
  | dwriteVecs avl =>
    apply wp_bind
    apply h.glog.wp_dwriteVecs hl hc
    exact fun mm s' h' => wp_pure (holds_empty h')
  | dsync b =>
    apply wp_bind
    apply h.glog.wp_dsync
    exact fun mm s' h' => wp_pure (hkeep ⟨h', h.txn⟩)
  | dsyncVecs al =>
    apply wp_bind
    apply h.glog.wp_dsyncVecs
    exact fun mm s' h' => wp_pure (hkeep ⟨h', h.txn⟩)
  | syncCache =>
    apply wp_bind
    apply h.glog.wp_syncCache
    exact fun mm s' h' => wp_pure (hkeep ⟨h', h.txn⟩)

/-- The entries whose value for block `a` is in `S`. -/
def entriesOf (a : ℕ) (S : Set Valu) : Set (ℕ × Valu) := {e | e.1 = a → e.2 ∈ S}

omit [Platform] in
theorem entriesOf_mono {T : Set Valu} (h : S ⊆ T) : entriesOf a S ⊆ entriesOf a T :=
  fun _ he hea => h (he hea)

theorem Holds.wp_call_entriesOf (hl : PaddedLog.Layout n xp) (h : Holds n xp (entriesOf a S) ms s)
    (hc : c.Valid xp) (hS : c.LogsIn a S) :
    wp diskSem (c.exec xp ms) (Holds n xp (entriesOf a S)) (MLog.HoldsCrash n xp (entriesOf a S))
      s := by
  refine wp_mono (h.wp_call hl hc ?_) (fun _ _ h' => h'.mono (Set.sep_subset _ _)) fun _ => id
  rintro b w rfl
  exact hS

theorem wp_recoverBoot_holds (hl : PaddedLog.Layout n xp) (hc : MLog.HoldsCrash n xp E s)
    (hr : Reboot s s') :
    wp diskSem (recoverBoot k xp) (Holds n xp E) (MLog.HoldsCrash n xp E) s' := by
  apply BufCache.wp_boot hc hr fun m hm f hL hf => hL.crash hl hf
  intro cs f hm s h hL
  apply wp_bind
  apply wp_bind
  apply MLog.wp_recover_holds hl h hL
  intro mm s' h'
  exact wp_pure (wp_pure (holds_empty (GLog.holds_nil h')))

/-- Crashes and recoveries do not bring back what a client has not logged. -/
theorem Holds.after {ms₀ : MemState} {s₀ : St} (hl : PaddedLog.Layout n xp)
    (h₀ : Holds n xp (entriesOf a S) ms₀ s₀) (h : After k xp (Call.LogsIn a S) ms₀ s₀ ms s) :
    Holds n xp (entriesOf a S) ms s := by
  refine Reaches.inv (C := MLog.HoldsCrash n xp (entriesOf a S)) h ?_ ?_ ?_ ?_
  · rintro ms s ⟨rfl, rfl⟩
    exact h₀
  · exact fun c ms s hc h => h.wp_call_entriesOf hl hc.1 hc.2
  · exact fun ms s h => h.glog.mlog.crash
  · exact fun s₁ s₂ hc hr => wp_recoverBoot_holds hl hc hr

/-- What a client can see of block `a` after `v` has been written to it past the log. -/
structure NotShadowed (n k : ℕ) (xp : LogXparams) (a : ℕ) (v : Valu) (ms : MemState) (s : St) :
    Prop where
  /-- Until the block is written again, reads return the value. -/
  read : ∀ cs : List Call, (∀ c ∈ cs, c.Valid xp ∧ c.WritesIn a ∅) →
    wp diskSem (do
      let ms ← runCalls xp cs ms
      LOG.read xp a ms) (fun r _ => r.2 = v) (fun _ => True) s
  /-- In all states that are reached afterwards, with crashes and recoveries, the entries for the
  block, in memory and on disk, are those that have been logged since. -/
  entries : ∀ (S : Set Valu) (ms₁ : MemState) (s₁ : St),
    After k xp (Call.LogsIn a S) ms s ms₁ s₁ → Holds n xp (entriesOf a S) ms₁ s₁
  /-- So are those that recovery finds when a call is interrupted. -/
  crashed : ∀ (S : Set Valu) (ms₁ : MemState) (s₁ : St),
    After k xp (Call.LogsIn a S) ms s ms₁ s₁ → ∀ c : Call, c.Valid xp → c.LogsIn a S →
      wp diskSem (c.exec xp ms₁) (Holds n xp (entriesOf a S))
        (MLog.HoldsCrash n xp (entriesOf a S)) s₁
  /-- Once the block has been synced, reads return the value or one that has been written since,
  also after crashes and recoveries. -/
  synced : ∀ (S : Set Valu) (cs : List Call) (c : Call),
    (∀ c ∈ cs, c.Valid xp ∧ c.WritesIn a S) → c.Valid xp → c.Syncs a →
    wp diskSem (do
      let ms ← runCalls xp cs ms
      c.exec xp ms) (fun ms₁ s₁ => ∀ ms₂ s₂, After k xp (Call.WritesIn a S) ms₁ s₁ ms₂ s₂ →
        wp diskSem (LOG.read xp a ms₂) (fun r _ => r.2 ∈ insert v S) (fun _ => True) s₂)
      (fun _ => True) s

theorem KeepsBlock.wp_sync (hl : PaddedLog.Layout n xp) (hc : c.Valid xp) (hs : c.Syncs a)
    (h : KeepsBlock n xp a S (fun D => D.cur a ∈ S) ms s) :
    wp diskSem (c.exec xp ms) (KeepsBlock n xp a S fun D => D.cur a ∈ S ∧ D.poss a ⊆ S)
      (LCrash n xp Set.univ) s := by
  obtain ⟨A, h, hk⟩ := h
  refine wp_mono (wp_call hl h hc (Set.subset_univ _) (Set.subset_univ _)) ?_ fun _ => id
  exact fun ms' s' h' => ⟨_, h', hs.keeps hk⟩

theorem notShadowed_of_keeps (hl : PaddedLog.Layout n xp) (ha : a < MLog.dataSize xp)
    (hk : KeepsBlock n xp a ∅ (fun D => D.cur a = v) ms s) (hh : Holds n xp (entriesOf a ∅) ms s) :
    NotShadowed n k xp a v ms s where
  read cs hc := by
    have hT : ∀ D : ADisk, D.cur a = v → D.cur a ∈ ({v} : Set Valu) := fun _ h => h
    have hrun := hk.wp_runCalls hl (LogSt.stable_cur_eq a v) hc
    refine (wp_bind (wp_mono hrun (fun ms' s' h' => ?_) fun _ => id)).anyCrash
    exact h'.wp_read hl ha (Set.empty_subset _) hT
  entries S ms₁ s₁ h := (hh.mono (entriesOf_mono (Set.empty_subset S))).after hl h
  crashed S ms₁ s₁ h c hc hS :=
    ((hh.mono (entriesOf_mono (Set.empty_subset S))).after hl h).wp_call_entriesOf hl hc hS
  synced S cs c hcs hc hs := by
    have hk' : KeepsBlock n xp a (insert v S) (fun D => D.cur a ∈ insert v S) ms s := by
      obtain ⟨A, h, hA, ht⟩ := hk
      exact ⟨A, h, hA.mono fun D hD => .inl hD, fun w hw => (ht w hw).elim⟩
    have hins : ∀ c' : Call, c'.WritesIn a S → c'.WritesIn a (insert v S) :=
      fun c' h' => h'.mono (Set.subset_insert v S)
    have hrun := hk'.wp_runCalls hl (LogSt.stable_cur_mem a _)
      fun c' h' => ⟨(hcs c' h').1, hins c' (hcs c' h').2⟩
    refine (wp_bind (wp_mono hrun (fun ms' s' h' => ?_) fun _ => id)).anyCrash
    refine wp_mono (h'.wp_sync hl hc hs) (fun ms₁ s₁ h₁ ms₂ s₂ h₂ => ?_) fun _ => id
    have h₂' : After k xp (Call.WritesIn a (insert v S)) ms₁ s₁ ms₂ s₂ :=
      h₂.mono fun c' h' => ⟨h'.1, hins c' h'.2⟩
    exact ((h₁.after hl ha h₂').wp_read hl ha subset_rfl fun D hD => hD.1).anyCrash

/-- Direct writes are not shadowed and not replayed over.  Take any state that a client of the log
reaches and any call that writes `v` to block `a` past the log.  Afterwards reads return `v` until
the block is written again; all entries for the block, in the transaction, the group log, the memory
log and the disk log, have been logged after the direct write, in every state that any calls, crashes
and recoveries lead to; and a sync makes the value durable. -/
theorem dwrite_not_shadowed (hl : PaddedLog.Layout n xp) (h : Reachable n k xp ms s)
    (hc : c.Valid xp) (hd : c.Direct a v) :
    wp diskSem (c.exec xp ms) (NotShadowed n k xp a v) (fun _ => True) s := by
  obtain ⟨A, hA⟩ := h.lstate hl
  have hcall := wp_call hl hA hc (Set.subset_univ _) (Set.subset_univ _)
  have hholds := hA.holds.wp_call hl hc fun b w _ => Set.mem_univ (b, w)
  refine (wp_mono (wp_and hcall hholds) ?_ fun _ => id).anyCrash
  rintro ms' s' ⟨hA', hh⟩
  refine notShadowed_of_keeps hl (hd.lt_dataSize hc) ⟨_, hA', hd.keeps A⟩ (hh.mono ?_)
  rintro e ⟨-, he⟩ rfl
  exact absurd hd.mem_pastLog he

end LOG

namespace Sample

local instance logDirectPlatform : Platform := platform

/-- Block one of the sample disk has been written by a transaction that was committed and flushed into
the disk log. -/
theorem exists_flushed_write : ∃ ms s, LOG.Reachable 518 10 xp ms s ∧
    ms.msLL.msLL.msInLog = {(1, 7)} := by
  obtain ⟨cs, s, e⟩ := exists_flushed
  have h₀ : LOG.Reachable 518 10 xp ⟨∅, ⟨∅, [], ⟨∅, BufCache.cache0 10⟩⟩⟩ boot :=
    .init ⟨rfl, rfl, initialised_boot⟩
  have hcall : ∀ {c : LOG.Call} {ms ms' s s'}, LOG.Reachable 518 10 xp ms s → c.Valid xp →
      Exec diskSem s (c.exec xp ms) (.finished s' ms') → LOG.Reachable 518 10 xp ms' s' :=
    fun h hc e => .call h hc (.finish e) ⟨rfl, rfl⟩
  have hvalid : (LOG.Call.write 1 7).Valid xp := by
    show 1 ≠ 0 ∧ 1 < MLog.dataSize xp
    decide
  have h₁ := hcall h₀ hvalid (.ret _ _)
  have h₂ := hcall h₁ (c := .commit) trivial
    (.bindFinish (.bindFinish (.ret _ _) (.ret _ _)) (.ret _ _))
  have h₃ := hcall h₂ (c := .flushall) trivial
    (.bindFinish (.bindFinish e (.ret _ _)) (.ret _ _))
  exact ⟨_, s, h₃, rfl⟩

/-- After that it is written past the log. -/
theorem dwrite_not_shadowed_flushed : ∃ ms s, LOG.Reachable 518 10 xp ms s ∧
    ms.msLL.msLL.msInLog = {(1, 7)} ∧
    wp diskSem ((LOG.Call.dwrite 1 8).exec xp ms) (LOG.NotShadowed 518 10 xp 1 8) (fun _ => True)
      s := by
  obtain ⟨ms, s, h, hlog⟩ := exists_flushed_write
  have hc : (LOG.Call.dwrite 1 8).Valid xp := by
    show 1 < MLog.dataSize xp
    decide
  exact ⟨ms, s, h, hlog, LOG.dwrite_not_shadowed layout h hc ⟨rfl, rfl⟩⟩

end Sample

end Fscq
