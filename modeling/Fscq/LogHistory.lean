import Fscq.LogProg

/-!
# The disks below the pending transactions

A crash keeps the first ones of the pending transactions, so that what is on disk afterwards is one
of the disks `LogSt.upto A k`.  `A.Every P` says that `P` holds of all of them; the lemmas say how the
operations of the log change them.
-/

namespace Fscq

namespace ADisk

/-- The order of a sync and of a transaction that becomes durable does not matter. -/
theorem install_sync (B : ADisk) (S : Set ℕ) (mp : Valumap) :
    (B.sync S).install mp = (B.install mp).sync S := by
  unfold install sync
  congr 1
  funext a
  dsimp only
  cases mp[a]? with
  | none => rfl
  | some v =>
    ext x
    constructor
    · exact fun hx => ⟨hx, fun _ => hx⟩
    · exact fun hx => hx.1

/-- A crash may leave the latest values. -/
def Latest (m : ADisk) : Prop := ∀ a, m.cur a ∈ m.poss a

variable {m : ADisk}

theorem latest_synced (f : ℕ → Valu) : (synced f).Latest := fun _ => rfl

theorem Latest.write (h : m.Latest) (a : ℕ) (v : Valu) : (m.write a v).Latest := by
  intro b
  rcases eq_or_ne b a with rfl | hne
  · simp [ADisk.write]
  · simpa [ADisk.write, hne] using h b

theorem Latest.install (h : m.Latest) (mp : Valumap) : (m.install mp).Latest := by
  intro a
  unfold ADisk.install
  dsimp only
  cases mp[a]? with
  | none => exact h a
  | some v => rfl

theorem Latest.sync (h : m.Latest) (S : Set ℕ) : (m.sync S).Latest := fun a => ⟨h a, fun _ => rfl⟩

end ADisk

/-- A block that no pending transaction holds is in none of the first ones. -/
theorem GLog.collapse_append_none {p q : List PaddedLog.Contents} {a : ℕ}
    (h : (collapse (p ++ q))[a]? = none) : (collapse p)[a]? = none := by
  induction q using List.reverseRecOn with
  | nil => rwa [List.append_nil] at h
  | append_singleton q ents ih =>
    rw [← List.append_assoc, collapse_append, getElem?_replayMem, Option.or_eq_none_iff] at h
    exact ih h.2

namespace LogSt

variable {A B : LogSt} {P P' : ADisk → Prop} {t : Valumap} {a : ℕ} {v : Valu}

/-- The disk with the first `k` pending transactions. -/
def upto (A : LogSt) (k : ℕ) : ADisk := GLog.installAll A.base (A.pend.take k)

/-- The property holds whatever pending transactions a crash keeps. -/
def Every (A : LogSt) (P : ADisk → Prop) : Prop := ∀ k ≤ A.pend.length, P (A.upto k)

theorem upto_length (A : LogSt) : A.upto A.pend.length = A.disk := by
  rw [upto, List.take_length, LogSt.disk]

theorem Every.disk (h : A.Every P) : P A.disk := A.upto_length ▸ h _ le_rfl

theorem Every.mono (h : A.Every P) (hP : ∀ D, P D → P' D) : A.Every P' := fun k hk => hP _ (h k hk)

theorem Every.and (h : A.Every P) (h' : A.Every P') : A.Every fun D => P D ∧ P' D :=
  fun k hk => ⟨h k hk, h' k hk⟩

theorem every_of_pend (h : A.pend = []) (hP : P A.disk) : A.Every P := by
  intro k hk
  rw [h] at hk
  obtain rfl : k = A.pend.length := by
    rw [h]
    exact Nat.le_zero.1 hk
  rwa [upto_length]

/-- Only the active transaction has changed. -/
theorem disk_congr (hb : B.base = A.base) (hp : B.pend = A.pend) : B.disk = A.disk := by
  rw [LogSt.disk, hb, hp, LogSt.disk]

theorem Every.congr (h : A.Every P) (hb : B.base = A.base) (hp : B.pend = A.pend) : B.Every P := by
  intro k hk
  rw [hp] at hk
  rw [upto, hb, hp]
  exact h k hk

/-- A crash may leave what has been committed. -/
theorem cur_mem_crashes (h : A.disk.Latest) (xp : LogXparams) :
    (fun a => if a < MLog.dataSize xp then A.disk.cur a else 0) ∈ A.crashes xp := by
  refine ⟨A.pend.length, le_rfl, fun a => ?_⟩
  rw [List.take_length]
  dsimp only
  split_ifs with ha
  · exact h a
  · rfl

theorem Every.push (h : A.Every P) (ht : P (A.push t).disk) : (A.push t).Every P := by
  intro k hk
  have hlen : (A.push t).pend.length = A.pend.length + 1 := List.length_append
  rcases Nat.lt_or_ge A.pend.length k with hlt | hle
  · obtain rfl : k = (A.push t).pend.length := by omega
    rwa [upto_length]
  · have htake : (A.push t).pend.take k = A.pend.take k := List.take_append_of_le_length hle
    rw [upto, htake]
    exact h k hle

theorem Every.flushed (h : A.Every P) (hB : Flushed A B) : B.Every P := by
  cases hB with
  | same => exact h
  | flushed => exact every_of_pend rfl h.disk

/-- A write past the log is a write to all these disks. -/
theorem Every.dwrite (h : A.Every P) (hw : ∀ D, P D → P' (D.write a v)) :
    (A.dwrite a v).Every P' := by
  by_cases ha : a ∈ GLog.collapse A.pend
  · apply every_of_pend
    · rw [LogSt.dwrite, if_pos ha]
      rfl
    · rw [disk_dwrite]
      exact hw _ h.disk
  · have hd : A.dwrite a v = { A with base := A.base.write a v, txn := A.txn.erase a } := by
      rw [LogSt.dwrite, if_neg ha]
    rw [hd]
    intro k hk
    have hnone : (GLog.collapse (A.pend.take k))[a]? = none := by
      apply GLog.collapse_append_none (q := A.pend.drop k)
      rw [List.take_append_drop]
      exact Std.ExtTreeMap.getElem?_eq_none ha
    have hupto : LogSt.upto { A with base := A.base.write a v, txn := A.txn.erase a } k =
        (A.upto k).write a v := by
      rw [upto, upto, GLog.installAll_eq, GLog.installAll_eq]
      exact ADisk.install_write A.base hnone v
    rw [hupto]
    exact hw _ (h k hk)

theorem disk_dsyncVecs (A : LogSt) (al : List ℕ) :
    (A.dsyncVecs al).disk = A.disk.sync {a | a ∈ al} := by
  rw [LogSt.disk, LogSt.disk, GLog.installAll_eq, GLog.installAll_eq]
  exact ADisk.install_sync A.base _ _

theorem Every.sync {S : Set ℕ} (h : A.Every P) (hs : ∀ D, P D → P' (D.sync S)) :
    LogSt.Every { A with base := A.base.sync S } P' := by
  intro k hk
  have hupto : LogSt.upto { A with base := A.base.sync S } k = (A.upto k).sync S := by
    rw [upto, upto, GLog.installAll_eq, GLog.installAll_eq, ADisk.install_sync]
  rw [hupto]
  exact hs _ (h k hk)

theorem latest_disk (h : A.base.Latest) : A.disk.Latest := by
  rw [LogSt.disk, GLog.installAll_eq]
  exact h.install _

/-- After every operation a crash may leave the latest values. -/
theorem latest_apply {α : Type} {xp : LogXparams} (h : A.base.Latest) (o : LogOp α) :
    (LogProg.apply xp o A).2.base.Latest := by
  cases o with
  | submit =>
    change (A.submit xp).1.base.Latest
    rwa [A.submit_base]
  | flushall => exact latest_disk h
  | flushsync => exact latest_disk h
  | dwrite a v =>
    change (A.dwrite a v).base.Latest
    rw [LogSt.dwrite]
    split_ifs
    · exact (latest_disk h).write a v
    · exact h.write a v
  | dsyncVecs al => exact h.sync _
  | syncCache => exact h.sync _
  | _ => exact h

theorem latest_run {α : Type} {xp : LogXparams} (p : LogProg α) (h : A.base.Latest) :
    (LogProg.run xp p A).2.base.Latest := by
  induction p generalizing A with
  | ret v => exact h
  | op o => exact latest_apply h o
  | bind p k ihp ihk => exact ihk _ (ihp h)

end LogSt

end Fscq
