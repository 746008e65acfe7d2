import Fscq.AsyncFSRun

/-!
# Calls that fail

A call that is one transaction leaves nothing behind when it fails: the caches are those from before
the call, no transaction is active, and the log has at most been flushed, which no later program can
see.  This holds in every state that calls can lead to, whatever their arguments.
-/

namespace Fscq

open CrashProg

open BFILE (MemState)

open LogSt (Flushed)

theorem LogProg.run_lift {α : Type} (xp : LogXparams) (p : TxnProg α) (L : LogSt) :
    LogProg.run xp (LogProg.lift p) L = Txn.exec p L := by
  induction p generalizing L with
  | ret v => rfl
  | op o => cases o <;> rfl
  | bind p k ihp ihk =>
    have hrun : LogProg.run xp (LogProg.lift (.bind p k)) L =
        LogProg.run xp (LogProg.lift (k (LogProg.run xp (LogProg.lift p) L).1))
          (LogProg.run xp (LogProg.lift p) L).2 := rfl
    rw [hrun, ihk, ihp]
    rfl

theorem LogProg.run_begin (xp : LogXparams) (L : LogSt) :
    LogProg.run xp LogProg.begin L = (L.txn, L) := rfl

theorem LogProg.run_use (xp : LogXparams) (t : Valumap) (L : LogSt) :
    LogProg.run xp (LogProg.use t) L = ((), { L with txn := t }) := rfl

theorem LogProg.run_commit [Platform] (xp : LogXparams) (L : LogSt) :
    LogProg.run xp LogProg.commit L = ((L.commit xp).2, (L.commit xp).1) := by
  rw [LogProg.commit_eq]
  by_cases hf : shouldFlushall = true
  · simp only [LogProg.commit, if_pos hf]
    rfl
  · simp only [LogProg.commit, if_neg hf]
    rfl

theorem LogSt.commit_of_false [Platform] {xp : LogXparams} {L : LogSt}
    (h : (L.commit xp).2 = false) : Flushed L.abort (L.commit xp).1 := by
  rw [LogSt.commit_snd] at h
  rw [LogSt.commit_fst, LogSt.submit_of_false h]
  split_ifs
  · exact .flushed
  · exact .same

theorem Txn.abort_exec {α : Type} {L : LogSt} (hL : L.txn = ∅) (p : TxnProg α) :
    (Txn.exec p L).2.abort = L := by
  obtain ⟨-, -, hb, hp⟩ := Txn.exec_eq p L
  rw [LogSt.abort, LogSt.mk.injEq]
  exact ⟨hb, hp, hL.symm⟩

theorem LogSt.Flushed.toSame {L L' : LogSt} (h : Flushed L L') : L'.Same L :=
  ⟨by rw [h.disk], h.txn⟩

namespace AFS

variable {α : Type} {fsxp : FsXparams} {xp : LogXparams} {L L' : LogSt} {ams ams' : MemState}

/-! ### Between two calls, no transaction is active -/

/-- After the program, no transaction is active if none was before. -/
def Settles (xp : LogXparams) (p : LogProg α) : Prop :=
  ∀ L, L.txn = ∅ → (LogProg.run xp p L).2.txn = ∅

/-- After the program, no transaction is active. -/
def Closes (xp : LogXparams) (p : LogProg α) : Prop := ∀ L, (LogProg.run xp p L).2.txn = ∅

theorem Closes.settles {p : LogProg α} (h : Closes xp p) : Settles xp p := fun L _ => h L

theorem closes_bind {β : Type} {p : LogProg α} {q : α → LogProg β} (h : ∀ v, Closes xp (q v)) :
    Closes xp (p >>= q) := fun L => h _ (LogProg.run xp p L).2

theorem closes_abort_then (v : α) : Closes xp (LogProg.abort >>= fun _ => pure v) := fun _ => rfl

theorem settles_pure (v : α) : Settles xp (pure v) := fun _ => id

theorem settles_bind {β : Type} {p : LogProg α} {q : α → LogProg β} (hp : Settles xp p)
    (hq : ∀ v, Settles xp (q v)) : Settles xp (p >>= q) := fun L hL => hq _ _ (hp L hL)

theorem closes_readonly (p : MemState → TxnProg (MemState × α)) (ams : MemState) :
    Closes xp (readonly p ams) :=
  closes_bind fun _ => closes_bind fun r => closes_abort_then r

section

variable [Platform]

theorem closes_commit : Closes xp LogProg.commit := by
  intro L
  rw [LogProg.run_commit]
  exact L.commit_txn xp

/-- A program that ends in a commit, and then only says what happened. -/
theorem closes_commit_ite {p q : α} :
    Closes xp (LogProg.commit >>= fun ok => if ok then pure p else pure q) := by
  intro L
  have hrun : ∀ b : Bool, LogProg.run xp (if b then pure p else pure q : LogProg α)
      (LogProg.run xp LogProg.commit L).2 =
        (if b then p else q, (LogProg.run xp LogProg.commit L).2) := by
    rintro (_ | _) <;> rfl
  exact (congrArg (fun r => r.2.txn) (hrun _)).trans (closes_commit L)

theorem closes_transact (p : MemState → TxnProg (MemState × Res α)) (ams : MemState) :
    Closes xp (transact p ams) := by
  refine closes_bind fun _ => closes_bind ?_
  rintro ⟨ams', r⟩
  cases r with
  | error e => exact closes_abort_then _
  | ok v => exact closes_commit_ite

theorem closes_rebind (p : MemState → TxnProg (MemState × Res α)) (ams : MemState) :
    Closes xp (rebind p ams) := by
  refine closes_bind fun _ => closes_bind ?_
  rintro ⟨ams', r⟩
  cases r with
  | error e => exact closes_abort_then _
  | ok v => exact closes_commit_ite

theorem closes_ftruncate (inum sz : ℕ) (ams : MemState) :
    Closes xp (ftruncate fsxp inum sz ams) := by
  refine closes_bind fun _ => closes_bind ?_
  rintro ⟨ams', r⟩
  cases r with
  | error e => exact closes_abort_then _
  | ok v => exact closes_bind fun _ => closes_bind fun _ => closes_commit_ite

/-- Setting the size writes one block, so that the commit does not fail. -/
theorem settles_fileSetSz (hlog : 0 < xp.logLen) (inum : ℕ) (sz : BitVec 64) (ams : MemState) :
    Settles xp (fileSetSz fsxp inum sz ams) := by
  intro L hL
  have ht := Txn.logs_exec (DIRTREE.updattr fsxp inum (.uBytes sz) ams) L
  have hlen := ht.length_le hL (BFILE.atMost_updattr fsxp.inode inum _ ams)
  rw [← LogProg.run_lift xp] at hlen
  have hcommit : ∀ L₁ : LogSt, L₁.txn.toList.length ≤ xp.logLen → ∀ ams' : MemState,
      LogProg.run xp (do
        let t ← LogProg.begin
        let ok ← LogProg.commit
        if ok then pure (ams', .ok ())
        else do
          LogProg.use t
          pure (ams', .error .ELOGOVERFLOW) : LogProg (MemState × Res Unit)) L₁ =
        ((ams', .ok ()), (L₁.commit xp).1) := by
    intro L₁ h₁ ams'
    have hok : (L₁.commit xp).2 = true := by
      rw [LogSt.commit_snd, LogSt.submit, if_pos h₁]
    change LogProg.run xp (if (LogProg.run xp LogProg.commit L₁).1 then _ else _)
      (LogProg.run xp LogProg.commit L₁).2 = _
    rw [LogProg.run_commit, hok]
    rfl
  have hrun := hcommit _ (hlen.trans hlog)
    (LogProg.run xp (LogProg.lift (DIRTREE.updattr fsxp inum (.uBytes sz) ams)) L).1
  exact (congrArg (fun r => r.2.txn) hrun).trans (LogSt.commit_txn _ xp)

/-- A call that is made between two transactions leaves no transaction active. -/
theorem Call.settles (hlog : 0 < xp.logLen) (c : Call) (ams : MemState) :
    Settles xp (c.exec fsxp ams) := by
  cases c with
  | fileGetAttr inum => exact settles_bind (closes_readonly _ ams).settles fun _ => settles_pure _
  | fileGetSz inum =>
    exact settles_bind (settles_bind (closes_readonly _ ams).settles fun _ => settles_pure _)
      fun _ => settles_pure _
  | readFblock inum off => exact settles_bind (closes_readonly _ ams).settles fun _ => settles_pure _
  | lookup dnum names => exact settles_bind (closes_readonly _ ams).settles fun _ => settles_pure _
  | readdir dnum => exact settles_bind (closes_readonly _ ams).settles fun _ => settles_pure _
  | statfs => exact fun _ _ => rfl
  | fileSetAttr inum attr =>
    rw [exec, AFS.fileSetAttr]
    exact (closes_transact _ ams).settles
  | fileTruncate inum sz => exact (closes_transact _ ams).settles
  | create dnum name => exact settles_bind (closes_transact _ ams).settles fun _ => settles_pure _
  | delete dnum name => exact (closes_transact _ ams).settles
  | rename dnum srcpath srcname dstpath dstname => exact (closes_transact _ ams).settles
  | fileSetSz inum sz => exact settles_fileSetSz hlog inum sz ams
  | mksock dnum name => exact settles_bind (closes_rebind _ ams).settles fun _ => settles_pure _
  | mkdir dnum name => exact settles_bind (closes_rebind _ ams).settles fun _ => settles_pure _
  | ftruncate inum sz => exact (closes_ftruncate inum sz ams).settles
  | updateFblock inum off v =>
    have h : Closes xp (AFS.updateFblock fsxp inum off v ams) :=
      closes_bind fun _ => closes_bind fun _ L => closes_commit L
    exact settles_bind h.settles fun _ => settles_pure _
  | updateFblockD inum off v => exact fun _ _ => rfl
  | fileSync inum => exact fun _ _ => rfl
  | treeSync => exact fun _ hL => hL
  | umount => exact fun _ hL => hL

/-! ### What a call that fails leaves behind -/

/-- A commit that fails drops the transaction, and at most flushes the log. -/
theorem of_run_commit {L₁ : LogSt} {ams₁ : MemState} {v : α} {e : Errno} (hL₁ : L₁.abort = L)
    (hr : LogProg.run xp (do
      let ok ← LogProg.commit
      if ok then pure (ams₁, .ok v) else pure (ams, .error .ELOGOVERFLOW) :
        LogProg (MemState × Res α)) L₁ = ((ams', .error e), L')) :
    ams' = ams ∧ Flushed L L' := by
  change LogProg.run xp (if (LogProg.run xp LogProg.commit L₁).1 then _ else _)
    (LogProg.run xp LogProg.commit L₁).2 = _ at hr
  rw [LogProg.run_commit] at hr
  cases hok : (L₁.commit xp).2 with
  | true =>
    rw [hok] at hr
    obtain ⟨hams, -⟩ := Prod.mk.inj hr
    exact nomatch (Prod.mk.inj hams).2
  | false =>
    have hfl := LogSt.commit_of_false hok
    rw [hok] at hr
    obtain ⟨hams, rfl⟩ := Prod.mk.inj hr
    rw [hL₁] at hfl
    exact ⟨(Prod.mk.inj hams).1.symm, hfl⟩

omit [Platform] in
/-- A program that drops its transaction and fails. -/
theorem of_run_abort {L₁ : LogSt} {e e₁ : Errno} (hL₁ : L₁.abort = L)
    (hr : LogProg.run xp (do
      LogProg.abort
      pure (ams, .error e₁) : LogProg (MemState × Res α)) L₁ = ((ams', .error e), L')) :
    ams' = ams ∧ Flushed L L' := by
  have hr : (((ams, .error e₁) : MemState × Res α), L₁.abort) = ((ams', .error e), L') := hr
  rw [hL₁] at hr
  obtain ⟨hams, rfl⟩ := Prod.mk.inj hr
  exact ⟨(Prod.mk.inj hams).1.symm, .same⟩

/-- A transaction that fails keeps the caches, and at most flushes the log. -/
theorem of_run_transact {p : MemState → TxnProg (MemState × Res α)} {e : Errno} (hL : L.txn = ∅)
    (hr : LogProg.run xp (transact p ams) L = ((ams', .error e), L')) :
    ams' = ams ∧ Flushed L L' := by
  have habort := Txn.abort_exec hL (p ams)
  rw [← LogProg.run_lift xp] at habort
  rw [transact, LogProg.run_bind, LogProg.run_begin, LogProg.run_bind] at hr
  dsimp only at hr
  generalize LogProg.run xp (LogProg.lift (p ams)) L = x at hr habort
  obtain ⟨⟨ams₁, r₁⟩, L₁⟩ := x
  cases r₁ with
  | error e₁ => exact of_run_abort habort hr
  | ok v => exact of_run_commit habort hr

/-- So does setting the length. -/
theorem of_run_ftruncate {inum sz : ℕ} {e : Errno} (hL : L.txn = ∅)
    (hr : LogProg.run xp (ftruncate fsxp inum sz ams) L = ((ams', .error e), L')) :
    ams' = ams ∧ Flushed L L' := by
  have habort := Txn.abort_exec hL (DIRTREE.truncate fsxp inum ((sz + valulen - 1) / valulen) ams)
  rw [← LogProg.run_lift xp] at habort
  rw [ftruncate, LogProg.run_bind, LogProg.run_begin, LogProg.run_bind] at hr
  dsimp only at hr
  generalize LogProg.run xp (LogProg.lift
    (DIRTREE.truncate fsxp inum ((sz + valulen - 1) / valulen) ams)) L = x at hr habort
  obtain ⟨⟨ams₁, r₁⟩, L₁⟩ := x
  cases r₁ with
  | error e₁ => exact of_run_abort habort hr
  | ok v =>
    -- the transaction is the empty one of the start again, so that the size is set on the old disk
    have huse : { L₁ with txn := L.txn } = L := by
      rw [hL]
      exact habort
    dsimp only at hr
    rw [LogProg.run_bind, LogProg.run_use, huse, LogProg.run_bind] at hr
    have habort' := Txn.abort_exec hL (DIRTREE.updattr fsxp inum (.uBytes (addr2w sz)) ams₁)
    rw [← LogProg.run_lift xp] at habort'
    exact of_run_commit habort' hr

end

/-- The calls that are one transaction, which is rolled back with all caches when it fails. -/
def Call.IsTransaction : Call → Prop
  | .fileSetAttr _ _ => True
  | .fileTruncate _ _ => True
  | .create _ _ => True
  | .delete _ _ => True
  | .rename _ _ _ _ _ => True
  | _ => False

/-- The caches agree with the disk: the free lists with the bitmaps, the inode records with the inode
blocks, and the cached directories with the directories; a block that has not been synced is dirty. -/
structure Consistent (fsxp : FsXparams) (L : LogSt) (ams : MemState) : Prop where
  blocks : BFILE.Coherent fsxp L.disk.cur ams.msAllocC
  inodes : IAlloc.Coh L.disk.cur fsxp ams.msIAllocC
  records : INODE.irecSig.CacheOk L.disk.cur fsxp.inode ams.msICache
  dirs : ∀ d r, ams.msCache[d]? = some r → InTree fsxp L.disk.cur d true ∧
    CacheOneDir.Agrees (SDIR.dents (BFILE.file fsxp L.disk.cur d)) r.1
  dirty : ∀ j < INODE.ninodes fsxp.inode, ∀ a ∈ BFILE.blocks fsxp L.disk.cur j,
    a ∉ BFILE.getDirty j ams.msDBlocks → L.disk.SyncedAt a

theorem Ok.consistent {n : ℕ} {A : Finset ℕ} {K : ℕ → Bool} (h : Ok n fsxp A K L ams) :
    Consistent fsxp L ams where
  blocks := h.coh
  inodes := h.tree.icoh
  records := h.tree.inv.icache
  dirs d r hr := by
    obtain ⟨hd, hK, hagree⟩ := h.tree.cache d r hr
    exact ⟨(inTree_iff h.tree h.root).2 ⟨hd, hK⟩, hagree⟩
  dirty := h.dirty

/-- A state that is as if nothing had been done: all caches are the same, and so is the disk; no
transaction is active; every program has the same answer and leads to the same disk; and a crash leads
to no other disk. -/
structure RolledBack (xp : LogXparams) (L : LogSt) (ams : MemState) (L' : LogSt)
    (ams' : MemState) : Prop where
  txn : L'.txn = ∅
  disk : L'.disk = L.disk
  mem : ams' = ams
  later : ∀ {α : Type} (p : MemState → LogProg α),
    (LogProg.run xp (p ams') L').1 = (LogProg.run xp (p ams) L).1 ∧
      (LogProg.run xp (p ams') L').2.Same (LogProg.run xp (p ams) L).2
  crash : L'.crashes xp ⊆ L.crashes xp

theorem crashes_flushed (h : Flushed L L') : L'.crashes xp ⊆ L.crashes xp := by
  cases h with
  | same => exact subset_rfl
  | flushed =>
    rintro D ⟨k, -, hD⟩
    refine ⟨L.pend.length, le_rfl, ?_⟩
    rw [LogSt.flushall, List.take_nil] at hD
    rw [List.take_length]
    exact hD

section

variable [Platform] {g : Geometry} {P : LogSt → MemState → Call → Res Unit → Prop}

theorem Reach.txn (h : Reach g (Call.exec g.fsxp) P L ams) : L.txn = ∅ := by
  induction h with
  | mkfs h => exact (new_of_mkfs h).txn
  | @step L L' ams ams' c r h hr _ ih =>
    have hsettles : Settles g.fsxp.log (c.exec g.fsxp ams) := c.settles h.logLen_pos ams
    have hs := hsettles L ih
    rw [hr] at hs
    exact hs

theorem of_run_call {c : Call} {e : Errno} (hc : c.IsTransaction) (hL : L.txn = ∅)
    (hr : LogProg.run xp (c.exec fsxp ams) L = ((ams', .error e), L')) :
    ams' = ams ∧ Flushed L L' := by
  cases c with
  | fileSetAttr inum attr =>
    rw [Call.exec, fileSetAttr] at hr
    exact of_run_transact hL hr
  | fileTruncate inum sz => exact of_run_transact hL hr
  | create dnum name =>
    rw [Call.exec, LogProg.run_bind] at hr
    generalize hrun : LogProg.run xp (create fsxp dnum name ams) L = x at hr
    obtain ⟨⟨ams₁, r₁⟩, L₁⟩ := x
    obtain ⟨hr₁, rfl⟩ := Prod.mk.inj hr
    obtain ⟨rfl, hr₂⟩ := Prod.mk.inj hr₁
    cases r₁ with
    | ok v => exact nomatch hr₂
    | error e' => exact of_run_transact hL hrun
  | delete dnum name => exact of_run_transact hL hr
  | rename dnum srcpath srcname dstpath dstname => exact of_run_transact hL hr
  | _ => exact hc.elim

end

end AFS

end Fscq
