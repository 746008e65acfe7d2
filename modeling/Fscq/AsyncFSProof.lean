import Fscq.AsyncFS
import Fscq.DirTreeMove

/-!
# What the calls of the file system do

Rules for the kinds of transactions that the calls are made of, and what the calls that write and
sync blocks past the log do to the files.
-/

namespace Fscq

open CrashProg

open BFILE (MemState)

open LogSt (Flushed)

namespace AFS

/-- A crash condition: what is on disk and what is pending, but not the active transaction. -/
abbrev crashIn (C : ADisk → List PaddedLog.Contents → Prop) (L : LogSt) : Prop := C L.base L.pend

variable {α : Type} {n : ℕ} {xp : LogXparams} {L : LogSt} {ams : MemState}
  {C : ADisk → List PaddedLog.Contents → Prop}

section

variable (hL : L.txn = ∅) (hC : C L.base L.pend)

include hL

theorem abort_txn (t : Valumap) : LogSt.abort { L with txn := t } = L := by
  rw [LogSt.abort, ← hL]

include hC

theorem wp_readonly {p : MemState → TxnProg (MemState × α)} {Q : MemState × α → LogSt → Prop}
    (hp : Txn.wp n (p ams) (fun r _ => Q r L) L.disk.cur) :
    LogProg.wp n xp (readonly p ams) Q (crashIn C) L := by
  rw [← L.read_of_txn hL] at hp
  refine wp_bind (LogProg.wp_begin hC (wp_bind (LogProg.wp_lift (fun _ => hC) ?_)))
  apply Txn.wp_post hp
  intro r m hQ t _
  refine wp_bind (LogProg.wp_abort hC (wp_pure ?_))
  rw [abort_txn hL]
  exact hQ

variable [Platform]

/-- A transaction ends with one more pending transaction, or with no change at all if it fails or
does not fit into the log. -/
theorem wp_transact {p : MemState → TxnProg (MemState × Res α)}
    {Q : MemState × Res α → LogSt → Prop}
    (hp : Txn.wp n (p ams) (fun r m =>
      (∀ e, r.2 = .error e → Q (ams, .error e) L) ∧
      ∀ v, r.2 = .ok v → ∀ t, Txn.Logs (p ams) L t m → Txn.InRange n t →
        C L.base (L.pend ++ [t.toList]) ∧
        (t.toList.length ≤ xp.logLen → ∀ L', Flushed (L.push t) L' → Q (r.1, .ok v) L') ∧
        (xp.logLen < t.toList.length → ∀ L', Flushed L L' → Q (ams, .error .ELOGOVERFLOW) L'))
      L.disk.cur) :
    LogProg.wp n xp (transact p ams) Q (crashIn C) L := by
  rw [← L.read_of_txn hL] at hp
  have hw := Txn.writes_of_wp hp
  refine wp_bind (LogProg.wp_begin hC (wp_bind (LogProg.wp_lift (fun _ => hC) ?_)))
  apply Txn.wp_post hp
  rintro ⟨ams', r⟩ m ⟨hQe, hQ⟩ t ht
  cases r with
  | error e =>
    refine wp_bind (LogProg.wp_abort hC (wp_pure ?_))
    rw [abort_txn hL]
    exact hQe e rfl
  | ok v =>
    obtain ⟨hC', hQ, hQ₀⟩ := hQ v rfl t ht (ht.inRange hL hw)
    refine wp_bind (LogProg.wp_commit_of hC hC' hC ?_ ?_)
    · exact fun hlen L' hL' => wp_pure (hQ hlen L' hL')
    · intro hlen L' hL'
      rw [abort_txn hL] at hL'
      exact wp_pure (hQ₀ hlen L' hL')

/-- The same, for a transaction that keeps its caches when it fails. -/
theorem wp_rebind {p : MemState → TxnProg (MemState × Res α)} {Q : MemState × Res α → LogSt → Prop}
    (hp : Txn.wp n (p ams) (fun r m =>
      (∀ e, r.2 = .error e → Q (r.1, .error e) L) ∧
      ∀ v, r.2 = .ok v → ∀ t, Txn.Logs (p ams) L t m → Txn.InRange n t →
        C L.base (L.pend ++ [t.toList]) ∧
        (∀ L', Flushed (L.push t) L' → Q (r.1, .ok v) L') ∧
        (xp.logLen < t.toList.length → ∀ L', Flushed L L' → Q (r.1, .error .ELOGOVERFLOW) L'))
      L.disk.cur) :
    LogProg.wp n xp (rebind p ams) Q (crashIn C) L := by
  rw [← L.read_of_txn hL] at hp
  have hw := Txn.writes_of_wp hp
  refine wp_bind (LogProg.wp_begin hC (wp_bind (LogProg.wp_lift (fun _ => hC) ?_)))
  apply Txn.wp_post hp
  rintro ⟨ams', r⟩ m ⟨hQe, hQ⟩ t ht
  cases r with
  | error e =>
    refine wp_bind (LogProg.wp_abort hC (wp_pure ?_))
    rw [abort_txn hL]
    exact hQe e rfl
  | ok v =>
    obtain ⟨hC', hQ, hQ₀⟩ := hQ v rfl t ht (ht.inRange hL hw)
    refine wp_bind (LogProg.wp_commit_of hC hC' hC ?_ ?_)
    · exact fun _ L' hL' => wp_pure (hQ L' hL')
    · intro hlen L' hL'
      rw [abort_txn hL] at hL'
      exact wp_pure (hQ₀ hlen L' hL')

variable {fsxp : FsXparams} {inum : ℕ} (hlog : 0 < xp.logLen)

include hlog

/-- Setting the size writes one block, so that the commit does not fail. -/
theorem wp_fileSetSz {sz : BitVec 64} {Q : MemState × Res Unit → LogSt → Prop}
    (hp : Txn.wp n (DIRTREE.updattr fsxp inum (.uBytes sz) ams) (fun ams' m => ∀ t,
      Txn.Logs (DIRTREE.updattr fsxp inum (.uBytes sz) ams) L t m → Txn.InRange n t →
      C L.base (L.pend ++ [t.toList]) ∧
        ∀ L', Flushed (L.push t) L' → Q (ams', .ok ()) L') L.disk.cur) :
    LogProg.wp n xp (fileSetSz fsxp inum sz ams) Q (crashIn C) L := by
  rw [← L.read_of_txn hL] at hp
  have hw := Txn.writes_of_wp hp
  refine wp_bind (LogProg.wp_begin hC (wp_bind (LogProg.wp_lift (fun _ => hC) ?_)))
  apply Txn.wp_post hp
  intro ams' m hQ t ht
  obtain ⟨hC', hQ⟩ := hQ t ht (ht.inRange hL hw)
  have hlen := ht.length_le hL (BFILE.atMost_updattr fsxp.inode inum _ ams)
  refine wp_bind (LogProg.wp_begin hC (wp_bind ?_))
  apply LogProg.wp_commit_fits hC hC' (hlen.trans hlog)
  exact fun L' hL' => wp_pure (hQ L' hL')

theorem wp_updateFblock {off : ℕ} {v : Valu} {Q : MemState × Bool → LogSt → Prop}
    (hp : Txn.wp n (DIRTREE.write fsxp inum off v ams) (fun ams' m => ∀ t,
      Txn.Logs (DIRTREE.write fsxp inum off v ams) L t m → Txn.InRange n t →
      C L.base (L.pend ++ [t.toList]) ∧
        ∀ L', Flushed (L.push t) L' → Q (ams', true) L') L.disk.cur) :
    LogProg.wp n xp (updateFblock fsxp inum off v ams) Q (crashIn C) L := by
  rw [← L.read_of_txn hL] at hp
  have hw := Txn.writes_of_wp hp
  refine wp_bind (LogProg.wp_begin hC (wp_bind (LogProg.wp_lift (fun _ => hC) ?_)))
  apply Txn.wp_post hp
  intro ams' m hQ t ht
  obtain ⟨hC', hQ⟩ := hQ t ht (ht.inRange hL hw)
  have hlen := ht.length_le hL (BFILE.atMost_write fsxp.inode inum off v ams)
  refine wp_bind ?_
  apply LogProg.wp_commit_fits hC hC' (hlen.trans hlog)
  exact fun L' hL' => wp_pure (hQ L' hL')

end

/-! ### Past the log -/

variable {fsxp : FsXparams} {roots : Multiset ℕ} {A : Finset ℕ} {K : ℕ → Bool} {inum off : ℕ}
  {v : Valu}

theorem abort_dwrite (hL : L.txn = ∅) (a : ℕ) (v : Valu) :
    (L.dwrite a v).abort = L.dwrite a v := by
  have herase : L.txn.erase a = ∅ := by
    rw [hL]
    ext b
    simp
  rw [LogSt.dwrite]
  split_ifs
  · rw [LogSt.abort, LogSt.flushall, herase]
  · rw [LogSt.abort, herase]

/-- The caches after a direct write. -/
def dwritten (inum b : ℕ) (c : INODE.Cache) (ams : MemState) : MemState :=
  { ams with msICache := c, msDBlocks := BFILE.putDirty inum b ams.msDBlocks }

/-- A direct write changes one block of one file, which is dirty afterwards. -/
theorem wp_dwrite (hx : fsxp.Ok n) (hL : L.txn = ∅) (h : BFILE.Inv fsxp L.disk.cur ams)
    (hlt : inum < INODE.ninodes fsxp.inode)
    (ho : off < (BFILE.blocks fsxp L.disk.cur inum).length) (hC : C L.base L.pend)
    {Q : MemState → LogSt → Prop}
    (hQ : ∀ b c, b = (BFILE.blocks fsxp L.disk.cur inum)[off] →
      BFILE.Inv fsxp (Function.update L.disk.cur b v) (dwritten inum b c ams) →
      BFILE.Step fsxp {inum} L.disk.cur ams (Function.update L.disk.cur b v)
        (dwritten inum b c ams) →
      BFILE.file fsxp (Function.update L.disk.cur b v) inum =
        ⟨(BFILE.file fsxp L.disk.cur inum).data.set off v,
          (BFILE.file fsxp L.disk.cur inum).attr⟩ →
      Q (dwritten inum b c ams) (L.dwrite b v)) :
    LogProg.wp n xp (BFILE.dwrite fsxp.inode inum off v ams) Q (crashIn C) L := by
  refine wp_bind (LogProg.wp_lift (fun _ => hC) ?_)
  rw [L.read_of_txn hL]
  apply INODE.wp_getbnum (BFILE.inodeFits hx.toParts) hlt h.icache (h.len _ hlt) ho (h.node_lt hx hlt)
  intro c w hc hw t ht
  -- Looking up the block writes nothing, so that the transaction is still empty.
  obtain rfl : t = L.txn := by
    rw [hL]
    exact ht.eq_empty hL (INODE.atMost_getbnum fsxp.inode inum off ams.msICache)
  have hw' : w.toNat = (BFILE.blocks fsxp L.disk.cur inum)[off] := by
    rw [hw, List.getD_eq_getElem]
  have hmem := List.getElem_mem ho
  obtain ⟨h0, hn⟩ := h.block_lt hx hlt _ hmem
  obtain ⟨hinv, hst, hk, hfile⟩ := BFILE.data_update hx (h.withICache hc) hlt ho v
  have hst' : BFILE.Step fsxp {inum} L.disk.cur ams
      (Function.update L.disk.cur (BFILE.blocks fsxp L.disk.cur inum)[off] v)
      (dwritten inum (BFILE.blocks fsxp L.disk.cur inum)[off] c ams) :=
    ((BFILE.Step.withICache fsxp _ L.disk.cur ams c).trans_self h hst).putDirty
      (hk.blocks.symm ▸ hmem : _ ∈ BFILE.blocks fsxp _ inum)
  have hinv' : BFILE.Inv fsxp
      (Function.update L.disk.cur (BFILE.blocks fsxp L.disk.cur inum)[off] v)
      (dwritten inum (BFILE.blocks fsxp L.disk.cur inum)[off] c ams) :=
    ⟨hinv.icache, hinv.len, hinv.own⟩
  rw [← hw'] at h0 hn hinv' hst' hfile
  exact wp_bind (LogProg.wp_dwrite hC h0 hn (wp_pure (hQ w.toNat c hw' hinv' hst' hfile)))

/-- A direct write to a file of the tree. -/
theorem wp_updateFblockD (hx : fsxp.Ok n) (hL : L.txn = ∅)
    (h : DIRTREE.Inv fsxp roots A K L.disk.cur ams) (hi : inum ∈ A) (hK : K inum = false)
    (ho : off < (BFILE.blocks fsxp L.disk.cur inum).length) (hC : C L.base L.pend)
    {Q : MemState → LogSt → Prop}
    (hQ : ∀ b c, b = (BFILE.blocks fsxp L.disk.cur inum)[off] →
      DIRTREE.Inv fsxp roots A K (Function.update L.disk.cur b v) (dwritten inum b c ams) →
      BFILE.Moves fsxp {inum} L.disk.cur ams (Function.update L.disk.cur b v)
        (dwritten inum b c ams) →
      BFILE.file fsxp (Function.update L.disk.cur b v) inum =
        ⟨(BFILE.file fsxp L.disk.cur inum).data.set off v,
          (BFILE.file fsxp L.disk.cur inum).attr⟩ →
      C (L.dwrite b v).base (L.dwrite b v).pend ∧ Q (dwritten inum b c ams) (L.dwrite b v)) :
    LogProg.wp n xp (updateFblockD fsxp inum off v ams) Q (crashIn C) L := by
  refine wp_bind (LogProg.wp_begin hC (wp_bind ?_))
  apply wp_dwrite hx hL h.inv (h.lt hi) ho hC
  intro b c hb hinv hst hfile
  obtain ⟨hC', hQ'⟩ := hQ b c hb (h.written hi hK hinv hst rfl) hst.toMoves hfile
  refine wp_bind (LogProg.wp_abort hC' (wp_pure ?_))
  rw [abort_dwrite hL]
  exact hQ'

theorem wp_fileSync (hL : L.txn = ∅) (hC : C L.base L.pend) {Q : MemState → LogSt → Prop}
    (hC' : C (L.dsyncVecs (BFILE.getDirty inum ams.msDBlocks).toList).base L.pend)
    (hQ : Q { ams with msDBlocks := BFILE.clearDirty inum ams.msDBlocks }
      (L.dsyncVecs (BFILE.getDirty inum ams.msDBlocks).toList)) :
    LogProg.wp n xp (fileSync inum ams) Q (crashIn C) L := by
  refine wp_bind (LogProg.wp_begin hC (wp_bind (wp_bind (LogProg.wp_dsyncVecs hC (wp_pure ?_)))))
  refine wp_bind (LogProg.wp_abort hC' (wp_pure ?_))
  have habort := abort_txn (L := L.dsyncVecs (BFILE.getDirty inum ams.msDBlocks).toList) hL L.txn
  rw [← habort] at hQ
  exact hQ

theorem wp_treeSync (hC : C L.base L.pend) {Q : MemState → LogSt → Prop}
    (hQ : Q { ams with msAlloc := !ams.msAlloc } L.flushall) :
    LogProg.wp n xp (treeSync ams) Q (crashIn C) L :=
  wp_bind (LogProg.wp_flushall hC (wp_pure hQ))

theorem wp_umount (hC : C L.base L.pend) (hC' : C L.disk []) {Q : MemState → LogSt → Prop}
    (hQ : Q { ams with msAlloc := !ams.msAlloc } L.flushall.syncCache) :
    LogProg.wp n xp (umount ams) Q (crashIn C) L :=
  wp_bind (wp_treeSync hC (wp_bind (LogProg.wp_syncCache hC' (wp_pure hQ))))

end AFS

end Fscq
