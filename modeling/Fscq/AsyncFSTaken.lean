import Fscq.AsyncFSCrash
import Fscq.AsyncFSRebind
import Fscq.DirTreeFresh

/-!
# The blocks that calls take

Every block that a call gets from the allocator is written by the transaction that gets it, so that it
is synced once the call has returned (`AFS.taken_of_run`).
-/

namespace Fscq

open CrashProg

open BFILE (MemState)

open LogSt (Flushed)

theorem ADisk.syncedAt_install_of_mem {t : Valumap} {a : ℕ} (h : a ∈ t) (B : ADisk) :
    (B.install t).SyncedAt a := by
  rw [Std.ExtTreeMap.mem_iff_isSome_getElem?, Option.isSome_iff_exists] at h
  obtain ⟨v, hv⟩ := h
  intro x hx
  unfold ADisk.install at hx ⊢
  dsimp only at hx ⊢
  rw [hv] at hx ⊢
  exact hx

namespace AFS

variable {α : Type} {n : ℕ} {fsxp : FsXparams} {xp : LogXparams} {A A' : Finset ℕ} {K K' : ℕ → Bool}
  {m : Mem} {L L' : LogSt} {ams ams' : MemState} {i d : ℕ} {b : Bool} {S : Set ℕ}

theorem Taken.of_cur (h : L'.disk.cur = L.disk.cur) : Taken fsxp L L' := by
  intro j _ a ha
  rw [h] at ha
  exact .inl ha

theorem Taken.of_flushed (h : Flushed L L') : Taken fsxp L L' :=
  .of_cur (congrArg ADisk.cur h.disk)

/-- What a call makes of the answer takes no block. -/
theorem Taken.andThen {β : Type} {p : LogProg α} {q : α → LogProg β}
    (h : Taken fsxp L (LogProg.run xp p L).2) (hq : ∀ x L, (LogProg.run xp (q x) L).2 = L) :
    Taken fsxp L (LogProg.run xp (p >>= q) L).2 := by
  rw [LogProg.run_bind, hq]
  exact h

/-- A transaction that has written the blocks that it took. -/
theorem taken_of_logs {p : TxnProg α} {t : Valumap} (hL : L.txn = ∅)
    (hch : Changes fsxp A K L.disk.cur ams m ams' A' K' S)
    (hf : BFILE.Fresh fsxp L.disk.cur ams m ams' (Txn.writes p L.disk.cur))
    (ht : Txn.Logs p L t m) (hfl : Flushed (L.push t) L') : Taken fsxp L L' := by
  intro j hj a ha
  rw [hfl.disk, disk_push_of_logs ht] at ha
  refine (hf.mem_or hch.inv.inv hch.moves hj ha).imp_right fun hw => ?_
  rw [← L.read_of_txn hL, ← ht.mem_writes hL] at hw
  rw [hfl.disk, LogSt.disk_push]
  exact ADisk.syncedAt_install_of_mem hw L.disk

theorem disk_run_readonly (p : MemState → TxnProg (MemState × α)) (ams : MemState) (L : LogSt) :
    (LogProg.run xp (readonly p ams) L).2.disk = L.disk := by
  obtain ⟨-, -, hb, hp⟩ := Txn.exec_eq (p ams) L
  rw [readonly, LogProg.run_bind, LogProg.run_begin, LogProg.run_bind, LogProg.run_lift]
  exact LogSt.disk_congr hb hp

section

variable [Platform] (h : Ok n fsxp A K L ams)

include h

theorem taken_transact {p : MemState → TxnProg (MemState × Res α)}
    (hp : Txn.wp n (p ams) (fun r m => ∀ v, r.2 = .ok v →
      ∃ A' K' S, Changes fsxp A K L.disk.cur ams m r.1 A' K' S) L.disk.cur)
    (hw : Txn.Wrote (p ams) (fun r m W => ∀ v, r.2 = .ok v →
      BFILE.Fresh fsxp L.disk.cur ams m r.1 W) L.disk.cur) :
    Taken fsxp L (LogProg.run xp (transact p ams) L).2 := by
  have hwp : LogProg.wp n xp (transact p ams) (fun _ L' => Taken fsxp L L')
      (crashIn fun _ _ => True) L := by
    apply wp_transact h.txn trivial
    apply Txn.wp_post (Txn.wp_run_eq hp)
    rintro r m ⟨hrun, hch⟩
    have hw := hw.of_run hrun
    refine ⟨fun _ _ => .of_cur rfl, fun v hv t ht _ => ⟨trivial, fun _ L' hL => ?_, ?_⟩⟩
    · obtain ⟨A', K', S, hch⟩ := hch v hv
      exact taken_of_logs h.txn hch (hw v hv) ht hL
    · exact fun _ L' hL => .of_flushed hL
  exact LogProg.wp_run hwp

theorem taken_rebind {p : MemState → TxnProg (MemState × Res α)}
    (hp : Txn.wp n (p ams) (fun r m => ∀ v, r.2 = .ok v →
      ∃ A' K' S, Changes fsxp A K L.disk.cur ams m r.1 A' K' S) L.disk.cur)
    (hw : Txn.Wrote (p ams) (fun r m W => ∀ v, r.2 = .ok v →
      BFILE.Fresh fsxp L.disk.cur ams m r.1 W) L.disk.cur) :
    Taken fsxp L (LogProg.run xp (rebind p ams) L).2 := by
  have hwp : LogProg.wp n xp (rebind p ams) (fun _ L' => Taken fsxp L L')
      (crashIn fun _ _ => True) L := by
    apply wp_rebind h.txn trivial
    apply Txn.wp_post (Txn.wp_run_eq hp)
    rintro r m ⟨hrun, hch⟩
    have hw := hw.of_run hrun
    refine ⟨fun _ _ => .of_cur rfl, fun v hv t ht _ => ⟨trivial, fun L' hL => ?_, ?_⟩⟩
    · obtain ⟨A', K', S, hch⟩ := hch v hv
      exact taken_of_logs h.txn hch (hw v hv) ht hL
    · exact fun _ L' hL => .of_flushed hL
  exact LogProg.wp_run hwp

variable (hx : fsxp.Ok n)

include hx

theorem taken_fileSetAttr (attr : INODE.IAttr) (hi : i ∈ A) (hK : K i = false) :
    Taken fsxp L (LogProg.run xp (fileSetAttr fsxp i attr ams) L).2 := by
  apply taken_transact h
  · apply wp_bind
    apply DIRTREE.wp_setattr hx h.tree hi hK
    exact fun ms' m' hinv hmv _ => wp_pure fun v _ => ⟨A, K, _, .of_kind hinv hmv⟩
  · apply Txn.wrote_bind
    apply (BFILE.wrote_setattrs hx h.tree.inv (h.tree.lt hi) attr).post
    intro ms' m' W hf
    apply Txn.wrote_pure
    intro v _
    rwa [List.append_nil]

theorem taken_fileTruncate (sz : ℕ) (hi : i ∈ A) (hK : K i = false) :
    Taken fsxp L (LogProg.run xp (fileTruncate fsxp i sz ams) L).2 :=
  taken_transact h (wp_truncate_effect h hx hi hK)
    ((BFILE.wrote_truncate hx h.tree.inv (h.tree.lt hi) sz).post fun _ _ _ hf _ hr => hf hr)

theorem taken_create (name : Sname) (hd : d ∈ A) (hK : K d = true) :
    Taken fsxp L (LogProg.run xp (create fsxp d name ams) L).2 :=
  taken_transact h (wp_mknod_effect h hx hd hK) (DIRTREE.wrote_mknod hx h.tree hd hK)

theorem taken_delete (name : Sname) (hd : d ∈ A) (hK : K d = true) :
    Taken fsxp L (LogProg.run xp (delete fsxp d name ams) L).2 :=
  taken_transact h (wp_delete_effect h hx hd hK) (DIRTREE.wrote_delete hx h.tree hd hK)

theorem taken_rename (srcpath : List Sname) (srcname : Sname) (dstpath : List Sname)
    (dstname : Sname) (hd : d ∈ A) (hK : K d = true) :
    Taken fsxp L
      (LogProg.run xp (rename fsxp d srcpath srcname dstpath dstname ams) L).2 :=
  taken_transact h (wp_rename_effect h hx hd hK) (DIRTREE.wrote_rename hx h.tree hd hK)

theorem taken_mkdir (name : Sname) (hd : d ∈ A) (hK : K d = true) :
    Taken fsxp L (LogProg.run xp (mkdir fsxp d name ams) L).2 :=
  taken_rebind h (wp_mknod_effect h hx hd hK) (DIRTREE.wrote_mknod hx h.tree hd hK)

/-- A new socket is a file whose type is set in the same transaction. -/
theorem taken_mksock (name : Sname) (hd : d ∈ A) (hK : K d = true) :
    Taken fsxp L (LogProg.run xp (mksock fsxp d name ams) L).2 := by
  apply taken_rebind h
  · apply wp_bind
    apply DIRTREE.wp_mknod hx h.tree hd hK
    · exact fun _ => wp_pure fun v hv => nomatch hv
    · exact fun _ _ ms' m' e => wp_pure fun v hv => nomatch hv
    · intro ms' m' i hi hinv hmv _ hf
      apply wp_bind
      apply DIRTREE.wp_updattr hx hinv (Finset.mem_insert_self i A) (Function.update_self ..)
      intro ms₂ m₂ hinv₂ hmv₂ hf₂
      apply wp_pure
      intro v _
      have hisub : {i} ⊆ DIRTREE.touched A K := Set.singleton_subset_iff.2 (.inr hi)
      refine ⟨_, _, _, hinv₂, hmv.trans_self h.tree.inv (hmv₂.mono hisub), fun j => kind_update hi ?_⟩
      rw [hf₂, hf]
      rfl
  · have hmk : Txn.wp n (DIRTREE.mkfile fsxp d name ams) (fun r m => ∀ i, r.2 = .ok i →
        i < INODE.ninodes fsxp.inode ∧ BFILE.Inv fsxp m r.1 ∧ r.1.msAlloc = ams.msAlloc)
        L.disk.cur := by
      apply DIRTREE.wp_mknod hx h.tree hd hK
      · exact fun _ i hi => nomatch hi
      · exact fun _ _ ms' m' e i hi => nomatch hi
      · rintro ms' m' i hi hinv hmv _ _ _ ⟨⟩
        exact ⟨hinv.lt (Finset.mem_insert_self i A), hinv.inv, hmv.msAlloc⟩
    apply Txn.wrote_bind
    apply ((DIRTREE.wrote_mknod hx h.tree hd hK).and_wp hmk).post
    rintro ⟨ms', e | i⟩ m' W ⟨hnew, hf⟩
    · exact fun v hv => nomatch hv
    · obtain ⟨hlt, hinv, hms⟩ := hnew i rfl
      apply Txn.wrote_bind
      apply (BFILE.wrote_updattr hx hinv hlt _).post
      intro ms'' m'' W' hf' v _
      apply (BFILE.Fresh.trans (hf i rfl) hms hf').mono
      simp

variable (hlog : 0 < xp.logLen)

include hlog

theorem taken_fileSetSz (sz : BitVec 64) (hi : i ∈ A) (hK : K i = false) :
    Taken fsxp L (LogProg.run xp (fileSetSz fsxp i sz ams) L).2 := by
  have hw := BFILE.wrote_updattr hx h.tree.inv (h.tree.lt hi) (.uBytes sz)
  have hwp : LogProg.wp n xp (fileSetSz fsxp i sz ams) (fun _ L' => Taken fsxp L L')
      (crashIn fun _ _ => True) L := by
    apply wp_fileSetSz h.txn trivial hlog
    apply Txn.wp_post (Txn.wp_run_eq (DIRTREE.wp_updattr hx h.tree hi hK
      (Q := fun ms' m' => Changes fsxp A K L.disk.cur ams m' ms' A K {i})
      fun ms' m' hinv hmv _ => .of_kind hinv hmv))
    rintro ms' m' ⟨hrun, hch⟩ t ht _
    exact ⟨trivial, fun L' hL => taken_of_logs h.txn hch (hw.of_run hrun) ht hL⟩
  exact LogProg.wp_run hwp

theorem taken_updateFblock {off : ℕ} (v : Valu) (hi : i ∈ A) (hK : K i = false)
    (ho : off < (BFILE.file fsxp L.disk.cur i).data.length) :
    Taken fsxp L (LogProg.run xp (updateFblock fsxp i off v ams) L).2 := by
  have hw := BFILE.wrote_write hx h.tree.inv (h.tree.lt hi) ho v
  have hwp : LogProg.wp n xp (updateFblock fsxp i off v ams) (fun _ L' => Taken fsxp L L')
      (crashIn fun _ _ => True) L := by
    apply wp_updateFblock h.txn trivial hlog
    apply Txn.wp_post (Txn.wp_run_eq (DIRTREE.wp_write hx h.tree hi hK
      (Q := fun ms' m' => Changes fsxp A K L.disk.cur ams m' ms' A K {i}) ho
      fun ms' m' hinv hmv _ => .of_kind hinv hmv))
    rintro ms' m' ⟨hrun, hch⟩ t ht _
    exact ⟨trivial, fun L' hL => taken_of_logs h.txn hch (hw.of_run hrun) ht hL⟩
  exact LogProg.wp_run hwp

omit hlog

omit [Platform] in
/-- A write past the log takes no block. -/
theorem taken_updateFblockD {off : ℕ} (v : Valu) (hi : i ∈ A) (hK : K i = false)
    (ho : off < (BFILE.blocks fsxp L.disk.cur i).length) :
    Taken fsxp L (LogProg.run xp (updateFblockD fsxp i off v ams) L).2 := by
  have hwp : LogProg.wp n xp (updateFblockD fsxp i off v ams) (fun _ L' => Taken fsxp L L')
      (crashIn fun _ _ => True) L := by
    apply wp_updateFblockD hx h.txn h.tree hi hK ho trivial
    intro a c ha _ _ _
    refine ⟨trivial, fun j hj a' ha' => .inl ?_⟩
    have hmem : a ∈ BFILE.blocks fsxp L.disk.cur i := ha ▸ List.getElem_mem ho
    obtain ⟨-, hn, hb⟩ :=
      (h.tree.inv.older ams).layout_write h.tree.inv (h.tree.lt hi) hmem hj hx v
    rw [LogSt.disk_dwrite] at ha'
    change a' ∈ BFILE.owned fsxp (Function.update L.disk.cur a v) j at ha'
    rwa [BFILE.owned, hn, hb] at ha'
  exact LogProg.wp_run hwp

/-- Nor does setting the length of a file that has the blocks already. -/
theorem taken_ftruncate (hlog : 0 < xp.logLen) {sz : ℕ} (hi : i ∈ A) (hK : K i = false)
    (hlen : (BFILE.blocks fsxp L.disk.cur i).length = (sz + valulen - 1) / valulen) :
    Taken fsxp L (LogProg.run xp (ftruncate fsxp i sz ams) L).2 := by
  have hwp : LogProg.wp n xp (ftruncate fsxp i sz ams) _ _ L :=
    wp_ftruncate_same h hx hlog hi hK hlen rfl
  have hrun := LogProg.wp_run hwp
  generalize LogProg.run xp (ftruncate fsxp i sz ams) L = x at hrun ⊢
  obtain ⟨⟨ams', r⟩, L'⟩ := x
  obtain ⟨-, heff, hmv, ⟨t, hL, hres⟩, -, -⟩ := hrun
  have hfresh : Txn.wp n (resize fsxp i ((sz + valulen - 1) / valulen) sz ams)
      (fun r m => BFILE.Fresh fsxp L.disk.cur ams m r.1 []) L.disk.cur := by
    rw [← hlen]
    apply wp_bind
    apply DIRTREE.wp_truncate_same hx h.tree hi
    intro c hinv
    apply wp_bind
    apply Txn.wp_post (BFILE.wp_updattr_fresh hx hinv.inv (h.tree.lt hi) _)
    exact fun ms' m' hf => wp_pure (hf [])
  have hf := Txn.wp_run hfresh
  rw [hres] at hf
  rw [← hL.disk] at hf
  intro j hj a ha
  refine .inl ((hf.mem_or (heff.ok h).tree.inv hmv hj ha).resolve_right List.not_mem_nil)

end

/-! ### Every call -/

variable [Platform] {g : Geometry} {c : Call} {r : MemState × Res Unit}

/-- The blocks that a call takes are synced. -/
theorem taken_of_run (hok : Ok g.dataSize g.fsxp A K L ams) (hlog : 0 < g.fsxp.log.logLen)
    (hr : LogProg.run g.fsxp.log (c.exec g.fsxp ams) L = (r, L'))
    (hP : HarmlessCall g.fsxp L ams c r.2) : Taken g.fsxp L L' := by
  have hx := g.ok
  have htree : ∀ {i b}, InTree g.fsxp L.disk.cur i b → i ∈ A ∧ K i = b := hok.inTree_iff.1
  have hv := hP.valid
  have hread : ∀ {β : Type} (p : MemState → TxnProg (MemState × β)),
      Taken g.fsxp L (LogProg.run g.fsxp.log (readonly p ams) L).2 :=
    fun p => .of_cur (congrArg ADisk.cur (disk_run_readonly p ams L))
  obtain rfl : (LogProg.run g.fsxp.log (c.exec g.fsxp ams) L).2 = L' := congrArg Prod.snd hr
  cases c with
  | fileGetAttr inum => exact (hread _).andThen fun _ _ => rfl
  | fileGetSz inum => exact ((hread _).andThen fun _ _ => rfl).andThen fun _ _ => rfl
  | readFblock inum off => exact (hread _).andThen fun _ _ => rfl
  | lookup dnum names => exact (hread _).andThen fun _ _ => rfl
  | readdir dnum => exact (hread _).andThen fun _ _ => rfl
  | statfs => exact .of_cur rfl
  | fileSetAttr inum attr =>
    obtain ⟨hi, hK⟩ := htree hv
    exact taken_fileSetAttr hok hx attr hi hK
  | fileTruncate inum sz =>
    obtain ⟨hi, hK⟩ := htree hv
    exact taken_fileTruncate hok hx sz hi hK
  | create dnum name =>
    obtain ⟨hd, hK⟩ := htree hv
    exact (taken_create hok hx name hd hK).andThen fun _ _ => rfl
  | delete dnum name =>
    obtain ⟨hd, hK⟩ := htree hv
    exact taken_delete hok hx name hd hK
  | rename dnum srcpath srcname dstpath dstname =>
    obtain ⟨hd, hK⟩ := htree hv
    exact taken_rename hok hx srcpath srcname dstpath dstname hd hK
  | fileSetSz inum sz =>
    obtain ⟨hi, hK⟩ := htree hv
    exact taken_fileSetSz hok hx hlog sz hi hK
  | mksock dnum name =>
    obtain ⟨hd, hK⟩ := htree hv
    exact (taken_mksock hok hx name hd hK).andThen fun _ _ => rfl
  | mkdir dnum name =>
    obtain ⟨hd, hK⟩ := htree hv
    exact (taken_mkdir hok hx name hd hK).andThen fun _ _ => rfl
  | ftruncate inum sz =>
    obtain ⟨hi, hK⟩ := htree hv
    obtain ⟨ams', e | u⟩ := r
    · exact .of_flushed (of_run_ftruncate hok.txn hr).2
    · rcases hP with hP | hP
      · exact hP.2.elim
      · exact taken_ftruncate hok hx hlog hi hK (hP.2 rfl)
  | updateFblock inum off v =>
    obtain ⟨hi, ho⟩ := hv
    obtain ⟨hi, hK⟩ := htree hi
    rw [← BFILE.length_data] at ho
    exact (taken_updateFblock hok hx hlog v hi hK ho).andThen fun _ _ => rfl
  | updateFblockD inum off v =>
    obtain ⟨hi, ho⟩ := hv
    obtain ⟨hi, hK⟩ := htree hi
    exact (taken_updateFblockD hok hx v hi hK ho).andThen fun _ _ => rfl
  | fileSync inum => exact .of_cur (L.disk_dsyncVecs_cur _)
  | treeSync => exact .of_cur rfl
  | umount => exact .of_cur (L.flushall.disk_syncCache_cur)

end AFS

end Fscq
