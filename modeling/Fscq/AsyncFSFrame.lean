import Fscq.AsyncFSTaken

/-!
# The files that a call leaves alone

A call that is not on a file, and after which the file is still in the tree, leaves the contents, the
attributes and the blocks of the file as they were (`AFS.spares_of_run`).
-/

namespace Fscq

open CrashProg

open BFILE (MemState)

open LogSt (Flushed)

namespace AFS

variable {α β : Type} {n : ℕ} {fsxp : FsXparams} {xp : LogXparams} {A A' : Finset ℕ}
  {K K' : ℕ → Bool} {m m' : Mem} {L L' : LogSt} {ams ams' : MemState} {i j d : ℕ} {S : Set ℕ}

/-- A file that is still in the tree is what it was, in the same blocks. -/
def Spares (fsxp : FsXparams) (i : ℕ) (m m' : Mem) : Prop :=
  InTree fsxp m' i false →
    BFILE.file fsxp m' i = BFILE.file fsxp m i ∧ BFILE.blocks fsxp m' i = BFILE.blocks fsxp m i

theorem Spares.refl (fsxp : FsXparams) (i : ℕ) (m : Mem) : Spares fsxp i m m := fun _ => ⟨rfl, rfl⟩

theorem Spares.of_eq (h : m' = m) : Spares fsxp i m m' := by
  rw [h]
  exact .refl fsxp i m

theorem Spares.of_flushed (h : Flushed L L') : Spares fsxp i L.disk.cur L'.disk.cur :=
  .of_eq (congrArg ADisk.cur h.disk)

theorem Spares.of_moves (hinv : BFILE.Inv fsxp m ams) (hmv : BFILE.Moves fsxp S m ams m' ams')
    (hi : i < INODE.ninodes fsxp.inode) (hS : InTree fsxp m' i false → i ∉ S) :
    Spares fsxp i m m' := by
  intro hin
  obtain ⟨-, hb, -, hf⟩ := hmv.view hinv hi (hS hin)
  exact ⟨hf, hb⟩

/-- What a call makes of the answer changes no file. -/
theorem Spares.andThen {p : LogProg α} {q : α → LogProg β}
    (h : Spares fsxp i L.disk.cur (LogProg.run xp p L).2.disk.cur)
    (hq : ∀ x L, (LogProg.run xp (q x) L).2 = L) :
    Spares fsxp i L.disk.cur (LogProg.run xp (p >>= q) L).2.disk.cur := by
  rw [LogProg.run_bind, hq]
  exact h

/-- The file that a call may change. -/
def Call.target : Call → Option ℕ
  | .fileSetAttr inum _ => some inum
  | .fileTruncate inum _ => some inum
  | .fileSetSz inum _ => some inum
  | .ftruncate inum _ => some inum
  | .updateFblock inum _ _ => some inum
  | .updateFblockD inum _ _ => some inum
  | _ => none

section

variable [Platform] (h : Ok n fsxp A K L ams)

include h

theorem spares_transact {p : MemState → TxnProg (MemState × Res α)}
    (hp : Txn.wp n (p ams) (fun r m => ∀ v, r.2 = .ok v → Spares fsxp i L.disk.cur m) L.disk.cur) :
    Spares fsxp i L.disk.cur (LogProg.run xp (transact p ams) L).2.disk.cur := by
  have hwp : LogProg.wp n xp (transact p ams) (fun _ L' => Spares fsxp i L.disk.cur L'.disk.cur)
      (crashIn fun _ _ => True) L := by
    apply wp_transact h.txn trivial
    apply Txn.wp_post hp
    intro r m hs
    refine ⟨fun _ _ => .refl fsxp i _, fun v hv t ht _ => ⟨trivial, fun _ L' hL => ?_, ?_⟩⟩
    · rw [hL.disk, disk_push_of_logs ht]
      exact hs v hv
    · exact fun _ L' hL => .of_flushed hL
  exact LogProg.wp_run hwp

theorem spares_rebind {p : MemState → TxnProg (MemState × Res α)}
    (hp : Txn.wp n (p ams) (fun r m => ∀ v, r.2 = .ok v → Spares fsxp i L.disk.cur m) L.disk.cur) :
    Spares fsxp i L.disk.cur (LogProg.run xp (rebind p ams) L).2.disk.cur := by
  have hwp : LogProg.wp n xp (rebind p ams) (fun _ L' => Spares fsxp i L.disk.cur L'.disk.cur)
      (crashIn fun _ _ => True) L := by
    apply wp_rebind h.txn trivial
    apply Txn.wp_post hp
    intro r m hs
    refine ⟨fun _ _ => .refl fsxp i _, fun v hv t ht _ => ⟨trivial, fun L' hL => ?_, ?_⟩⟩
    · rw [hL.disk, disk_push_of_logs ht]
      exact hs v hv
    · exact fun _ L' hL => .of_flushed hL
  exact LogProg.wp_run hwp

variable (hx : fsxp.Ok n) (hi : i ∈ A) (hK : K i = false)

include hx hi hK

/-! ### Calls on directories -/

omit [Platform] in
/-- A new inode is no file that is there already. -/
theorem wp_mknod_spares {b : Bool} {name : Sname} {Q : MemState × Res ℕ → Mem → Prop} (hd : d ∈ A)
    (hKd : K d = true) (hQe : ∀ ms' m' e, Q (ms', .error e) m')
    (hQ : ∀ ms' m' k, k ≠ i → DIRTREE.Inv fsxp {fsxp.rootInum} (insert k A) (Function.update K k b)
      m' ms' → BFILE.file fsxp m' i = BFILE.file fsxp L.disk.cur i →
      BFILE.blocks fsxp m' i = BFILE.blocks fsxp L.disk.cur i → Q (ms', .ok k) m') :
    Txn.wp n (DIRTREE.mknod fsxp b d name ams) Q L.disk.cur := by
  apply DIRTREE.wp_mknod hx h.tree hd hKd
  · exact fun _ => hQe _ _ _
  · exact fun _ _ ms' m' e => hQe ms' m' e
  · intro ms' m' k hk hinv hmv _ _
    have hnot : i ∉ DIRTREE.touched A K := by
      rintro (hdir | hnot)
      · rw [hK] at hdir
        cases hdir
      · exact hnot hi
    obtain ⟨-, hb, -, hf⟩ := hmv.view h.tree.inv (h.tree.lt hi) hnot
    exact hQ ms' m' k (fun e => hk (e ▸ hi)) hinv hf hb

theorem spares_create {name : Sname} (hd : d ∈ A) (hKd : K d = true) :
    Spares fsxp i L.disk.cur (LogProg.run xp (create fsxp d name ams) L).2.disk.cur := by
  apply spares_transact h
  apply wp_mknod_spares h hx hi hK hd hKd
  · intro ms' m' e v hv
    cases hv
  · exact fun ms' m' k _ _ hf hb v _ _ => ⟨hf, hb⟩

theorem spares_mkdir {name : Sname} (hd : d ∈ A) (hKd : K d = true) :
    Spares fsxp i L.disk.cur (LogProg.run xp (mkdir fsxp d name ams) L).2.disk.cur := by
  apply spares_rebind h
  apply wp_mknod_spares h hx hi hK hd hKd
  · intro ms' m' e v hv
    cases hv
  · exact fun ms' m' k _ _ hf hb v _ _ => ⟨hf, hb⟩

theorem spares_mksock {name : Sname} (hd : d ∈ A) (hKd : K d = true) :
    Spares fsxp i L.disk.cur (LogProg.run xp (mksock fsxp d name ams) L).2.disk.cur := by
  apply spares_rebind h
  apply wp_bind
  apply wp_mknod_spares h hx hi hK hd hKd
  · intro ms' m' e
    apply wp_pure
    intro v hv
    cases hv
  · intro ms' m' k hne hinv hf hb
    apply wp_bind
    apply DIRTREE.wp_updattr hx hinv (Finset.mem_insert_self k A) (Function.update_self ..)
    intro ms₂ m₂ _ hmv₂ _
    apply wp_pure
    intro v _ _
    have hview := hmv₂.view hinv.inv (h.tree.lt hi) fun hk => hne (Set.mem_singleton_iff.1 hk).symm
    exact ⟨hview.2.2.2.trans hf, hview.2.1.trans hb⟩

theorem spares_delete {name : Sname} (hd : d ∈ A) (hKd : K d = true) :
    Spares fsxp i L.disk.cur (LogProg.run xp (delete fsxp d name ams) L).2.disk.cur := by
  apply spares_transact h
  apply DIRTREE.wp_delete hx h.tree hd hKd
  · intro _ ms' m' v hv
    cases hv
  · intro _ _ _ ms' m' v hv
    cases hv
  · intro ms' m' k b hinv hdel v _
    refine .of_moves h.tree.inv hdel.moves (h.tree.lt hi) fun hin => ?_
    have hmem := ((AFS.inTree_iff hinv h.root).1 hin).1
    rintro (rfl | rfl)
    · rw [hK] at hKd
      cases hKd
    · exact Finset.notMem_erase i A hmem

theorem spares_rename {srcpath dstpath : List Sname} {srcname dstname : Sname} (hd : d ∈ A)
    (hKd : K d = true) : Spares fsxp i L.disk.cur
      (LogProg.run xp (rename fsxp d srcpath srcname dstpath dstname ams) L).2.disk.cur := by
  apply spares_transact h
  apply Txn.wp_post (DIRTREE.wp_rename hx h.tree hd hKd)
  intro r m hren v hv
  obtain ⟨A', -, hinv, hmv⟩ := hren.moves h.tree hd hKd hv
  refine .of_moves h.tree.inv hmv (h.tree.lt hi) fun hin => ?_
  have hmem := ((AFS.inTree_iff hinv h.root).1 hin).1
  rintro (hdir | hnot)
  · rw [hK] at hdir
    cases hdir
  · exact hnot hmem

/-! ### Calls on other files -/

variable (hj : j ∈ A) (hKj : K j = false) (hne : i ≠ j)

include hj hKj hne

omit [Platform] hK hx hj hKj in
theorem spares_of_moves (hmv : BFILE.Moves fsxp {j} L.disk.cur ams m' ams') :
    Spares fsxp i L.disk.cur m' := .of_moves h.tree.inv hmv (h.tree.lt hi) fun _ => hne

omit hK in
theorem spares_fileSetAttr (attr : INODE.IAttr) :
    Spares fsxp i L.disk.cur (LogProg.run xp (fileSetAttr fsxp j attr ams) L).2.disk.cur := by
  apply spares_transact h
  apply wp_bind
  apply DIRTREE.wp_setattr hx h.tree hj hKj
  exact fun ms' m' _ hmv _ => wp_pure fun v _ => spares_of_moves h hi hne hmv

omit hK in
theorem spares_fileTruncate (sz : ℕ) :
    Spares fsxp i L.disk.cur (LogProg.run xp (fileTruncate fsxp j sz ams) L).2.disk.cur := by
  apply spares_transact h
  apply DIRTREE.wp_truncate hx h.tree hj hKj
  · intro _ _ ms' m' e v hv
    cases hv
  · exact fun ms' m' _ hmv _ v _ => spares_of_moves h hi hne hmv

omit [Platform] hK in
theorem spares_updateFblockD {off : ℕ} (v : Valu)
    (ho : off < (BFILE.blocks fsxp L.disk.cur j).length) :
    Spares fsxp i L.disk.cur (LogProg.run xp (updateFblockD fsxp j off v ams) L).2.disk.cur := by
  have hwp : LogProg.wp n xp (updateFblockD fsxp j off v ams)
      (fun _ L' => Spares fsxp i L.disk.cur L'.disk.cur) (crashIn fun _ _ => True) L := by
    apply wp_updateFblockD hx h.txn h.tree hj hKj ho trivial
    intro a c _ _ hmv _
    refine ⟨trivial, ?_⟩
    rw [LogSt.disk_dwrite]
    exact spares_of_moves h hi hne hmv
  exact LogProg.wp_run hwp

variable (hlog : 0 < xp.logLen)

include hlog

omit hK in
theorem spares_fileSetSz (sz : BitVec 64) :
    Spares fsxp i L.disk.cur (LogProg.run xp (fileSetSz fsxp j sz ams) L).2.disk.cur := by
  have hwp : LogProg.wp n xp (fileSetSz fsxp j sz ams)
      (fun _ L' => Spares fsxp i L.disk.cur L'.disk.cur) (crashIn fun _ _ => True) L := by
    apply wp_fileSetSz h.txn trivial hlog
    apply DIRTREE.wp_updattr hx h.tree hj hKj
    refine fun ms' m' _ hmv _ t ht _ => ⟨trivial, fun L' hL => ?_⟩
    rw [hL.disk, disk_push_of_logs ht]
    exact spares_of_moves h hi hne hmv
  exact LogProg.wp_run hwp

omit hK in
theorem spares_updateFblock {off : ℕ} (v : Valu)
    (ho : off < (BFILE.file fsxp L.disk.cur j).data.length) :
    Spares fsxp i L.disk.cur (LogProg.run xp (updateFblock fsxp j off v ams) L).2.disk.cur := by
  have hwp : LogProg.wp n xp (updateFblock fsxp j off v ams)
      (fun _ L' => Spares fsxp i L.disk.cur L'.disk.cur) (crashIn fun _ _ => True) L := by
    apply wp_updateFblock h.txn trivial hlog
    apply DIRTREE.wp_write hx h.tree hj hKj ho
    refine fun ms' m' _ hmv _ t ht _ => ⟨trivial, fun L' hL => ?_⟩
    rw [hL.disk, disk_push_of_logs ht]
    exact spares_of_moves h hi hne hmv
  exact LogProg.wp_run hwp

omit hK in
theorem spares_ftruncate {sz : ℕ}
    (hlen : (BFILE.blocks fsxp L.disk.cur j).length = (sz + valulen - 1) / valulen) :
    Spares fsxp i L.disk.cur (LogProg.run xp (ftruncate fsxp j sz ams) L).2.disk.cur := by
  have hwp : LogProg.wp n xp (ftruncate fsxp j sz ams) _ _ L :=
    wp_ftruncate_same h hx hlog hj hKj hlen rfl
  exact spares_of_moves h hi hne (LogProg.wp_run hwp).2.2.1

end

/-! ### Every call -/

variable [Platform] {g : Geometry} {c : Call}

/-- A call leaves the files alone that it is not on. -/
theorem spares_of_run (hok : Ok g.dataSize g.fsxp A K L ams) (hlog : 0 < g.fsxp.log.logLen)
    (hc : HarmlessCall g.fsxp L ams c (LogProg.run g.fsxp.log (c.exec g.fsxp ams) L).1.2)
    (hi : InTree g.fsxp L.disk.cur i false) (ht : c.target ≠ some i) :
    Spares g.fsxp i L.disk.cur (LogProg.run g.fsxp.log (c.exec g.fsxp ams) L).2.disk.cur := by
  have hx := g.ok
  have htree : ∀ {i b}, InTree g.fsxp L.disk.cur i b → i ∈ A ∧ K i = b := hok.inTree_iff.1
  have hne : ∀ {j}, some j ≠ some i → i ≠ j := fun h e => h (congrArg some e.symm)
  obtain ⟨hi, hK⟩ := htree hi
  have hv := hc.valid
  have hread : ∀ {β : Type} (p : MemState → TxnProg (MemState × β)),
      Spares g.fsxp i L.disk.cur (LogProg.run g.fsxp.log (readonly p ams) L).2.disk.cur :=
    fun p => .of_eq (congrArg ADisk.cur (disk_run_readonly p ams L))
  cases c with
  | fileGetAttr inum => exact (hread _).andThen fun _ _ => rfl
  | fileGetSz inum => exact ((hread _).andThen fun _ _ => rfl).andThen fun _ _ => rfl
  | readFblock inum off => exact (hread _).andThen fun _ _ => rfl
  | lookup dnum names => exact (hread _).andThen fun _ _ => rfl
  | readdir dnum => exact (hread _).andThen fun _ _ => rfl
  | statfs => exact .refl g.fsxp i _
  | fileSetAttr inum attr =>
    obtain ⟨hj, hKj⟩ := htree hv
    exact spares_fileSetAttr hok hx hi hj hKj (hne ht) attr
  | fileTruncate inum sz =>
    obtain ⟨hj, hKj⟩ := htree hv
    exact spares_fileTruncate hok hx hi hj hKj (hne ht) sz
  | create dnum name =>
    obtain ⟨hd, hKd⟩ := htree hv
    exact (spares_create hok hx hi hK hd hKd).andThen fun _ _ => rfl
  | delete dnum name =>
    obtain ⟨hd, hKd⟩ := htree hv
    exact spares_delete hok hx hi hK hd hKd
  | rename dnum srcpath srcname dstpath dstname =>
    obtain ⟨hd, hKd⟩ := htree hv
    exact spares_rename hok hx hi hK hd hKd
  | fileSetSz inum sz =>
    obtain ⟨hj, hKj⟩ := htree hv
    exact spares_fileSetSz hok hx hi hj hKj (hne ht) hlog sz
  | mksock dnum name =>
    obtain ⟨hd, hKd⟩ := htree hv
    exact (spares_mksock hok hx hi hK hd hKd).andThen fun _ _ => rfl
  | mkdir dnum name =>
    obtain ⟨hd, hKd⟩ := htree hv
    exact (spares_mkdir hok hx hi hK hd hKd).andThen fun _ _ => rfl
  | ftruncate inum sz =>
    obtain ⟨hj, hKj⟩ := htree hv
    rw [Call.exec] at hc ⊢
    generalize hr : LogProg.run g.fsxp.log (ftruncate g.fsxp inum sz ams) L = x at hc ⊢
    obtain ⟨⟨ams', e | u⟩, L'⟩ := x
    · exact .of_flushed (of_run_ftruncate hok.txn hr).2
    · have hlen := (hc.resolve_left fun hclean => hclean.2).2 rfl
      have hs : Spares g.fsxp i L.disk.cur
          (LogProg.run g.fsxp.log (ftruncate g.fsxp inum sz ams) L).2.disk.cur :=
        spares_ftruncate hok hx hi hj hKj (hne ht) hlog hlen
      rwa [hr] at hs
  | updateFblock inum off v =>
    obtain ⟨hj, ho⟩ := hv
    obtain ⟨hj, hKj⟩ := htree hj
    rw [← BFILE.length_data] at ho
    exact (spares_updateFblock hok hx hi hj hKj (hne ht) hlog v ho).andThen fun _ _ => rfl
  | updateFblockD inum off v =>
    obtain ⟨hj, ho⟩ := hv
    obtain ⟨hj, hKj⟩ := htree hj
    exact (spares_updateFblockD hok hx hi hj hKj (hne ht) v ho).andThen fun _ _ => rfl
  | fileSync inum => exact .of_eq (L.disk_dsyncVecs_cur _)
  | treeSync => exact .refl g.fsxp i _
  | umount => exact .of_eq L.flushall.disk_syncCache_cur

end AFS

end Fscq
