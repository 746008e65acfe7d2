import Fscq.BFileFresh
import Fscq.DirTreeMove

/-!
# New blocks of directories are written

The programs of the tree write every block that they take from the allocator, when they succeed.
-/

namespace Fscq

open CrashProg

/-! ### Directories -/

namespace DIR

open BFILE (Fresh)

variable {n dnum : ℕ} {fsxp : FsXparams} {m : Mem} {ms : BFILE.MemState}

theorem wrote_link' (hx : fsxp.Ok n) (hinv : BFILE.Inv fsxp m ms)
    (hi : dnum < INODE.ninodes fsxp.inode) (name : Filename) (inum : ℕ) (isdir : Bool) :
    Txn.Wrote (link' fsxp.inode dnum fsxp.blockAlloc name inum isdir ms)
      (fun r m' W => r.2.2 = .ok () → Fresh fsxp m ms m' r.1 W) m := by
  apply Txn.wrote_bind
  apply Txn.wrote_of_wp
  apply FileRASig.wp_ifind hx hinv hi
  intro c hinv₁ W₁
  cases hf : ifindList (fun de _ => !isValid de) (slots (BFILE.file fsxp m dnum)) 0 with
  | some r =>
    obtain ⟨ix, de⟩ := r
    obtain ⟨-, h₁, h₂⟩ := ifindList_some hf
    erw [hf]
    apply Txn.wrote_bind
    apply Txn.wrote_of_wp
    apply wp_put hx hinv₁ hi (List.getElem?_eq_some_iff.1 h₁).1 (wellFormed_mkDent name inum isdir)
    exact fun ms' m' _ hk _ W _ => Fresh.of_free _ (hk.free _)
  | none =>
    erw [hf]
    apply Txn.wrote_bind
    apply (BFILE.wrote_grow hx hinv₁ hi _).post
    rintro ⟨ms', r⟩ m' W hr hok
    exact (Fresh.of_free W₁ rfl).trans rfl fun a ha => (hr hok a ha).imp_right fun h => by simp [h]

theorem wrote_link (hx : fsxp.Ok n) (hinv : BFILE.Inv fsxp m ms)
    (hi : dnum < INODE.ninodes fsxp.inode) (name : Filename) (inum : ℕ) (isdir : Bool) (ix0 : ℕ) :
    Txn.Wrote (link fsxp.inode dnum fsxp.blockAlloc name inum isdir ix0 ms)
      (fun r m' W => r.2.2 = .ok () → Fresh fsxp m ms m' r.1 W) m := by
  apply Txn.wrote_bind
  apply Txn.wrote_of_wp
  apply BFILE.wp_getlen hx hinv hi
  intro c hinv₁ W₁
  dsimp only
  split_ifs with hlt
  · have hix : ix0 < (slots (BFILE.file fsxp m dnum)).length := by
      rw [length_slots]
      exact hlt
    apply Txn.wrote_bind
    apply Txn.wrote_of_wp
    apply FileRASig.wp_get hx hinv₁ hi hix
    intro c' hinv₂ W₂
    dsimp only
    split_ifs
    · apply (wrote_link' hx hinv₂ hi name inum isdir).post
      exact fun r m' W hr hok => (Fresh.of_free W₁ rfl).trans rfl
        ((Fresh.of_free W₂ rfl).trans rfl (hr hok))
    · apply Txn.wrote_bind
      apply Txn.wrote_of_wp
      apply wp_put hx hinv₂ hi hix (wellFormed_mkDent name inum isdir)
      exact fun ms' m' _ hk _ W _ => Fresh.of_free _ (hk.free _)
  · apply (wrote_link' hx hinv₁ hi name inum isdir).post
    exact fun r m' W hr hok => (Fresh.of_free W₁ rfl).trans rfl (hr hok)

end DIR

namespace CacheOneDir

open BFILE (Fresh)

variable {n dnum : ℕ} {fsxp : FsXparams} {m : Mem} {ms : BFILE.MemState}

theorem wrote_link (hx : fsxp.Ok n) (hr : Ready fsxp dnum m ms) (name : Sname) (inum : ℕ)
    (isdir : Bool) :
    Txn.Wrote (link fsxp.inode dnum fsxp.blockAlloc name inum isdir ms)
      (fun r m' W => r.2 = .ok () → Fresh fsxp m ms m' r.1 W) m := by
  apply Txn.wrote_bind
  apply Txn.wrote_of_wp
  apply wp_lookup hx hr
  intro ms₁ res hch hms₁ _ W₁
  cases res with
  | some e => exact fun hok => nomatch hok
  | none =>
    have hr₁ := hch.ready hr
    apply Txn.wrote_bind
    apply Txn.wrote_of_wp
    apply wp_getDcache hx hr₁
    intro ms₂ r hch₂ hms₂ _ W₂
    have hr₂ := hch₂.ready hr₁
    rw [hms₁] at hms₂
    apply Txn.wrote_bind
    unfold SDIR.link
    split_ifs
    · apply (DIR.wrote_link hx hr₂.inv hr.lt _ inum isdir r.2).post
      rintro ⟨ms₃, ix, e | u⟩ m₃ W₃ hlink
      · exact fun hok => nomatch hok
      · intro _ a ha
        have hfree := hlink rfl
        rw [hms₂] at hfree
        exact (hfree a ha).imp (fun h => h) fun h => by simp [h]
    · exact fun hok => nomatch hok

end CacheOneDir

/-! ### The tree -/

namespace DIRTREE

open BFILE (Fresh)

variable {n d i : ℕ} {fsxp : FsXparams} {roots : Multiset ℕ} {A : Finset ℕ} {K : ℕ → Bool}
  {m m' : Mem} {ms ms' : BFILE.MemState} {name : Sname} {b : Bool} {W : List ℕ}

theorem Cached.fresh (h : Cached ms ms') (W : List ℕ) : Fresh fsxp m ms m ms' W := by
  obtain ⟨c, c', rfl⟩ := h
  exact Fresh.of_free W rfl

theorem Cached.msAlloc (h : Cached ms ms') : ms'.msAlloc = ms.msAlloc := by
  obtain ⟨c, c', rfl⟩ := h
  rfl

theorem wrote_mknod (hx : fsxp.Ok n) (h : Inv fsxp roots A K m ms) (hd : d ∈ A) (hK : K d = true) :
    Txn.Wrote (mknod fsxp b d name ms)
      (fun r m' W => ∀ v, r.2 = .ok v → Fresh fsxp m ms m' r.1 W) m := by
  apply Txn.wrote_bind
  apply Txn.wrote_of_wp
  apply AllocSig.wp_alloc (BFILE.iallocFits hx.toParts) fun i => h.lt_of_mem_freeList hx
  · exact fun _ W v hv => nomatch hv
  · intro i l hl hst W₁
    generalize IAlloc.setBitMem m fsxp i AllocSig.inuse = m₁ at hst ⊢
    have hm : ∀ a ∉ IAlloc.bmp.region fsxp, m₁ a = m a :=
      fun a ha => hst.frame a ha (Set.notMem_empty a)
    have hiA : i ∉ A := fun hi => (h.mem_iff.1 hi).2.2 (hl ▸ List.mem_cons_self)
    have h₁ := h.add hx.toParts hl hm (hst.coh h.icoh) b
    have hdi : d ≠ i := fun e => hiA (e ▸ hd)
    have hK₁ : Function.update K i b d = true := by rw [Function.update_of_ne hdi, hK]
    apply Txn.wrote_bind
    apply (CacheOneDir.wrote_link hx (h₁.ready (Finset.mem_insert_of_mem hd) hK₁) name i b).post
    rintro ⟨ms', e | u⟩ m' W hr
    · exact fun v hv => nomatch hv
    · intro v _ a ha
      rw [← BFILE.freeOf_ialloc hx.toParts hm] at ha
      exact (hr rfl a ha).imp (fun h => h) fun h => by simp [h]

theorem wrote_delete (hx : fsxp.Ok n) (h : Inv fsxp roots A K m ms) (hd : d ∈ A) (hK : K d = true) :
    Txn.Wrote (delete fsxp d name ms)
      (fun r m' W => ∀ v, r.2 = .ok v → Fresh fsxp m ms m' r.1 W) m := by
  apply Txn.wrote_of_wp
  apply wp_delete hx h hd hK
  · exact fun _ ms' m' W v hv => nomatch hv
  · exact fun _ _ _ ms' m' W v hv => nomatch hv
  · exact fun ms' m' _ _ _ hdel W _ _ => Fresh.of_free W hdel.side

theorem wrote_rename (hx : fsxp.Ok n) (h : Inv fsxp roots A K m ms) (hd : d ∈ A) (hK : K d = true)
    {srcpath dstpath : List Sname} {srcname dstname : Sname} :
    Txn.Wrote (rename fsxp d srcpath srcname dstpath dstname ms)
      (fun r m' W => ∀ v, r.2 = .ok v → Fresh fsxp m ms m' r.1 W) m := by
  apply Txn.wrote_bind
  apply Txn.wrote_of_wp
  apply wp_namei hx h hd hK
  intro ms₁ r h₁ _ hc₁ _ hr W₁
  rcases r with e | ⟨dsrc, isdir⟩
  · exact fun v hv => nomatch hv
  obtain ⟨hsA, hsK, hsp⟩ := hr dsrc isdir rfl
  cases isdir with
  | false => exact fun v hv => nomatch hv
  | true =>
  apply Txn.wrote_bind
  apply Txn.wrote_of_wp
  apply wp_lookup hx h₁ hsA hsK
  intro ms₂ r h₂ _ hc₂ hr W₂
  cases r with
  | none => exact fun v hv => nomatch hv
  | some e =>
  obtain ⟨i, b⟩ := e
  have he := (hr _).1 rfl
  apply Txn.wrote_bind
  apply Txn.wrote_of_wp
  apply wp_unlink hx h₂ hsA hsK he
  intro ms₃ m₃ hu₃ W₃
  have hu := hu₃.of_cached h.inv (hc₁.trans hc₂)
  have hms₃ := hu.step.msAlloc
  have hf₃ : Fresh fsxp m ms m₃ ms₃ (W₁ ++ (W₂ ++ W₃)) := Fresh.of_free _ (hu.kept.free _)
  apply Txn.wrote_bind
  apply Txn.wrote_of_wp
  apply wp_namei hx hu.inv hd hK
  intro ms₄ r h₄ _ hc₄ _ hr W₄
  rcases r with e | ⟨ddst, isdir⟩
  · exact fun v hv => nomatch hv
  obtain ⟨htA, htK, -⟩ := hr ddst isdir rfl
  cases isdir with
  | false => exact fun v hv => nomatch hv
  | true =>
  apply Txn.wrote_bind
  apply Txn.wrote_of_wp
  apply wp_lookup hx h₄ htA htK
  intro ms₅ r h₅ _ hc₅ hr W₅
  have hc := hc₄.trans hc₅
  have hf₅ := hf₃.trans hms₃ (hc.fresh (W₄ ++ W₅))
  have hms₅ : ms₅.msAlloc = ms.msAlloc := hc.msAlloc.trans hms₃
  cases r with
  | none =>
    apply (CacheOneDir.wrote_link hx (h₅.ready htA htK) dstname i b).post
    rintro ⟨ms', e | u⟩ m' W hr
    · exact fun v hv => nomatch hv
    · exact fun v _ => (hf₅.trans hms₅ (hr rfl)).mono (by simp)
  | some e =>
    apply Txn.wrote_bind
    apply Txn.wrote_of_wp
    apply wp_delete hx h₅ htA htK
    · exact fun _ ms' m' W v hv => nomatch hv
    · exact fun _ _ _ ms' m' W v hv => nomatch hv
    · intro ms₆ m₆ j b' h₆ hdel W₆
      have hf₆ := hf₅.trans hms₅ (Fresh.of_free W₆ hdel.side)
      have hne : ddst ≠ j := by
        rintro rfl
        exact h₅.forest.acyclic htA (.single (edge_of_mem htK hdel.mem))
      have hr₆ := h₆.ready (Finset.mem_erase.2 ⟨hne, htA⟩) htK
      apply (CacheOneDir.wrote_link hx hr₆ dstname i b).post
      rintro ⟨ms', e | u⟩ m' W hr
      · exact fun v hv => nomatch hv
      · exact fun v _ => (hf₆.trans (hdel.moves.msAlloc.trans hms₅) (hr rfl)).mono (by simp)

end DIRTREE

end Fscq
