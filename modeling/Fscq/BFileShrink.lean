import Fscq.BFileGrow

/-!
# Shrinking a file and setting its length

The last blocks of a file go to the allocator that is not in use.  Setting the length drops blocks or
adds blocks of zeros.
-/

namespace Fscq

open CrashProg

namespace BFILE

open INODE (irecSig ninodes)

open BlockPtr (freeSet Good)

variable {n inum : ℕ} {fsxp : FsXparams} {m m' : Mem} {ms ms' : MemState}

section

variable (hx : fsxp.Ok n) (hinv : Inv fsxp m ms) (hi : inum < ninodes fsxp.inode)

include hx hinv hi

/-! ### Shrinking -/

/-- The last blocks of a file have been given to the other allocator, and the inode has lost them
and the index blocks that it does not need any more. -/
theorem shrink_edit {k : ℕ} {m₁ m₂ : Mem} {c₁ c₂ : BmapCacheType} (ms' : MemState)
    (hst : BALLOCC.Step (bxpOf fsxp (!ms.msAlloc)) ∅ m (pickBalloc ms.msAllocC (!ms.msAlloc)) m₁ c₁)
    (hfree : freeSet m₁ (bxpOf fsxp (!ms.msAlloc)) c₁ =
      ((blocks fsxp m inum).drop k : Multiset ℕ) + freeOf fsxp m ms.msAllocC (!ms.msAlloc))
    (hch : INODE.Changed fsxp.inode (bxpOf fsxp (!ms.msAlloc)) inum m₁ c₁ m₂ c₂)
    (hsub : nodes fsxp m₂ inum ≤ nodes fsxp m₁ inum)
    (hblocks : blocks fsxp m₂ inum = (blocks fsxp m inum).take k)
    (hc : irecSig.CacheOk m₂ fsxp.inode ms'.msICache)
    (halc : ms'.msAllocC = updBalloc ms.msAllocC c₂ (!ms.msAlloc))
    (hmsI : ms'.msIAllocC = ms.msIAllocC) (hmsA : ms'.msAlloc = ms.msAlloc)
    (hdirty : ∀ j, j ≠ inum → getDirty j ms'.msDBlocks = getDirty j ms.msDBlocks)
    (htight : INODE.Tight fsxp.inode inum m₁ → INODE.Tight fsxp.inode inum m₂)
    (hdirty' : ∀ a ∈ (blocks fsxp m inum).take k, a ∉ (blocks fsxp m inum).drop k →
      a ∉ getDirty inum ms'.msDBlocks → a ∉ getDirty inum ms.msDBlocks)
    (hmarked : ∀ a ∈ getDirty inum ms'.msDBlocks,
      a ∈ getDirty inum ms.msDBlocks ∧ a ∉ (blocks fsxp m inum).drop k) :
    Inv fsxp m₂ ms' ∧ Step fsxp {inum} m ms m₂ ms' ∧ Shrunk fsxp inum m ms m₂ ms' ∧
      (file fsxp m₂ inum).data = (file fsxp m inum).data.take k := by
  set b := !ms.msAlloc with hb
  set bxp := bxpOf fsxp b with hbxp
  have hsame : ∀ a ∉ BALLOCC.bmp.region bxp, m₁ a = m a :=
    fun a ha => hst.frame a ha (Set.notMem_empty a)
  obtain ⟨hrec₁, hnodes₁, hblocks₁⟩ := view_of_bitmap hx hinv hi hsame
  have hgood := hinv.good hx hi b
  have hsplit : (blocks fsxp m inum : Multiset ℕ) =
      ((blocks fsxp m inum).take k : Multiset ℕ) + ((blocks fsxp m inum).drop k : Multiset ℕ) := by
    rw [Multiset.coe_add, List.take_append_drop]
  have hacc : nodes fsxp m₂ inum + freeSet m₂ bxp c₂ = nodes fsxp m inum +
      (((blocks fsxp m inum).drop k : Multiset ℕ) + freeOf fsxp m ms.msAllocC b) := by
    rw [← hfree, ← hnodes₁]
    exact hch.acc
  have hF : freeOf fsxp m₂ ms'.msAllocC b = freeSet m₂ bxp c₂ := by
    rw [freeOf, halc, pickBalloc_updBalloc]
  have hframe : ∀ a, a ∉ BALLOCC.bmp.region bxp → a ∉ irecSig.region fsxp.inode →
      a ∉ nodes fsxp m inum + (((blocks fsxp m inum).drop k : Multiset ℕ) +
        freeOf fsxp m ms.msAllocC b) → m₂ a = m a := by
    intro a ha hr hnot
    rw [hch.step.frame a ha, hsame a ha]
    rintro (h | h)
    · apply hnot
      rw [← hfree, ← hnodes₁]
      exact h
    · exact hr h
  have hedit : Edit fsxp b inum m ms m₂ ms' := by
    refine ⟨?_, ?_, hc, ?_, ?_, ?_, ?_, hmsI, hmsA, hdirty, ?_⟩
    · intro a ha hr hnot
      apply hframe a ha hr
      intro h
      apply hnot
      rw [owned, hsplit]
      simp only [Multiset.mem_add] at h ⊢
      rcases h with h | h | h
      · exact .inl (.inl h)
      · exact .inl (.inr (.inr h))
      · exact .inr h
    · intro j hj hne
      rw [hch.other j hj hne]
      exact (view_of_bitmap hx hinv hj hsame).1
    · rw [hblocks, List.length_take]
      exact (Nat.min_le_right _ _).trans (hinv.len _ hi)
    · rw [hF, owned, hblocks, add_right_comm, hacc, owned, hsplit]
      abel
    · rw [halc, pickBalloc_not_updBalloc]
    · intro hco
      rw [halc, pickBalloc_updBalloc]
      exact hch.step.coh (hst.coh hco)
    · intro ht
      apply htight (tight_congr hrec₁ (fun a ha => ?_) ht)
      exact hsame a (hgood.not_mem_region (ballocOk hx.toParts _) (Multiset.mem_add.2 (.inl ha)))
  have hside := hedit.free_other hx hinv hi
  rw [hb, Bool.not_not] at hside
  have hshrunk : Shrunk fsxp inum m ms m₂ ms' := by
    refine ⟨?_, hnodes₁ ▸ hsub, hedit.acc, hside⟩
    rw [hblocks]
    exact List.take_prefix _ _
  -- the free blocks and the index blocks that are gone
  have hle : ((blocks fsxp m inum).drop k : Multiset ℕ) + freeOf fsxp m ms.msAllocC b ≤
      freeOf fsxp m₂ ms'.msAllocC b := by
    rw [hF]
    rw [hnodes₁] at hsub
    obtain ⟨r, hr⟩ := Multiset.le_iff_exists_add.1 hsub
    rw [hr, add_assoc] at hacc
    rw [add_left_cancel hacc]
    exact Multiset.le_add_left _ _
  refine ⟨hedit.inv hx hinv hi, ?_, hshrunk, ?_⟩
  · apply hedit.step hx hinv hi
    · intro a ha
      rw [hblocks]
      rw [← List.take_append_drop k (blocks fsxp m inum), List.mem_append] at ha
      exact ha.imp_right fun h => Multiset.mem_of_le hle (Multiset.mem_add.2 (.inl h))
    · intro a ha
      have : a ∈ nodes fsxp m₂ inum + freeSet m₂ bxp c₂ := by
        rw [hacc]
        exact Multiset.mem_add.2 (.inl ha)
      rw [← hF] at this
      exact Multiset.mem_add.1 this
    · exact fun a ha => Multiset.mem_of_le hle (Multiset.mem_add.2 (.inr ha))
    · intro a ha hd
      rw [hblocks] at ha
      have hnd : (blocks fsxp m inum).Nodup := by
        have := (Multiset.nodup_add.1 hgood.nodup).1
        exact Multiset.coe_nodup.1 (Multiset.nodup_add.1 this).2.1
      rw [← List.take_append_drop k (blocks fsxp m inum), List.nodup_append] at hnd
      exact ⟨List.mem_of_mem_take ha,
        hdirty' a ha (fun h => hnd.2.2 a ha a h rfl) hd⟩
    · intro hk a ha
      obtain ⟨hd, hnot⟩ := hmarked a ha
      have hmem := hk a hd
      rw [← List.take_append_drop k (blocks fsxp m inum), List.mem_append] at hmem
      rw [hblocks]
      exact hmem.resolve_right hnot
  · rw [file, hblocks, file, ← List.map_take]
    apply List.map_congr_left
    intro a ha
    have hmem : a ∈ owned fsxp m inum := Multiset.mem_add.2 (.inr (List.mem_of_mem_take ha))
    have hlt := (hinv.mem_allBlocks_of_owned hi hmem).2
    apply hframe a (hgood.not_mem_region (ballocOk hx.toParts _) hmem)
    · intro hr
      have := (mem_region_inode hx.toParts hr).1
      omega
    · have hnd := hgood.nodup
      change (owned fsxp m inum + freeOf fsxp m ms.msAllocC b).Nodup at hnd
      have e : owned fsxp m inum + freeOf fsxp m ms.msAllocC b =
          ((blocks fsxp m inum).take k : Multiset ℕ) + (nodes fsxp m inum +
            (((blocks fsxp m inum).drop k : Multiset ℕ) + freeOf fsxp m ms.msAllocC b)) := by
        rw [owned, hsplit]
        abel
      rw [e] at hnd
      exact Multiset.disjoint_left.1 (Multiset.nodup_add.1 hnd).2.2 ha

/-- Giving the last blocks of a file to the other allocator. -/
theorem wp_freevec {Q : BmapCacheType → Mem → Prop} {l : List ℕ} {k : ℕ}
    (hl : l = (blocks fsxp m inum).drop k)
    (hQ : ∀ c₁ m₁,
      BALLOCC.Step (bxpOf fsxp (!ms.msAlloc)) ∅ m (pickBalloc ms.msAllocC (!ms.msAlloc)) m₁ c₁ →
      freeSet m₁ (bxpOf fsxp (!ms.msAlloc)) c₁ =
        ((blocks fsxp m inum).drop k : Multiset ℕ) + freeOf fsxp m ms.msAllocC (!ms.msAlloc) →
      Good (bxpOf fsxp (!ms.msAlloc)) m₁ c₁ (nodes fsxp m₁ inum) →
      (∀ a ∈ irecSig.region fsxp.inode, m₁ a = m a) →
      blocks fsxp m₁ inum = blocks fsxp m inum → Q c₁ m₁) :
    Txn.wp n (BALLOCC.freevec (bxpOf fsxp (!ms.msAlloc)) l
      (pickBalloc ms.msAllocC (!ms.msAlloc))) Q m := by
  subst hl
  have hgood := hinv.good hx hi (!ms.msAlloc)
  have hsub : ((blocks fsxp m inum).drop k : Multiset ℕ) ≤ (blocks fsxp m inum : Multiset ℕ) :=
    Multiset.coe_le.2 (List.drop_sublist _ _).subperm
  have hle : nodes fsxp m inum + (((blocks fsxp m inum).drop k : Multiset ℕ) +
      freeOf fsxp m ms.msAllocC (!ms.msAlloc)) ≤
      owned fsxp m inum + freeOf fsxp m ms.msAllocC (!ms.msAlloc) := by
    rw [owned, add_assoc]
    exact add_le_add_right (add_le_add_left hsub _) _
  apply AllocSig.wp_freevec (ballocOk hx.toParts _).fits
  · intro bn hbn
    apply hgood.valid bn
    exact Multiset.mem_of_le hle (Multiset.mem_add.2 (.inr (Multiset.mem_add.2 (.inl hbn))))
  · have := (Multiset.nodup_add.1 (Multiset.nodup_of_le hle hgood.nodup)).2.1
    exact Multiset.coe_nodup.1 this
  · intro c₁ m₁ hst hp
    have hsame : ∀ a ∉ BALLOCC.bmp.region (bxpOf fsxp (!ms.msAlloc)), m₁ a = m a :=
      fun a ha => hst.frame a ha (Set.notMem_empty a)
    obtain ⟨hrec₁, hnodes₁, hblocks₁⟩ := view_of_bitmap hx hinv hi hsame
    have hfree : freeSet m₁ (bxpOf fsxp (!ms.msAlloc)) c₁ =
        ((blocks fsxp m inum).drop k : Multiset ℕ) + freeOf fsxp m ms.msAllocC (!ms.msAlloc) :=
      Multiset.coe_eq_coe.2 hp
    apply hQ c₁ m₁ hst hfree _ _ hblocks₁
    · rw [hnodes₁]
      constructor
      · rw [hfree]
        exact Multiset.nodup_of_le hle hgood.nodup
      · intro a ha
        rw [hfree] at ha
        exact hgood.valid a (Multiset.mem_of_le hle ha)
    · intro a ha
      exact hsame a fun hr => (layout hx.toParts _).disjoint a hr ha

theorem wp_shrink {Q : MemState → Mem → Prop} {nr : ℕ}
    (hQ : ∀ ms' m', Inv fsxp m' ms' → Step fsxp {inum} m ms m' ms' → ms'.msCache = ms.msCache →
      Shrunk fsxp inum m ms m' ms' →
      file fsxp m' inum = ⟨(file fsxp m inum).data.take ((file fsxp m inum).data.length - nr),
        (file fsxp m inum).attr⟩ → Q ms' m') :
    Txn.wp n (shrink fsxp.inode inum fsxp.blockAlloc nr ms) Q m := by
  apply wp_bind
  apply INODE.wp_getallbnum (inodeFits hx.toParts) hi hinv.icache (hinv.len _ hi) (hinv.node_lt hx hi)
  intro c bns hc hbns
  have hlen : bns.length = (blocks fsxp m inum).length := by
    rw [blocks, ← hbns, List.length_map]
  have hdrop : (bns.drop (bns.length - nr)).map BitVec.toNat =
      (blocks fsxp m inum).drop ((blocks fsxp m inum).length - nr) := by
    rw [List.map_drop, hbns, hlen]
  dsimp only
  apply wp_bind
  apply wp_freevec hx hinv hi hdrop
  intro c₁ m₁ hst hfree hgood₁ hreg hblocks₁
  apply wp_bind
  apply INODE.wp_shrink (layout hx.toParts _) hi (hc.congr hreg) _ hgood₁
  · intro c₂ cms m₂ hc₂ hch hsub hblocks hattrs htight
    apply wp_pure
    have hblocks₂ : blocks fsxp m₂ inum =
        (blocks fsxp m inum).take ((blocks fsxp m inum).length - nr) := by
      rw [← hblocks₁]
      exact hblocks
    obtain ⟨h₁, h₂, hsh, h₃⟩ := shrink_edit hx hinv hi { ms with
        msAllocC := updBalloc ms.msAllocC cms (!ms.msAlloc)
        msICache := c₂
        msDBlocks := removeDirtyVec inum ((bns.drop (bns.length - nr)).map BitVec.toNat)
          ms.msDBlocks } hst hfree hch hsub hblocks₂ hc₂ rfl rfl rfl
      (fun j hj => by rw [getDirty_removeDirtyVec, if_neg hj]) htight (by
        intro a ha hnot hd h
        rw [getDirty_removeDirtyVec, if_pos rfl, mem_foldr_erase, hdrop] at hd
        exact hd ⟨h, hnot⟩) (by
        intro a ha
        rwa [getDirty_removeDirtyVec, if_pos rfl, mem_foldr_erase, hdrop] at ha)
    apply hQ _ m₂ h₁ h₂ rfl hsh
    have hrec₁ : INODE.attrs fsxp.inode inum m₁ = INODE.attrs fsxp.inode inum m := by
      rw [INODE.attrs, INODE.irec_congr hi hreg, INODE.attrs]
    rw [length_data, ← h₃]
    simp only [file]
    rw [hattrs, hrec₁]
  · change (blocks fsxp m₁ inum).length ≤ _
    rw [hblocks₁]
    exact hinv.len _ hi

theorem wp_reset {Q : MemState → Mem → Prop}
    (hQ : ∀ ms' m', Inv fsxp m' ms' → Step fsxp {inum} m ms m' ms' →
      ms'.msCache = ms.msCache.erase inum → ms'.msDBlocks = clearDirty inum ms.msDBlocks →
      Shrunk fsxp inum m ms m' ms' → file fsxp m' inum = ⟨[], INODE.iattr0⟩ → Q ms' m') :
    Txn.wp n (reset fsxp.inode inum fsxp.blockAlloc ms) Q m := by
  apply wp_bind
  apply wp_getlen hx hinv hi
  intro c₀ hinv₀
  dsimp only
  apply wp_bind
  apply INODE.wp_getallbnum (inodeFits hx.toParts) hi hinv₀.icache (hinv₀.len _ hi) (hinv₀.node_lt hx hi)
  intro c bns hc hbns
  dsimp only
  apply wp_bind
  apply wp_freevec (k := 0) hx hinv₀ hi (by rw [hbns, List.drop_zero])
  intro c₁ m₁ hst hfree hgood₁ hreg hblocks₁
  apply wp_bind
  apply INODE.wp_reset (layout hx.toParts _) hi (hc.congr hreg) _ hgood₁
  · intro c₂ cms m₂ hc₂ hch hsub hblocks hattrs htight
    have hlen : (INODE.blocks fsxp.inode inum m₁).length = (file fsxp m inum).data.length := by
      rw [length_data]
      exact congrArg List.length hblocks₁
    rw [hlen, Nat.sub_self] at hblocks
    apply wp_pure
    obtain ⟨h₁, h₂, hsh, h₃⟩ := shrink_edit (k := 0) hx hinv₀ hi { ms with
        msAllocC := updBalloc ms.msAllocC cms (!ms.msAlloc)
        msICache := c₂
        msCache := ms.msCache.erase inum
        msDBlocks := clearDirty inum ms.msDBlocks } hst hfree hch hsub
      (by rw [blocks, hblocks, List.take_zero, List.take_zero]) hc₂ rfl rfl rfl
      (fun j hj => by
        rw [getDirty, clearDirty, Std.ExtTreeMap.getElem?_erase, if_neg (by simpa using hj.symm)]
        rfl)
      htight (by intro a ha; simp at ha) (by
        intro a ha
        rw [getDirty_clearDirty, if_pos rfl] at ha
        exact absurd ha Std.ExtTreeSet.not_mem_empty)
    apply hQ _ m₂ h₁ _ rfl rfl ⟨hsh.blocks, hsh.nodes, hsh.acc, hsh.side⟩
    · rw [List.take_zero] at h₃
      rw [← h₃]
      simp only [file]
      rw [hattrs]
    · exact (Step.withICache fsxp {inum} m ms c₀).trans_self hinv h₂
  · change (blocks fsxp m₁ inum).length ≤ _
    rw [hblocks₁]
    exact hinv.len _ hi

/-! ### Setting the length -/

omit hinv in
theorem wp_grown {Q : MemState × Res Unit → Mem → Prop} {l : List Valu} (hinv : Inv fsxp m ms)
    (hQe : l ≠ [] → (l.length = 1 → ¬ CanGrow fsxp m ms inum) → ∀ ms' m' e,
      ((blocks fsxp m inum).length + l.length ≤ INODE.nBlocks →
        freeOf fsxp m' ms'.msAllocC ms.msAlloc = 0) → Q (ms', .error e) m')
    (hQ : ∀ ms' m', Inv fsxp m' ms' → Step fsxp {inum} m ms m' ms' → ms'.msCache = ms.msCache →
      Grown fsxp inum m ms m' ms' →
      file fsxp m' inum = ⟨(file fsxp m inum).data ++ l, (file fsxp m inum).attr⟩ →
      Q (ms', .ok ()) m') :
    Txn.wp n (grown fsxp.inode inum fsxp.blockAlloc l ms) Q m := by
  -- either an error has occurred or the first blocks of the list have been added
  let I : ℕ → MemState × Res Unit → Mem → Prop := fun i r m' =>
    ((∃ e, r.2 = .error e) ∧ (l ≠ [] ∧ (l.length = 1 → ¬ CanGrow fsxp m ms inum)) ∧
      ((blocks fsxp m inum).length + l.length ≤ INODE.nBlocks →
        freeOf fsxp m' r.1.msAllocC ms.msAlloc = 0)) ∨
    (r.2 = .ok () ∧ Inv fsxp m' r.1 ∧ Step fsxp {inum} m ms m' r.1 ∧ r.1.msCache = ms.msCache ∧
      Grown fsxp inum m ms m' r.1 ∧
      file fsxp m' inum = ⟨(file fsxp m inum).data ++ l.take i, (file fsxp m inum).attr⟩ ∧
      (i = 0 → r.1 = ms ∧ m' = m))
  apply Txn.wp_post (Q := I l.length)
  · apply wp_forN I
    · rintro i ⟨ms₁, r⟩ m₁ hil hI
      rcases hI with ⟨⟨e, he⟩, hlack⟩ | ⟨hr, hinv₁, hst, hmsc, hgr, hfile, hfirst⟩
      · dsimp only at he ⊢
        rw [he]
        exact wp_pure (.inl ⟨⟨e, rfl⟩, hlack⟩)
      · dsimp only at hr ⊢
        rw [hr]
        have hlen : (blocks fsxp m₁ inum).length = (blocks fsxp m inum).length + i := by
          rw [← length_data, hfile, List.length_append, length_data, List.length_take,
            Nat.min_eq_left hil.le]
        apply wp_grow hx hinv₁ hi
        · intro hlack ms' m' hinv' hlk hnone
          refine .inl ⟨⟨_, rfl⟩, ⟨List.ne_nil_of_length_pos (by omega), fun hl => ?_⟩, fun hle => ?_⟩
          · obtain ⟨rfl, rfl⟩ := hfirst (by omega)
            exact hlack
          · rw [hst.msAlloc] at hnone
            exact hnone (by omega)
        · intro _ ms₂ m₂ hinv₂ hst₂ hmsc₂ hgr₂ hfile₂
          refine .inr ⟨rfl, hinv₂, ?_, hmsc₂.trans hmsc, hgr.trans hst.msAlloc hgr₂, ?_,
            fun h0 => absurd h0 (Nat.succ_ne_zero i)⟩
          · exact hst.trans_self hinv hst₂
          · rw [hfile₂, hfile, List.append_assoc, List.getD_eq_getElem _ _ hil,
              ← List.take_concat_get' l i hil]
    · omega
    · exact .inr ⟨rfl, hinv, Step.refl _ _ _ _, rfl, Grown.refl _ _ _ _, by simp,
        fun _ => ⟨rfl, rfl⟩⟩
  · rintro ⟨ms', r⟩ m' hI
    rcases hI with ⟨⟨e, he⟩, ⟨hne, hlack⟩, hnone⟩ | ⟨hr, hinv', hst, hmsc, hgr, hfile, -⟩
    · obtain rfl : r = .error e := he
      exact hQe hne hlack ms' m' e hnone
    · obtain rfl : r = .ok () := hr
      rw [List.take_length] at hfile
      exact hQ ms' m' hinv' hst hmsc hgr hfile

/-- The contents of a file whose length is set. -/
def resized (data : List Valu) (newsz : ℕ) : List Valu :=
  data.take newsz ++ List.replicate (newsz - data.length) 0

omit hx hinv hi in
theorem resized_length (data : List Valu) : resized data data.length = data := by
  simp [resized]

theorem wp_truncate {Q : MemState × Res Unit → Mem → Prop} {newsz : ℕ}
    (hQe : (blocks fsxp m inum).length < newsz →
      (newsz = (blocks fsxp m inum).length + 1 → ¬ CanGrow fsxp m ms inum) → ∀ ms' m' e,
        (newsz ≤ INODE.nBlocks → freeOf fsxp m' ms'.msAllocC ms.msAlloc = 0) → Q (ms', .error e) m')
    (hQ : ∀ ms' m', Inv fsxp m' ms' → Step fsxp {inum} m ms m' ms' → ms'.msCache = ms.msCache →
      (newsz < (blocks fsxp m inum).length → Shrunk fsxp inum m ms m' ms') →
      ((blocks fsxp m inum).length ≤ newsz → Grown fsxp inum m ms m' ms') →
      file fsxp m' inum = ⟨resized (file fsxp m inum).data newsz, (file fsxp m inum).attr⟩ →
      Q (ms', .ok ()) m') :
    Txn.wp n (truncate fsxp.inode inum fsxp.blockAlloc newsz ms) Q m := by
  apply wp_bind
  apply wp_getlen hx hinv hi
  intro c hinv₀
  have hst₀ := Step.withICache fsxp {inum} m ms c
  have hstep : ∀ {m' ms'}, Step fsxp {inum} m { ms with msICache := c } m' ms' →
      Step fsxp {inum} m ms m' ms' := fun h => hst₀.trans_self hinv h
  dsimp only
  rw [length_data]
  split_ifs with hlt
  · apply wp_bind
    apply wp_shrink hx hinv₀ hi
    intro ms' m' hinv' hst hmsc hsh hfile
    apply wp_pure
    apply hQ ms' m' hinv' (hstep hst) hmsc
    · exact fun _ => ⟨hsh.blocks, hsh.nodes, hsh.acc, hsh.side⟩
    · exact fun hle => absurd hle (Nat.not_le.2 hlt)
    · rw [← length_data] at hlt
      have e₁ : (file fsxp m inum).data.length - ((file fsxp m inum).data.length - newsz) =
          newsz := by omega
      have e₂ : newsz - (file fsxp m inum).data.length = 0 := by omega
      rw [← length_data, e₁] at hfile
      rw [hfile, resized, e₂, List.replicate_zero, List.append_nil]
  · have hle := Nat.not_lt.1 hlt
    apply wp_grown hx hi hinv₀
    · intro hne hlack ms' m' e hnone
      rw [List.length_replicate] at hlack hnone
      have hpos : 0 < newsz - (blocks fsxp m inum).length := by
        have := List.length_pos_iff.2 hne
        rwa [List.length_replicate] at this
      exact hQe (by omega) (fun h => hlack (by omega)) ms' m' e fun h => hnone (by omega)
    · intro ms' m' hinv' hst hmsc hgr hfile
      apply hQ ms' m' hinv' (hstep hst) hmsc
      · exact fun h => absurd h hlt
      · exact fun _ => ⟨hgr.blocks, hgr.nodes, hgr.acc, hgr.side⟩
      · rw [← length_data] at hle
        rw [hfile, resized, List.take_of_length_le hle, length_data]

/-- A file that grows is written in few blocks. -/
theorem length_writes_truncate {newsz : ℕ} (hlen : (blocks fsxp m inum).length ≤ newsz) :
    (Txn.writes (truncate fsxp.inode inum fsxp.blockAlloc newsz ms) m).length ≤
      (newsz - (blocks fsxp m inum).length) * 9 := by
  have hlen' : (Txn.run (getlen fsxp.inode inum ms) m).1.2 = (blocks fsxp m inum).length :=
    Txn.wp_run (wp_getlen (Q := fun r _ => r.2 = _) hx hinv hi fun c _ => length_data fsxp m inum)
  have hw : Txn.writes (getlen fsxp.inode inum ms) m = [] :=
    List.eq_nil_of_length_eq_zero (Nat.le_zero.1 (atMost_getlen fsxp.inode inum ms m))
  have hwrites : Txn.writes (truncate fsxp.inode inum fsxp.blockAlloc newsz ms) m =
      Txn.writes (getlen fsxp.inode inum ms) m ++ Txn.writes
        (if newsz < (Txn.run (getlen fsxp.inode inum ms) m).1.2 then do
          let fms ← shrink fsxp.inode inum fsxp.blockAlloc
            ((Txn.run (getlen fsxp.inode inum ms) m).1.2 - newsz)
            (Txn.run (getlen fsxp.inode inum ms) m).1.1
          pure (fms, .ok ())
        else grown fsxp.inode inum fsxp.blockAlloc
          (List.replicate (newsz - (Txn.run (getlen fsxp.inode inum ms) m).1.2) 0)
          (Txn.run (getlen fsxp.inode inum ms) m).1.1)
        (Txn.run (getlen fsxp.inode inum ms) m).2 := rfl
  rw [hwrites, hw, hlen', if_neg (Nat.not_lt.2 hlen), List.nil_append]
  refine (atMost_grown fsxp.inode inum fsxp.blockAlloc _ _ _).trans ?_
  rw [List.length_replicate]

/-- Setting the length to what it is writes nothing. -/
theorem wp_truncate_same {Q : MemState × Res Unit → Mem → Prop}
    (hQ : ∀ c, Inv fsxp m { ms with msICache := c } → Q ({ ms with msICache := c }, .ok ()) m) :
    Txn.wp n (truncate fsxp.inode inum fsxp.blockAlloc (blocks fsxp m inum).length ms) Q m := by
  apply wp_bind
  apply wp_getlen hx hinv hi
  intro c hinv'
  dsimp only
  rw [length_data, if_neg (Nat.lt_irrefl _), Nat.sub_self]
  exact wp_pure (hQ c hinv')

end

/-- Dropping all blocks of a file writes behind the blocks of the files only. -/
theorem above_truncate_zero (hx : fsxp.Parts n) (inum : ℕ) (ms : MemState) :
    Txn.Above fsxp.nblocks (truncate fsxp.inode inum fsxp.blockAlloc 0 ms) := by
  have h₁ := hx.data
  have h₂ := hx.inode
  have h₃ := hx.ialloc
  have h₄ := hx.balloc₁
  have hb : ∀ b, fsxp.nblocks ≤ (pickBalloc fsxp.blockAlloc b).bmapStart := by
    rintro (_ | _)
    · show fsxp.nblocks ≤ fsxp.blockAlloc2.bmapStart
      omega
    · show fsxp.nblocks ≤ fsxp.blockAlloc1.bmapStart
      omega
  have hany : ∀ {α : Type} (p : TxnProg α) (m : Mem), Txn.Does p (fun _ _ => True) m :=
    fun _ _ => trivial
  intro m
  have hlen : Txn.Does (getlen fsxp.inode inum ms) (fun r _ => ∃ x : INODE.irecSig.Item,
      r.1.msICache[inum]? = some x ∧ r.2 = INODE.irLen x) m := by
    apply Txn.does_bind
    apply Txn.does_bind
    apply (RASig.does_getCached fsxp.inode inum ms.msICache m).post
    exact fun r m' hr => ⟨r.2, hr, rfl⟩
  refine Txn.AboveAt.bind ((atMost_getlen _ inum ms).above _ m) hlen ?_
  rintro ⟨ms₁, sz⟩ m₁ ⟨x, hx₁, rfl⟩
  dsimp only at hx₁
  dsimp only
  split_ifs with hpos
  · refine Txn.AboveAt.bind ?_ (hany _ m₁) fun _ _ _ => Txn.aboveAt_pure _ _
    have hall : Txn.Does (INODE.getallbnum fsxp.inode inum ms₁.msICache)
        (fun r _ => r.1 = ms₁.msICache) m₁ := by
      apply Txn.does_bind
      apply (RASig.does_getCached_of_some hx₁ m₁).post
      rintro r m' rfl
      rfl
    refine Txn.AboveAt.bind ?_ hall ?_
    · exact ((RASig.atMost_getCached _ _ _).after fun r =>
        (BlockPtr.atMost_ptrRead _).after fun _ => Txn.atMost_pure 0 _).above _ m₁
    rintro ⟨c, bns⟩ m₂ rfl
    refine Txn.AboveAt.bind ?_ (hany _ m₂) fun cms m₃ _ => ?_
    · exact (Txn.above_forN (fun i ms => (BlockPtr.above_free _ _ ms)) _ _ _).mono (hb _) m₂
    refine Txn.AboveAt.bind ?_ (hany _ m₃) fun _ _ _ => Txn.aboveAt_pure _ _
    exact INODE.aboveAt_shrink_all hx₁ (Nat.sub_zero _).ge h₁ (hb _) cms m₃
  · have hz : INODE.irLen x = 0 := Nat.eq_zero_of_not_pos hpos
    rw [hz]
    exact Txn.aboveAt_pure _ _

end BFILE

end Fscq
