import Fscq.BFileRep

/-!
# Reading and writing files

The contents and the attributes of a file are read, and changed in place.
-/

namespace Fscq

open CrashProg

namespace BFILE

open INODE (irecSig ninodes irec)

variable {n inum : ℕ} {fsxp : FsXparams} {m m' : Mem} {ms : MemState}

/-! ### Reading -/

theorem Inv.withICache {c : INODE.Cache} (h : Inv fsxp m ms)
    (hc : irecSig.CacheOk m fsxp.inode c) : Inv fsxp m { ms with msICache := c } :=
  ⟨hc, h.len, h.own⟩

theorem length_data (fsxp : FsXparams) (m : Mem) (i : ℕ) :
    (file fsxp m i).data.length = (blocks fsxp m i).length := by
  rw [file, List.length_map]

section

variable (hx : fsxp.Ok n) (hinv : Inv fsxp m ms) (hi : inum < ninodes fsxp.inode)

include hx hinv hi

theorem Inv.node_lt : ∀ a ∈ nodes fsxp m inum, a < n :=
  fun _ ha => (hinv.good_nodes hx hi true).lt (ballocOk hx.toParts true) ha

theorem Inv.block_lt : ∀ a ∈ blocks fsxp m inum, a ≠ 0 ∧ a < n := by
  intro a ha
  have ha' : a ∈ owned fsxp m inum := Multiset.mem_add.2 (.inr ha)
  exact ⟨(hinv.good hx hi true).ne_zero ha', (hinv.good hx hi true).lt (ballocOk hx.toParts true) ha'⟩

theorem wp_getlen {Q : MemState × ℕ → Mem → Prop}
    (hQ : ∀ c, Inv fsxp m { ms with msICache := c } →
      Q ({ ms with msICache := c }, (file fsxp m inum).data.length) m) :
    Txn.wp n (getlen fsxp.inode inum ms) Q m := by
  apply wp_bind
  apply INODE.wp_getlen (inodeFits hx.toParts) hi hinv.icache
  intro c hc
  apply wp_pure
  rw [← length_data]
  exact hQ c (hinv.withICache hc)

theorem wp_getattrs {Q : MemState × INODE.IAttr → Mem → Prop}
    (hQ : ∀ c, Inv fsxp m { ms with msICache := c } →
      Q ({ ms with msICache := c }, (file fsxp m inum).attr) m) :
    Txn.wp n (getattrs fsxp.inode inum ms) Q m := by
  apply wp_bind
  apply INODE.wp_getattrs (inodeFits hx.toParts) hi hinv.icache
  intro c hc
  apply wp_pure
  exact hQ c (hinv.withICache hc)

theorem wp_read {Q : MemState × Valu → Mem → Prop} {off : ℕ}
    (ho : off < (file fsxp m inum).data.length)
    (hQ : ∀ c, Inv fsxp m { ms with msICache := c } →
      Q ({ ms with msICache := c }, (file fsxp m inum).data.getD off 0) m) :
    Txn.wp n (read fsxp.inode inum off ms) Q m := by
  rw [length_data] at ho
  apply wp_bind
  apply INODE.wp_getbnum (inodeFits hx.toParts) hi hinv.icache (hinv.len _ hi) ho (hinv.node_lt hx hi)
  intro c w hc hw
  have hw' : w.toNat = (blocks fsxp m inum)[off] := by rw [hw, List.getD_eq_getElem]
  have hlt := (hinv.block_lt hx hi _ (List.getElem_mem ho)).2
  apply wp_bind
  rw [hw']
  apply Txn.wp_read hlt
  apply wp_pure
  have hv : (file fsxp m inum).data.getD off 0 = m (blocks fsxp m inum)[off] := by
    rw [file, List.getD_eq_getElem _ _ (by simpa using ho), List.getElem_map]
  rw [← hv]
  exact hQ c (hinv.withICache hc)

/-! ### Attributes -/

/-- Writing the attributes of a file. -/
theorem wp_putAttrs {Q : INODE.Cache → Mem → Prop} {attr : INODE.IAttr} {c : INODE.Cache}
    (hc : irecSig.CacheOk m fsxp.inode c)
    (hQ : ∀ c' m', Inv fsxp m' { ms with msICache := c' } →
      Step fsxp {inum} m ms m' { ms with msICache := c' } →
      file fsxp m' inum = ⟨(file fsxp m inum).data, attr⟩ → Q c' m') :
    Txn.wp n (irecSig.putCached fsxp.inode inum
      (INODE.updAttrs (irec fsxp.inode inum m) attr) c) Q m := by
  apply INODE.wp_putAttrs (layout hx.toParts ms.msAlloc) hi hc (hinv.len _ hi)
    (hinv.good_nodes hx hi ms.msAlloc)
  intro c' m' hc' hch hframe hnodes hblocks hattrs htight
  have hown : owned fsxp m' inum = owned fsxp m inum := by
    rw [owned, nodes, blocks, hnodes, hblocks]
    rfl
  have hedit : Edit fsxp ms.msAlloc inum m ms m' { ms with msICache := c' } := by
    refine ⟨fun a _ hr _ => hframe a hr, hch.other, hc', ?_, ?_, rfl, hch.step.coh, rfl, rfl,
      fun _ _ => rfl, htight⟩
    · rw [blocks, hblocks]
      exact hinv.len _ hi
    · have hreg : freeOf fsxp m' ms.msAllocC ms.msAlloc = freeOf fsxp m ms.msAllocC ms.msAlloc := by
        apply BlockPtr.freeSet_congr
        intro a ha
        apply hframe
        exact (layout hx.toParts ms.msAlloc).disjoint a ha
      rw [hown, hreg]
  apply hQ c' m' (hedit.inv hx hinv hi)
  · apply hedit.step_of_le hx hinv hi rfl
    · intro a ha
      rwa [blocks, hblocks]
    · rw [nodes, nodes, hnodes]
    · intro a ha hd
      rw [blocks, hblocks] at ha
      exact ⟨ha, hd⟩
    · exact fun a ha => .inl ha
  · have hdata : ∀ a ∈ blocks fsxp m inum, m' a = m a := by
      intro a ha
      apply hframe
      intro hr
      have h₁ := (hinv.mem_allBlocks_of_owned hi (Multiset.mem_add.2 (.inr ha))).2
      have h₂ := (mem_region_inode hx.toParts hr).1
      omega
    rw [file, blocks, hblocks, hattrs, List.map_congr_left hdata, file]

theorem wp_setattrs {Q : MemState → Mem → Prop} {attr : INODE.IAttr}
    (hQ : ∀ c m', Inv fsxp m' { ms with msICache := c } →
      Step fsxp {inum} m ms m' { ms with msICache := c } →
      file fsxp m' inum = ⟨(file fsxp m inum).data, attr⟩ → Q { ms with msICache := c } m') :
    Txn.wp n (setattrs fsxp.inode inum attr ms) Q m := by
  apply wp_bind
  apply wp_bind
  apply INODE.wp_getRec (inodeFits hx.toParts) hi hinv.icache
  intro c hc
  apply wp_putAttrs hx hinv hi hc
  intro c' m' hinv' hst hfile
  exact wp_pure (hQ c' m' hinv' hst hfile)

theorem wp_updattr {Q : MemState → Mem → Prop} {kv : INODE.IAttrUpdArg}
    (hQ : ∀ c m', Inv fsxp m' { ms with msICache := c } →
      Step fsxp {inum} m ms m' { ms with msICache := c } →
      file fsxp m' inum = ⟨(file fsxp m inum).data, INODE.iattrUpd (file fsxp m inum).attr kv⟩ →
      Q { ms with msICache := c } m') :
    Txn.wp n (updattr fsxp.inode inum kv ms) Q m := by
  apply wp_bind
  apply wp_bind
  apply INODE.wp_getRec (inodeFits hx.toParts) hi hinv.icache
  intro c hc
  apply wp_putAttrs hx hinv hi hc
  intro c' m' hinv' hst hfile
  exact wp_pure (hQ c' m' hinv' hst hfile)

/-! ### Writing a block -/

/-- A file with one of its blocks written. -/
theorem data_update {off : ℕ} (ho : off < (blocks fsxp m inum).length) (v : Valu) :
    Inv fsxp (Function.update m (blocks fsxp m inum)[off] v) ms ∧
      Step fsxp {inum} m ms (Function.update m (blocks fsxp m inum)[off] v) ms ∧
      Kept fsxp inum m ms (Function.update m (blocks fsxp m inum)[off] v) ms ∧
      file fsxp (Function.update m (blocks fsxp m inum)[off] v) inum =
        ⟨(file fsxp m inum).data.set off v, (file fsxp m inum).attr⟩ := by
  set a₀ := (blocks fsxp m inum)[off] with ha₀
  have hmem : a₀ ∈ blocks fsxp m inum := List.getElem_mem ho
  have hown : a₀ ∈ owned fsxp m inum := Multiset.mem_add.2 (.inr hmem)
  have hlt := (hinv.mem_allBlocks_of_owned hi hown).2
  have hnd : (owned fsxp m inum).Nodup := by
    have := (hinv.good hx hi true).nodup
    exact (Multiset.nodup_add.1 this).1
  have hrec : ∀ j < ninodes fsxp.inode,
      irec fsxp.inode j (Function.update m a₀ v) = irec fsxp.inode j m := by
    intro j hj
    apply INODE.irec_congr hj
    intro a ha
    apply Function.update_of_ne
    rintro rfl
    have := (mem_region_inode hx.toParts ha).1
    omega
  have hnode : ∀ a ∈ nodes fsxp m inum, Function.update m a₀ v a = m a := by
    intro a ha
    apply Function.update_of_ne
    rintro rfl
    exact Multiset.disjoint_left.1 (Multiset.nodup_add.1 hnd).2.2 ha hmem
  obtain ⟨hnodes, hblocks⟩ := layout_congr (hinv.len inum hi) (hrec inum hi) hnode
  have hfree : ∀ b, freeOf fsxp (Function.update m a₀ v) ms.msAllocC b =
      freeOf fsxp m ms.msAllocC b := by
    intro b
    apply BlockPtr.freeSet_congr
    intro a ha
    apply Function.update_of_ne
    rintro rfl
    exact (hinv.good hx hi b).not_mem_region (ballocOk hx.toParts b) hown ha
  have hedit : Edit fsxp ms.msAlloc inum m ms (Function.update m a₀ v) ms := by
    refine ⟨?_, fun j hj _ => hrec j hj, ?_, ?_, ?_, rfl, ?_, rfl, rfl, fun _ _ => rfl,
      tight_congr (hrec inum hi) hnode⟩
    · intro a _ _ ha
      apply Function.update_of_ne
      rintro rfl
      exact ha (Multiset.mem_add.2 (.inl hown))
    · apply hinv.icache.congr
      intro a ha
      apply Function.update_of_ne
      rintro rfl
      have := (mem_region_inode hx.toParts ha).1
      omega
    · rw [hblocks]
      exact hinv.len _ hi
    · rw [owned, hnodes, hblocks, hfree, owned]
    · intro hc
      apply hc.congr
      intro a ha
      apply Function.update_of_ne
      rintro rfl
      exact (hinv.good hx hi _).not_mem_region (ballocOk hx.toParts _) hown ha
  refine ⟨hedit.inv hx hinv hi, ?_, ⟨hblocks, hnodes, hfree, rfl⟩, ?_⟩
  · apply hedit.step_of_le hx hinv hi rfl
    · intro a ha
      rwa [hblocks]
    · rw [hnodes]
    · intro a ha hd
      rw [hblocks] at ha
      exact ⟨ha, hd⟩
    · exact fun a ha => .inl ha
  · have hattr : INODE.attrs fsxp.inode inum (Function.update m a₀ v) =
        INODE.attrs fsxp.inode inum m := by rw [INODE.attrs, hrec inum hi, INODE.attrs]
    rw [file, hblocks, hattr, file]
    congr 1
    apply List.ext_getElem
    · simp
    · intro i h₁ h₂
      have hi' : i < (blocks fsxp m inum).length := by simpa using h₁
      rw [List.getElem_map, List.getElem_set, List.getElem_map]
      rcases eq_or_ne off i with rfl | hne
      · rw [if_pos rfl, ← ha₀, Function.update_self]
      · rw [if_neg hne]
        apply Function.update_of_ne
        have hbn : (blocks fsxp m inum).Nodup := Multiset.coe_nodup.1 (Multiset.nodup_add.1 hnd).2.1
        intro he
        exact hne (hbn.getElem_inj_iff.1 (he.trans ha₀)).symm

theorem wp_write {Q : MemState → Mem → Prop} {off : ℕ} {v : Valu}
    (ho : off < (file fsxp m inum).data.length)
    (hQ : ∀ c m', Inv fsxp m' { ms with msICache := c } →
      Step fsxp {inum} m ms m' { ms with msICache := c } →
      Kept fsxp inum m ms m' { ms with msICache := c } →
      file fsxp m' inum = ⟨(file fsxp m inum).data.set off v, (file fsxp m inum).attr⟩ →
      Q { ms with msICache := c } m') :
    Txn.wp n (write fsxp.inode inum off v ms) Q m := by
  rw [length_data] at ho
  apply wp_bind
  apply INODE.wp_getbnum (inodeFits hx.toParts) hi hinv.icache (hinv.len _ hi) ho (hinv.node_lt hx hi)
  intro c w hc hw
  have hw' : w.toNat = (blocks fsxp m inum)[off] := by rw [hw, List.getD_eq_getElem]
  have hlt := hinv.block_lt hx hi _ (List.getElem_mem ho)
  have hinv' := hinv.withICache hc
  obtain ⟨h₁, h₂, hk, h₃⟩ := data_update hx hinv' hi ho v
  apply wp_bind
  rw [hw']
  apply Txn.wp_write hlt.1 hlt.2
  apply wp_pure
  apply hQ c _ h₁ _ ⟨hk.blocks, hk.nodes, hk.free, hk.msDBlocks⟩ h₃
  exact (Step.withICache fsxp {inum} m ms c).trans_self hinv h₂

end

end BFILE

end Fscq
