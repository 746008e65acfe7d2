import Fscq.DiskLogHashRep

/-!
# What the operations on the disk log do

Each of them keeps `Recoverable` at every crash and ends with `Synced`.
-/

namespace Fscq

open CrashProg

namespace PaddedLog

variable [Platform]

variable {n : ℕ} {xp : LogXparams} {cs : CacheState} {m : ADisk} {hm : Hashmap} {s : St}
  {CC : ADisk → Hashmap → Prop}

theorem wp_hashList' {Q : BitVec hashlen → St → Prop} {C : St → Prop} {c : BitVec hashlen}
    {l values : List Valu} (h : CState n cs m hm s) (hr : HashListRep l c hm)
    (hQ : ∀ hm' c' s', CState n cs m hm' s' → hm.Le hm' →
      HashListRep (values.reverse ++ l) c' hm' → Q c' s') :
    wp diskSem (hashList c values) Q C s := by
  obtain ⟨hrep, rfl⟩ := h
  refine wp_hashList hr fun d hm' c' hd hle hr' => hQ hm' c' _ ?_ hle hr'
  exact ⟨hrep.possibleSync hd, rfl⟩

theorem wp_hashDefault {Q : BitVec hashlen → St → Prop} {C : St → Prop}
    (h : CState n cs m hm s)
    (hQ : ∀ hm' s', CState n cs m hm' s' → hm.Le hm' → Q defaultHash s') :
    wp diskSem (Prog.hash defaultValu) Q C s := by
  obtain ⟨hrep, rfl⟩ := h
  exact wp_hash fun d hm' hd hle _ => hQ hm' _ ⟨hrep.possibleSync hd, rfl⟩ hle

theorem Hdr.wp_read {Q : CacheState × Hdr → St → Prop} (hl : Layout n xp)
    (h : CState n cs m hm s) (hc : CC m hm)
    (hQ : ∀ cs' s', CState n cs' m hm s' →
      Q (cs', ofHeader (val2hdr (m.cur xp.logHeader))) s') :
    wp diskSem (Hdr.read xp cs) Q (CCrash n CC) s :=
  wp_bind (BufCache.wp_read h hl.header_lt_size hc fun cs' s' h' => wp_pure (hQ cs' s' h'))

theorem Hdr.wp_write {Q : CacheState → St → Prop} {hd : Hdr} (hl : Layout n xp)
    (h : CState n cs m hm s) (hc : CC m hm)
    (hQ : ∀ cs' s', CState n cs' (m.write xp.logHeader hd.encode) hm s' → Q cs' s') :
    wp diskSem (Hdr.write xp hd cs) Q (CCrash n CC) s :=
  BufCache.wp_write h hl.header_lt_size hc hQ

theorem Hdr.wp_syncNow {Q : CacheState → St → Prop} (h : CState n cs m hm s) (hc : CC m hm)
    (hQ : ∀ cs' s', CState n cs' (m.sync {xp.logHeader}) hm s' → Q cs' s') :
    wp diskSem (Hdr.syncNow xp cs) Q (CCrash n CC) s := by
  unfold Hdr.syncNow BufCache.beginSync BufCache.sync
  refine wp_bind (wp_pure (wp_bind (BufCache.wp_writeback h hc fun cs' s' h' hcl _ => ?_)))
  refine BufCache.wp_endSync h' ?_ hc fun s'' h'' => hQ cs' s'' h''
  rintro a rfl
  exact hcl

theorem wp_avail {Q : CacheState × ℕ → St → Prop} (hl : Layout n xp)
    (h : CState n cs m hm s) (hc : CC m hm)
    (hQ : ∀ cs' s', CState n cs' m hm s' → Q (cs', navail xp m) s') :
    wp diskSem (avail xp cs) Q (CCrash n CC) s :=
  wp_bind (Hdr.wp_read hl h hc fun cs' s' h' => wp_pure (hQ cs' s' h'))

/-- The lengths of a log are within its area. -/
theorem Holds.area_le {len : ℕ × ℕ} {chk : BitVec hashlen × BitVec hashlen} {l : Contents}
    (h : Holds xp m hm len chk l) (hl : Layout n xp) :
    xp.logDescriptor + len.1 ≤ n ∧ xp.logData + len.2 ≤ n := by
  have := h.desc_le
  have := h.data_le
  have := hl.desc_le
  have := hl.data_le
  omega

theorem wp_read {Q : CacheState × Contents → St → Prop} {l : Contents} (hl : Layout n xp)
    (h : CState n cs m hm s) (hs : Synced xp m hm l) (hc : CC m hm)
    (hQ : ∀ cs' s', CState n cs' m hm s' → Q (cs', l) s') :
    wp diskSem (read xp cs) Q (CCrash n CC) s := by
  obtain ⟨-, hd, hg, hv, hh⟩ := hs
  unfold read
  refine wp_bind (Hdr.wp_read hl h hc fun cs s h => ?_)
  rw [hv, Hdr.ofHeader_encode hg]
  refine wp_bind (AsyncRecArray.wp_readAll h (hh.area_le hl).1 hc fun cs s h => ?_)
  refine wp_bind (AsyncRecArray.wp_readAll h (hh.area_le hl).2 hc fun cs s h => wp_pure ?_)
  rw [dataSig_items]
  have := hh.decodes.eq
  rw [addrs] at this
  have hQ' := hQ cs s h
  rw [← this] at hQ'
  exact hQ'

/-! ### Extension -/

section Extend

variable {new old : Contents} {len : ℕ × ℕ} {chk : BitVec hashlen × BitVec hashlen}

theorem Holds.data_le_desc {l : Contents} (h : Holds xp m hm len chk l) :
    len.2 ≤ len.1 * descSig.itemsPerVal := by
  have h₁ := h.decodes.count
  have h₂ := nonzeroAddrs_le (addrs (descBlocks xp m.cur len.1))
  simp only [descBlocks, dataBlocks, addrs, List.length_map, RASig.length_items,
    length_blocksAt] at h₁ h₂
  omega

/-- Entries for which there is room are not refused. -/
theorem fits_of_le_navail (hl : Layout n xp) (hs : Synced xp m hm old)
    (h : new.length ≤ navail xp m) : Fits xp m new := by
  obtain ⟨-, hd, hg, hv, hh⟩ := hs
  have hpos := descSig.itemsPerVal_pos
  have h₁ := hh.data_le_desc
  have h₂ := hh.desc_le
  have h₃ : ndataLog new ≤ new.length := by
    simpa [ndataLog] using nonzeroAddrs_le (new.map Prod.fst)
  have h₄ := hl.logLen_eq
  rw [navail_eq, hdrOf_encode hg hv, h₄, ← Nat.sub_mul] at h
  -- the descriptor blocks are what is short first
  have h₅ : ndescLog new ≤ xp.logDescLen - hd.currentLength.1 := (divup_le_iff hpos).2 h
  have h₆ : (hd.currentLength.1 + (xp.logDescLen - hd.currentLength.1)) * descSig.itemsPerVal =
      xp.logDescLen * descSig.itemsPerVal := by rw [Nat.add_sub_cancel' h₂]
  rw [Nat.add_mul] at h₆
  rw [Fits, hdrOf_encode hg hv]
  exact ⟨by omega, by omega⟩

/-- Writes behind the log change neither the log nor the header nor the rest of the disk. -/
theorem Holds.writes_behind {l : Contents} {hm' : Hashmap} {avs : List (ℕ × Valu)}
    (h : Holds xp m hm len chk l) (hle : hm.Le hm')
    (hav : ∀ av ∈ avs, xp.logHeader < av.1 ∧ ¬ LogArea xp len av.1) :
    Holds xp (m.writes avs) hm' len chk l ∧ Frame xp m (m.writes avs) ∧
      m.SameAt (m.writes avs) xp.logHeader := by
  refine ⟨h.keeps hle (keeps_writes fun av h => (hav av h).2), fun a ha => ?_, ?_⟩
  · refine ADisk.sameAt_writes fun av h => ?_
    have := (hav av h).1
    omega
  · refine ADisk.sameAt_writes fun av h => ?_
    have := (hav av h).1
    omega

section Extended

variable {db vb : List Valu} {hm' : Hashmap} {chk' : BitVec hashlen × BitVec hashlen}

theorem extended_holds {l : Contents} (vb : List Valu) (hd : Hdr) (hl : Layout n xp)
    (h : Holds xp m hm len chk l) (hle : hm.Le hm') (hd' : len.1 + db.length ≤ xp.logDescLen) :
    Holds xp (extended xp m len db vb hd) hm' len chk l := by
  have h₁ := hl.header_lt
  have h₂ := hl.desc_le
  refine h.keeps hle fun a ha hs => ?_
  have hsame : m.SameAt (extended xp m len db vb hd) a := by
    unfold LogArea at ha
    exact extended_sameAt (by omega) (by omega) (by omega)
  exact ⟨hsame.1, hsame.syncedAt hs⟩

/-- While the extension is unsynced, both logs can be recovered. -/
theorem extended_recoverable {prev : ℕ × ℕ} (hl : Layout n xp)
    (h : Holds xp m hm len chk old) (hle : hm.Le hm')
    (hg : (⟨prev, len, chk⟩ : Hdr).Good) (hp : ∀ v ∈ m.poss xp.logHeader, v = Hdr.encode ⟨prev, len, chk⟩)
    (hd' : len.1 + db.length ≤ xp.logDescLen) (hv' : len.2 + vb.length ≤ xp.logLen)
    (hg' : (⟨len, (len.1 + db.length, len.2 + vb.length), chk'⟩ : Hdr).Good)
    (hdec : Decodes db vb new)
    (hr₁ : HashListRep (db.reverse ++ (descBlocks xp m.cur len.1).reverse) chk'.1 hm')
    (hr₂ : HashListRep (vb.reverse ++ (dataBlocks xp m.cur len.2).reverse) chk'.2 hm') :
    Recoverable xp (extended xp m len db vb ⟨len, (len.1 + db.length, len.2 + vb.length), chk'⟩)
      hm' {old, old ++ new} := by
  have hh := extended_holds vb ⟨len, (len.1 + db.length, len.2 + vb.length), chk'⟩ hl h hle hd'
  have hb : m.SameAt ((m.writes (ADisk.rangeWrites (xp.logDescriptor + len.1) db)).writes
      (ADisk.rangeWrites (xp.logData + len.2) vb)) xp.logHeader := by
    have := hl.header_lt
    have := hl.desc_le
    exact (ADisk.sameAt_writes_range (by omega)).trans (ADisk.sameAt_writes_range (by omega))
  intro v hv
  have hv₁ : v = Hdr.encode ⟨len, (len.1 + db.length, len.2 + vb.length), chk'⟩ ∨
      v ∈ m.poss xp.logHeader := by
    simpa [extended, ADisk.write, hb.2] using hv
  rcases hv₁ with rfl | hv₁
  · -- the new header, with or without its blocks
    refine .inr ⟨old, by simp, old ++ new, by simp, _, descBlocks xp m.cur len.1 ++ db,
      dataBlocks xp m.cur len.2 ++ vb, hg', rfl, ⟨chk, hh⟩, ?_, ?_, hd', hv',
      h.decodes.append hdec, ?_, ?_⟩
    · simp [descBlocks]
    · simp [dataBlocks]
    · rwa [List.reverse_append]
    · rwa [List.reverse_append]
  · exact .inl ⟨old, by simp, _, hg, hp v hv₁, hh⟩

/-- Once the extension is synced, the log holds the new entries. -/
theorem extended_synced (hl : Layout n xp) (h : Holds xp m hm len chk old) (hle : hm.Le hm')
    (hd' : len.1 + db.length ≤ xp.logDescLen) (hv' : len.2 + vb.length ≤ xp.logLen)
    (hg' : (⟨len, (len.1 + db.length, len.2 + vb.length), chk'⟩ : Hdr).Good)
    (hdec : Decodes db vb new)
    (hr₁ : HashListRep (db.reverse ++ (descBlocks xp m.cur len.1).reverse) chk'.1 hm')
    (hr₂ : HashListRep (vb.reverse ++ (dataBlocks xp m.cur len.2).reverse) chk'.2 hm') :
    Synced xp ((extended xp m len db vb ⟨len, (len.1 + db.length, len.2 + vb.length), chk'⟩).sync
      (extendedArea xp len (db.length, vb.length))) hm' (old ++ new) := by
  have hh := extended_holds vb ⟨len, (len.1 + db.length, len.2 + vb.length), chk'⟩ hl h hle hd'
  refine ⟨ADisk.syncedAt_sync (.inl rfl), _, hg', by simp [extended, ADisk.sync, ADisk.write],
    hd', hv', ?_, ?_, ?_, ?_⟩
  · intro a ha
    by_cases ha' : LogArea xp len a
    · exact (hh.synced a ha').sync
    · refine ADisk.syncedAt_sync ?_
      unfold LogArea at ha ha'
      simp only [extendedArea, Set.mem_ofPred_eq]
      dsimp only at ha
      omega
  all_goals rw [ADisk.sync_cur]
  all_goals dsimp only
  · rw [(extended_blocks hl hd').1, (extended_blocks hl hd').2]
    exact h.decodes.append hdec
  · rw [(extended_blocks hl hd').1, List.reverse_append]
    exact hr₁
  · rw [(extended_blocks hl hd').2, List.reverse_append]
    exact hr₂

omit [Platform] in
/-- The blocks of the extended log. -/
theorem extended_extends {prev : ℕ × ℕ} (hl : Layout n xp) (hg : (⟨prev, len, chk⟩ : Hdr).Good)
    (hv : m.cur xp.logHeader = Hdr.encode ⟨prev, len, chk⟩)
    (hd' : len.1 + db.length ≤ xp.logDescLen)
    (hg' : (⟨len, (len.1 + db.length, len.2 + vb.length), chk'⟩ : Hdr).Good)
    (hfits : Fits xp m new) (hdb : descSig.nopadIpack (new.map entAddr) = db)
    (hvb : vb = valsNonzero new) :
    Extends xp m ((extended xp m len db vb ⟨len, (len.1 + db.length, len.2 + vb.length), chk'⟩).sync
      (extendedArea xp len (db.length, vb.length))) new := by
  have hhdr : hdrOf xp ((extended xp m len db vb
      ⟨len, (len.1 + db.length, len.2 + vb.length), chk'⟩).sync
      (extendedArea xp len (db.length, vb.length))) =
      ⟨len, (len.1 + db.length, len.2 + vb.length), chk'⟩ :=
    hdrOf_encode hg' (by simp [extended, ADisk.sync, ADisk.write])
  refine ⟨hfits, ?_, ?_⟩
  · rw [curDesc, curDesc, hhdr, hdrOf_encode hg hv, ADisk.sync_cur, hdb]
    exact (extended_blocks hl hd').1
  · rw [curData, curData, hhdr, hdrOf_encode hg hv, ADisk.sync_cur, ← hvb]
    exact (extended_blocks hl hd').2

end Extended

theorem wp_extend {Q : CacheState × Bool → St → Prop} (hl : Layout n xp)
    (h : CState n cs m hm s) (hs : Synced xp m hm old) (hnew : ∀ e ∈ new, EntryValid e)
    (hc : ∀ m' hm', Frame xp m m' → hm.Le hm' → Recoverable xp m' hm' {old, old ++ new} →
      CC m' hm')
    (hQ : ∀ cs' m' hm' s', CState n cs' m' hm' s' → Frame xp m m' → hm.Le hm' →
      Synced xp m' hm' (old ++ new) → Extends xp m m' new → Q (cs', true) s')
    (hQ' : ∀ cs' s', CState n cs' m hm s' → ¬ Fits xp m new → Q (cs', false) s') :
    wp diskSem (extend xp new cs) Q (CCrash n CC) s := by
  have hold : old ∈ ({old, old ++ new} : Set Contents) := by simp
  have hboth : old ++ new ∈ ({old, old ++ new} : Set Contents) := by simp
  have hs₀ := hs
  obtain ⟨hsync, ⟨prev, ⟨nd, nv⟩, ⟨ca, cv⟩⟩, hg, hv, hh⟩ := hs
  unfold extend
  refine wp_bind (Hdr.wp_read hl h (hc m hm (.refl _ _) (.refl _) (hs₀.recoverable hold))
    fun cs s h => ?_)
  rw [hv, Hdr.ofHeader_encode hg]
  dsimp only
  split_ifs with hlen
  swap
  · refine wp_pure (hQ' cs s h ?_)
    rwa [Fits, hdrOf_encode hg hv]
  have hfits : Fits xp m new := by rwa [Fits, hdrOf_encode hg hv]
  -- the checksums of the extended log
  have hvals : valsNonzero new = new.map entValu := by rw [valsNonzero, logNonzero_entries hnew]
  have hnv : ndataLog new = new.length := nonzeroAddrs_entries hnew
  rw [hvals, hnv]
  rw [hnv] at hlen
  refine wp_bind (wp_hashList' h hh.chk_desc fun hm₁ ca' s h hle₁ hr₁ => ?_)
  refine wp_bind (wp_hashList' h (hh.chk_data.mono hle₁) fun hm₂ cv' s h hle₂ hr₂ => ?_)
  have hle := hle₁.trans hle₂
  replace hr₁ := hr₁.mono hle₂
  have hdb : (descSig.nopadIpack (new.map entAddr)).length = ndescLog new := by
    rw [RASig.length_nopadIpack, List.length_map, ndescLog]
  have hvb : (new.map entValu).length = new.length := List.length_map _
  have hdec := decodes_entries hnew
  rw [← hdb, ← hvb] at hlen ⊢
  obtain ⟨hd', hv'⟩ := hlen
  have hg' : (⟨(nd, nv), (nd + (descSig.nopadIpack (new.map entAddr)).length,
      nv + (new.map entValu).length), (ca', cv')⟩ : Hdr).Good := by
    have h₁ := hl.size_lt
    have h₂ := hl.desc_le
    have h₃ := hl.data_le
    have h₄ := hg.cur₁
    have h₅ := hg.cur₂
    exact ⟨h₄, h₅, by dsimp only; omega, by dsimp only; omega⟩
  have hp : ∀ v ∈ m.poss xp.logHeader, v = Hdr.encode ⟨prev, (nd, nv), (ca, cv)⟩ :=
    fun v h' => (hsync v h').trans hv
  -- a crash while the blocks are written leaves the old log
  have hcrash : ∀ avs, (∀ av ∈ avs, av ∈
      ADisk.rangeWrites (xp.logDescriptor + nd) (descSig.nopadIpack (new.map entAddr)) ++
        ADisk.rangeWrites (xp.logData + nv) (new.map entValu)) → CC (m.writes avs) hm₂ := by
    intro avs hav
    obtain ⟨h₁, h₂, h₃⟩ := hh.writes_behind hle fun av h' =>
      behind_of_mem_range (nd, nv) hl hd' (hav av h')
    exact hc _ _ h₂ hle (h₁.recoverable hg (h₃.2 ▸ hp) hold)
  have hcrash' := hc _ _ (extended_frame hl) hle
    (extended_recoverable hl hh hle hg hp hd' hv' hg' hdec hr₁ hr₂)
  refine wp_bind (AsyncRecArray.wp_writeAligned h ?_ ?_ fun cs s h => ?_)
  · change xp.logDescriptor + nd + _ ≤ n
    have := hl.desc_le
    have := hl.data_le
    omega
  · intro k
    refine hcrash _ fun av h' => List.mem_append_left _ (List.mem_of_mem_take h')
  refine wp_bind (AsyncRecArray.wp_writeAligned h ?_ ?_ fun cs s h => ?_)
  · rw [dataSig_nopadIpack]
    have := hl.data_le
    exact (show xp.logData + nv + (new.map entValu).length ≤ n by omega)
  · intro k
    rw [dataSig_nopadIpack, ← ADisk.writes_append]
    refine hcrash _ fun av h' => ?_
    rcases List.mem_append.1 h' with h' | h'
    · exact List.mem_append_left _ h'
    · exact List.mem_append_right _ (List.mem_of_mem_take h')
  rw [dataSig_nopadIpack] at h
  refine wp_bind (Hdr.wp_write hl h ?_ fun cs s h => ?_)
  · rw [← ADisk.writes_append]
    exact hcrash _ fun av h' => h'
  replace h : CState n cs (extended xp m (nd, nv) _ _ _) hm₂ s := h
  refine wp_bind (wp_pure (wp_bind (BufCache.wp_syncRange h hcrash' fun cs s h hcl₁ _ => ?_)))
  refine wp_bind (BufCache.wp_syncRange h hcrash' fun cs s h hcl₂ hk₂ => ?_)
  refine wp_bind (BufCache.wp_writeback h hcrash' fun cs s h hcl₃ hk₃ => ?_)
  refine wp_bind (BufCache.wp_endSync (S := extendedArea xp (nd, nv)
    ((descSig.nopadIpack (new.map entAddr)).length, (new.map entValu).length)) h ?_ hcrash'
    fun s h => wp_pure ?_)
  · -- the blocks that have been written back
    rintro a (rfl | ⟨h₁, h₂⟩ | ⟨h₁, h₂⟩)
    · exact hcl₃
    · obtain ⟨i, rfl⟩ := Nat.exists_eq_add_of_le h₁
      exact hk₃ _ (hk₂ _ (hcl₁ i (by dsimp only at h₂; omega)))
    · obtain ⟨i, rfl⟩ := Nat.exists_eq_add_of_le h₁
      exact hk₃ _ (hcl₂ i (by dsimp only at h₂; omega))
  · refine hQ _ _ _ _ h ?_ hle (extended_synced hl hh hle hd' hv' hg' hdec hr₁ hr₂) ?_
    · refine (extended_frame hl).trans fun a ha => ADisk.sameAt_sync ?_
      have h₁ := hl.header_lt
      have h₂ := hl.desc_le
      simp only [extendedArea, Set.mem_ofPred_eq]
      omega
    · exact extended_extends hl hg hv hd' hg' hfits rfl hvals.symm

end Extend

/-! ### Truncation and recovery -/

/-- A header that has been written over a synced one and synced. -/
theorem synced_header {hd : Hdr} {l : Contents} (hl : Layout n xp) (hg : hd.Good)
    (h : Holds xp m hm hd.currentLength hd.checksum l) :
    Synced xp ((m.write xp.logHeader hd.encode).sync {xp.logHeader}) hm l := by
  refine ⟨ADisk.syncedAt_sync rfl, hd, hg, by simp [ADisk.sync, ADisk.write], ?_⟩
  exact (h.keeps (.refl hm) (keeps_write_header hl _ _)).keeps (.refl hm) (keeps_sync _ _)

/-- A new header over one that can be recovered. -/
theorem Recoverable.write_header {hd : Hdr} {l : Contents} {S : Set Contents}
    (h : Recoverable xp m hm S) (hl : Layout n xp) (hg : hd.Good)
    (hh : Holds xp m hm hd.currentLength hd.checksum l) (hS : l ∈ S) :
    Recoverable xp (m.write xp.logHeader hd.encode) hm S := by
  intro v hv
  have hv' : v = hd.encode ∨ v ∈ m.poss xp.logHeader := by simpa [ADisk.write] using hv
  rcases hv' with rfl | hv'
  · exact .inl ⟨l, hS, hd, hg, rfl, hh.keeps (.refl hm) (keeps_write_header hl _ _)⟩
  · rcases h v hv' with ⟨l, hl', h'⟩ | ⟨old, ho, l, hl', h'⟩
    · exact .inl ⟨l, hl', h'.keeps (.refl hm) (keeps_write_header hl _)⟩
    · exact .inr ⟨old, ho, l, hl', h'.keeps (.refl hm) (keeps_write_header hl _)⟩

/-- The empty log is always there. -/
theorem holds_nil (xp : LogXparams) (m : ADisk) (hm : Hashmap) :
    Holds xp m hm (0, 0) (defaultHash, defaultHash) [] where
  desc_le := Nat.zero_le _
  data_le := Nat.zero_le _
  synced a ha := by
    rcases ha with ha | ha <;> · dsimp only at ha; omega
  decodes := decodes_nil
  chk_desc := rfl
  chk_data := rfl

theorem wp_trunc {Q : CacheState → St → Prop} {old : Contents} (hl : Layout n xp)
    (h : CState n cs m hm s) (hs : Synced xp m hm old)
    (hc : ∀ m' hm', Frame xp m m' → hm.Le hm' → Recoverable xp m' hm' {old, []} → CC m' hm')
    (hQ : ∀ cs' m' hm' s', CState n cs' m' hm' s' → Frame xp m m' → hm.Le hm' →
      Synced xp m' hm' [] → (hdrOf xp m').currentLength = (0, 0) → Q cs' s') :
    wp diskSem (trunc xp cs) Q (CCrash n CC) s := by
  have hr : ∀ hm', hm.Le hm' → Recoverable xp m hm' {old, []} :=
    fun hm' hle => (hs.mono hle).recoverable (by simp)
  obtain ⟨hsync, hd, hg, hv, hh⟩ := hs
  unfold trunc
  refine wp_bind (Hdr.wp_read hl h (hc _ _ (.refl _ _) (.refl _) (hr hm (.refl _)))
    fun cs s h => ?_)
  rw [hv, Hdr.ofHeader_encode hg]
  refine wp_bind (wp_hashDefault h fun hm₁ s h hle => ?_)
  have hg' : (⟨hd.currentLength, (0, 0), (defaultHash, defaultHash)⟩ : Hdr).Good :=
    ⟨hg.cur₁, hg.cur₂, by simp, by simp⟩
  refine wp_bind (Hdr.wp_write hl h (hc _ _ (.refl _ _) hle (hr hm₁ hle)) fun cs s h => ?_)
  refine Hdr.wp_syncNow h (hc _ _ (frame_write_header _) hle ?_) fun cs s h => ?_
  · exact (hr hm₁ hle).write_header hl hg' (holds_nil xp m hm₁) (by simp)
  · refine hQ _ _ _ _ h ((frame_write_header _).trans frame_sync_header) hle
      (synced_header hl hg' (holds_nil xp m hm₁)) ?_
    rw [hdrOf_encode hg' (by simp [ADisk.sync, ADisk.write])]

/-- Recovery ends with one of the logs that the crash condition names, and a crash during recovery
leaves the same crash condition. -/
theorem wp_recover {Q : CacheState → St → Prop} {S : Set Contents} (hl : Layout n xp)
    (h : CState n cs m hm s) (hsync : ∀ a, m.SyncedAt a) (hr : Recoverable xp m hm S)
    (hc : ∀ m' hm', Frame xp m m' → hm.Le hm' → Recoverable xp m' hm' S → CC m' hm')
    (hQ : ∀ cs' m' hm' s' l, l ∈ S → CState n cs' m' hm' s' → Frame xp m m' → hm.Le hm' →
      Synced xp m' hm' l → Q cs' s') :
    wp diskSem (recover xp cs) Q (CCrash n CC) s := by
  have hc₀ : ∀ hm', hm.Le hm' → CC m hm' := fun hm' hle =>
    hc m hm' (.refl _ _) hle (hr.keeps hle (Keeps.refl xp m) fun _ => id)
  have hcur : m.cur xp.logHeader ∈ m.poss xp.logHeader := by
    obtain ⟨_, _, _, _, h', _⟩ := h.rep.block _ hl.header_lt_size
    exact h'
  -- what the header says
  obtain ⟨hd, hg, hv, hle₁, hle₂, hcases⟩ : ∃ hd : Hdr, hd.Good ∧
      m.cur xp.logHeader = hd.encode ∧ hd.currentLength.1 ≤ xp.logDescLen ∧
      hd.currentLength.2 ≤ xp.logLen ∧
      ((∃ l ∈ S, Holds xp m hm hd.currentLength hd.checksum l) ∨
        ∃ old ∈ S, ∃ chk, Holds xp m hm hd.previousLength chk old ∧ ∃ l ∈ S, ∃ db vb,
          Decodes db vb l ∧ HashListRep db.reverse hd.checksum.1 hm ∧
          HashListRep vb.reverse hd.checksum.2 hm) := by
    rcases hr _ hcur with ⟨l, hlS, hd, hg, hv, hh⟩ |
      ⟨old, ho, l, hlS, hd, db, vb, hg, hv, ⟨chk, hh⟩, -, -, h₃, h₄, h₅, h₆, h₇⟩
    · exact ⟨hd, hg, hv, hh.desc_le, hh.data_le, .inl ⟨l, hlS, hh⟩⟩
    · exact ⟨hd, hg, hv, h₃, h₄, .inr ⟨old, ho, chk, hh, l, hlS, db, vb, h₅, h₆, h₇⟩⟩
  obtain ⟨⟨pd, pv⟩, ⟨nd, nv⟩, ⟨ca, cv⟩⟩ := hd
  have hb₁ : xp.logDescriptor + nd ≤ n := by
    have h₁ := hl.desc_le
    have h₂ := hl.data_le
    dsimp only at hle₁
    omega
  have hb₂ : xp.logData + nv ≤ n := by
    have h₂ := hl.data_le
    dsimp only at hle₂
    omega
  unfold recover
  refine wp_bind (Hdr.wp_read hl h (hc₀ hm (.refl _)) fun cs s h => ?_)
  rw [hv, Hdr.ofHeader_encode hg]
  dsimp only
  refine wp_bind (AsyncRecArray.wp_readAll h hb₁ (hc₀ hm (.refl _)) fun cs s h => ?_)
  refine wp_bind (AsyncRecArray.wp_readAll h hb₂ (hc₀ hm (.refl _)) fun cs s h => ?_)
  dsimp only
  rw [dataSig_items, RASig.ipack_items]
  refine wp_bind (wp_hashDefault h fun hm₁ s h hle₁ => ?_)
  refine wp_bind (wp_hashList' (l := []) h rfl fun hm₂ ca' s h hle₂ hr₁ => ?_)
  refine wp_bind (wp_hashList' (l := []) h rfl fun hm₃ cv' s h hle₃ hr₂ => ?_)
  have hle := (hle₁.trans hle₂).trans hle₃
  replace hr₁ := hr₁.mono hle₃
  rw [List.append_nil] at hr₁ hr₂
  split_ifs with hchk
  · -- the checksums match, so the blocks are those of the header
    refine wp_pure ?_
    obtain ⟨rfl, rfl⟩ := hchk
    rcases hcases with ⟨l, hlS, hh⟩ | ⟨old, ho, chk, -, l, hlS, db, vb, hdec, h₁, h₂⟩
    · exact hQ _ _ _ _ l hlS h (.refl _ _) hle ⟨hsync _, _, hg, hv, hh.keeps hle (Keeps.refl xp m _)⟩
    · obtain rfl := List.reverse_injective ((h₁.mono hle).inj hr₁)
      obtain rfl := List.reverse_injective ((h₂.mono hle).inj hr₂)
      refine hQ _ _ _ _ l hlS h (.refl _ _) hle ⟨hsync _, _, hg, hv, ?_⟩
      exact ⟨by assumption, by assumption, fun a _ => hsync a, hdec, hr₁, hr₂⟩
  · rcases hcases with ⟨l, hlS, hh⟩ | ⟨old, ho, chk, hh, -⟩
    · exact absurd ⟨(hh.chk_desc.mono hle).unique hr₁, (hh.chk_data.mono hle).unique hr₂⟩ hchk
    -- the blocks of the extension are not on disk: go back to the previous log
    refine wp_bind (wp_debug ?_)
    refine wp_bind (AsyncRecArray.wp_readAll h (hh.area_le hl).1 (hc₀ hm₃ hle) fun cs s h => ?_)
    refine wp_bind (AsyncRecArray.wp_readAll h (hh.area_le hl).2 (hc₀ hm₃ hle) fun cs s h => ?_)
    dsimp only
    rw [dataSig_items, RASig.ipack_items]
    refine wp_bind (wp_hashList' (l := []) h rfl fun hm₄ pa s h hle₄ hr₃ => ?_)
    refine wp_bind (wp_hashList' (l := []) h rfl fun hm₅ pv' s h hle₅ hr₄ => ?_)
    have hle' := (hle.trans hle₄).trans hle₅
    rw [List.append_nil] at hr₃ hr₄
    have hg' : (⟨(pd, pv), (pd, pv), (pa, pv')⟩ : Hdr).Good := ⟨hg.prev₁, hg.prev₂, hg.prev₁, hg.prev₂⟩
    have hh' : Holds xp m hm₅ (pd, pv) (pa, pv') old :=
      ⟨hh.desc_le, hh.data_le, hh.synced, hh.decodes, hr₃.mono hle₅, hr₄⟩
    have hr' : Recoverable xp m hm₅ S := hr.keeps hle' (Keeps.refl xp m) fun _ => id
    refine wp_bind (Hdr.wp_write hl h (hc₀ hm₅ hle') fun cs s h => ?_)
    refine Hdr.wp_syncNow h (hc _ _ (frame_write_header _) hle' ?_) fun cs s h => ?_
    · exact hr'.write_header hl hg' hh' ho
    · exact hQ _ _ _ _ old ho h ((frame_write_header _).trans frame_sync_header) hle'
        (synced_header hl hg' hh')

end PaddedLog

end Fscq
