import Fscq.BFileRun

/-!
# New blocks are written

A block that a file gets was free before, and may still have old values on disk that a crash can
bring back.  So it matters that a transaction writes every block that it takes: index blocks when they
are added to the tree of a file, and data blocks when the file grows by them.
-/

namespace Fscq

open CrashProg

namespace Txn

variable {α β : Type} {n a : ℕ} {v : Valu} {m : Mem}

/-- The program ends with `Q`, which also sees the addresses that have been written. -/
def Wrote (p : TxnProg α) (Q : α → Mem → List ℕ → Prop) (m : Mem) : Prop :=
  Q (run p m).1 (run p m).2 (writes p m)

theorem wrote_pure {x : α} {Q : α → Mem → List ℕ → Prop} (h : Q x m []) : Wrote (pure x) Q m := h

theorem wrote_bind {p : TxnProg β} {k : β → TxnProg α} {Q : α → Mem → List ℕ → Prop}
    (h : Wrote p (fun x m' W => Wrote (k x) (fun y m'' W' => Q y m'' (W ++ W')) m') m) :
    Wrote (p >>= k) Q m := h

theorem wrote_write {Q : Unit → Mem → List ℕ → Prop} (h : Q () (Function.update m a v) [a]) :
    Wrote (write a v) Q m := h

theorem Wrote.post {p : TxnProg α} {Q Q' : α → Mem → List ℕ → Prop} (h : Wrote p Q m)
    (hQ : ∀ x m' W, Q x m' W → Q' x m' W) : Wrote p Q' m := hQ _ _ _ h

theorem Wrote.of_run {p : TxnProg α} {Q : α → Mem → List ℕ → Prop} {x : α} {m' : Mem}
    (h : Wrote p Q m) (hr : run p m = (x, m')) : Q x m' (writes p m) := by
  rwa [Wrote, hr] at h

/-- What a program does, whatever it writes. -/
theorem wrote_of_wp {p : TxnProg α} {Q : α → Mem → List ℕ → Prop}
    (h : wp n p (fun x m' => ∀ W, Q x m' W) m) : Wrote p Q m := wp_run h _

theorem wrote_forN {f : ℕ → β → TxnProg β} (I : ℕ → β → Mem → List ℕ → Prop) {N : ℕ}
    (hf : ∀ i x m W, i < N → I i x m W →
      Wrote (f i x) (fun x' m' W' => I (i + 1) x' m' (W ++ W')) m) :
    ∀ (k i : ℕ) (x : β) (m : Mem) (W : List ℕ), i + k = N → I i x m W →
      Wrote (forN f i k x) (fun x' m' W' => I N x' m' (W ++ W')) m
  | 0, i, x, m, W, hi, h => by
    obtain rfl : i = N := hi
    apply wrote_pure
    rwa [List.append_nil]
  | k + 1, i, x, m, W, hi, h => by
    apply wrote_bind
    apply (hf i x m W (by omega) h).post
    intro x' m' W' h'
    apply (wrote_forN I hf k (i + 1) x' m' (W ++ W') (by omega) h').post
    intro y m'' W'' hy
    rwa [List.append_assoc] at hy

theorem Wrote.and_wp {p : TxnProg α} {Q : α → Mem → List ℕ → Prop} {R : α → Mem → Prop}
    (h : Wrote p Q m) (hR : wp n p R m) : Wrote p (fun x m' W => R x m' ∧ Q x m' W) m :=
  ⟨wp_run hR, h⟩

end Txn

/-! ### Index blocks -/

namespace BlockPtr

variable {IRec IAttr : Type} {B : BlockPtrSig IRec IAttr} {bxp : BallocXparams} {m : Mem}

/-- The blocks that are missing from the free list are among those written. -/
def Taken (l : List ℕ) (ms : BmapCacheType) (W : List ℕ) : Prop :=
  ∃ l', ms = some l' ∧ ∀ a ∈ l, a ∈ l' ∨ a ∈ W

variable {l : List ℕ} {ms ms' : BmapCacheType} {W W' : List ℕ}

theorem Taken.refl (l : List ℕ) (W : List ℕ) : Taken l (some l) W := ⟨l, rfl, fun _ => .inl⟩

theorem Taken.mono (h : Taken l ms W) (hW : W ⊆ W') : Taken l ms W' := by
  obtain ⟨l', rfl, h⟩ := h
  exact ⟨l', rfl, fun a ha => (h a ha).imp_right fun hw => hW hw⟩

theorem Taken.cons {b : ℕ} (h : Taken l ms W) (hb : b ∈ W) : Taken (b :: l) ms W := by
  obtain ⟨l', rfl, h⟩ := h
  refine ⟨l', rfl, fun a ha => ?_⟩
  rcases List.mem_cons.1 ha with rfl | ha
  · exact .inr hb
  · exact h a ha

theorem wrote_alloc {Q : BmapCacheType × Option ℕ → Mem → List ℕ → Prop}
    (h₀ : ∀ m' W, Q (some [], none) m' W)
    (h : ∀ b l', l = b :: l' → ∀ m' W, Q (some l', some b) m' W) :
    Txn.Wrote (BALLOCC.alloc bxp (some l)) Q m := by
  cases l with
  | nil => exact h₀ _ _
  | cons b l' => exact h b l' rfl _ _

theorem writes_indWrite {bn : ℕ} {items : List Waddr} (hl : items.length = nIndirect) (m : Mem) :
    Txn.writes (IndRec.write bn items) m = [bn] := by
  change Txn.writes (Txn.writeRange bn (IndRec.sig.ipack items)) m = [bn]
  rw [Txn.writes_writeRange, ipack_ents hl]
  rfl

theorem wrote_indWrite {bn : ℕ} {items : List Waddr} {Q : Unit → Mem → List ℕ → Prop}
    (hl : items.length = nIndirect) (h : ∀ m', Q () m' [bn]) :
    Txn.Wrote (IndRec.write bn items) Q m := by
  rw [Txn.Wrote, writes_indWrite hl]
  exact h _

/-- An index block that `indput` adds is written. -/
theorem wrote_indput (lvl : ℕ) : ∀ (root off : ℕ) (bn : Waddr) (l : List ℕ) (m : Mem),
    Txn.Wrote (indput bxp lvl root off bn (some l))
      (fun r _ W => r.2 ≠ 0 → Taken l r.1 W) m := by
  induction lvl with
  | zero =>
    intro root off bn l m
    apply Txn.wrote_bind
    by_cases h0 : root = 0
    · rw [if_pos h0]
      apply wrote_alloc
      · exact fun m' W hr => absurd rfl hr
      · rintro b l' rfl m₁ W
        apply Txn.wrote_bind
        rw [if_pos h0]
        apply wrote_indWrite (by simp)
        intro m₂ _
        exact (Taken.refl l' _).cons (by simp)
    · rw [if_neg h0]
      exact fun _ => Taken.refl l _
  | succ lvl ih =>
    intro root off bn l m
    apply Txn.wrote_bind
    by_cases h0 : root = 0
    · rw [if_pos h0]
      apply wrote_alloc
      · exact fun m' W hr => absurd rfl hr
      · rintro b l' rfl m₁ W
        apply Txn.wrote_bind
        rw [indputGetBlocks, if_pos (by simpa using h0)]
        apply Txn.wrote_pure
        apply Txn.wrote_bind
        apply (ih _ _ bn l' m₁).post
        rintro ⟨ms', v⟩ m₂ W₂ hv
        dsimp only
        by_cases hv0 : v = 0
        · rw [if_pos hv0]
          exact fun hr => absurd rfl hr
        · -- the pointer to the lower level is new, so that the block is written
          rw [if_neg hv0]
          have hne : ¬ v = ((List.replicate nIndirect (0 : Waddr)).getD
              (off / nIndirect ^ (lvl + 1)) 0).toNat := by
            simpa using hv0
          apply Txn.wrote_bind
          rw [indputUpdIfNecessary, if_neg hne]
          apply wrote_indWrite (by simp)
          intro m₃ _
          exact ((hv hv0).mono (by simp)).cons (by simp)
    · rw [if_neg h0]
      apply Txn.wrote_pure
      apply Txn.wrote_bind
      apply Txn.Wrote.post (Q := fun _ _ _ => True) trivial
      intro indbns m₁ W₁ _
      apply Txn.wrote_bind
      apply (ih _ _ bn l m₁).post
      rintro ⟨ms', v⟩ m₂ W₂ hv
      dsimp only
      by_cases hv0 : v = 0
      · rw [if_pos hv0]
        exact fun hr => absurd rfl hr
      · rw [if_neg hv0]
        exact fun _ => (hv hv0).mono (by simp)

theorem wrote_ptrGrow (ir : IRec) (bn : Waddr) (l : List ℕ) (m : Mem) :
    Txn.Wrote (grow B bxp ir bn (some l)) (fun r _ W => ∀ ir', r.2 = .ok ir' → Taken l r.1 W) m := by
  unfold grow
  dsimp only
  split_ifs with hd h0
  · exact fun _ _ => Taken.refl l _
  · exact fun _ _ => Taken.refl l _
  · have hgrow : Txn.Wrote (indgrow B bxp ir (B.irLen ir - B.nDirect) bn (some l))
        (fun r _ W => r.2.1 ≠ 0 → Taken l r.1 W) m := by
      unfold indgrow
      dsimp only
      split_ifs
      all_goals
        apply Txn.wrote_bind
        apply (wrote_indput _ _ _ bn l m).post
        exact fun r m' W hr hv => (hr hv).mono (by simp)
    apply Txn.wrote_bind
    apply hgrow.post
    rintro ⟨ms', v, i, d, t⟩ m' W hv
    dsimp only
    split_ifs with hv0
    · exact fun ir' hr => nomatch hr
    · exact fun _ _ => (hv hv0).mono (by simp)

end BlockPtr

namespace INODE

open BlockPtr (Taken)

theorem wrote_grow (xp : InodeXparams) (inum : ℕ) (bxp : BallocXparams) (bn : ℕ) (cache : Cache)
    (l : List ℕ) (m : Mem) :
    Txn.Wrote (grow xp inum bxp bn cache (some l)) (fun r _ W => r.2.2 = .ok () → Taken l r.2.1 W)
      m := by
  apply Txn.wrote_bind
  apply Txn.Wrote.post (Q := fun _ _ _ => True) trivial
  rintro ⟨cache₁, i⟩ m₁ W₁ _
  apply Txn.wrote_bind
  apply (BlockPtr.wrote_ptrGrow i _ l m₁).post
  rintro ⟨ms', e | ir⟩ m₂ W₂ hr
  · exact fun hr => nomatch hr
  · apply Txn.wrote_bind
    apply Txn.Wrote.post (Q := fun _ _ _ => True) trivial
    intro cache₂ m₃ W₃ _ _
    exact (hr ir rfl).mono (by simp)

end INODE

namespace BFILE

variable {n inum : ℕ} {fsxp : FsXparams} {m m' m'' : Mem} {ms ms' ms'' : MemState} {W W' : List ℕ}

/-- All blocks that have been taken from the allocator that is used for growing are written. -/
def Fresh (fsxp : FsXparams) (m : Mem) (ms : MemState) (m' : Mem) (ms' : MemState) (W : List ℕ) :
    Prop :=
  ∀ a ∈ freeOf fsxp m ms.msAllocC ms.msAlloc,
    a ∈ freeOf fsxp m' ms'.msAllocC ms.msAlloc ∨ a ∈ W

theorem Fresh.of_free (W : List ℕ)
    (h : freeOf fsxp m' ms'.msAllocC ms.msAlloc = freeOf fsxp m ms.msAllocC ms.msAlloc) :
    Fresh fsxp m ms m' ms' W := fun _ ha => .inl (h ▸ ha)

theorem Fresh.mono (h : Fresh fsxp m ms m' ms' W) (hW : W ⊆ W') : Fresh fsxp m ms m' ms' W' :=
  fun a ha => (h a ha).imp_right fun hw => hW hw

theorem Fresh.trans (h : Fresh fsxp m ms m' ms' W) (hms : ms'.msAlloc = ms.msAlloc)
    (h' : Fresh fsxp m' ms' m'' ms'' W') : Fresh fsxp m ms m'' ms'' (W ++ W') := by
  intro a ha
  rcases h a ha with ha | ha
  · rw [← hms] at ha ⊢
    exact (h' a ha).imp_right fun hw => List.mem_append.2 (.inr hw)
  · exact .inr (List.mem_append.2 (.inl ha))

theorem wrote_grow (hx : fsxp.Ok n) (hinv : Inv fsxp m ms) (hi : inum < INODE.ninodes fsxp.inode)
    (v : Valu) : Txn.Wrote (grow fsxp.inode inum fsxp.blockAlloc v ms)
      (fun r m' W => r.2 = .ok () → Fresh fsxp m ms m' r.1 W) m := by
  have hgood := hinv.good hx hi ms.msAlloc
  apply Txn.wrote_bind
  apply Txn.wrote_of_wp
  apply INODE.wp_getlen (inodeFits hx.toParts) hi hinv.icache
  intro c hc W₁
  dsimp only
  split_ifs with hlen
  · apply Txn.wrote_bind
    apply Txn.wrote_of_wp
    apply AllocSig.wp_alloc (ballocOk hx.toParts ms.msAlloc).fits
    · exact fun bn hbn => (hgood.valid bn (Multiset.mem_add.2 (.inr hbn))).2
    · intro _ _ hr
      cases hr
    · intro bn l hfl _ W₂
      dsimp only
      apply Txn.wrote_bind
      apply (INODE.wrote_grow fsxp.inode inum _ bn c l _).post
      rintro ⟨c', cms, e | u⟩ m₃ W₃ hr
      · intro hr
        cases hr
      · obtain ⟨l', rfl, hl⟩ := hr rfl
        apply Txn.wrote_bind
        apply Txn.wrote_write
        apply Txn.wrote_pure
        intro _ a ha
        rw [freeOf, BlockPtr.freeSet, hfl, Multiset.mem_coe] at ha
        rw [freeOf, pickBalloc_updBalloc]
        rcases List.mem_cons.1 ha with rfl | ha
        · exact .inr (by simp)
        · exact (hl a ha).imp (fun h => h) fun h => by simp [h]
  · intro hr
    cases hr

theorem wrote_grown (hx : fsxp.Ok n) (hinv : Inv fsxp m ms) (hi : inum < INODE.ninodes fsxp.inode)
    (l : List Valu) : Txn.Wrote (grown fsxp.inode inum fsxp.blockAlloc l ms)
      (fun r m' W => r.2 = .ok () → Fresh fsxp m ms m' r.1 W) m := by
  let I : ℕ → MemState × Res Unit → Mem → List ℕ → Prop := fun _ r m' W => r.2 = .ok () →
    Inv fsxp m' r.1 ∧ r.1.msAlloc = ms.msAlloc ∧ Fresh fsxp m ms m' r.1 W
  unfold grown
  apply (Txn.wrote_forN I _ l.length 0 (ms, .ok ()) m [] (Nat.zero_add _) _).post
  · exact fun r m' W h hr => (h hr).2.2
  · rintro i ⟨ms₁, e | u⟩ m₁ W - hI
    · exact fun hr => nomatch hr
    · obtain ⟨hinv₁, hms₁, hfr⟩ := hI rfl
      have hwp : Txn.wp n (grow fsxp.inode inum fsxp.blockAlloc (l.getD i 0) ms₁)
          (fun r m' => r.2 = .ok () → Inv fsxp m' r.1 ∧ r.1.msAlloc = ms₁.msAlloc) m₁ := by
        apply wp_grow hx hinv₁ hi
        · exact fun _ ms' m' _ _ _ hr => nomatch hr
        · exact fun _ ms' m' hinv' hst _ _ _ _ => ⟨hinv', hst.msAlloc⟩
      apply ((wrote_grow hx hinv₁ hi (l.getD i 0)).and_wp hwp).post
      rintro ⟨ms₂, r⟩ m₂ W₂ ⟨h₁, h₂⟩ hr
      obtain ⟨hinv₂, hms₂⟩ := h₁ hr
      exact ⟨hinv₂, hms₂.trans hms₁, hfr.trans hms₁ (h₂ hr)⟩
  · exact fun _ => ⟨hinv, rfl, Fresh.of_free [] rfl⟩

theorem wrote_truncate (hx : fsxp.Ok n) (hinv : Inv fsxp m ms)
    (hi : inum < INODE.ninodes fsxp.inode) (newsz : ℕ) :
    Txn.Wrote (truncate fsxp.inode inum fsxp.blockAlloc newsz ms)
      (fun r m' W => r.2 = .ok () → Fresh fsxp m ms m' r.1 W) m := by
  apply Txn.wrote_bind
  apply Txn.wrote_of_wp
  apply wp_getlen hx hinv hi
  intro c hinv₁ W₁
  dsimp only
  split_ifs
  · apply Txn.wrote_bind
    apply Txn.wrote_of_wp
    apply wp_shrink hx hinv₁ hi
    intro ms' m' _ _ _ hsh _ W₂ _
    exact Fresh.of_free _ hsh.side
  · apply (wrote_grown hx hinv₁ hi _).post
    intro r m' W h hr
    exact (Fresh.of_free W₁ rfl).trans rfl (h hr)

/-- Writing the record of an inode takes no block. -/
theorem freeOf_putRec (hx : fsxp.Ok n) (hi : inum < INODE.ninodes fsxp.inode) (ir : INODE.IRec)
    (alc : BmapCacheType × BmapCacheType) (b : Bool) :
    freeOf fsxp (INODE.putRec m fsxp.inode inum ir) alc b = freeOf fsxp m alc b := by
  apply BlockPtr.freeSet_congr
  intro a ha
  apply INODE.putRec_of_not_mem hi
  exact (layout hx.toParts b).disjoint a ha

theorem wrote_setattrs (hx : fsxp.Ok n) (hinv : Inv fsxp m ms)
    (hi : inum < INODE.ninodes fsxp.inode) (attr : INODE.IAttr) :
    Txn.Wrote (setattrs fsxp.inode inum attr ms) (fun ms' m' W => Fresh fsxp m ms m' ms' W) m := by
  apply Txn.wrote_of_wp
  apply wp_bind
  apply wp_bind
  apply INODE.wp_getRec (inodeFits hx.toParts) hi hinv.icache
  intro c hc
  apply INODE.wp_putRec (inodeFits hx.toParts) hi _ hc
  · intro c' hc'
    exact wp_pure fun W => Fresh.of_free W (freeOf_putRec hx hi _ _ _)
  · rw [INODE.irBlocks_updAttrs]
    exact INODE.length_irBlocks ..

theorem wp_updattr_fresh (hx : fsxp.Ok n) (hinv : Inv fsxp m ms)
    (hi : inum < INODE.ninodes fsxp.inode) (kv : INODE.IAttrUpdArg) :
    Txn.wp n (updattr fsxp.inode inum kv ms) (fun ms' m' => ∀ W, Fresh fsxp m ms m' ms' W) m := by
  apply wp_bind
  apply wp_bind
  apply INODE.wp_getRec (inodeFits hx.toParts) hi hinv.icache
  intro c hc
  apply INODE.wp_putRec (inodeFits hx.toParts) hi _ hc
  · intro c' hc'
    exact wp_pure fun W => Fresh.of_free W (freeOf_putRec hx hi _ _ _)
  · rw [INODE.irBlocks_updAttrs]
    exact INODE.length_irBlocks ..

theorem wrote_updattr (hx : fsxp.Ok n) (hinv : Inv fsxp m ms)
    (hi : inum < INODE.ninodes fsxp.inode) (kv : INODE.IAttrUpdArg) :
    Txn.Wrote (updattr fsxp.inode inum kv ms) (fun ms' m' W => Fresh fsxp m ms m' ms' W) m :=
  Txn.wrote_of_wp (wp_updattr_fresh hx hinv hi kv)

theorem wrote_write (hx : fsxp.Ok n) (hinv : Inv fsxp m ms)
    (hi : inum < INODE.ninodes fsxp.inode) {off : ℕ} (ho : off < (file fsxp m inum).data.length)
    (v : Valu) :
    Txn.Wrote (write fsxp.inode inum off v ms) (fun ms' m' W => Fresh fsxp m ms m' ms' W) m := by
  apply Txn.wrote_of_wp
  apply wp_write hx hinv hi ho
  exact fun c m' _ _ hk _ W => Fresh.of_free W (hk.free _)

/-! ### The blocks of files -/

section

variable (hf : Fresh fsxp m ms m' ms' W) (hinv' : Inv fsxp m' ms')
  {S : Set ℕ} (hmv : Moves fsxp S m ms m' ms') {j a : ℕ} (hj : j < INODE.ninodes fsxp.inode)

include hf hinv' hmv hj

/-- A block that a file has afterwards is one that it had before, or has been written. -/
theorem Fresh.mem_or (ha : a ∈ owned fsxp m' j) : a ∈ owned fsxp m j ∨ a ∈ W := by
  have htotal : a ∈ total fsxp m ms := by
    rw [← hmv.total, total_split fsxp m' ms' hj true]
    simp [ha]
  rw [total_split fsxp m ms hj ms.msAlloc, Multiset.mem_add, Multiset.mem_add, Multiset.mem_add,
    Multiset.mem_sum] at htotal
  rcases htotal with (ho | hfree) | hother | ⟨i, hi, ho⟩
  · exact .inl ho
  · exact .inr ((hf a hfree).resolve_left fun h => hinv'.not_owned h hj ha)
  · exact absurd ha (hinv'.not_owned (hmv.free a hother) hj)
  · -- the block of another file stays there, or becomes free
    obtain ⟨hij, hi⟩ := Finset.mem_erase.1 hi
    have hi := Finset.mem_range.1 hi
    have hgive : a ∈ owned fsxp m' i ∨ a ∈ freeOf fsxp m' ms'.msAllocC (!ms.msAlloc) := by
      rcases Multiset.mem_add.1 ho with hn | hd
      · exact (hmv.giveNodes i hi a hn).imp_left fun h => Multiset.mem_add.2 (.inl h)
      · exact (hmv.giveData i hi a hd).imp_left fun h => Multiset.mem_add.2 (.inr h)
    rcases hgive with h | h
    · exact absurd (Multiset.mem_add.2 (.inl ha)) (hinv'.not_mem (b := true) hj hi hij h)
    · exact absurd ha (hinv'.not_owned h hj)

end

end BFILE

end Fscq
