import Fscq.AsyncFSRun

/-!
# Setting the length of a file

Shrinking a file gives its last blocks to one allocator and growing takes blocks from the other one,
each with the index blocks that are not needed any more or that are needed in addition.
-/

namespace Fscq

open CrashProg

namespace BFILE

variable {n inum newsz : ℕ} {fsxp : FsXparams} {m m' : Mem} {ms ms' : MemState}

/-- The index blocks of a tight file are those on the way to its blocks. -/
theorem Inv.mem_nodes_iff (h : Inv fsxp m ms) (hi : inum < INODE.ninodes fsxp.inode)
    (ht : INODE.Tight fsxp.inode inum m) (b : ℕ) : b ∈ nodes fsxp m inum ↔
      ∃ off < (blocks fsxp m inum).length, b ∈ INODE.path fsxp.inode inum m off := by
  have hlen := h.len inum hi
  rw [blocks, INODE.length_blocks] at hlen ⊢
  refine (ht.mem_recNodes_iff b).trans ⟨?_, ?_⟩
  · rintro ⟨off, ho, hne, hb⟩
    refine ⟨off, ?_, hb⟩
    by_contra hle
    exact hne (ht.past off ho (Nat.not_lt.1 hle))
  · rintro ⟨off, ho, hb⟩
    refine ⟨off, ho.trans_le hlen, ?_, hb⟩
    have hmem : BlockPtr.ptr INODE.bptrSig m (INODE.irec fsxp.inode inum m) off ∈
        blocks fsxp m inum := List.mem_map.2 ⟨off, List.mem_range.2 ho, rfl⟩
    exact (h.mem_allBlocks_of_owned hi (Multiset.mem_add.2 (.inr hmem))).1

/-- A tight file without data has no index blocks. -/
theorem Inv.owned_eq_zero (h : Inv fsxp m ms) (hi : inum < INODE.ninodes fsxp.inode)
    (ht : INODE.Tight fsxp.inode inum m) (hf : (file fsxp m inum).data = []) :
    owned fsxp m inum = 0 := by
  have hblocks : blocks fsxp m inum = [] := by
    apply List.eq_nil_of_length_eq_zero
    rw [← length_data, hf]
    rfl
  have hnodes : nodes fsxp m inum = 0 := by
    apply Multiset.eq_zero_of_forall_notMem
    intro b hb
    obtain ⟨off, ho, -⟩ := (h.mem_nodes_iff hi ht b).1 hb
    rw [hblocks] at ho
    exact Nat.not_lt_zero off ho
  rw [owned, hnodes, hblocks]
  rfl

/-- What a file loses that shrinks becomes free, and nothing else does. -/
theorem Shrunk.free (h : Shrunk fsxp inum m ms m' ms')
    (hlen : (BFILE.blocks fsxp m' inum).length = newsz) :
    BFILE.blocks fsxp m' inum = (BFILE.blocks fsxp m inum).take newsz ∧
      freeOf fsxp m' ms'.msAllocC (!ms.msAlloc) =
        ((BFILE.blocks fsxp m inum).drop newsz : Multiset ℕ) +
          (BFILE.nodes fsxp m inum - BFILE.nodes fsxp m' inum) +
            freeOf fsxp m ms.msAllocC (!ms.msAlloc) := by
  have hblocks : BFILE.blocks fsxp m' inum = (BFILE.blocks fsxp m inum).take newsz :=
    hlen ▸ List.prefix_iff_eq_take.1 h.blocks
  refine ⟨hblocks, ?_⟩
  have hsplit : (BFILE.blocks fsxp m inum : Multiset ℕ) =
      ((BFILE.blocks fsxp m inum).take newsz : Multiset ℕ) +
        ((BFILE.blocks fsxp m inum).drop newsz : Multiset ℕ) := by
    rw [Multiset.coe_add, List.take_append_drop]
  obtain ⟨old, hold⟩ := Multiset.le_iff_exists_add.1 h.nodes
  have hacc := h.acc
  rw [owned, owned, hblocks, hsplit, hold] at hacc
  rw [hold, add_tsub_cancel_left]
  apply add_left_cancel (a := BFILE.nodes fsxp m' inum +
    ((BFILE.blocks fsxp m inum).take newsz : Multiset ℕ))
  rw [hacc]
  abel

/-- What a file gets that grows has been free, and nothing else is used. -/
theorem Grown.free (h : Grown fsxp inum m ms m' ms') :
    freeOf fsxp m ms.msAllocC ms.msAlloc =
      ((BFILE.blocks fsxp m' inum).drop (BFILE.blocks fsxp m inum).length : Multiset ℕ) +
        (BFILE.nodes fsxp m' inum - BFILE.nodes fsxp m inum) +
          freeOf fsxp m' ms'.msAllocC ms.msAlloc := by
  obtain ⟨l, hl⟩ := h.blocks
  obtain ⟨new, hnew⟩ := Multiset.le_iff_exists_add.1 h.nodes
  have hacc := h.acc
  rw [owned, owned, ← hl, hnew, ← Multiset.coe_add] at hacc
  rw [← hl, List.drop_left, hnew, add_tsub_cancel_left]
  apply add_left_cancel (a := BFILE.nodes fsxp m inum + (BFILE.blocks fsxp m inum : Multiset ℕ))
  rw [← hacc]
  abel

/-- Setting the length of a file, whatever the new length is.  When it succeeds the file is as
`setlen` says, all others are unchanged, and the blocks that are not needed any more have become free
or the blocks that are needed have been taken, one by one.  It fails only when a file that grows is
too big or there is no free block left. -/
theorem truncate_setlen (hx : fsxp.Ok n) (h : Inv fsxp m ms)
    (hi : inum < INODE.ninodes fsxp.inode) (newsz : ℕ) :
    Txn.wp n (truncate fsxp.inode inum fsxp.blockAlloc newsz ms) (fun r m' =>
      (∀ e, r.2 = .error e → (blocks fsxp m inum).length < newsz ∧
        (INODE.nBlocks < newsz ∨ freeOf fsxp m' r.1.msAllocC ms.msAlloc = 0)) ∧
      (r.2 = .ok () → Inv fsxp m' r.1 ∧
        file fsxp m' inum = ⟨setlen (file fsxp m inum).data newsz 0, (file fsxp m inum).attr⟩ ∧
        (∀ j < INODE.ninodes fsxp.inode, j ≠ inum → file fsxp m' j = file fsxp m j) ∧
        (newsz < (blocks fsxp m inum).length →
          blocks fsxp m' inum = (blocks fsxp m inum).take newsz ∧
          nodes fsxp m' inum ≤ nodes fsxp m inum ∧
          freeOf fsxp m' r.1.msAllocC (!ms.msAlloc) =
            ((blocks fsxp m inum).drop newsz : Multiset ℕ) +
              (nodes fsxp m inum - nodes fsxp m' inum) + freeOf fsxp m ms.msAllocC (!ms.msAlloc) ∧
          freeOf fsxp m' r.1.msAllocC ms.msAlloc = freeOf fsxp m ms.msAllocC ms.msAlloc) ∧
        ((blocks fsxp m inum).length ≤ newsz →
          blocks fsxp m inum <+: blocks fsxp m' inum ∧
          nodes fsxp m inum ≤ nodes fsxp m' inum ∧
          freeOf fsxp m ms.msAllocC ms.msAlloc =
            ((blocks fsxp m' inum).drop (blocks fsxp m inum).length : Multiset ℕ) +
              (nodes fsxp m' inum - nodes fsxp m inum) + freeOf fsxp m' r.1.msAllocC ms.msAlloc ∧
          freeOf fsxp m' r.1.msAllocC (!ms.msAlloc) = freeOf fsxp m ms.msAllocC (!ms.msAlloc)) ∧
        (Tight fsxp m → Tight fsxp m' ∧ ∀ b, b ∈ nodes fsxp m' inum ↔
          ∃ off < newsz, b ∈ INODE.path fsxp.inode inum m' off))) m := by
  apply wp_truncate hx h hi
  · intro hlt _ ms' m' e hnone
    refine ⟨fun e' _ => ⟨hlt, ?_⟩, fun he => nomatch he⟩
    rcases Nat.lt_or_ge INODE.nBlocks newsz with hbig | hle
    · exact .inl hbig
    · exact .inr (hnone hle)
  · intro ms' m' hinv' hst _ hsh hgr hfile
    refine ⟨fun e he => (nomatch he), fun _ => ?_⟩
    have hlen : (blocks fsxp m' inum).length = newsz := by
      rw [← length_data, hfile]
      exact length_setlen _ _ _
    refine ⟨hinv', hfile, fun j hj hne => hst.file h hj hne, fun hlt => ?_, fun hle => ?_,
      fun ht => ?_⟩
    · obtain ⟨hblocks, hfree⟩ := (hsh hlt).free hlen
      exact ⟨hblocks, (hsh hlt).nodes, hfree, (hsh hlt).side⟩
    · exact ⟨(hgr hle).blocks, (hgr hle).nodes, (hgr hle).free, (hgr hle).side⟩
    · have ht' := hst.tight ht
      refine ⟨ht', fun b => ?_⟩
      rw [hinv'.mem_nodes_iff hi (ht' inum hi), hlen]

end BFILE

namespace Sample

open BFILE

local instance truncatePlatform : Platform := platform

/-- The file of the root has a block, and each side of the allocator has a free one. -/
theorem exists_grown (v : Valu) : ∃ m ms, Inv geometry.fsxp m ms ∧
    file geometry.fsxp m geometry.fsxp.rootInum = ⟨[v], INODE.iattr0⟩ ∧
    freeOf geometry.fsxp m ms.msAllocC ms.msAlloc ≠ 0 := by
  obtain ⟨ams, L, hmk⟩ := exists_new fun _ => 0
  have hnew := AFS.new_of_mkfs hmk
  have hroot := hnew.tree.lt (Finset.mem_singleton_self _)
  have hlen : (blocks geometry.fsxp L.disk.cur geometry.fsxp.rootInum).length = 0 := by
    rw [← length_data, hnew.root]
    rfl
  have hcan : CanGrow geometry.fsxp L.disk.cur ams geometry.fsxp.rootInum :=
    canGrow_of_direct (by rw [hlen]; decide) (hnew.room _)
  have hwp : Txn.wp geometry.dataSize (BFILE.grow geometry.fsxp.inode geometry.fsxp.rootInum
      geometry.fsxp.blockAlloc v ams) (fun r m => Inv geometry.fsxp m r.1 ∧
        file geometry.fsxp m geometry.fsxp.rootInum = ⟨[v], INODE.iattr0⟩ ∧
        freeOf geometry.fsxp m r.1.msAllocC (!ams.msAlloc) ≠ 0) L.disk.cur := by
    apply wp_grow geometry.ok hnew.tree.inv hroot
    · exact fun h => absurd hcan h
    · intro _ ms' m' hinv' _ _ hg hfile
      rw [hnew.root] at hfile
      exact ⟨hinv', hfile, hg.side ▸ hnew.room _⟩
  have hrun := Txn.wp_run hwp
  generalize Txn.run _ L.disk.cur = x at hrun
  obtain ⟨⟨ms, r⟩, m⟩ := x
  obtain ⟨hinv, hfile, hfree⟩ := hrun
  -- the blocks that the other side has are used after a sync
  exact ⟨m, { ms with msAlloc := !ams.msAlloc }, ⟨hinv.icache, hinv.len, hinv.own⟩, hfile, hfree⟩

/-- A file grows by a block and then loses it again. -/
theorem truncate_setlen_twice : ∃ m ms m₁ ms₁ m₂ ms₂,
    file geometry.fsxp m geometry.fsxp.rootInum = ⟨[7], INODE.iattr0⟩ ∧
    Txn.run (BFILE.truncate geometry.fsxp.inode geometry.fsxp.rootInum geometry.fsxp.blockAlloc 2
      ms) m = ((ms₁, .ok ()), m₁) ∧
    file geometry.fsxp m₁ geometry.fsxp.rootInum = ⟨[7, 0], INODE.iattr0⟩ ∧
    blocks geometry.fsxp m geometry.fsxp.rootInum <+:
      blocks geometry.fsxp m₁ geometry.fsxp.rootInum ∧
    Txn.run (BFILE.truncate geometry.fsxp.inode geometry.fsxp.rootInum geometry.fsxp.blockAlloc 1
      ms₁) m₁ = ((ms₂, .ok ()), m₂) ∧
    file geometry.fsxp m₂ geometry.fsxp.rootInum = ⟨[7], INODE.iattr0⟩ ∧
    freeOf geometry.fsxp m₂ ms₂.msAllocC (!ms₁.msAlloc) =
      ((blocks geometry.fsxp m₁ geometry.fsxp.rootInum).drop 1 : Multiset ℕ) +
        (nodes geometry.fsxp m₁ geometry.fsxp.rootInum -
          nodes geometry.fsxp m₂ geometry.fsxp.rootInum) +
        freeOf geometry.fsxp m₁ ms₁.msAllocC (!ms₁.msAlloc) := by
  obtain ⟨m, ms, hinv, hfile, hfree⟩ := exists_grown 7
  have hroot : geometry.fsxp.rootInum < INODE.ninodes geometry.fsxp.inode := geometry.two_le_ninodes
  have hlen : (blocks geometry.fsxp m geometry.fsxp.rootInum).length = 1 := by
    rw [← length_data, hfile]
    rfl
  have hcan : CanGrow geometry.fsxp m ms geometry.fsxp.rootInum :=
    canGrow_of_direct (by rw [hlen]; decide) hfree
  have hok : Txn.wp geometry.dataSize (BFILE.truncate geometry.fsxp.inode geometry.fsxp.rootInum
      geometry.fsxp.blockAlloc 2 ms) (fun r _ => r.2 = .ok ()) m := by
    apply wp_truncate geometry.ok hinv hroot
    · exact fun _ hno => absurd hcan (hno (by rw [hlen]))
    · exact fun ms' m' _ _ _ _ _ _ => rfl
  have hrun := Txn.wp_run hok
  have hset := Txn.wp_run (truncate_setlen geometry.ok hinv hroot 2)
  generalize hx : Txn.run _ m = x at hrun hset
  obtain ⟨⟨ms₁, r₁⟩, m₁⟩ := x
  obtain rfl : r₁ = .ok () := hrun
  obtain ⟨hinv₁, hfile₁, -, -, hgrow, -⟩ := hset.2 rfl
  rw [hfile] at hfile₁
  have hlen₁ : (blocks geometry.fsxp m₁ geometry.fsxp.rootInum).length = 2 := by
    rw [← length_data, hfile₁]
    rfl
  have hcut := Txn.wp_run (truncate_setlen geometry.ok hinv₁ hroot 1)
  generalize hx₂ : Txn.run _ m₁ = x₂ at hcut
  obtain ⟨⟨ms₂, r₂⟩, m₂⟩ := x₂
  cases r₂ with
  | error e =>
    have hlt := (hcut.1 e rfl).1
    rw [hlen₁] at hlt
    omega
  | ok u =>
    obtain ⟨-, hfile₂, -, hshrink, -⟩ := hcut.2 rfl
    rw [hfile₁] at hfile₂
    exact ⟨m, ms, m₁, ms₁, m₂, ms₂, hfile, hx, hfile₁, (hgrow (by rw [hlen]; omega)).1, hx₂, hfile₂,
      (hshrink (by rw [hlen₁]; omega)).2.2.1⟩

end Sample

end Fscq
