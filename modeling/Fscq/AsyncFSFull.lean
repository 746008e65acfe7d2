import Fscq.AsyncFSRollback

/-!
# A file system without free inodes

Files are created in the root directory of a new file system until no inode is free.  There are
always blocks for one more entry: when the directory is full it has as many blocks as its entries
need, so that one of the two allocators has more than the directory owns, and a sync changes the
allocator.
-/

namespace Fscq

open CrashProg

open BFILE (MemState)

namespace AFS

open LogSt (Flushed)

variable {g : Geometry} {L : LogSt} {ams : MemState} {name : ℕ → Sname} {k : ℕ}

/-- The tree is a root directory with `k` entries, for files without blocks. -/
structure RootOnly (g : Geometry) (name : ℕ → Sname) (k : ℕ) (L : LogSt) (ams : MemState) : Prop where
  ok : ∃ A K, Ok g.dataSize g.fsxp A K L ams ∧ A.card = k + 1 ∧
    ∀ i ∈ A, K i = true → i = g.fsxp.rootInum
  length : (SDIR.dents (BFILE.file g.fsxp L.disk.cur g.fsxp.rootInum)).length = k
  names : ∀ e ∈ SDIR.dents (BFILE.file g.fsxp L.disk.cur g.fsxp.rootInum), ∃ j < k, e.1 = name j
  empty : ∀ i < INODE.ninodes g.fsxp.inode, i ≠ g.fsxp.rootInum →
    BFILE.file g.fsxp L.disk.cur i = DIRTREE.bfile0

theorem New.rootOnly (h : New g.fsxp g.fsxp.log L ams) : RootOnly g name 0 L ams where
  ok := by
    refine ⟨_, _, h.ok, Finset.card_singleton _, fun i hi _ => Finset.mem_singleton.1 hi⟩
  length := by
    rw [h.root]
    rfl
  names e he := by
    rw [h.root] at he
    exact absurd he List.not_mem_nil
  empty i hi hne := h.tree.free i hi fun hmem => hne (Finset.mem_singleton.1 hmem)

theorem owned_of_bfile0 {fsxp : FsXparams} {m : Mem} {i : ℕ} (ht : BFILE.Tight fsxp m)
    (hinv : BFILE.Inv fsxp m ams) (hi : i < INODE.ninodes fsxp.inode)
    (hf : BFILE.file fsxp m i = DIRTREE.bfile0) : BFILE.owned fsxp m i = 0 := by
  have hlen : (BFILE.blocks fsxp m i).length = 0 := by
    rw [← BFILE.length_data, hf]
    rfl
  have hle := BFILE.card_owned_le hinv ht hi
  rw [hlen] at hle
  exact Multiset.card_eq_zero.1 (Nat.le_zero.1 hle)

/-- The entries of a directory fit into the blocks that the file system has. -/
structure EntriesFit (g : Geometry) : Prop where
  length : INODE.ninodes g.fsxp.inode / DIR.dentSig.itemsPerVal < INODE.nBlocks
  blocks : 4 * (INODE.ninodes g.fsxp.inode / DIR.dentSig.itemsPerVal) + 7 < g.fsxp.nblocks

/-- There is room for one more entry, at the latest with the other allocator. -/
theorem RootOnly.hasRoom (h : RootOnly g name k L ams) (hfit : EntriesFit g)
    (hk : k < INODE.ninodes g.fsxp.inode) :
    DIR.HasRoom g.fsxp L.disk.cur ams g.fsxp.rootInum ∨
      DIR.HasRoom g.fsxp L.disk.cur { ams with msAlloc := !ams.msAlloc } g.fsxp.rootInum := by
  obtain ⟨A, K, hok, -, -⟩ := h.ok
  have hroot := hok.tree.lt (hok.tree.forest.root_mem (Multiset.mem_singleton_self _))
  by_cases hfull : k < (DIR.slots (BFILE.file g.fsxp L.disk.cur g.fsxp.rootInum)).length
  · refine .inl (DIR.hasRoom_of_length_lt (lt_of_eq_of_lt ?_ hfull))
    rw [← h.length, SDIR.dents, List.length_map]
  -- the entries fill all blocks
  rw [DIR.length_slots, BFILE.length_data, not_lt] at hfull
  have hlen : (BFILE.blocks g.fsxp L.disk.cur g.fsxp.rootInum).length ≤
      INODE.ninodes g.fsxp.inode / DIR.dentSig.itemsPerVal :=
    (Nat.le_div_iff_mul_le DIR.dentSig.itemsPerVal_pos).2 (hfull.trans hk.le)
  have hother : ∀ j < INODE.ninodes g.fsxp.inode, j ≠ g.fsxp.rootInum →
      BFILE.owned g.fsxp L.disk.cur j = 0 :=
    fun j hj hne => owned_of_bfile0 hok.tight hok.tree.inv hj (h.empty j hj hne)
  have hfits := hfit.blocks
  exact (BFILE.exists_canGrow hok.tree.inv hok.tight hroot hok.total hother
    (hlen.trans_lt hfit.length) (by omega)).imp .inr .inr

theorem RootOnly.synced (h : RootOnly g name k L ams) :
    RootOnly g name k L.flushall { ams with msAlloc := !ams.msAlloc } := by
  obtain ⟨A, K, hok, hA⟩ := h.ok
  constructor
  case ok => exact ⟨A, K, Effect.flushed.ok hok, hA⟩
  all_goals rw [L.disk_flushall]
  case length => exact h.length
  case names => exact h.names
  case empty => exact h.empty

theorem RootOnly.freeList (h : RootOnly g name k L ams) (hk : INODE.ninodes g.fsxp.inode ≤ k + 2) :
    IAlloc.freeList L.disk.cur g.fsxp ams.msIAllocC = [] := by
  obtain ⟨A, K, hok, hcard, -⟩ := h.ok
  have hall := congrArg Multiset.card hok.tree.inodes
  rw [Multiset.card_add, Multiset.coe_card, Finset.card_val, hcard, DIRTREE.allInodes,
    Multiset.coe_card, List.length_range'] at hall
  exact List.eq_nil_of_length_eq_zero (by omega)

section

variable [Platform]

theorem run_create {fsxp : FsXparams} {xp : LogXparams} {L' : LogSt} {ams' : MemState} {d i : ℕ}
    {name : Sname} (h : LogProg.run xp (create fsxp d name ams) L = ((ams', .ok i), L')) :
    LogProg.run xp ((Call.create d name).exec fsxp ams) L = ((ams', .ok ()), L') := by
  rw [Call.exec, LogProg.run_bind, h]
  rfl

/-- A file is created where there is room for its entry. -/
theorem RootOnly.create (h : RootOnly g name k L ams) (hlog : 0 < g.fsxp.log.logLen)
    (hk : k + 2 < INODE.ninodes g.fsxp.inode) (hvalid : SDIR.isValidSname (name k) = true)
    (hname : ∀ j < k, name j ≠ name k)
    (hroom : DIR.HasRoom g.fsxp L.disk.cur ams g.fsxp.rootInum) : ∃ ams' L',
    LogProg.run g.fsxp.log ((Call.create g.fsxp.rootInum (name k)).exec g.fsxp ams) L =
      ((ams', .ok ()), L') ∧ RootOnly g name (k + 1) L' ams' := by
  obtain ⟨A, K, hok, hcard, hdirs⟩ := h.ok
  have hlen := g.le_logLen hlog
  have hroot := hok.tree.forest.root_mem (Multiset.mem_singleton_self _)
  have hcan : CacheOneDir.CanLink g.fsxp L.disk.cur ams g.fsxp.rootInum (name k) := by
    refine ⟨hvalid, fun e he heq => ?_, hroom⟩
    obtain ⟨j, hj, hej⟩ := h.names e he
    exact hname j hj (hej.symm.trans heq)
  have hlog : 10 ≤ g.fsxp.log.logLen := by omega
  obtain ⟨ams', i, L', hrun, hi, hok', hp, hfile, hmv⟩ := exists_mknod (b := false) hok g.ok hlog
    hroot hok.root (hok.tree.freeList_ne_nil (by omega)) hcan
  refine ⟨ams', L', run_create hrun, ⟨_, _, hok', ?_, ?_⟩, ?_, ?_, ?_⟩
  · rw [Finset.card_insert_of_notMem hi, hcard]
  · intro j hj hKj
    by_cases hne : j = i
    · rw [hne, Function.update_self] at hKj
      cases hKj
    · rw [Function.update_of_ne hne] at hKj
      exact hdirs j (Finset.mem_of_mem_insert_of_ne hj hne) hKj
  · rw [hp.length_eq, List.length_cons, h.length]
  · intro e he
    rcases List.mem_cons.1 (hp.mem_iff.1 he) with rfl | he
    · exact ⟨k, Nat.lt_succ_self k, rfl⟩
    · obtain ⟨j, hj, hej⟩ := h.names e he
      exact ⟨j, hj.trans (Nat.lt_succ_self k), hej⟩
  · intro j hj hne
    by_cases hji : j = i
    · rw [hji, hfile]
    by_cases hjA : j ∈ A
    · have hK : K j = false := Bool.of_not_eq_true fun hK => hne (hdirs j hjA hK)
      have htouch : j ∉ DIRTREE.touched A K := by
        rintro (ht | ht)
        · rw [hK] at ht
          cases ht
        · exact ht hjA
      exact (hmv.file hok.tree.inv hj htouch).trans (h.empty j hj hne)
    · exact hok'.tree.free j hj fun hmem => hjA (Finset.mem_of_mem_insert_of_ne hmem hji)

variable {P : LogSt → MemState → Call → Res Unit → Prop} {L₀ : LogSt} {ams₀ : MemState} {d₀ : Mem}

/-- Any number of files can be created as long as there are inodes. -/
theorem exists_rootOnly (hfit : EntriesFit g)
    (hmk : LogProg.run g.fsxp.log (mkfs g.fsxp) (.ofDisk d₀) = (.ok ams₀, L₀))
    (hvalid : ∀ k < INODE.ninodes g.fsxp.inode, SDIR.isValidSname (name k) = true)
    (hname : ∀ j k, j < k → k < INODE.ninodes g.fsxp.inode → name j ≠ name k)
    (hcreate : ∀ L ams k r, P L ams (.create g.fsxp.rootInum (name k)) r)
    (hsync : ∀ L ams r, P L ams .treeSync r) (hk : k + 2 ≤ INODE.ninodes g.fsxp.inode) :
    ∃ L ams, Reach g (Call.exec g.fsxp) P L ams ∧ RootOnly g name k L ams := by
  have hlog := (new_of_mkfs hmk).log
  induction k with
  | zero => exact ⟨L₀, ams₀, .mkfs hmk, (new_of_mkfs hmk).rootOnly⟩
  | succ k ih =>
    obtain ⟨L, ams, hreach, h⟩ := ih (by omega)
    have hnext : ∀ {L ams}, Reach g (Call.exec g.fsxp) P L ams → RootOnly g name k L ams →
        DIR.HasRoom g.fsxp L.disk.cur ams g.fsxp.rootInum →
        ∃ L' ams', Reach g (Call.exec g.fsxp) P L' ams' ∧ RootOnly g name (k + 1) L' ams' := by
      intro L ams hreach h hroom
      obtain ⟨ams', L', hrun, h'⟩ := h.create hlog (by omega) (hvalid k (by omega))
        (fun j hj => hname j k hj (by omega)) hroom
      exact ⟨L', ams', hreach.step hrun (hcreate ..), h'⟩
    rcases h.hasRoom hfit (by omega) with hroom | hroom
    · exact hnext hreach h hroom
    · have hrun : LogProg.run g.fsxp.log (Call.treeSync.exec g.fsxp ams) L =
          (({ ams with msAlloc := !ams.msAlloc }, .ok ()), L.flushall) := rfl
      refine hnext (hreach.step hrun (hsync ..)) h.synced ?_
      rwa [L.disk_flushall]

/-- All inodes can be used up. -/
theorem exists_full (hfit : EntriesFit g)
    (hmk : LogProg.run g.fsxp.log (mkfs g.fsxp) (.ofDisk d₀) = (.ok ams₀, L₀))
    (hvalid : ∀ k < INODE.ninodes g.fsxp.inode, SDIR.isValidSname (name k) = true)
    (hname : ∀ j k, j < k → k < INODE.ninodes g.fsxp.inode → name j ≠ name k)
    (hcreate : ∀ L ams k r, P L ams (.create g.fsxp.rootInum (name k)) r)
    (hsync : ∀ L ams r, P L ams .treeSync r) :
    ∃ L ams, Reach g (Call.exec g.fsxp) P L ams ∧
      IAlloc.freeList L.disk.cur g.fsxp ams.msIAllocC = [] := by
  obtain ⟨k, hk⟩ := Nat.exists_eq_add_of_le' g.two_le_ninodes
  obtain ⟨L, ams, hreach, h⟩ := exists_rootOnly hfit hmk hvalid hname hcreate hsync hk.ge
  exact ⟨L, ams, hreach, h.freeList hk.le⟩

end

end AFS

namespace Sample

/-- A name for a file of its own. -/
def fileName (k : ℕ) : Sname := [BitVec.ofNat 8 (k / 255 + 1), BitVec.ofNat 8 (k % 255 + 1)]

theorem nblocks_geometry : geometry.fsxp.nblocks = 32768 := by
  change 1 * valulen = 32768
  rw [valulen_is]

theorem itemsPerVal_dentSig : DIR.dentSig.itemsPerVal = 32 := by
  change valulen / DIR.denttype.len = 32
  rw [valulen_is]
  rfl

theorem entriesFit : AFS.EntriesFit geometry where
  length := by
    rw [ninodes_geometry, itemsPerVal_dentSig, INODE.nBlocks, BlockPtr.nBlocks_eq, BlockPtr.treesSize,
      BlockPtr.nIndirect_is]
    decide
  blocks := by
    rw [ninodes_geometry, itemsPerVal_dentSig, nblocks_geometry]
    decide

theorem ofNat_succ_inj {a b : ℕ} (ha : a < 255) (hb : b < 255)
    (h : BitVec.ofNat 8 (a + 1) = BitVec.ofNat 8 (b + 1)) : a = b := by
  have hnat := congrArg BitVec.toNat h
  rw [BitVec.toNat_ofNat, BitVec.toNat_ofNat] at hnat
  omega

theorem fileName_valid {k : ℕ} (hk : k < 32768) : SDIR.isValidSname (fileName k) = true := by
  have hpos : ∀ a < 255, BitVec.ofNat 8 (a + 1) ≠ 0 := by
    intro a ha h
    have hnat := congrArg BitVec.toNat h
    rw [BitVec.toNat_ofNat] at hnat
    change (a + 1) % 256 = 0 at hnat
    omega
  rw [SDIR.isValidSname, Bool.and_eq_true, SDIR.isNozero_iff]
  refine ⟨?_, rfl⟩
  simp only [fileName, List.mem_cons, List.not_mem_nil, or_false, forall_eq_or_imp, forall_eq]
  exact ⟨hpos _ (by omega), hpos _ (by omega)⟩

theorem fileName_ne {j k : ℕ} (hj : j < k) (hk : k < 32768) : fileName j ≠ fileName k := by
  intro h
  obtain ⟨h₁, h₂⟩ := List.cons.inj h
  have hdiv := ofNat_succ_inj (by omega) (by omega) h₁
  have hmod := ofNat_succ_inj (by omega) (by omega) (List.cons.inj h₂).1
  omega

end Sample

end Fscq
