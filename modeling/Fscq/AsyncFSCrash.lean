import Fscq.AsyncFSTree
import Fscq.BFileFresh

/-!
# The disks below the calls

Below the pending transactions there are older disks, and a crash leaves one of them with some blocks
written and others not.  Each of them has a tree, and a crash cannot tear it: the blocks that the tree
is in have been written through the log and are synced, and no write past the log reaches them
(`AFS.Past`).  Every effect of a call keeps this, if the blocks that files get have been written.
-/

namespace Fscq

open CrashProg

open BFILE (MemState)

open LogSt (Flushed)

namespace AFS

variable {n : ℕ} {fsxp : FsXparams} {A A' : Finset ℕ} {K K' : ℕ → Bool} {m m' : Mem} {D : ADisk}
  {L L' : LogSt} {ams ams' : MemState} {i a : ℕ} {b : Bool} {S : Set ℕ} {T : Set Mem}

/-- An older disk: it has a tree, which is synced; since then, files have given their blocks only to
the allocator that is not used for growing, and no block of a directory has got into a file. -/
structure Past (n : ℕ) (fsxp : FsXparams) (D : ADisk) (m : Mem) (ams : MemState) : Prop where
  tree : ∃ A K, Tree fsxp A K D.cur
  older : BFILE.Older fsxp D.cur m ams
  dir : ∀ j, InTree fsxp D.cur j true → ∀ a ∈ BFILE.blocks fsxp D.cur j,
    InTree fsxp m j true ∧ a ∈ BFILE.blocks fsxp m j ∨
      a ∈ BFILE.freeOf fsxp m ams.msAllocC (!ams.msAlloc)
  synced : ∀ a ∈ metaBlocks n fsxp D.cur, D.SyncedAt a

/-- All disks below the pending transactions are such disks, with the trees of the memories `T`. -/
def Settled (n : ℕ) (fsxp : FsXparams) (T : Set Mem) (L : LogSt) (ams : MemState) : Prop :=
  L.Every fun D => Past n fsxp D L.disk.cur ams ∧ ∃ m ∈ T, SameTree fsxp m D.cur

/-- The blocks that files have got are synced. -/
def Taken (fsxp : FsXparams) (L L' : LogSt) : Prop :=
  ∀ j < INODE.ninodes fsxp.inode, ∀ a ∈ BFILE.owned fsxp L'.disk.cur j,
    a ∈ BFILE.owned fsxp L.disk.cur j ∨ L'.disk.SyncedAt a

/-- What is committed is older than itself. -/
theorem Tree.past (h : Tree fsxp A K D.cur) (hs : ∀ a ∈ metaBlocks n fsxp D.cur, D.SyncedAt a)
    (ams : MemState) : Past n fsxp D D.cur ams where
  tree := ⟨A, K, h⟩
  older := h.inv.inv.older ams
  dir _ hj _ ha := .inl ⟨hj, ha⟩
  synced := hs

/-- An older disk stays one when files have moved their blocks, and directories are still
directories. -/
theorem Past.moves (h : Past n fsxp D m ams) (hmv : BFILE.Moves fsxp S m ams m' ams')
    (hdir : ∀ j, InTree fsxp m j true → ∀ a ∈ BFILE.blocks fsxp m' j, InTree fsxp m' j true)
    (hlt : ∀ j, InTree fsxp m j true → j < INODE.ninodes fsxp.inode) :
    Past n fsxp D m' ams' where
  tree := h.tree
  older := h.older.moves hmv
  dir j hj a ha := by
    rw [hmv.msAlloc]
    rcases h.dir j hj a ha with ⟨hin, ha'⟩ | hf
    · rcases hmv.giveData j (hlt j hin) a ha' with h' | h'
      · exact .inl ⟨hdir j hin a h', h'⟩
      · exact .inr h'
    · exact .inr (hmv.free a hf)
  synced := h.synced

theorem Settled.mono {T' : Set Mem} (hs : Settled n fsxp T L ams) (hT : T ⊆ T') :
    Settled n fsxp T' L ams :=
  LogSt.Every.mono hs fun _ ⟨hD, m, hm, hsame⟩ => ⟨hD, m, hT hm, hsame⟩

/-- When nothing is pending, there is only one tree. -/
theorem Tree.settled (h : Tree fsxp A K L.disk.cur) (hp : L.pend = [])
    (hs : ∀ a ∈ metaBlocks n fsxp L.disk.cur, L.disk.SyncedAt a) (ams : MemState) :
    Settled n fsxp {L.disk.cur} L ams :=
  LogSt.every_of_pend hp ⟨h.past hs ams, _, rfl, .refl fsxp _⟩

section

variable (h : Ok n fsxp A K L ams)

include h

theorem Ok.inTree_iff : InTree fsxp L.disk.cur i b ↔ i ∈ A ∧ K i = b :=
  AFS.inTree_iff h.tree h.root

theorem Ok.lt (hi : InTree fsxp L.disk.cur i b) : i < INODE.ninodes fsxp.inode :=
  h.tree.lt (h.inTree_iff.1 hi).1

/-- A block of a file is not in the tree of an older disk. -/
theorem Past.not_mem_metaBlocks (hD : Past n fsxp D L.disk.cur ams) (hi : i ∈ A) (hK : K i = false)
    (ha : a ∈ BFILE.blocks fsxp L.disk.cur i) : a ∉ metaBlocks n fsxp D.cur := by
  have hlt := h.tree.lt hi
  have howned : a ∈ BFILE.owned fsxp L.disk.cur i := Multiset.mem_add.2 (.inr ha)
  rintro ((⟨hge, -⟩ | ⟨j, hj, hn⟩) | ⟨j, hj, hb⟩)
  · exact Nat.not_lt.2 hge (h.tree.inv.mem_allBlocks_of_owned hlt howned).2
  · exact hD.older.not_node h.tree.inv hlt ha hj hn
  · rcases hD.dir j hj a hb with ⟨hin, hb⟩ | hf
    · -- a block is in one file, and this one is no directory
      obtain ⟨hjA, hjK⟩ := h.inTree_iff.1 hin
      have hne : j ≠ i := by
        rintro rfl
        rw [hK] at hjK
        cases hjK
      exact h.tree.inv.not_mem (b := true) hlt (h.tree.lt hjA) hne (Multiset.mem_add.2 (.inr hb))
        (Multiset.mem_add.2 (.inl howned))
    · exact h.tree.inv.not_owned hf hlt howned

/-- A write past the log leaves the trees of the older disks alone. -/
theorem Past.write (hx : fsxp.Ok n) (hD : Past n fsxp D L.disk.cur ams) (hi : i ∈ A)
    (hK : K i = false) (ha : a ∈ BFILE.blocks fsxp L.disk.cur i)
    (hD' : Past n fsxp D m' ams') (v : Valu) :
    Past n fsxp (D.write a v) m' ams' ∧ SameTree fsxp D.cur (D.write a v).cur := by
  have hnot := hD.not_mem_metaBlocks h hi hK ha
  have hagree : ∀ c ∈ metaBlocks n fsxp D.cur, (D.write a v).cur c = D.cur c := by
    intro c hc
    have hne : c ≠ a := fun e => hnot (e ▸ hc)
    exact (ADisk.sameAt_write hne).1
  obtain ⟨A₀, K₀, htree⟩ := hD.tree
  have hsame := sameTree_of_agree hx htree hagree
  refine ⟨⟨⟨A₀, K₀, htree.of_agree hx hagree⟩, ?_, fun j hj => ?_, ?_⟩, hsame⟩
  · exact hD.older.write h.tree.inv (h.tree.lt hi) ha hx v hD'.older
  · have hj := (hsame.inTree j true).1 hj
    rw [hsame.blocks j true hj]
    exact hD'.dir j hj
  · rw [metaBlocks_of_agree hx htree hagree]
    intro c hc
    have hne : c ≠ a := fun e => hnot (e ▸ hc)
    exact (ADisk.sameAt_write hne).syncedAt (hD.synced c hc)

/-- A transaction in which files have moved their blocks, and have written those that they took. -/
theorem Settled.push (hs : Settled n fsxp T L ams) {t : Valumap} (h' : Ok n fsxp A' K' (L.push t) ams')
    (hmv : BFILE.Moves fsxp S L.disk.cur ams (L.push t).disk.cur ams')
    (hK : ∀ j, K' j ≠ K j → j ∉ A ∧ (BFILE.file fsxp (L.push t).disk.cur j).data = [])
    (ht : Taken fsxp L (L.push t)) :
    Settled n fsxp (insert (L.push t).disk.cur T) (L.push t) ams' := by
  have hdir : ∀ j, InTree fsxp L.disk.cur j true →
      ∀ a ∈ BFILE.blocks fsxp (L.push t).disk.cur j, InTree fsxp (L.push t).disk.cur j true := by
    intro j hj a ha
    obtain ⟨hjA, hjK⟩ := h.inTree_iff.1 hj
    have hkind : K' j = true := by
      by_contra hne
      exact (hK j fun heq => hne (heq.trans hjK)).1 hjA
    exact hkind ▸ h'.toTree.inTree_of_mem (h.lt hj) ha
  have hold := LogSt.Every.mono hs fun D ⟨hD, m, hm, hsame⟩ =>
    (⟨hD.moves hmv hdir fun j hj => h.lt hj, m, .inr hm, hsame⟩ :
      Past n fsxp D (L.push t).disk.cur ams' ∧
        ∃ m ∈ insert (L.push t).disk.cur T, SameTree fsxp m D.cur)
  refine hold.push ⟨h'.toTree.past ?_ ams', _, .inl rfl, .refl fsxp _⟩
  -- what has been synced stays synced, and what is new in the tree has been written
  have hkeep : ∀ a ∈ metaBlocks n fsxp L.disk.cur, (L.push t).disk.SyncedAt a := by
    intro a ha
    rw [LogSt.disk_push]
    exact (hs.disk.1.synced a ha).install t
  rintro a ((ha | ⟨j, hj, ha⟩) | ⟨j, hj, ha⟩)
  · exact hkeep a (.inl (.inl ha))
  · rcases ht j hj a (Multiset.mem_add.2 (.inl ha)) with ho | hsync
    · rcases Multiset.mem_add.1 ho with hn | hd
      · exact hkeep a (.inl (.inr ⟨j, hj, hn⟩))
      · rcases hmv.giveData j hj a hd with hd' | hf
        · exact absurd ha (h'.tree.inv.not_node hj hd' hj)
        · rw [← hmv.msAlloc] at hf
          exact absurd (Multiset.mem_add.2 (.inl ha)) (h'.tree.inv.not_owned hf hj)
    · exact hsync
  · have hlt := h'.lt hj
    rcases ht j hlt a (Multiset.mem_add.2 (.inr ha)) with ho | hsync
    · rcases Multiset.mem_add.1 ho with hn | hd
      · rcases hmv.giveNodes j hlt a hn with hn' | hf
        · exact absurd hn' (h'.tree.inv.not_node hlt ha hlt)
        · rw [← hmv.msAlloc] at hf
          exact absurd (Multiset.mem_add.2 (.inr ha)) (h'.tree.inv.not_owned hf hlt)
      · have hkind : K j = true := by
          by_contra hne
          have hdata := (hK j fun heq => hne (heq.symm.trans (h'.inTree_iff.1 hj).2)).2
          have hlen := BFILE.length_data fsxp (L.push t).disk.cur j
          rw [hdata] at hlen
          rw [List.eq_nil_of_length_eq_zero hlen.symm] at ha
          exact List.not_mem_nil ha
        have hin := h.toTree.inTree_of_mem hlt hd
        exact hkeep a (.inr ⟨j, hkind ▸ hin, hd⟩)
    · exact hsync

/-- Every effect of a call keeps all this, and adds one tree at most. -/
theorem Effect.settled (hx : fsxp.Ok n) (he : Effect n fsxp A K L ams A' K' L' ams')
    (hs : Settled n fsxp T L ams) (ht : Taken fsxp L L') :
    Settled n fsxp (insert L'.disk.cur T) L' ams' := by
  have hok := he.ok h
  cases he with
  | idle hL hinv hmv =>
    have hold := LogSt.Every.mono hs fun D ⟨hD, m, hm, hsame⟩ =>
      (⟨hD.moves hmv (fun j hj _ _ => hj) fun j hj => h.lt hj, m, .inr hm, hsame⟩ :
        Past n fsxp D L.disk.cur ams' ∧ ∃ m ∈ insert L'.disk.cur T, SameTree fsxp m D.cur)
    rw [Settled, hL.disk] at *
    exact hold.flushed hL
  | @logged _ _ _ t _ _ hL hr hinv hmv hK =>
    have hok' := (Effect.logged (L := L) .same hr hinv hmv hK).ok h
    have hpush := hs.push h hok' hmv hK (fun j hj => by
      have htj := ht j hj
      rwa [hL.disk] at htj)
    rw [Settled, hL.disk]
    exact LogSt.Every.flushed hpush hL
  | @direct i a v c hi hKi ha hinv hmv =>
    have hdir : ∀ j, InTree fsxp L.disk.cur j true →
        ∀ a' ∈ BFILE.blocks fsxp (L.dwrite a v).disk.cur j,
          InTree fsxp (L.dwrite a v).disk.cur j true :=
      fun j hj _ _ => hok.inTree_iff.2 (h.inTree_iff.1 hj)
    refine LogSt.Every.dwrite hs fun D ⟨hD, m, hm, hsame⟩ => ?_
    obtain ⟨hD', hsame'⟩ := hD.write h hx hi hKi ha (hD.moves hmv hdir fun j hj => h.lt hj) v
    exact ⟨hD', m, .inr hm, hsame.trans hsame'⟩
  | synced i =>
    rw [Settled, LogSt.disk_dsyncVecs_cur]
    refine LogSt.Every.sync hs fun D ⟨hD, m, hm, hsame⟩ => ⟨?_, m, .inr hm, hsame⟩
    exact ⟨hD.tree, ⟨hD.older.len, hD.older.data, hD.older.nodes⟩, hD.dir,
      fun a ha => (hD.synced a ha).sync⟩
  | flushed =>
    have hone := hok.toTree.settled (n := n) rfl hs.disk.1.synced { ams with msAlloc := !ams.msAlloc }
    exact hone.mono (Set.singleton_subset_iff.2 (.inl rfl))
  | unmounted =>
    have hone := hok.toTree.settled (n := n) rfl (fun a _ => L.flushall.syncedAt_syncCache a)
      { ams with msAlloc := !ams.msAlloc }
    exact hone.mono (Set.singleton_subset_iff.2 (.inl rfl))

end

end AFS

end Fscq
