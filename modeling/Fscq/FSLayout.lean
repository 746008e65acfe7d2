import Mathlib.Tactic

/-!
# The layout of the file system

Where the parts of the file system are on disk, and the errors of its operations.
-/

namespace Fscq

/-- The place of the data section and of the log. -/
structure LogXparams where
  dataStart : ℕ
  logHeader : ℕ
  logDescriptor : ℕ
  logDescLen : ℕ
  logData : ℕ
  logLen : ℕ

/-- The place of a bitmap. -/
structure BallocXparams where
  bmapStart : ℕ
  bmapNBlocks : ℕ

/-- The place of the inodes. -/
structure InodeXparams where
  ixStart : ℕ
  ixLen : ℕ

/-- The layout of a file system. -/
structure FsXparams where
  log : LogXparams
  inode : InodeXparams
  blockAlloc1 : BallocXparams
  blockAlloc2 : BallocXparams
  inodeAlloc : BallocXparams
  rootInum : ℕ
  maxBlock : ℕ
  magic : ℕ

def FsXparams.blockAlloc (fsxp : FsXparams) : BallocXparams × BallocXparams :=
  (fsxp.blockAlloc1, fsxp.blockAlloc2)

/-- A range of blocks. -/
structure Region where
  start : ℕ
  len : ℕ

def Region.blocks (r : Region) : Finset ℕ := Finset.Ico r.start (r.start + r.len)

/-- The parts of the disk in their order.  The addresses of the log are block numbers, the others are
relative to the data section, whose first blocks are those of the files. -/
def FsXparams.regions (fsxp : FsXparams) : List Region :=
  let base := fsxp.log.dataStart
  [⟨0, 1⟩, ⟨base, fsxp.inode.ixStart⟩, ⟨base + fsxp.inode.ixStart, fsxp.inode.ixLen⟩,
    ⟨base + fsxp.inodeAlloc.bmapStart, fsxp.inodeAlloc.bmapNBlocks⟩,
    ⟨base + fsxp.blockAlloc1.bmapStart, fsxp.blockAlloc1.bmapNBlocks⟩,
    ⟨base + fsxp.blockAlloc2.bmapStart, fsxp.blockAlloc2.bmapNBlocks⟩,
    ⟨fsxp.log.logHeader, 1⟩, ⟨fsxp.log.logDescriptor, fsxp.log.logDescLen⟩,
    ⟨fsxp.log.logData, fsxp.log.logLen⟩]

/-- The regions follow each other without a gap, from block `a` up to block `b`. -/
def Consecutive : ℕ → List Region → ℕ → Prop
  | a, [], b => a = b
  | a, r :: rs, b => r.start = a ∧ Consecutive (a + r.len) rs b

theorem Consecutive.le {rs : List Region} {a b : ℕ} (h : Consecutive a rs b) : a ≤ b := by
  induction rs generalizing a with
  | nil => exact le_of_eq h
  | cons r rs ih => exact (Nat.le_add_right a r.len).trans (ih h.2)

/-- They are what lies between. -/
theorem Consecutive.mem_iff {rs : List Region} {a b : ℕ} (h : Consecutive a rs b) (x : ℕ) :
    (∃ r ∈ rs, x ∈ r.blocks) ↔ a ≤ x ∧ x < b := by
  induction rs generalizing a with
  | nil =>
    obtain rfl : a = b := h
    refine ⟨fun ⟨_, hr, _⟩ => absurd hr List.not_mem_nil, fun hx => ?_⟩
    omega
  | cons r rs ih =>
    have hle := h.2.le
    rw [List.exists_mem_cons_iff, ih h.2, Region.blocks, Finset.mem_Ico, h.1]
    omega

theorem Consecutive.pairwise {rs : List Region} {a b : ℕ} (h : Consecutive a rs b) :
    rs.Pairwise fun r s => Disjoint r.blocks s.blocks := by
  induction rs generalizing a with
  | nil => exact List.Pairwise.nil
  | cons r rs ih =>
    refine List.Pairwise.cons (fun s hs => ?_) (ih h.2)
    rw [Finset.disjoint_left]
    intro x hx hxs
    have hge := ((h.2.mem_iff x).mp ⟨s, hs, hxs⟩).1
    rw [Region.blocks, Finset.mem_Ico, h.1] at hx
    omega

inductive Errno
  | ELOGOVERFLOW
  | ENOTDIR
  | EISDIR
  | ENOENT
  | EFBIG
  | ENAMETOOLONG
  | EEXIST
  | ENOSPCBLOCK
  | ENOSPCINODE
  | ENOTEMPTY
  | EINVAL
  deriving DecidableEq, Repr

/-- A result or an error. -/
abbrev Res (α : Type) := Except Errno α

end Fscq
