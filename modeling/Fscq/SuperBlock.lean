import Fscq.Cache
import Fscq.FSLayout
import Fscq.Rec

/-!
# The superblock

Block zero of the disk has the layout of the file system, packed into one record.
-/

namespace Fscq

open CrashProg

namespace SB

def superblockType : Rec.Ty := .recF
  [("data_start", .wordF addrlen), ("log_header", .wordF addrlen), ("log_descr", .wordF addrlen),
    ("log_descrlen", .wordF addrlen), ("log_data", .wordF addrlen), ("log_len", .wordF addrlen),
    ("ixstart", .wordF addrlen), ("ixlen", .wordF addrlen),
    ("bastart1", .wordF addrlen), ("banblocks1", .wordF addrlen),
    ("bastart2", .wordF addrlen), ("banblocks2", .wordF addrlen),
    ("iastart", .wordF addrlen), ("ianblocks", .wordF addrlen),
    ("root_inum", .wordF addrlen), ("maxblock", .wordF addrlen), ("magic", .wordF addrlen)]

def superblockPadded : Rec.Ty := .recF
  [("sb", superblockType), ("pad", .wordF (valulen - superblockType.len))]

theorem superblockPadded_len : superblockPadded.len = valulen := by
  have hlen : superblockType.len ≤ valulen := by
    rw [valulen_is]
    decide
  rw [superblockPadded, Rec.Ty.len, Rec.lenFields, Rec.lenFields, Rec.lenFields, Rec.Ty.len, add_zero,
    Nat.add_sub_cancel' hlen]

/-- The record of a layout.  The padding is zero. -/
def pickleSuperblock (fsxp : FsXparams) : BitVec superblockPadded.len :=
  let sb : superblockType.data :=
    (addr2w fsxp.log.dataStart, addr2w fsxp.log.logHeader, addr2w fsxp.log.logDescriptor,
      addr2w fsxp.log.logDescLen, addr2w fsxp.log.logData, addr2w fsxp.log.logLen,
      addr2w fsxp.inode.ixStart, addr2w fsxp.inode.ixLen,
      addr2w fsxp.blockAlloc1.bmapStart, addr2w fsxp.blockAlloc1.bmapNBlocks,
      addr2w fsxp.blockAlloc2.bmapStart, addr2w fsxp.blockAlloc2.bmapNBlocks,
      addr2w fsxp.inodeAlloc.bmapStart, addr2w fsxp.inodeAlloc.bmapNBlocks,
      addr2w fsxp.rootInum, addr2w fsxp.maxBlock, addr2w fsxp.magic, ())
  let pad : BitVec (valulen - superblockType.len) := 0
  Rec.toWord superblockPadded (sb, pad, ())

def vPickleSuperblock (fsxp : FsXparams) : Valu :=
  (pickleSuperblock fsxp).cast superblockPadded_len

section

variable [Platform]

def init (fsxp : FsXparams) (cs : CacheState) : Prog CacheState := do
  let cs ← BufCache.write 0 (vPickleSuperblock fsxp) cs
  let cs ← BufCache.beginSync cs
  let cs ← BufCache.sync 0 cs
  BufCache.endSync cs

variable {n : ℕ} {cs : CacheState} {m : ADisk} {hm : Hashmap} {s : St} {fsxp : FsXparams}
  {Q : CacheState → St → Prop}

/-- The superblock is durable. -/
theorem wp_init (h : CState n cs m hm s) (hn : 0 < n) (hQ : ∀ cs' s',
      CState n cs' ((m.write 0 (vPickleSuperblock fsxp)).sync {0}) hm s' → Q cs' s') :
    wp diskSem (init fsxp cs) Q (fun _ => True) s := by
  have hinit : wp diskSem (init fsxp cs) Q (CCrash n fun _ _ => True) s := by
    refine wp_bind (BufCache.wp_write h hn trivial fun cs₁ s₁ h₁ => ?_)
    refine wp_bind (wp_pure (wp_bind (BufCache.wp_writeback h₁ trivial fun cs₂ s₂ h₂ hclean _ => ?_)))
    refine BufCache.wp_endSync h₂ ?_ trivial fun s₃ h₃ => hQ cs₂ s₃ h₃
    rintro a rfl
    exact hclean
  exact hinit.anyCrash

end

end SB

end Fscq
