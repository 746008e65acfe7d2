import Fscq.FuseRun

/-!
# What a file contains

The bytes of a file after a sequence of requests on it: `Fuse.byteAfter` is the byte that has been
written last at an offset, unless it has been cut off since then.  A read returns these bytes as long as
no size is set that cuts off bytes other than zero: the server leaves them in their block, where a
larger size shows them again.
-/

namespace Fscq

open CrashProg

open Hslib (ByteString)

open BFILE (MemState)

open LogSt (Flushed)

open AFS (Ok Effect InTree inTree_iff)

namespace Fuse

/-! ### Requests on one file -/

/-- The request is about this file, or syncs the directory tree. -/
inductive OnFile (fsxp : FsXparams) (m : Mem) (i : ℕ) : Request → Prop
  | read (byteCount offset : ℕ) : OnFile fsxp m i (.read i byteCount offset)
  | write (bs : ByteString) (offset : ℕ) : OnFile fsxp m i (.write i bs offset)
  | setFileSize {nameparts : List Sname} (h : Names fsxp m nameparts i false) (size : ℕ) :
      OnFile fsxp m i (.setFileSize nameparts size)
  | openFile {nameparts : List Sname} (h : Names fsxp m nameparts i false)
      (hs : isServerFile nameparts = false) (trunc : Bool) :
      OnFile fsxp m i (.openFile nameparts trunc)
  | syncFile (syncType : SyncType) : OnFile fsxp m i (.syncFile i syncType)
  | syncDir : OnFile fsxp m i .syncDir

/-- Requests on a file that all succeed, the last one first. -/
inductive FileRun [Platform] (fsxp : FsXparams) (i : ℕ) (P : FsState → Request → Prop)
    (s₀ : FsState) : List Request → FsState → Prop
  | nil : FileRun fsxp i P s₀ [] s₀
  | cons {qs : List Request} {s s' : FsState} {q : Request} {a : Answer}
      (h : FileRun fsxp i P s₀ qs s) (hi : OnFile fsxp s.2.disk.cur i q) (hq : P s q)
      (hr : FuseProg.run fsxp (q.prog fsxp.rootInum) s = (.ok a, s')) :
      FileRun fsxp i P s₀ (q :: qs) s'

/-- The byte at an offset after requests on a file, the last one first. -/
def byteAfter (buf : ByteString) : List Request → ℕ → UInt8
  | [], p => buf.getD p 0
  | .write _ bs offset :: qs, p =>
    if offset ≤ p ∧ p < offset + bs.length then bs.getD (p - offset) 0 else byteAfter buf qs p
  | .setFileSize _ sz :: qs, p => if sz ≤ p then 0 else byteAfter buf qs p
  | .openFile _ true :: _, _ => 0
  | _ :: qs, p => byteAfter buf qs p

/-- The size of a file after these requests. -/
def sizeAfter (buf : ByteString) : List Request → ℕ
  | [] => buf.length
  | .write _ bs offset :: qs => max (sizeAfter buf qs) (offset + bs.length)
  | .setFileSize _ sz :: _ => sz
  | .openFile _ true :: _ => 0
  | _ :: qs => sizeAfter buf qs

/-- The file has the contents that the requests have given it. -/
structure Contains (n : ℕ) (fsxp : FsXparams) (i : ℕ) (buf : ByteString) (qs : List Request)
    (s : FsState) : Prop where
  ok : ∃ A K, Ok n fsxp A K s.2 s.1
  file : ∃ f, files fsxp s.2.disk.cur i = some f ∧ Padded f ∧ size f = sizeAfter buf qs ∧
    ∀ p, byteAt f.data p = byteAfter buf qs p

/-! ### One request -/

section

variable {n : ℕ} {fsxp : FsXparams} {A : Finset ℕ} {K : ℕ → Bool} {L L' : LogSt}
  {ams ams' : MemState} {i : ℕ} {f : BFILE.BFile} {buf : ByteString} {qs : List Request}

theorem padded_nil {attr : INODE.IAttr} (h : size ⟨[], attr⟩ = 0) : Padded ⟨[], attr⟩ where
  fits := by rw [h]; exact Nat.zero_le _
  zero p _ := byteAt_nil p

/-- A file after a write. -/
theorem Contains.written {s : FsState} (h : Ok n fsxp A K s.2 s.1) {bs : ByteString}
    {offset : ℕ} (hp : Padded f) (hsize : size f = sizeAfter buf qs)
    (hbyte : ∀ p, byteAt f.data p = byteAfter buf qs p)
    (hend : offset + bs.length < 2 ^ 64)
    (hf : files fsxp s.2.disk.cur i = some (written f bs offset)) :
    Contains n fsxp i buf (.write i bs offset :: qs) s := by
  refine ⟨⟨A, K, h⟩, _, hf, hp.written hend, ?_, fun p => ?_⟩
  · rw [size_written hend, hsize, sizeAfter]
  · rw [byteAt_written hp, hbyte, byteAfter]

theorem padded_setSize {sz : ℕ} (hsz : sz ≤ 4096) (hlen : f.data.length = (sz + 4095) / 4096)
    (hz : ∀ p, sz ≤ p → byteAt f.data p = 0) :
    Padded ⟨f.data, INODE.iattrUpd f.attr (.uBytes (addr2w sz))⟩ where
  fits := by
    rw [size_setSize (by omega)]
    show sz ≤ 4096 * f.data.length
    omega
  zero := by
    rw [size_setSize (by omega)]
    exact hz

/-- A file of which only zeros have been cut off. -/
theorem Contains.cut {s : FsState} (h : Ok n fsxp A K s.2 s.1) {sz : ℕ} {names : List Sname}
    (hbyte : ∀ p, byteAt f.data p = byteAfter buf qs p) (hsz : sz ≤ 4096)
    (hlen : f.data.length = (sz + 4095) / 4096) (hz : ∀ p, sz ≤ p → byteAt f.data p = 0)
    (hf : files fsxp s.2.disk.cur i =
      some ⟨f.data, INODE.iattrUpd f.attr (.uBytes (addr2w sz))⟩) :
    Contains n fsxp i buf (.setFileSize names sz :: qs) s := by
  refine ⟨⟨A, K, h⟩, _, hf, padded_setSize hsz hlen hz, size_setSize (by omega), fun p => ?_⟩
  rw [byteAfter]
  split_ifs with hp
  · exact hz p hp
  · exact hbyte p

variable [Platform]

end

/-! ### Runs -/

section

variable [Platform] {g : AFS.Geometry} {P : FsState → Request → Prop} {i : ℕ} {s s₀ : FsState}
  {buf : ByteString} {qs : List Request}

theorem FileRun.mono {fsxp : FsXparams} {P P' : FsState → Request → Prop}
    (h : FileRun fsxp i P s₀ qs s) (hP : ∀ s q, P s q → P' s q) : FileRun fsxp i P' s₀ qs s := by
  induction h with
  | nil => exact .nil
  | cons _ hi hq hr ih => exact .cons ih hi (hP _ _ hq) hr

end

end Fuse

namespace Sample

open Fuse

local instance fuseContentsPlatform : Platform := platform

section

variable {i : ℕ} {f : BFILE.BFile} {s : FsState}

/-- A first write to a new file. -/
theorem exists_written (bs : ByteString) (offset : ℕ) (hpos : 0 < bs.length)
    (hle : offset + bs.length ≤ 4096) : ∃ ams L i s₀ s,
    LogProg.run geometry.fsxp.log (AFS.mkfs geometry.fsxp) (.ofDisk fun _ => 0) = (.ok ams, L) ∧
    FuseProg.run geometry.fsxp ((Request.createFile [] [97]).prog geometry.fsxp.rootInum) (ams, L) =
      (.ok (.handle i), s₀) ∧
    HasFile i DIRTREE.bfile0 s₀ ∧ HasFile i (Fuse.written DIRTREE.bfile0 bs offset) s ∧
    ∀ P : FsState → Request → Prop, (∀ s, P s .syncDir) → (∀ s, P s (.write i bs offset)) →
      FileRun geometry.fsxp i P s₀ [.write i bs offset, .syncDir] s := by
  obtain ⟨ams, L, i, s₀, hmk, hrun, h₀, hroom⟩ := exists_created
  obtain ⟨s₁, hrun₁, h₁, hfree⟩ := h₀.synced
  obtain ⟨a, s, hrun₂, h₂⟩ := h₁.written bs offset hpos hle rfl (by rwa [hfree])
  refine ⟨ams, L, i, s₀, s, hmk, hrun, h₀, h₂, fun P hsync hwrite => ?_⟩
  exact (FileRun.nil.cons .syncDir (hsync s₀) hrun₁).cons (.write bs offset) (hwrite s₁) hrun₂

end

end Sample

end Fscq
