import Fscq.FuseContents
import Fscq.FuseCrash

/-!
# Appends

A write at or behind the end of a file gives the file new blocks, fills them, and sets the size last.
What a crash leaves of the file is therefore what it had before the write, or all of it
(`Fuse.append_atomic`).
-/

namespace Fscq

open CrashProg

open Hslib (ByteString)

open BFILE (MemState)

open LogSt (Flushed)

open AFS (Moment Later Ok InTree SameTree Recorded)

namespace Fuse

/-! ### Pieces behind the end of a file -/

section

variable {off initLen b q : ℕ} {buf : ByteString} {old : Valu} {data : List Valu}

/-- A piece behind the end of a file leaves the bytes before the end. -/
theorem getD_newBlock_of_lt (h : Touches off buf.length b) (hle : initLen ≤ off)
    (hq : 4096 * b + q < initLen) :
    (newBlock initLen old (rangeAt off buf.length b) (pieceAt off buf b)).length = 4096 ∧
    (newBlock initLen old (rangeAt off buf.length b) (pieceAt off buf b)).getD q 0 =
      (w2bs old).getD q 0 := by
  have hbs : blocksize = 4096 := by
    rw [blocksize, valulen_is]
    rfl
  have hlen := length_pieceAt h
  have hw := length_w2bs old
  have hle' := h.le
  rw [newBlock, hbs, rangeAt_blk, rangeAt_off, rangeAt_count hle', ← hlen, ← Nat.cast_add,
    Int.toNat_natCast, Int.toNat_natCast]
  split_ifs with hwhole hzero
  · have hwhole : (pieceAt off buf b).length = 4096 := by exact_mod_cast hwhole
    omega
  · omega
  · constructor
    · rw [List.length_append, List.length_append, List.length_take, List.length_drop]
      omega
    · rw [getD_splice q (by omega), if_neg (by omega)]

theorem byteAt_putPiece_of_lt {p : BlockRange × ByteString} (hp : p ∈ computeRangePieces off buf)
    (hle : initLen ≤ off) (hq : q < initLen) : byteAt (putPiece initLen data p) q = byteAt data q := by
  rw [computeRangePieces_eq] at hp
  obtain ⟨b, hb, rfl⟩ := List.mem_map.1 hp
  rw [List.mem_range'_1] at hb
  have ht : Touches off buf.length b := ⟨hb.1, by omega⟩
  simp only [putPiece, rangeAt_blk, Int.toNat_natCast]
  rcases Nat.lt_or_ge b data.length with hlt | hge
  · rw [byteAt_set hlt]
    split_ifs with hqb
    · obtain ⟨hlen, hget⟩ :=
        @getD_newBlock_of_lt off initLen b (q % 4096) buf (data.getD b 0) ht hle (by omega)
      rw [w2bs_wbs hlen, hget, byteAt, hqb]
    · rfl
  · rw [List.set_eq_of_length_le hge]

end

/-! ### What a crash shows of a file -/

/-- The file satisfies `X` on all disks since the last sync, and is only written through the log. -/
structure Shows [Platform] (g : AFS.Geometry) (i : ℕ) (X : BFILE.BFile → Prop) (s : Moment) : Prop where
  lives : s.Lives g
  recorded : Recorded g.fsxp {i} s.disks s.log
  disks : ∀ m ∈ s.disks, ∃ f, files g.fsxp m i = some f ∧ X f

section

variable [Platform] {g : AFS.Geometry} {i : ℕ} {X : BFILE.BFile → Prop} {s s₁ s' : Moment} {d : Mem}
  {c : AFS.Call} {R : AFS.Call → Moment → Prop}

theorem cur_mem_of_life {T : Set Mem} {L : LogSt} {ams : MemState} (h : AFS.Life g T L ams) :
    L.disk.cur ∈ T := by
  cases h with
  | mkfs _ => rfl
  | call _ _ _ =>
    rw [AFS.Call.committed]
    split_ifs
    · rfl
    · exact .inl rfl
  | crash _ _ _ _ => rfl

theorem Shows.cur (h : Shows g i X s) : ∃ f, files g.fsxp s.log.disk.cur i = some f ∧ X f :=
  h.disks _ (cur_mem_of_life h.lives)

theorem Shows.crash (h : Shows g i X s) (hd : d ∈ s.log.crashes g.fsxp.log) :
    ∃ f, files g.fsxp d i = some f ∧ X f := by
  obtain ⟨m, hm, hsame, hfile⟩ := h.recorded.crash g.ok h.lives.sound.settled hd
  obtain ⟨f, hf, hX⟩ := h.disks m hm
  obtain ⟨hi, hf⟩ := files_eq_some.1 hf
  obtain ⟨A, K, hok⟩ := h.lives.ok
  have hi' := (hsame.inTree i false).2 hi
  obtain ⟨⟨A, K, htree⟩, -⟩ := h.lives.sound.settled.crash g.ok hd
  refine ⟨f, files_eq_some.2 ⟨hi', ?_⟩, hX⟩
  rw [hfile i rfl (htree.lt hi'), hf]

/-- A call on something else. -/
theorem Shows.spares (h : Shows g i X s) (hc : s.Harmless g c) (hsp : AFS.SparesFile g i c s) :
    Shows g i X (s.after g c) := by
  obtain ⟨f, hf, hX⟩ := h.cur
  obtain ⟨hi, rfl⟩ := files_eq_some.1 hf
  obtain ⟨A, K, hok⟩ := h.lives.ok
  obtain ⟨ht, hin⟩ := hsp
  obtain ⟨hsame, -⟩ := AFS.spares_of_run hok h.lives.sound.log hc hi ht hin
  refine ⟨h.lives.after hc, h.lives.recorded h.recorded hc ?_, fun m hm => ?_⟩
  · rintro j off v rfl rfl
    exact ht rfl
  · rcases Moment.disks_after hm with rfl | hm
    · exact ⟨_, files_eq_some.2 ⟨hin, hsame⟩, hX⟩
    · exact h.disks m hm

theorem Shows.later (h : Shows g i X s) (hl : Later g (AFS.SparesFile g i) s s') : Shows g i X s' := by
  induction hl with
  | refl => exact h
  | call _ hc hsp ih => exact ih.spares hc hsp

/-- After a full sync a crash shows the file as it is. -/
theorem shows_of_fsync (h : s.Lives g) (hi : InTree g.fsxp s.log.disk.cur i false) :
    Shows g i (· = BFILE.file g.fsxp s.log.disk.cur i)
      ((s.after g (.fileSync i)).after g .treeSync) := by
  have h₁ : (s.after g (.fileSync i)).Lives g := h.after (.inl ⟨trivial, trivial⟩)
  refine ⟨h₁.after (.inl ⟨trivial, trivial⟩), h₁.recorded_treeSync ?_, ?_⟩
  · rintro j rfl _
    change BFILE.getDirty j (BFILE.clearDirty j s.ams.msDBlocks) = ∅
    rw [BFILE.getDirty_clearDirty, if_pos rfl]
  · intro m hm
    have hm : m = ((s.after g (.fileSync i)).after g .treeSync).log.disk.cur := hm
    rw [hm, Moment.cur_treeSync, Moment.cur_fileSync]
    exact ⟨_, files_eq_some.2 ⟨hi, rfl⟩, rfl⟩

end

/-! ### Appends -/

theorem writeAt_append {old data : ByteString} {off : ℕ} (h : old.length ≤ off) :
    writeAt old off data = old ++ List.replicate (off - old.length) 0 ++ data := by
  rw [writeAt, List.take_of_length_le h, List.drop_of_length_le (by omega), List.append_nil]

/-- The bytes of the file are the old ones, or the old ones with those that have been appended. -/
def Appended (f : BFILE.BFile) (bs : ByteString) (offset : ℕ) (f' : BFILE.BFile) : Prop :=
  bytes f' = bytes f ∨ bytes f' = bytes f ++ List.replicate (offset - size f) 0 ++ bs

section

variable [Platform] {n : ℕ} {fsxp : FsXparams} {A : Finset ℕ} {K : ℕ → Bool} {L : LogSt}
  {ams : MemState} {i offset : ℕ} {f : BFILE.BFile} {bs : ByteString}

/-- Every call of an append leaves the old bytes, or all of the new ones. -/
theorem wp_append (h : Ok n fsxp A K L ams) (hx : fsxp.Ok n) (hlog : 0 < fsxp.log.logLen)
    (hf : files fsxp L.disk.cur i = some f) (hp : Padded f) (hoff : size f ≤ offset) :
    FuseProg.wp fsxp (fscqWrite i bs offset)
      (fun _ s' => ∃ f', files fsxp s'.2.disk.cur i = some f' ∧ Appended f bs offset f')
      (fun L' => ∃ f', files fsxp L'.disk.cur i = some f' ∧ Appended f bs offset f') (ams, L) := by
  have hsame : ∀ data, (∀ q < size f, byteAt data q = byteAt f.data q) →
      Appended f bs offset ⟨data, f.attr⟩ :=
    fun data hd => .inl (List.map_congr_left fun q hq => hd q (List.mem_range.1 hq))
  apply wp_fscqWrite (J := fun L' data => Sets fsxp L.disk.cur i ⟨data, f.attr⟩ L'.disk.cur ∧
    ∀ q < size f, byteAt data q = byteAt f.data q) h hx hlog hf hp.fits ⟨f, hf, .inl rfl⟩
  · exact fun L' data ⟨hs, hd⟩ => ⟨_, hs.self, hsame data hd⟩
  · exact fun ams' L' _ _ hs => ⟨hs, fun q _ => byteAt_roomFor hp _ q⟩
  · intro L₁ ams₁ L' ams' data p hmem ⟨_, hd⟩ _ _ _ _ hs
    refine ⟨hs, fun q hq => ?_⟩
    rw [byteAt_putPiece_of_lt hmem hoff hq, hd q hq]
  · intro e ams' L' hL _ _
    refine ⟨f, ?_, .inl rfl⟩
    rwa [hL.disk]
  · intro L₁ ams' L' hend _ _ _ hs
    refine ⟨_, hs.self, .inr ?_⟩
    rw [bytes_written hp hend, writeAt_append (by rwa [length_bytes]), length_bytes]

end

section

variable [Platform] {g : AFS.Geometry} {i offset : ℕ} {f : BFILE.BFile} {bs : ByteString} {s : Moment}

/-- An append is a client of the file system that does not write past the log. -/
theorem wp_append_client (h : Shows g i (· = f) s) (hp : Padded f) (hoff : size f ≤ offset)
    (hbs : bs ≠ []) :
    wp (FuseProg.clientSem g (fun c => AFS.LogsFiles {i} c s)
        fun L => ∃ f', files g.fsxp L.disk.cur i = some f' ∧ Appended f bs offset f')
      (fscqWrite i bs offset)
      (fun _ s' => ∃ f', files g.fsxp s'.log.disk.cur i = some f' ∧ Appended f bs offset f')
      (fun s' => ∃ f', files g.fsxp s'.log.disk.cur i = some f' ∧ Appended f bs offset f') s := by
  obtain ⟨A, K, hok⟩ := h.lives.ok
  obtain ⟨f', hf, hff⟩ := h.cur
  rw [hff] at hf
  have hlt : size f < offset + bs.length := by
    have := List.length_pos_of_ne_nil hbs
    omega
  have hwp : FuseProg.wp g.fsxp (fscqWrite i bs offset) _ _ (s.ams, s.log) :=
    wp_append hok g.ok h.lives.sound.log hf hp hoff
  rw [fscqWrite] at hwp ⊢
  refine FuseProg.wp_clean_client (o := .fileGetSz i) ⟨fun _ => trivial, nofun⟩ hwp fun wlen s₁ hrun h₁ => ?_
  have hlen : wlen.toNat = size f := by
    have hget : FuseProg.wp g.fsxp (.op (.fileGetSz i)) (fun v _ => v = INODE.aBytes f.attr)
        (fun _ => True) (s.ams, s.log) :=
      wp_fileGetSz hok g.ok trivial hf fun _ _ => rfl
    have hrun : FuseProg.run g.fsxp (.op (.fileGetSz i)) (s.ams, s.log) = _ := hrun
    have hget := FuseProg.wp_run hget
    rw [hrun] at hget
    exact congrArg BitVec.toNat hget
  -- the file is too short, so that the blocks are written in transactions
  dsimp only at h₁ ⊢
  rw [hlen] at h₁ ⊢
  simp only [if_pos hlt] at h₁ ⊢
  refine FuseProg.wp_clean_client (o := .fileTruncate i ((offset + bs.length + 4095) / 4096))
    ⟨fun r => ?_, nofun⟩ h₁ fun ok s₂ _ h₂ => FuseProg.wp_pure_client h₂ fun h₂ => ?_
  · trivial
  rcases ok with e | v
  · refine FuseProg.wp_client ?_ h₂
    trivial
  · refine FuseProg.wp_client ?_ h₂
    refine ⟨all_writePieces (fun _ => nofun) (fun _ _ => nofun) nofun _ _, ?_⟩
    rintro (c | c)
    · refine ⟨⟨fun _ => trivial, nofun⟩, ?_⟩
      rintro (e | v) <;> trivial
    · exact all_ite trivial trivial

/-- A file whose contents and size are durable, and which has only zeros behind its end, is appended
to.  A crash in the middle of the append, or in the middle of any later call on something else, leaves
the bytes of the file as they were, or as they were together with all of the new ones behind them. -/
theorem append_atomic (h : Shows g i (· = f) s) (hp : Padded f) (hoff : size f ≤ offset)
    (hbs : bs ≠ []) :
    (∀ M d, Exec (LogProg.sem g.dataSize g.fsxp.log) s.log
        (compile (FsOp.exec g.fsxp) (fscqWrite i bs offset) s.ams) (.crashed M) →
      d ∈ M.crashes g.fsxp.log → ∃ f', files g.fsxp d i = some f' ∧ Appended f bs offset f') ∧
    ∀ ams L r, LogProg.run g.fsxp.log (compile (FsOp.exec g.fsxp) (fscqWrite i bs offset) s.ams)
        s.log = ((ams, r), L) →
      ∃ s₁ : Moment, s₁.ams = ams ∧ s₁.log = L ∧ s₁.Lives g ∧
        ∀ s' c d, Later g (AFS.SparesFile g i) s₁ s' → s'.Harmless g c →
          AFS.SparesFile g i c s' → s'.CrashesTo g c d →
          ∃ f', files g.fsxp d i = some f' ∧ Appended f bs offset f' := by
  have hwp := AFS.Client.wp_compile (u := FsOp.client g.fsxp) h.lives (wp_append_client h hp hoff hbs)
  -- the file on all disks since the last sync, at a moment between two calls of the append
  have hshows : ∀ {s' : Moment}, Later g (fun c s' => AFS.LogsFiles {i} c s ∧
      ∃ f', files g.fsxp s'.log.disk.cur i = some f' ∧ Appended f bs offset f') s s' →
      (∃ f', files g.fsxp s'.log.disk.cur i = some f' ∧ Appended f bs offset f') →
      Shows g i (Appended f bs offset) s' := by
    intro s' hl hs'
    refine ⟨hl.lives h.lives, (hl.mono fun _ _ hR => hR.1).recorded h.lives h.recorded, ?_⟩
    refine forall_disks hl (fun _ _ hR => hR.2) (fun m hm => ?_) hs'
    obtain ⟨f', hf, rfl⟩ := h.disks m hm
    exact ⟨f', hf, .inl rfl⟩
  constructor
  · intro M d hM hd
    obtain ⟨s', hl, hs', hd⟩ := hwp _ hM d hd
    exact (hshows hl (hs'.elim id fun ⟨_, hQ⟩ => hQ)).crash hd
  · intro ams L r hrun
    have hfin := LogProg.wp_run hwp
    have hrun : LogProg.run g.fsxp.log
        (compile (FsOp.client g.fsxp).exec (fscqWrite i bs offset) s.ams) s.log = _ := hrun
    rw [hrun] at hfin
    obtain ⟨s₁, hl, hams, hlog, hQ⟩ := hfin
    refine ⟨s₁, hams, hlog, hl.lives h.lives, fun s' c d hl' hc hsp hd => ?_⟩
    have hs' := (hshows hl hQ).later hl'
    rcases hd.mem with hd | hd
    · exact hs'.crash hd
    · exact (hs'.spares hc hsp).crash hd

end

end Fuse

namespace Sample

open Fuse

local instance fuseAppendPlatform : Platform := platform

/-- A byte is appended to a new file. -/
theorem append_atomic_byte : ∃ (s : Moment) (i : ℕ), Shows geometry i (· = DIRTREE.bfile0) s ∧
    (∀ M d, Exec (LogProg.sem geometry.dataSize geometry.fsxp.log) s.log
        (compile (FsOp.exec geometry.fsxp) (fscqWrite i [7] 0) s.ams) (.crashed M) →
      d ∈ M.crashes geometry.fsxp.log → ∃ f', files geometry.fsxp d i = some f' ∧
        Appended DIRTREE.bfile0 [7] 0 f') ∧
    ∀ ams L r, LogProg.run geometry.fsxp.log
        (compile (FsOp.exec geometry.fsxp) (fscqWrite i [7] 0) s.ams) s.log = ((ams, r), L) →
      ∃ s₁ : Moment, s₁.ams = ams ∧ s₁.log = L ∧ s₁.Lives geometry ∧
        ∀ s' c d, Later geometry (AFS.SparesFile geometry i) s₁ s' → s'.Harmless geometry c →
          AFS.SparesFile geometry i c s' → s'.CrashesTo geometry c d →
          ∃ f', files geometry.fsxp d i = some f' ∧ Appended DIRTREE.bfile0 [7] 0 f' := by
  obtain ⟨s, i, hs, hfile⟩ := exists_serving
  obtain ⟨hi, hf⟩ := files_eq_some.1 hfile
  have hshows := shows_of_fsync hs.lives hi
  rw [hf] at hshows
  have hsize : size DIRTREE.bfile0 = 0 := by decide +kernel
  exact ⟨_, i, hshows, append_atomic hshows (padded_nil hsize) hsize.le (List.cons_ne_nil 7 [])⟩

end Sample

end Fscq
