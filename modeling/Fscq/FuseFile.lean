import Fscq.FuseBytes
import Fscq.FuseProof

/-!
# Reading and writing files

A write grows the file first, then writes its pieces, and sets the size at the end; each of these
steps is a call of the file system.  A client can so see the bytes of a file only as `bytes` says, and
the steps are what a crash can tell apart: the rule for writes takes a condition that every step
keeps.
-/

namespace Fscq

open CrashProg

open Hslib (ByteString)

open BFILE (MemState)

open LogSt (Flushed)

open AFS (Ok Effect)

namespace Fuse

/-- The size in bytes of a largest file fits into a word. -/
theorem nBlocks_bytes_lt : 4096 * INODE.nBlocks < 2 ^ 64 := by
  rw [INODE.nBlocks, BlockPtr.nBlocks, BlockPtr.nIndirect_is]
  decide

/-! ### Reading -/

section

variable {n : ℕ} {fsxp : FsXparams} {A : Finset ℕ} {K : ℕ → Bool} {L : LogSt} {ams : MemState}
  {i : ℕ} {f : BFILE.BFile} {C : LogSt → Prop}

theorem length_le_of_files (h : Ok n fsxp A K L ams) (hf : files fsxp L.disk.cur i = some f) :
    f.data.length ≤ INODE.nBlocks := by
  obtain ⟨hi, -, rfl⟩ := mem_of_files h.tree h.root hf
  rw [BFILE.length_data]
  exact h.tree.inv.len _ (h.tree.lt hi)

variable [Platform]

theorem wp_readPieces (h : Ok n fsxp A K L ams) (hx : fsxp.Ok n)
    (hf : files fsxp L.disk.cur i = some f) (hC : C L) {off count : ℕ} {l : List ℕ}
    (hl : ∀ b ∈ l, Touches off count b ∧ b < f.data.length) {Q : List ByteString → FsState → Prop}
    (hQ : ∀ ams', Ok n fsxp A K L ams' → Q (l.map fun b => (List.range' (max off (4096 * b))
      (min (off + count) (4096 * (b + 1)) - max off (4096 * b))).map (byteAt f.data)) (ams', L)) :
    FuseProg.wp fsxp ((l.map (rangeAt off count)).mapM' (readPiece i)) Q C (ams, L) := by
  induction l generalizing ams Q with
  | nil => exact wp_pure (hQ ams h)
  | cons b l ih =>
    obtain ⟨ht, hb⟩ := hl b List.mem_cons_self
    have hle := ht.le
    have hpiece := @take_drop_w2bs f.data b (max off (4096 * b))
      (min (off + count) (4096 * (b + 1)) - max off (4096 * b)) (by omega) (by omega)
    apply wp_bind
    apply wp_bind
    apply wp_readFblock h hx hC hf hb
    intro ams₁ he₁
    apply wp_pure
    apply wp_bind
    apply ih (he₁.ok h) fun b' hb' => hl b' (List.mem_cons_of_mem b hb')
    intro ams₂ h₂
    apply wp_pure
    rw [rangeAt_off, rangeAt_count hle, Int.toNat_natCast, Int.toNat_natCast, hpiece]
    exact hQ ams₂ h₂

/-- A read returns the bytes of the file that are in its range. -/
theorem wp_fscqRead (h : Ok n fsxp A K L ams) (hx : fsxp.Ok n)
    (hf : files fsxp L.disk.cur i = some f) (hfits : size f ≤ 4096 * f.data.length) (hC : C L)
    {byteCount offset : ℕ} {Q : Except Posix ByteString → FsState → Prop}
    (hQ : ∀ ams', Ok n fsxp A K L ams' →
      Q (.ok (((bytes f).drop offset).take byteCount)) (ams', L)) :
    FuseProg.wp fsxp (fscqRead i byteCount offset) Q C (ams, L) := by
  apply wp_bind
  apply wp_fileGetSz h hx hC hf
  intro ams₁ he₁
  have hsize : (INODE.aBytes f.attr).toNat = size f := rfl
  dsimp only
  rw [hsize]
  set off := min offset (size f) with hoff
  set count := min byteCount (size f - off) with hcount
  have hbytes : ((List.range' (off / 4096) ((off + count + 4095) / 4096 - off / 4096)).map
      fun b => (List.range' (max off (4096 * b))
        (min (off + count) (4096 * (b + 1)) - max off (4096 * b))).map (byteAt f.data)).flatten =
      ((bytes f).drop offset).take byteCount := by
    have hstart : max off (4096 * (off / 4096)) = off := by omega
    have hend : min (off + count)
        (4096 * (off / 4096 + ((off + count + 4095) / 4096 - off / 4096))) - off = count := by omega
    rw [flatten_ranges _ _ _ _ _ (by omega) (by omega), hstart, hend, take_drop_bytes]
  apply wp_bind
  rw [computeRangesInt_eq]
  apply wp_readPieces (he₁.ok h) hx hf hC
  · intro b hb
    rw [List.mem_range'_1] at hb
    exact ⟨⟨hb.1, by omega⟩, by omega⟩
  · intro ams₂ h₂
    apply wp_pure
    rw [hbytes]
    exact hQ ams₂ h₂

end

/-! ### Writing -/

section

variable {n : ℕ} {fsxp : FsXparams} {A : Finset ℕ} {K : ℕ → Bool} {L L' : LogSt}
  {ams ams' : MemState} {i initLen : ℕ} {f : BFILE.BFile} {r : BlockRange} {piece : ByteString}
  {C : LogSt → Prop}

/-- How a block of a file is written: in a transaction or past the log. -/
def WroteBlock (fsxp : FsXparams) (i : ℕ) (doLog : Bool) (L L' : LogSt) : Prop :=
  if doLog then ∃ t, Flushed (L.push t) L'
  else ∃ a ∈ BFILE.blocks fsxp L.disk.cur i, ∃ v, L' = L.dwrite a v

variable [Platform] (h : Ok n fsxp A K L ams) (hx : fsxp.Ok n)
  (hf : files fsxp L.disk.cur i = some f)

include h hx hf

theorem wp_newBytes (hC : C L) (hb : r.blk.toNat < f.data.length) {Q : ByteString → FsState → Prop}
    (hQ : ∀ ams', Effect n fsxp A K L ams A K L ams' → Q (newBlock initLen (f.data.getD r.blk.toNat 0) r piece) (ams', L)) :
    FuseProg.wp fsxp (newBytes i initLen r piece) Q C (ams, L) := by
  have hrefl := hQ ams (h.refl .same)
  rw [newBytes]
  rw [newBlock] at hrefl hQ
  split_ifs at hrefl hQ ⊢ with h₁ h₂
  · exact wp_pure hrefl
  · exact wp_bind (wp_pure (wp_pure hrefl))
  · apply wp_bind
    apply wp_readFblock h hx hC hf hb
    exact fun ams' he => wp_bind (wp_pure (wp_pure (hQ ams' he)))

theorem wp_writePiece (hlog : 0 < fsxp.log.logLen) (hC : C L) (hb : r.blk.toNat < f.data.length)
    {doLog : Bool} {c : ℕ} {Q : WriteState → FsState → Prop}
    (hQ : ∀ ams' L', Ok n fsxp A K L' ams' → WroteBlock fsxp i doLog L L' →
      Sets fsxp L.disk.cur i ⟨putPiece initLen f.data (r, piece), f.attr⟩ L'.disk.cur →
      Q (.writeOK (c + r.count.toNat)) (ams', L')) :
    FuseProg.wp fsxp (writePiece doLog i initLen (r, piece) (.writeOK c)) Q C (ams, L) := by
  apply wp_bind
  apply wp_newBytes h hx hf hC hb
  intro ams₁ he₁
  have h₁ := he₁.ok h
  cases doLog with
  | true =>
    apply wp_bind
    apply wp_updateFblock h₁ hx hC hf hlog hb
    exact fun ams' L' hl hfiles => wp_pure (hQ ams' L' (hl.effect.ok h₁) hl.log hfiles)
  | false =>
    apply wp_bind
    apply wp_updateFblockD h₁ hx hC hf hb
    exact fun ams' a ha he hfiles => wp_pure (hQ ams' _ (he.ok h₁) ⟨a, ha, _, rfl⟩ hfiles)

end

/-- The bytes of a list of pieces. -/
def piecesLength (l : List (BlockRange × ByteString)) : ℕ := (l.map fun p => p.1.count.toNat).sum

section

variable [Platform] {n : ℕ} {fsxp : FsXparams} {A : Finset ℕ} {K : ℕ → Bool} {i initLen : ℕ}
  {attr : INODE.IAttr} {m₀ : Mem} {doLog : Bool} {C : LogSt → Prop}
  {J : LogSt → List Valu → Prop}

/-- The blocks that are written, with a condition on the log and the blocks of the file that every
write keeps. -/
theorem wp_writePieces (hx : fsxp.Ok n) (hlog : 0 < fsxp.log.logLen) {nb : ℕ}
    (hJC : ∀ L data, J L data → C L) (l : List (BlockRange × ByteString))
    (hblk : ∀ p ∈ l, p.1.blk.toNat < nb)
    (hJ : ∀ L ams L' ams' data, ∀ p ∈ l, data.length = nb → J L data → Ok n fsxp A K L ams →
      Sets fsxp m₀ i ⟨data, attr⟩ L.disk.cur → Ok n fsxp A K L' ams' → WroteBlock fsxp i doLog L L' →
      Sets fsxp m₀ i ⟨putPiece initLen data p, attr⟩ L'.disk.cur → J L' (putPiece initLen data p))
    {data : List Valu} {L : LogSt} {ams : MemState} {c : ℕ} (hlen : data.length = nb)
    (hj : J L data) (h : Ok n fsxp A K L ams)
    (hf : Sets fsxp m₀ i ⟨data, attr⟩ L.disk.cur) {Q : WriteState → FsState → Prop}
    (hQ : ∀ ams' L', Ok n fsxp A K L' ams' → J L' (l.foldl (putPiece initLen) data) →
      Sets fsxp m₀ i ⟨l.foldl (putPiece initLen) data, attr⟩ L'.disk.cur →
      Q (.writeOK (c + piecesLength l)) (ams', L')) :
    FuseProg.wp fsxp (forEach (writePiece doLog i initLen) l (.writeOK c)) Q C (ams, L) := by
  induction l generalizing data L ams c with
  | nil => exact wp_pure (hQ ams L h hj hf)
  | cons p l ih =>
    have hb : p.1.blk.toNat < data.length := by
      rw [hlen]
      exact hblk p List.mem_cons_self
    apply wp_bind
    apply wp_writePiece h hx hf.self hlog (hJC L data hj) hb
    intro ams' L' h' hw hf'
    replace hf' := hf.trans hf'
    have hj' := hJ L ams L' ams' data p List.mem_cons_self hlen hj h hf h' hw hf'
    refine ih ?_ ?_ ((length_putPiece initLen data p).trans hlen) hj' h' hf' ?_
    · exact fun q hq => hblk q (List.mem_cons_of_mem p hq)
    · exact fun L ams L' ams' data q hq => hJ L ams L' ams' data q (List.mem_cons_of_mem p hq)
    · intro ams₂ L₂ h₂ hj₂ hf₂
      have hlen' : c + p.1.count.toNat + piecesLength l = c + piecesLength (p :: l) := by
        rw [piecesLength, piecesLength, List.map_cons, List.sum_cons, Nat.add_assoc]
      rw [hlen']
      exact hQ ams₂ L₂ h₂ hj₂ hf₂

end

/-- The pieces of a write are in the blocks up to its end. -/
theorem blk_lt_of_mem {off : ℕ} {buf : ByteString} {p : BlockRange × ByteString}
    (hp : p ∈ computeRangePieces off buf) : p.1.blk.toNat < (off + buf.length + 4095) / 4096 := by
  rw [computeRangePieces] at hp
  have hr := (List.of_mem_zip hp).1
  rw [computeRangesInt_eq, List.mem_map] at hr
  obtain ⟨b, hb, heq⟩ := hr
  rw [List.mem_range'_1] at hb
  rw [← heq, rangeAt, Int.toNat_natCast]
  omega

section

variable {n : ℕ} {fsxp : FsXparams} {A : Finset ℕ} {K : ℕ → Bool} {L : LogSt} {ams : MemState}
  {i offset : ℕ} {f : BFILE.BFile} {bs : ByteString} {C : LogSt → Prop}
  {J : LogSt → List Valu → Prop}

/-- One more transaction, or none. -/
def MayLog (logged : Bool) (L L' : LogSt) : Prop :=
  if logged then ∃ t, Flushed (L.push t) L' else L' = L

variable [Platform] (h : Ok n fsxp A K L ams) (hx : fsxp.Ok n) (hlog : 0 < fsxp.log.logLen)
  (hf : files fsxp L.disk.cur i = some f) (hsz : size f ≤ 4096 * f.data.length)

include h hx hlog hf hsz

theorem wp_fscqWrite (hC : C L) (hJC : ∀ L data, J L data → C L)
    (hstart : ∀ ams' L', Ok n fsxp A K L' ams' → MayLog (size f < offset + bs.length) L L' →
      Sets fsxp L.disk.cur i ⟨roomFor f (offset + bs.length), f.attr⟩ L'.disk.cur →
      J L' (roomFor f (offset + bs.length)))
    (hJ : ∀ L₁ ams₁ L' ams' data, ∀ p ∈ computeRangePieces offset bs, J L₁ data →
      Ok n fsxp A K L₁ ams₁ → Sets fsxp L.disk.cur i ⟨data, f.attr⟩ L₁.disk.cur →
      Ok n fsxp A K L' ams' → WroteBlock fsxp i (size f < offset + bs.length) L₁ L' →
      Sets fsxp L.disk.cur i ⟨putPiece (size f) data p, f.attr⟩ L'.disk.cur →
      J L' (putPiece (size f) data p))
    {Q : Except Posix ℕ → FsState → Prop}
    (hfail : ∀ e ams' L', Flushed L L' → Ok n fsxp A K L' ams' → (9 ≤ fsxp.log.logLen →
      (offset + bs.length + 4095) / 4096 = f.data.length + 1 →
        ¬ BFILE.CanGrow fsxp L.disk.cur ams i) → Q (.error e) (ams', L'))
    (hQ : ∀ L₁ ams' L', offset + bs.length < 2 ^ 64 → J L₁ (written f bs offset).data →
      MayLog (size f < offset + bs.length) L₁ L' → Ok n fsxp A K L' ams' →
      Sets fsxp L.disk.cur i (written f bs offset) L'.disk.cur →
      Q (.ok (piecesLength (computeRangePieces offset bs))) (ams', L')) :
    FuseProg.wp fsxp (fscqWrite i bs offset) Q C (ams, L) := by
  apply wp_bind
  apply wp_fileGetSz h hx hC hf
  intro c he₁
  have h₁ := he₁.ok h
  dsimp only
  have hblk : ∀ p ∈ computeRangePieces offset bs,
      p.1.blk.toNat < (roomFor f (offset + bs.length)).length := by
    intro p hp
    have hlt := blk_lt_of_mem hp
    rw [roomFor]
    split_ifs with hgrow
    · rwa [length_resized]
    · omega
  have hsize : size f = (INODE.aBytes f.attr).toNat := rfl
  by_cases hlt : size f < offset + bs.length
  · have hroom : roomFor f (offset + bs.length) =
        BFILE.resized f.data ((offset + bs.length + 4095) / 4096) := if_pos hlt
    rw [decide_eq_true hlt] at hstart hJ hQ
    rw [← hsize]
    simp only [if_pos hlt]
    apply wp_bind
    apply wp_fileTruncate h₁ hx hC hf
    · exact fun e L' hL' hlack _ => wp_bind (wp_pure (wp_pure
        (hfail _ _ _ hL' ((h₁.refl hL').ok h₁) hlack)))
    · intro ams₂ L₂ hl₂ hf₂
      have h₂ := hl₂.effect.ok h₁
      have hend : offset + bs.length < 2 ^ 64 := by
        have hnb := length_le_of_files h₂ hf₂.self
        have hlt := nBlocks_bytes_lt
        rw [length_resized] at hnb
        omega
      rw [← hroom] at hf₂
      apply wp_bind
      apply wp_pure
      apply wp_bind
      apply wp_writePieces hx hlog hJC (computeRangePieces offset bs) hblk _ rfl
        (hstart ams₂ L₂ h₂ hl₂.log hf₂) h₂ hf₂
      · intro ams₃ L₃ h₃ hj₃ hf₃
        apply wp_bind
        apply wp_fileSetSz h₃ hx (hJC _ _ hj₃) hf₃.self hlog
        intro ams₄ L₄ hl₄ hf₄
        have hw : written f bs offset = ⟨(computeRangePieces offset bs).foldl (putPiece (size f))
            (roomFor f (offset + bs.length)),
            INODE.iattrUpd f.attr (.uBytes (BitVec.ofNat 64 (offset + bs.length)))⟩ := by
          rw [written, if_pos hlt]
        rw [← hw] at hf₄
        rw [Nat.zero_add]
        exact wp_pure (hQ L₃ ams₄ L₄ hend hj₃ hl₄.log (hl₄.effect.ok h₃) (hf₃.trans hf₄))
      · intro L₁ ams₁ L' ams' data p hp _ hj h hf h' hw hf'
        exact hJ L₁ ams₁ L' ams' data p hp hj h hf h' hw hf'
  · have hroom : roomFor f (offset + bs.length) = f.data := if_neg hlt
    rw [decide_eq_false hlt] at hstart hJ hQ
    rw [← hsize]
    simp only [if_neg hlt]
    apply wp_bind
    apply wp_pure
    have hf₁ : Sets fsxp L.disk.cur i ⟨roomFor f (offset + bs.length), f.attr⟩ L.disk.cur := by
      rw [hroom]
      exact .refl hf
    apply wp_bind
    apply wp_writePieces hx hlog hJC (computeRangePieces offset bs) hblk _ rfl
      (hstart _ L h₁ rfl hf₁) h₁ hf₁
    · intro ams₃ L₃ h₃ hj₃ hf₃
      have hw : written f bs offset = ⟨(computeRangePieces offset bs).foldl (putPiece (size f))
          (roomFor f (offset + bs.length)), f.attr⟩ := by
        rw [written, if_neg hlt]
      rw [← hw] at hf₃
      rw [Nat.zero_add]
      have hend : offset + bs.length < 2 ^ 64 := (Nat.not_lt.1 hlt).trans_lt (BitVec.isLt _)
      exact wp_bind (wp_pure (wp_pure (hQ L₃ ams₃ L₃ hend hj₃ rfl h₃ hf₃)))
    · intro L₁ ams₁ L' ams' data p hp _ hj h hf h' hw hf'
      exact hJ L₁ ams₁ L' ams' data p hp hj h hf h' hw hf'

end

end Fuse

end Fscq
