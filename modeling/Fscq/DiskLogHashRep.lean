import Fscq.DiskLogHash

/-!
# Crash safety of the disk log

`Synced xp m hm l` says that the disk `m` holds the log `l`, with nothing pending.  `Recoverable xp
m hm S` is the condition that holds at every crash: whichever header a crash leaves, it is either
the header of one of the logs in `S`, or the header of an extension whose blocks may be missing
while the log before the extension is intact.  Recovery turns it into `Synced` for a log in `S`.
-/

namespace Fscq

open CrashProg

namespace PaddedLog

/-- How the log lies on a disk of `n` blocks. -/
structure Layout (n : ℕ) (xp : LogXparams) : Prop where
  start_le : xp.dataStart ≤ xp.logHeader
  header_lt : xp.logHeader < xp.logDescriptor
  desc_le : xp.logDescriptor + xp.logDescLen ≤ xp.logData
  data_le : xp.logData + xp.logLen ≤ n
  logLen_eq : xp.logLen = xp.logDescLen * descSig.itemsPerVal
  size_lt : n < 2 ^ addrlen

/-- The addresses in a list of descriptor blocks. -/
def addrs (db : List Valu) : List ℕ := (descSig.items db).map wordToNat

/-- Descriptor blocks `db` and data blocks `vb` that hold the log `l`. -/
structure Decodes (db vb : List Valu) (l : Contents) : Prop where
  count : nonzeroAddrs (addrs db) = vb.length
  eq : combineNonzero (addrs db) vb = l

theorem nonzeroAddrs_append (al al' : List ℕ) :
    nonzeroAddrs (al ++ al') = nonzeroAddrs al + nonzeroAddrs al' := by
  induction al with
  | nil => simp [nonzeroAddrs]
  | cons a al ih =>
    cases a with
    | zero => simpa [nonzeroAddrs] using ih
    | succ a =>
      simp only [List.cons_append, nonzeroAddrs, ih]
      omega

theorem nonzeroAddrs_le (al : List ℕ) : nonzeroAddrs al ≤ al.length := by
  induction al with
  | nil => simp [nonzeroAddrs]
  | cons a al ih =>
    cases a with
    | zero =>
      simp only [nonzeroAddrs, List.length_cons]
      omega
    | succ a =>
      simp only [nonzeroAddrs, List.length_cons]
      omega

theorem combineNonzero_nil (al : List ℕ) : combineNonzero al [] = [] := by
  cases al <;> simp [combineNonzero]

theorem combineNonzero_zero_cons (al : List ℕ) (vl : List Valu) :
    combineNonzero (0 :: al) vl = combineNonzero al vl := by
  cases vl with
  | nil => simp [combineNonzero_nil]
  | cons v vl => simp [combineNonzero]

theorem combineNonzero_append {al al' : List ℕ} {vl vl' : List Valu}
    (h : nonzeroAddrs al = vl.length) :
    combineNonzero (al ++ al') (vl ++ vl') = combineNonzero al vl ++ combineNonzero al' vl' := by
  induction al generalizing vl with
  | nil =>
    obtain rfl : vl = [] := List.eq_nil_of_length_eq_zero h.symm
    simp [combineNonzero]
  | cons a al ih =>
    cases a with
    | zero =>
      rw [List.cons_append, combineNonzero_zero_cons, combineNonzero_zero_cons]
      exact ih h
    | succ a =>
      cases vl with
      | nil => simp [nonzeroAddrs] at h
      | cons v vl =>
        have h' : nonzeroAddrs al = vl.length := by simpa [nonzeroAddrs] using h
        simp [combineNonzero, ih h']

theorem addrs_append (db db' : List Valu) : addrs (db ++ db') = addrs db ++ addrs db' := by
  rw [addrs, RASig.items_append, List.map_append, addrs, addrs]

theorem Decodes.append {db db' vb vb' : List Valu} {l l' : Contents} (h : Decodes db vb l)
    (h' : Decodes db' vb' l') : Decodes (db ++ db') (vb ++ vb') (l ++ l') where
  count := by
    rw [addrs_append, nonzeroAddrs_append, List.length_append, h.count, h'.count]
  eq := by
    rw [addrs_append, combineNonzero_append h.count, h.eq, h'.eq]

theorem decodes_nil : Decodes [] [] [] := ⟨rfl, rfl⟩

/-! ### The blocks of new entries -/

theorem nonzeroAddrs_replicate (k : ℕ) : nonzeroAddrs (List.replicate k 0) = 0 := by
  induction k with
  | zero => rfl
  | succ k ih => simpa [List.replicate_succ, nonzeroAddrs] using ih

theorem combineNonzero_replicate (k : ℕ) (vl : List Valu) :
    combineNonzero (List.replicate k 0) vl = [] := by
  induction k with
  | zero => simp [combineNonzero]
  | succ k ih => rw [List.replicate_succ, combineNonzero_zero_cons, ih]

section Entries

variable {new : Contents}

theorem nonzeroAddrs_entries (h : ∀ e ∈ new, EntryValid e) :
    nonzeroAddrs (new.map Prod.fst) = new.length := by
  induction new with
  | nil => rfl
  | cons e new ih =>
    obtain ⟨a, v⟩ := e
    obtain ⟨a, rfl⟩ : ∃ b, a = b + 1 := ⟨a - 1, by have := (h _ List.mem_cons_self).1; omega⟩
    simpa [nonzeroAddrs] using ih fun e he => h e (List.mem_cons_of_mem _ he)

theorem logNonzero_entries (h : ∀ e ∈ new, EntryValid e) : logNonzero new = new := by
  induction new with
  | nil => rfl
  | cons e new ih =>
    obtain ⟨a, v⟩ := e
    obtain ⟨a, rfl⟩ : ∃ b, a = b + 1 := ⟨a - 1, by have := (h _ List.mem_cons_self).1; omega⟩
    simpa [logNonzero] using ih fun e he => h e (List.mem_cons_of_mem _ he)

theorem combineNonzero_entries (h : ∀ e ∈ new, EntryValid e) :
    combineNonzero (new.map Prod.fst) (new.map entValu) = new := by
  induction new with
  | nil => rfl
  | cons e new ih =>
    obtain ⟨a, v⟩ := e
    obtain ⟨a, rfl⟩ : ∃ b, a = b + 1 := ⟨a - 1, by have := (h _ List.mem_cons_self).1; omega⟩
    simpa [combineNonzero, entValu] using ih fun e he => h e (List.mem_cons_of_mem _ he)

theorem addrs_nopadIpack (h : ∀ e ∈ new, EntryValid e) :
    addrs (descSig.nopadIpack (new.map entAddr)) = new.map Prod.fst ++
      List.replicate (ndescLog new * descSig.itemsPerVal - new.length) 0 := by
  have hw : ∀ x ∈ new.map entAddr, Rec.WellFormed descSig.itemtype x := fun x _ => by
    simp only [descSig, Rec.WellFormed]
  have hi := descSig.items_nopadIpack hw
  have hl : (new.map entAddr).length = new.length := List.length_map _
  rw [hl] at hi
  rw [addrs, hi, List.map_append, List.map_replicate, ndescLog]
  congr 1
  rw [List.map_map]
  exact List.map_congr_left fun e he => toNat_addr2w (h e he).2

theorem decodes_entries (h : ∀ e ∈ new, EntryValid e) :
    Decodes (descSig.nopadIpack (new.map entAddr)) (new.map entValu) new where
  count := by
    rw [addrs_nopadIpack h, nonzeroAddrs_append, nonzeroAddrs_entries h, nonzeroAddrs_replicate,
      List.length_map, Nat.add_zero]
  eq := by
    have hc : nonzeroAddrs (new.map Prod.fst) = (new.map entValu).length := by
      rw [nonzeroAddrs_entries h, List.length_map]
    rw [addrs_nopadIpack h, ← List.append_nil (new.map entValu), combineNonzero_append hc,
      combineNonzero_entries h, combineNonzero_replicate, List.append_nil]

end Entries

/-! ## The log on the abstract disk -/

def descBlocks (xp : LogXparams) (f : ℕ → Valu) (k : ℕ) : List Valu :=
  blocksAt f xp.logDescriptor k

def dataBlocks (xp : LogXparams) (f : ℕ → Valu) (k : ℕ) : List Valu := blocksAt f xp.logData k

/-- The blocks of a log with `len.1` descriptor blocks and `len.2` data blocks. -/
def LogArea (xp : LogXparams) (len : ℕ × ℕ) (a : ℕ) : Prop :=
  xp.logDescriptor ≤ a ∧ a < xp.logDescriptor + len.1 ∨ xp.logData ≤ a ∧ a < xp.logData + len.2

/-- The disk changes nothing in the intact part of the log. -/
def Keeps (xp : LogXparams) (m m' : ADisk) (len : ℕ × ℕ) : Prop :=
  ∀ a, LogArea xp len a → m.SyncedAt a → m'.cur a = m.cur a ∧ m'.SyncedAt a

theorem Keeps.refl (xp : LogXparams) (m : ADisk) (len : ℕ × ℕ) : Keeps xp m m len :=
  fun _ _ hs => ⟨rfl, hs⟩

section

variable {n : ℕ} {xp : LogXparams} {m m' : ADisk} {len : ℕ × ℕ}

/-- Writes to the blocks behind the log. -/
theorem keeps_writes {avs : List (ℕ × Valu)} (hav : ∀ av ∈ avs, ¬ LogArea xp len av.1) :
    Keeps xp m (m.writes avs) len := by
  intro a ha hs
  have hsame : m.SameAt (m.writes avs) a := ADisk.sameAt_writes fun av h e => hav av h (e ▸ ha)
  exact ⟨hsame.1, hsame.syncedAt hs⟩

/-- The blocks outside the log are unchanged. -/
def Frame (xp : LogXparams) (m m' : ADisk) : Prop := ∀ a < xp.logHeader, m.SameAt m' a

theorem Frame.refl (xp : LogXparams) (m : ADisk) : Frame xp m m := fun a _ => .refl m a

theorem Frame.trans {m'' : ADisk} (h : Frame xp m m') (h' : Frame xp m' m'') : Frame xp m m'' :=
  fun a ha => (h a ha).trans (h' a ha)

theorem Layout.header_lt_size (hl : Layout n xp) : xp.logHeader < n := by
  have := hl.header_lt
  have := hl.desc_le
  have := hl.data_le
  omega

/-- The room that the header on disk leaves. -/
def navail (xp : LogXparams) (m : ADisk) : ℕ :=
  xp.logLen -
    (Hdr.ofHeader (Hdr.val2hdr (m.cur xp.logHeader))).currentLength.1 * descSig.itemsPerVal

/-- The header on disk. -/
def hdrOf (xp : LogXparams) (m : ADisk) : Hdr := Hdr.ofHeader (Hdr.val2hdr (m.cur xp.logHeader))

/-- The descriptor blocks of the log, as its header delimits them. -/
def curDesc (xp : LogXparams) (m : ADisk) : List Valu :=
  descBlocks xp m.cur (hdrOf xp m).currentLength.1

/-- The data blocks of the log, as its header delimits them. -/
def curData (xp : LogXparams) (m : ADisk) : List Valu :=
  dataBlocks xp m.cur (hdrOf xp m).currentLength.2

/-- The new entries fit behind the log of the disk `m`. -/
def Fits (xp : LogXparams) (m : ADisk) (new : Contents) : Prop :=
  LoglenValid xp ((hdrOf xp m).currentLength.1 + ndescLog new)
    ((hdrOf xp m).currentLength.2 + ndataLog new)

/-- The blocks of the new entries are behind those of the log of the disk `m`. -/
structure Extends (xp : LogXparams) (m m' : ADisk) (new : Contents) : Prop where
  fits : Fits xp m new
  desc : curDesc xp m' = curDesc xp m ++ descSig.nopadIpack (new.map entAddr)
  data : curData xp m' = curData xp m ++ valsNonzero new

theorem hdrOf_encode {hd : Hdr} (hg : hd.Good) (hv : m.cur xp.logHeader = hd.encode) :
    hdrOf xp m = hd := by
  rw [hdrOf, hv, Hdr.ofHeader_encode hg]

theorem navail_eq (xp : LogXparams) (m : ADisk) :
    navail xp m = xp.logLen - (hdrOf xp m).currentLength.1 * descSig.itemsPerVal := rfl

end

/-! ### Writing the header -/

section Header

variable {n : ℕ} {xp : LogXparams} {m : ADisk}

theorem keeps_write_header (hl : Layout n xp) (v : Valu) (len : ℕ × ℕ) :
    Keeps xp m (m.write xp.logHeader v) len := by
  intro a ha hs
  have hne : a ≠ xp.logHeader := by
    have h₁ := hl.header_lt
    have h₂ := hl.desc_le
    unfold LogArea at ha
    omega
  exact ⟨(ADisk.sameAt_write hne).1, (ADisk.sameAt_write hne).syncedAt hs⟩

theorem frame_write_header (v : Valu) : Frame xp m (m.write xp.logHeader v) :=
  fun a ha => ADisk.sameAt_write (by omega)

theorem frame_sync_header : Frame xp m (m.sync {xp.logHeader}) :=
  fun a ha => ADisk.sameAt_sync (by simp; omega)

theorem keeps_sync (S : Set ℕ) (len : ℕ × ℕ) : Keeps xp m (m.sync S) len :=
  fun _ _ hs => ⟨rfl, hs.sync⟩

end Header

/-! ### The disk after an extension -/

/-- The disk after the new blocks `db` and `vb` and the header have been written. -/
def extended (xp : LogXparams) (m : ADisk) (len : ℕ × ℕ) (db vb : List Valu) (h : Hdr) : ADisk :=
  ((m.writes (ADisk.rangeWrites (xp.logDescriptor + len.1) db)).writes
    (ADisk.rangeWrites (xp.logData + len.2) vb)).write xp.logHeader h.encode

/-- The blocks that an extension syncs. -/
def extendedArea (xp : LogXparams) (len : ℕ × ℕ) (k : ℕ × ℕ) : Set ℕ :=
  {a | a = xp.logHeader ∨ (xp.logDescriptor + len.1 ≤ a ∧ a < xp.logDescriptor + len.1 + k.1) ∨
    (xp.logData + len.2 ≤ a ∧ a < xp.logData + len.2 + k.2)}

section Extended

variable {n : ℕ} {xp : LogXparams} {m : ADisk} {len : ℕ × ℕ} {db vb : List Valu} {hd : Hdr}

/-- The new blocks lie behind the log. -/
theorem behind_of_mem_range (len : ℕ × ℕ) (hl : Layout n xp)
    (hd' : len.1 + db.length ≤ xp.logDescLen) {av : ℕ × Valu}
    (h : av ∈ ADisk.rangeWrites (xp.logDescriptor + len.1) db ++
      ADisk.rangeWrites (xp.logData + len.2) vb) :
    xp.logHeader < av.1 ∧ ¬ LogArea xp len av.1 := by
  have h₁ := hl.header_lt
  have h₂ := hl.desc_le
  unfold LogArea
  rcases List.mem_append.1 h with h | h
  · have := ADisk.rangeWrites_bound h
    omega
  · have := ADisk.rangeWrites_bound h
    omega

theorem extended_sameAt {a : ℕ} (hh : a ≠ xp.logHeader)
    (hd' : a < xp.logDescriptor + len.1 ∨ xp.logDescriptor + len.1 + db.length ≤ a)
    (hv' : a < xp.logData + len.2 ∨ xp.logData + len.2 + vb.length ≤ a) :
    m.SameAt (extended xp m len db vb hd) a :=
  ((ADisk.sameAt_writes_range hd').trans (ADisk.sameAt_writes_range hv')).trans
    (ADisk.sameAt_write hh)

theorem extended_frame (hl : Layout n xp) : Frame xp m (extended xp m len db vb hd) := by
  intro a ha
  have h₁ := hl.header_lt
  have h₂ := hl.desc_le
  exact extended_sameAt (by omega) (by omega) (by omega)

/-- The descriptor and data blocks of the extended disk. -/
theorem extended_blocks (hl : Layout n xp) (hd' : len.1 + db.length ≤ xp.logDescLen) :
    descBlocks xp (extended xp m len db vb hd).cur (len.1 + db.length) =
        descBlocks xp m.cur len.1 ++ db ∧
      dataBlocks xp (extended xp m len db vb hd).cur (len.2 + vb.length) =
        dataBlocks xp m.cur len.2 ++ vb := by
  have h₁ := hl.header_lt
  have h₂ := hl.desc_le
  constructor
  · rw [descBlocks, blocksAt_add]
    congr 1
    · exact blocksAt_congr fun a ha ha' =>
        (extended_sameAt (by omega) (by omega) (by omega)).1
    · refine (blocksAt_congr fun a ha ha' => ?_).trans (ADisk.blocksAt_writes_range m _ db)
      exact ((ADisk.sameAt_writes_range (by omega)).trans (ADisk.sameAt_write (by omega))).1
  · rw [dataBlocks, blocksAt_add]
    congr 1
    · exact blocksAt_congr fun a ha ha' =>
        (extended_sameAt (by omega) (by omega) (by omega)).1
    · refine (blocksAt_congr fun a ha ha' => ?_).trans (ADisk.blocksAt_writes_range
        (m.writes (ADisk.rangeWrites (xp.logDescriptor + len.1) db)) _ vb)
      exact (ADisk.sameAt_write (by omega)).1

end Extended

variable [Platform]

/-- The first blocks of the log area hold the log `l` with the checksums `chk`, and are synced. -/
structure Holds (xp : LogXparams) (m : ADisk) (hm : Hashmap) (len : ℕ × ℕ)
    (chk : BitVec hashlen × BitVec hashlen) (l : Contents) : Prop where
  desc_le : len.1 ≤ xp.logDescLen
  data_le : len.2 ≤ xp.logLen
  synced : ∀ a, LogArea xp len a → m.SyncedAt a
  decodes : Decodes (descBlocks xp m.cur len.1) (dataBlocks xp m.cur len.2) l
  chk_desc : HashListRep (descBlocks xp m.cur len.1).reverse chk.1 hm
  chk_data : HashListRep (dataBlocks xp m.cur len.2).reverse chk.2 hm

/-- `v` is the header of the log `l`. -/
def HdrOk (xp : LogXparams) (m : ADisk) (hm : Hashmap) (v : Valu) (l : Contents) : Prop :=
  ∃ h : Hdr, h.Good ∧ v = h.encode ∧ Holds xp m hm h.currentLength h.checksum l

/-- `v` is the header of an extension of the log `old` to `l`; the blocks of `l` need not be on
disk, but its checksums are in the header. -/
def HdrTorn (xp : LogXparams) (m : ADisk) (hm : Hashmap) (v : Valu) (old l : Contents) : Prop :=
  ∃ (h : Hdr) (db vb : List Valu), h.Good ∧ v = h.encode ∧
    (∃ chk, Holds xp m hm h.previousLength chk old) ∧
    db.length = h.currentLength.1 ∧ vb.length = h.currentLength.2 ∧
    h.currentLength.1 ≤ xp.logDescLen ∧ h.currentLength.2 ≤ xp.logLen ∧ Decodes db vb l ∧
    HashListRep db.reverse h.checksum.1 hm ∧ HashListRep vb.reverse h.checksum.2 hm

/-- The disk holds the log `l`. -/
def Synced (xp : LogXparams) (m : ADisk) (hm : Hashmap) (l : Contents) : Prop :=
  m.SyncedAt xp.logHeader ∧ HdrOk xp m hm (m.cur xp.logHeader) l

/-- Every header that a crash may leave leads to one of the logs in `S`. -/
def Recoverable (xp : LogXparams) (m : ADisk) (hm : Hashmap) (S : Set Contents) : Prop :=
  ∀ v ∈ m.poss xp.logHeader, (∃ l ∈ S, HdrOk xp m hm v l) ∨
    ∃ old ∈ S, ∃ l ∈ S, HdrTorn xp m hm v old l

section Rep

variable {n : ℕ} {xp : LogXparams} {m m' : ADisk} {hm hm' : Hashmap} {len : ℕ × ℕ}
  {chk : BitVec hashlen × BitVec hashlen} {l old : Contents} {v : Valu} {S T : Set Contents}

/-- A log depends on its own blocks only. -/
theorem Holds.of_agree (h : Holds xp m hm len chk l) (hle : hm.Le hm')
    (ha : ∀ a, LogArea xp len a → m'.cur a = m.cur a ∧ m'.SyncedAt a) :
    Holds xp m' hm' len chk l := by
  have hd : descBlocks xp m'.cur len.1 = descBlocks xp m.cur len.1 :=
    blocksAt_congr fun b h₁ h₂ => (ha b (.inl ⟨h₁, h₂⟩)).1
  have hv : dataBlocks xp m'.cur len.2 = dataBlocks xp m.cur len.2 :=
    blocksAt_congr fun b h₁ h₂ => (ha b (.inr ⟨h₁, h₂⟩)).1
  refine ⟨h.desc_le, h.data_le, fun a h' => (ha a h').2, ?_, ?_, ?_⟩
  · rw [hd, hv]
    exact h.decodes
  · rw [hd]
    exact h.chk_desc.mono hle
  · rw [hv]
    exact h.chk_data.mono hle

theorem Holds.keeps (h : Holds xp m hm len chk l) (hle : hm.Le hm') (hk : Keeps xp m m' len) :
    Holds xp m' hm' len chk l :=
  h.of_agree hle fun a ha => hk a ha (h.synced a ha)

theorem HdrOk.keeps (h : HdrOk xp m hm v l) (hle : hm.Le hm') (hk : ∀ len, Keeps xp m m' len) :
    HdrOk xp m' hm' v l := by
  obtain ⟨hd, hg, hv, hh⟩ := h
  exact ⟨hd, hg, hv, hh.keeps hle (hk _)⟩

theorem HdrTorn.keeps (h : HdrTorn xp m hm v old l) (hle : hm.Le hm')
    (hk : ∀ len, Keeps xp m m' len) : HdrTorn xp m' hm' v old l := by
  obtain ⟨hd, db, vb, hg, hv, ⟨chk, hh⟩, h₁, h₂, h₃, h₄, h₅, h₆, h₇⟩ := h
  exact ⟨hd, db, vb, hg, hv, ⟨chk, hh.keeps hle (hk _)⟩, h₁, h₂, h₃, h₄, h₅, h₆.mono hle,
    h₇.mono hle⟩

theorem Recoverable.keeps (h : Recoverable xp m hm S) (hle : hm.Le hm')
    (hk : ∀ len, Keeps xp m m' len) (hp : m'.poss xp.logHeader ⊆ m.poss xp.logHeader) :
    Recoverable xp m' hm' S := by
  intro v hv
  rcases h v (hp hv) with ⟨l, hl, h'⟩ | ⟨old, ho, l, hl, h'⟩
  · exact .inl ⟨l, hl, h'.keeps hle hk⟩
  · exact .inr ⟨old, ho, l, hl, h'.keeps hle hk⟩

theorem Recoverable.mono (h : Recoverable xp m hm S) (hST : S ⊆ T) : Recoverable xp m hm T := by
  intro v hv
  rcases h v hv with ⟨l, hl, h'⟩ | ⟨old, ho, l, hl, h'⟩
  · exact .inl ⟨l, hST hl, h'⟩
  · exact .inr ⟨old, hST ho, l, hST hl, h'⟩

theorem Synced.recoverable (h : Synced xp m hm l) (hl : l ∈ S) : Recoverable xp m hm S := by
  intro v hv
  obtain rfl := h.1 v hv
  exact .inl ⟨l, hl, h.2⟩

theorem Synced.keeps (h : Synced xp m hm l) (hle : hm.Le hm') (hk : ∀ len, Keeps xp m m' len)
    (hh : m'.cur xp.logHeader = m.cur xp.logHeader) (hs : m'.SyncedAt xp.logHeader) :
    Synced xp m' hm' l := by
  refine ⟨hs, ?_⟩
  rw [hh]
  exact h.2.keeps hle hk

theorem Synced.mono (h : Synced xp m hm l) (hle : hm.Le hm') : Synced xp m hm' l :=
  h.keeps hle (Keeps.refl xp m) rfl h.1

/-- A crash leaves what was synced. -/
theorem Holds.crash {f : ℕ → Valu} (h : Holds xp m hm len chk l) (hl : Layout n xp)
    (hf : m.CrashesTo n f) : Holds xp (ADisk.synced f) hm len chk l := by
  refine h.of_agree (.refl hm) fun a ha => ⟨?_, ADisk.syncedAt_synced f a⟩
  refine (h.synced a ha).eq_of_crashesTo hf ?_
  have h₁ := h.desc_le
  have h₂ := h.data_le
  have h₃ := hl.desc_le
  have h₄ := hl.data_le
  rcases ha with ⟨-, ha⟩ | ⟨-, ha⟩ <;> omega

theorem Synced.crash {f : ℕ → Valu} (h : Synced xp m hm l) (hl : Layout n xp)
    (hf : m.CrashesTo n f) : Synced xp (ADisk.synced f) hm l := by
  obtain ⟨hs, hd, hg, hv, hh⟩ := h
  refine ⟨ADisk.syncedAt_synced f _, hd, hg, ?_, hh.crash hl hf⟩
  rw [← hv]
  exact hs.eq_of_crashesTo hf hl.header_lt_size

/-- Whatever a crash leaves is recoverable again. -/
theorem Recoverable.crash {f : ℕ → Valu} (h : Recoverable xp m hm S) (hl : Layout n xp)
    (hf : m.CrashesTo n f) : Recoverable xp (ADisk.synced f) hm S := by
  intro v hv
  obtain rfl : v = f xp.logHeader := hv
  rcases h _ (hf _ hl.header_lt_size) with ⟨l, hlS, hd, hg, hv, h'⟩ |
    ⟨old, ho, l, hlS, hd, db, vb, hg, hv, ⟨chk, h'⟩, hr⟩
  · exact .inl ⟨l, hlS, hd, hg, hv, h'.crash hl hf⟩
  · exact .inr ⟨old, ho, l, hlS, hd, db, vb, hg, hv, ⟨chk, h'.crash hl hf⟩, hr⟩

/-- A single possible header. -/
theorem Holds.recoverable {h : Hdr} (hh : Holds xp m hm h.currentLength h.checksum l)
    (hg : h.Good) (hp : ∀ v ∈ m.poss xp.logHeader, v = h.encode) (hl : l ∈ S) :
    Recoverable xp m hm S :=
  fun v hv => .inl ⟨l, hl, h, hg, hp v hv, hh⟩

end Rep

end PaddedLog

end Fscq
