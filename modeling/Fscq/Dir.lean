import Fscq.FileRecArray

/-!
# Directories

A directory is a file that holds an array of entries.  An entry that is not valid is a free slot.
Names are words here, see `Fscq.DirName` for names as strings.
-/

namespace Fscq

open CrashProg

namespace DIR

def filenameLen : ℕ := 1024 - addrlen - addrlen

abbrev Filename := BitVec filenameLen

/-! ### Entries -/

def denttype : Rec.Ty := .recF
  [("name", .wordF filenameLen), ("inum", .wordF addrlen), ("valid", .wordF 1),
    ("isdir", .wordF 1), ("unused", .wordF (addrlen - 2))]

/-- The array of entries. -/
def dentSig : FileRASig where
  itemtype := denttype
  itemsPerVal := valulen / denttype.len
  blocksz_ok := by rw [valulen_is]; rfl

abbrev Dent : Type := denttype.data

def dent0 : Dent := Rec.ofWord denttype 0

def bit2bool (bit : BitVec 1) : Bool := if bit = 0 then false else true

def bool2bit (b : Bool) : BitVec 1 := if b then 1 else 0

def deName : Dent → Filename
  | ((name : Filename), _) => name

def deInum : Dent → ℕ
  | (_, (inum : Waddr), _) => inum.toNat

def deValid : Dent → BitVec 1
  | (_, _, (valid : BitVec 1), _) => valid

def deIsDir : Dent → BitVec 1
  | (_, _, _, (isdir : BitVec 1), _) => isdir

def mkDent (name : Filename) (inum : ℕ) (isdir : Bool) : Dent :=
  (name, addr2w inum, (1 : BitVec 1), bool2bit isdir, dent0.2.2.2.2)

def isDir (de : Dent) : Bool := bit2bool (deIsDir de)

def isValid (de : Dent) : Bool := bit2bool (deValid de)

def nameIs (name : Filename) (de : Dent) : Bool := if name = deName de then true else false

/-- An entry as it is read from the directory. -/
abbrev Readent := Filename × ℕ × Bool

def readent (de : Dent) : Readent := (deName de, deInum de, isDir de)

theorem bit2bool_bool2bit (b : Bool) : bit2bool (bool2bit b) = b := by
  cases b <;> rfl

theorem isValid_dent0 : isValid dent0 = false := by
  have h : deValid dent0 = 0 := by
    change deValid (Rec.ofWord (.recF _) 0) = 0
    rw [Rec.ofWord_recF_zero, Rec.ofWord_recF_zero, Rec.ofWord_recF_zero]
    rfl
  rw [isValid, h]
  rfl

theorem isValid_mkDent (name : Filename) (inum : ℕ) (isdir : Bool) :
    isValid (mkDent name inum isdir) = true := rfl

theorem readent_mkDent {inum : ℕ} (h : inum < 2 ^ addrlen) (name : Filename) (isdir : Bool) :
    readent (mkDent name inum isdir) = (name, inum, isdir) := by
  have h₁ : deInum (mkDent name inum isdir) = inum := toNat_addr2w h
  have h₂ : isDir (mkDent name inum isdir) = isdir := bit2bool_bool2bit isdir
  rw [readent, h₁, h₂]
  rfl

theorem wellFormed_mkDent (name : Filename) (inum : ℕ) (isdir : Bool) :
    Rec.WellFormed denttype (mkDent name inum isdir) := by
  rw [mkDent]
  obtain ⟨u, e⟩ := dent0.2.2.2.2
  simp [denttype, Rec.WellFormed, Rec.WellFormedFields]

theorem nameIs_iff {name : Filename} {de : Dent} : nameIs name de = true ↔ deName de = name := by
  rw [nameIs]
  split_ifs with h
  · simp [h]
  · simp [Ne.symm h]

/-! ### The programs -/

section

variable (ixp : InodeXparams) (dnum : ℕ)

def lookupF (name : Filename) (de : Dent) (_ : ℕ) : Bool := isValid de && nameIs name de

def ifindLookupF (name : Filename) (ms : BFILE.MemState) :
    TxnProg (BFILE.MemState × Option (ℕ × Dent)) :=
  dentSig.ifind ixp dnum (lookupF name) ms

def ifindInvalid (ms : BFILE.MemState) : TxnProg (BFILE.MemState × Option (ℕ × Dent)) :=
  dentSig.ifind ixp dnum (fun de _ => !isValid de) ms

def lookup (name : Filename) (ms : BFILE.MemState) :
    TxnProg (BFILE.MemState × Option (ℕ × Bool)) := do
  let (ms, r) ← ifindLookupF ixp dnum name ms
  match r with
  | none => pure (ms, none)
  | some (_, de) => pure (ms, some (deInum de, isDir de))

def readdir (ms : BFILE.MemState) : TxnProg (BFILE.MemState × List Readent) := do
  let (ms, dents) ← dentSig.readall ixp dnum ms
  pure (ms, (dents.filter isValid).map readent)

/-- Remove an entry; also returns its index. -/
def unlink (name : Filename) (ms : BFILE.MemState) : TxnProg (BFILE.MemState × ℕ × Res Unit) := do
  let (ms, r) ← ifindLookupF ixp dnum name ms
  match r with
  | none => pure (ms, 0, .error .ENOENT)
  | some (ix, _) => do
    let ms ← dentSig.put ixp dnum ix dent0 ms
    pure (ms, ix, .ok ())

variable (bxps : BallocXparams × BallocXparams)

/-- Add an entry in the first free slot, or in a new block. -/
def link' (name : Filename) (inum : ℕ) (isdir : Bool) (ms : BFILE.MemState) :
    TxnProg (BFILE.MemState × ℕ × Res Unit) := do
  let (ms, r) ← ifindInvalid ixp dnum ms
  match r with
  | some (ix, _) => do
    let ms ← dentSig.put ixp dnum ix (mkDent name inum isdir) ms
    pure (ms, ix + 1, .ok ())
  | none => do
    let (ms, ok) ← dentSig.extend ixp dnum bxps (mkDent name inum isdir) ms
    pure (ms, 0, ok)

/-- Add an entry in the slot that the hint `ix0` names, if it is free. -/
def link (name : Filename) (inum : ℕ) (isdir : Bool) (ix0 : ℕ) (ms : BFILE.MemState) :
    TxnProg (BFILE.MemState × ℕ × Res Unit) := do
  let (ms, len) ← BFILE.getlen ixp dnum ms
  if ix0 < len * dentSig.itemsPerVal then do
    let (ms, res) ← dentSig.get ixp dnum ix0 ms
    if isValid res then link' ixp dnum bxps name inum isdir ms
    else do
      let ms ← dentSig.put ixp dnum ix0 (mkDent name inum isdir) ms
      pure (ms, ix0 + 1, .ok ())
  else link' ixp dnum bxps name inum isdir ms

theorem atMost_link' (name : Filename) (inum : ℕ) (isdir : Bool) (ms : BFILE.MemState) :
    Txn.AtMost 9 (link' ixp dnum bxps name inum isdir ms) := by
  apply (FileRASig.atMost_ifind dentSig ixp dnum _ ms).after
  rintro ⟨ms', _ | ⟨ix, de⟩⟩
  · exact (BFILE.atMost_grow ixp dnum bxps _ ms').bind fun _ => Txn.atMost_pure 0 _
  · exact ((FileRASig.atMost_put dentSig ixp dnum ix _ ms').bind fun _ =>
      Txn.atMost_pure 0 _).mono (by decide)

theorem atMost_link (name : Filename) (inum : ℕ) (isdir : Bool) (ix0 : ℕ) (ms : BFILE.MemState) :
    Txn.AtMost 9 (link ixp dnum bxps name inum isdir ix0 ms) := by
  apply (BFILE.atMost_getlen ixp dnum ms).after
  rintro ⟨ms', len⟩
  dsimp only
  split_ifs
  · apply (FileRASig.atMost_get dentSig ixp dnum ix0 ms').after
    rintro ⟨ms'', res⟩
    dsimp only
    split_ifs
    · exact atMost_link' ixp dnum bxps name inum isdir ms''
    · exact ((FileRASig.atMost_put dentSig ixp dnum ix0 _ ms'').bind fun _ =>
        Txn.atMost_pure 0 _).mono (by decide)
  · exact atMost_link' ixp dnum bxps name inum isdir ms'

end

/-! ### What they do -/

/-- The slots of a directory. -/
def slots (f : BFILE.BFile) : List Dent := dentSig.items f

theorem length_slots (f : BFILE.BFile) : (slots f).length = f.data.length * dentSig.itemsPerVal :=
  FileRASig.length_items f

/-- The entries in a list of slots. -/
def entries (l : List Dent) : List Readent := (l.filter isValid).map readent

/-- The entries of a directory. -/
def dents (f : BFILE.BFile) : List Readent := entries (slots f)

theorem perm_entries_set (l : List Dent) {ix : ℕ} (hix : ix < l.length) (x : Dent) :
    (entries (l.set ix x)).Perm (entries (x :: l.eraseIdx ix)) :=
  ((List.set_perm_cons_eraseIdx hix x).filter isValid).map readent

theorem perm_entries_eraseIdx (l : List Dent) {ix : ℕ} (hix : ix < l.length) :
    (entries l).Perm (entries (l[ix] :: l.eraseIdx ix)) :=
  ((List.getElem_cons_eraseIdx_perm hix).symm.filter isValid).map readent

theorem entries_cons_of_valid {x : Dent} (hx : isValid x = true) (l : List Dent) :
    entries (x :: l) = readent x :: entries l := by
  rw [entries, List.filter_cons_of_pos hx]
  rfl

theorem entries_cons_of_invalid {x : Dent} (hx : isValid x = false) (l : List Dent) :
    entries (x :: l) = entries l := by
  rw [entries, List.filter_cons_of_neg (by simp [hx])]
  rfl

theorem entries_append (l l' : List Dent) : entries (l ++ l') = entries l ++ entries l' := by
  rw [entries, List.filter_append, List.map_append]
  rfl

theorem perm_entries_link {l : List Dent} {ix : ℕ} {x y : Dent} (hy : l[ix]? = some y)
    (hv : isValid y = false) (hx : isValid x = true) :
    (entries (l.set ix x)).Perm (readent x :: entries l) := by
  obtain ⟨hix, rfl⟩ := List.getElem?_eq_some_iff.1 hy
  have h₁ := perm_entries_set l hix x
  have h₂ := perm_entries_eraseIdx l hix
  rw [entries_cons_of_valid hx] at h₁
  rw [entries_cons_of_invalid hv] at h₂
  exact h₁.trans (h₂.symm.cons _)

theorem perm_entries_unlink {l : List Dent} {ix : ℕ} {x : Dent} (hx : l[ix]? = some x)
    (hv : isValid x = true) : (entries l).Perm (readent x :: entries (l.set ix dent0)) := by
  obtain ⟨hix, rfl⟩ := List.getElem?_eq_some_iff.1 hx
  have h₁ := perm_entries_set l hix dent0
  have h₂ := perm_entries_eraseIdx l hix
  rw [entries_cons_of_invalid isValid_dent0] at h₁
  rw [entries_cons_of_valid hv] at h₂
  exact h₂.trans (h₁.symm.cons _)

theorem entries_replicate_set {k : ℕ} (hk : 0 < k) {x : Dent} (hx : isValid x = true) :
    entries ((List.replicate k dent0).set 0 x) = [readent x] := by
  obtain ⟨k, rfl⟩ : ∃ j, k = j + 1 := ⟨k - 1, by omega⟩
  rw [List.replicate_succ, List.set_cons_zero, entries_cons_of_valid hx, entries,
    List.filter_replicate_of_neg (by simp [isValid_dent0])]
  rfl

/-- The slots of a new block. -/
def blockOf (x : Dent) : List Dent := dentSig.block0.set 0 x

theorem entries_blockOf {x : Dent} (hx : isValid x = true) : entries (blockOf x) = [readent x] := by
  rw [blockOf, FileRASig.block0, dentSig.ra.val2block_zero]
  exact entries_replicate_set FileRASig.itemsPerVal_pos hx

/-- An entry has been put in a slot that was free, or in a new block when no slot was free. -/
def Linked (x : Dent) (l l' : List Dent) : Prop :=
  (∃ ix y, l[ix]? = some y ∧ isValid y = false ∧ l' = l.set ix x) ∨
    (∀ y ∈ l, isValid y = true) ∧ l' = l ++ blockOf x

/-- A slot that held an entry with the name has been made free. -/
def Unlinked (name : Filename) (l l' : List Dent) : Prop :=
  ∃ ix y, l[ix]? = some y ∧ isValid y = true ∧ deName y = name ∧ l' = l.set ix dent0

theorem Linked.perm {l l' : List Dent} {x : Dent} (h : Linked x l l') (hx : isValid x = true) :
    (entries l').Perm (readent x :: entries l) := by
  rcases h with ⟨ix, y, hy, hv, rfl⟩ | ⟨-, rfl⟩
  · exact perm_entries_link hy hv hx
  · rw [entries_append, entries_blockOf hx]
    exact List.perm_append_singleton _ _

theorem Unlinked.perm {l l' : List Dent} {name : Filename} (h : Unlinked name l l') :
    ∃ e, (entries l).Perm ((name, e) :: entries l') := by
  obtain ⟨ix, y, hy, hv, rfl, rfl⟩ := h
  exact ⟨_, perm_entries_unlink hy hv⟩

/-- The entry that a lookup finds. -/
theorem mem_entries_of_lookupF {l : List Dent} {name : Filename} {ix : ℕ} {de : Dent}
    (h : ifindList (lookupF name) l 0 = some (ix, de)) :
    l[ix]? = some de ∧ isValid de = true ∧ deName de = name := by
  obtain ⟨-, h₁, h₂⟩ := ifindList_some h
  rw [lookupF, Bool.and_eq_true, nameIs_iff] at h₂
  exact ⟨h₁, h₂⟩

theorem not_mem_entries_of_lookupF {l : List Dent} {name : Filename}
    (h : ifindList (lookupF name) l 0 = none) : ∀ e ∈ entries l, e.1 ≠ name := by
  intro e he hn
  obtain ⟨de, hde, rfl⟩ := List.mem_map.1 he
  obtain ⟨hde, hv⟩ := List.mem_filter.1 hde
  have : lookupF name de 0 = false := ifindList_none.1 h de hde
  rw [lookupF, hv, nameIs_iff.2 hn] at this
  cases this

variable {n dnum : ℕ} {fsxp : FsXparams} {m : Mem} {ms : BFILE.MemState} {name : Filename}

/-- What a change of one directory leaves as it is. -/
structure Changed (fsxp : FsXparams) (dnum : ℕ) (m : Mem) (ms : BFILE.MemState) (m' : Mem)
    (ms' : BFILE.MemState) : Prop where
  inv : BFILE.Inv fsxp m' ms'
  step : BFILE.Step fsxp {dnum} m ms m' ms'
  msCache : ms'.msCache = ms.msCache
  attr : (BFILE.file fsxp m' dnum).attr = (BFILE.file fsxp m dnum).attr

theorem Changed.of_withICache {c : INODE.Cache} {m' : Mem} {ms' : BFILE.MemState}
    (hinv : BFILE.Inv fsxp m ms) (h : Changed fsxp dnum m { ms with msICache := c } m' ms') :
    Changed fsxp dnum m ms m' ms' where
  inv := h.inv
  step := (BFILE.Step.withICache fsxp {dnum} m ms c).trans_self hinv h.step
  msCache := h.msCache
  attr := h.attr

variable (hx : fsxp.Ok n) (hinv : BFILE.Inv fsxp m ms) (hi : dnum < INODE.ninodes fsxp.inode)

include hx hinv hi

theorem wp_lookup {Q : BFILE.MemState × Option (ℕ × Bool) → Mem → Prop}
    (hQ : ∀ c r, BFILE.Inv fsxp m { ms with msICache := c } →
      (∀ e, r = some e → (name, e) ∈ dents (BFILE.file fsxp m dnum)) →
      (r = none → ∀ e ∈ dents (BFILE.file fsxp m dnum), e.1 ≠ name) →
      Q ({ ms with msICache := c }, r) m) :
    Txn.wp n (lookup fsxp.inode dnum name ms) Q m := by
  apply wp_bind
  apply FileRASig.wp_ifind hx hinv hi
  intro c hinv'
  cases hf : ifindList (lookupF name) (slots (BFILE.file fsxp m dnum)) 0 with
  | none =>
    erw [hf]
    apply wp_pure
    apply hQ c none hinv'
    · intro e he
      cases he
    · exact fun _ => not_mem_entries_of_lookupF hf
  | some r =>
    obtain ⟨ix, de⟩ := r
    obtain ⟨h₁, h₂, h₃⟩ := mem_entries_of_lookupF hf
    erw [hf]
    apply wp_pure
    apply hQ c _ hinv'
    · intro e he
      cases he
      have hmem := (perm_entries_unlink h₁ h₂).mem_iff.2 List.mem_cons_self
      rw [readent, h₃] at hmem
      exact hmem
    · intro h
      cases h

theorem wp_readdir {Q : BFILE.MemState × List Readent → Mem → Prop}
    (hQ : ∀ c, BFILE.Inv fsxp m { ms with msICache := c } →
      Q ({ ms with msICache := c }, dents (BFILE.file fsxp m dnum)) m) :
    Txn.wp n (readdir fsxp.inode dnum ms) Q m := by
  apply wp_bind
  apply FileRASig.wp_readall hx hinv hi
  intro c hinv'
  exact wp_pure (hQ c hinv')

theorem wp_put {ix : ℕ} {x : Dent} (hix : ix < (slots (BFILE.file fsxp m dnum)).length)
    (hw : Rec.WellFormed denttype x) {Q : BFILE.MemState → Mem → Prop}
    (hQ : ∀ ms' m', Changed fsxp dnum m ms m' ms' → BFILE.Kept fsxp dnum m ms m' ms' →
      slots (BFILE.file fsxp m' dnum) = (slots (BFILE.file fsxp m dnum)).set ix x → Q ms' m') :
    Txn.wp n (dentSig.put fsxp.inode dnum ix x ms) Q m := by
  apply FileRASig.wp_put hx hinv hi hix hw
  intro c m' hinv' hst hk hitems hattr
  exact hQ _ m' ⟨hinv', hst, rfl, hattr⟩ hk hitems

theorem wp_unlink {Q : BFILE.MemState × ℕ × Res Unit → Mem → Prop}
    (hQe : ∀ c, (∀ e ∈ dents (BFILE.file fsxp m dnum), e.1 ≠ name) →
      BFILE.Inv fsxp m { ms with msICache := c } →
      Q ({ ms with msICache := c }, 0, .error .ENOENT) m)
    (hQ : ∀ ms' m' ix, Changed fsxp dnum m ms m' ms' → BFILE.Kept fsxp dnum m ms m' ms' →
      Unlinked name (slots (BFILE.file fsxp m dnum)) (slots (BFILE.file fsxp m' dnum)) →
      Q (ms', ix, .ok ()) m') :
    Txn.wp n (unlink fsxp.inode dnum name ms) Q m := by
  apply wp_bind
  apply FileRASig.wp_ifind hx hinv hi
  intro c hinv'
  cases hf : ifindList (lookupF name) (slots (BFILE.file fsxp m dnum)) 0 with
  | none =>
    erw [hf]
    exact wp_pure (hQe c (not_mem_entries_of_lookupF hf) hinv')
  | some r =>
    obtain ⟨ix, de⟩ := r
    obtain ⟨h₁, h₂, h₃⟩ := mem_entries_of_lookupF hf
    erw [hf]
    apply wp_bind
    have hix := (List.getElem?_eq_some_iff.1 h₁).1
    apply wp_put hx hinv' hi hix (Rec.wellFormed_ofWord denttype 0)
    intro ms' m' hc hk hslots
    apply wp_pure
    exact hQ ms' m' ix (hc.of_withICache hinv) ⟨hk.blocks, hk.nodes, hk.free, hk.msDBlocks⟩
      ⟨ix, de, h₁, h₂, h₃, hslots⟩

/-- A directory has room for one more entry: a slot that is not used, or a block that it can grow
by. -/
def HasRoom (fsxp : FsXparams) (m : Mem) (ms : BFILE.MemState) (dnum : ℕ) : Prop :=
  (∃ de ∈ slots (BFILE.file fsxp m dnum), isValid de = false) ∨ BFILE.CanGrow fsxp m ms dnum

omit hx hinv hi in
/-- There is a slot for one more entry when there are more slots than entries. -/
theorem hasRoom_of_length_lt
    (h : (dents (BFILE.file fsxp m dnum)).length < (slots (BFILE.file fsxp m dnum)).length) :
    HasRoom fsxp m ms dnum := by
  refine .inl ?_
  by_contra hno
  push Not at hno
  have hall : (slots (BFILE.file fsxp m dnum)).filter isValid = slots (BFILE.file fsxp m dnum) :=
    List.filter_eq_self.2 fun de hde => Bool.of_not_eq_false (hno de hde)
  rw [dents, entries, hall, List.length_map] at h
  exact Nat.lt_irrefl _ h

theorem wp_link' {inum : ℕ} {isdir : Bool} {Q : BFILE.MemState × ℕ × Res Unit → Mem → Prop}
    (hQe : ¬ HasRoom fsxp m ms dnum → ∀ ms' m' ix, BFILE.Inv fsxp m' ms' →
      BFILE.Leaks fsxp m ms m' ms' → Q (ms', ix, .error (BFILE.growErr fsxp m dnum)) m')
    (hQ : HasRoom fsxp m ms dnum → ∀ ms' m' ix, Changed fsxp dnum m ms m' ms' →
      Linked (mkDent name inum isdir) (slots (BFILE.file fsxp m dnum))
        (slots (BFILE.file fsxp m' dnum)) → Q (ms', ix, .ok ()) m') :
    Txn.wp n (link' fsxp.inode dnum fsxp.blockAlloc name inum isdir ms) Q m := by
  apply wp_bind
  apply FileRASig.wp_ifind hx hinv hi
  intro c hinv'
  cases hf : ifindList (fun de _ => !isValid de) (slots (BFILE.file fsxp m dnum)) 0 with
  | some r =>
    obtain ⟨ix, de⟩ := r
    obtain ⟨-, h₁, h₂⟩ := ifindList_some hf
    erw [hf]
    apply wp_bind
    have hix := (List.getElem?_eq_some_iff.1 h₁).1
    apply wp_put hx hinv' hi hix (wellFormed_mkDent name inum isdir)
    intro ms' m' hc _ hslots
    apply wp_pure
    have hfree : isValid de = false := by simpa using h₂
    apply hQ (.inl ⟨de, List.mem_of_getElem? h₁, hfree⟩) ms' m' (ix + 1) (hc.of_withICache hinv)
    exact .inl ⟨ix, de, h₁, hfree, hslots⟩
  | none =>
    have hfull : ∀ y ∈ slots (BFILE.file fsxp m dnum), isValid y = true := by
      intro y hy
      have hvalid := ifindList_none.1 hf y hy
      simpa using hvalid
    erw [hf]
    apply wp_bind
    apply FileRASig.wp_extend hx hinv' hi (wellFormed_mkDent name inum isdir)
    · intro hlack ms' m' hinv'' hlk
      refine wp_pure (hQe ?_ ms' m' 0 hinv'' hlk.of_withICache)
      rintro (⟨de, hde, hfree⟩ | hgrow)
      · rw [hfull de hde] at hfree
        exact nomatch hfree
      · exact hlack hgrow
    · intro hgrow ms' m' hinv'' hst hmsc hitems hattr
      apply wp_pure
      have hc : Changed fsxp dnum m { ms with msICache := c } m' ms' := ⟨hinv'', hst, hmsc, hattr⟩
      exact hQ (.inr hgrow) ms' m' 0 (hc.of_withICache hinv) (.inr ⟨hfull, hitems⟩)

theorem wp_link {inum ix0 : ℕ} {isdir : Bool} {Q : BFILE.MemState × ℕ × Res Unit → Mem → Prop}
    (hQe : ¬ HasRoom fsxp m ms dnum → ∀ ms' m' ix, BFILE.Inv fsxp m' ms' →
      BFILE.Leaks fsxp m ms m' ms' → Q (ms', ix, .error (BFILE.growErr fsxp m dnum)) m')
    (hQ : HasRoom fsxp m ms dnum → ∀ ms' m' ix, Changed fsxp dnum m ms m' ms' →
      Linked (mkDent name inum isdir) (slots (BFILE.file fsxp m dnum))
        (slots (BFILE.file fsxp m' dnum)) → Q (ms', ix, .ok ()) m') :
    Txn.wp n (link fsxp.inode dnum fsxp.blockAlloc name inum isdir ix0 ms) Q m := by
  apply wp_bind
  apply BFILE.wp_getlen hx hinv hi
  intro c hinv'
  dsimp only
  split_ifs with hlt
  · have hix : ix0 < (slots (BFILE.file fsxp m dnum)).length := by
      rw [length_slots]
      exact hlt
    apply wp_bind
    apply FileRASig.wp_get hx hinv' hi hix
    intro c' hinv''
    dsimp only
    split_ifs with hvalid
    · apply wp_link' hx hinv'' hi
      · exact fun h ms' m' ix hinv hlk => hQe h ms' m' ix hinv (hlk.of_withICache (c := c'))
      · exact fun h ms' m' ix hc => hQ h ms' m' ix (hc.of_withICache (c := c') hinv)
    · apply wp_bind
      apply wp_put hx hinv'' hi hix (wellFormed_mkDent name inum isdir)
      intro ms' m' hc _ hslots
      apply wp_pure
      have e : (slots (BFILE.file fsxp m dnum))[ix0] =
          (slots (BFILE.file fsxp m dnum)).getD ix0 dent0 := (List.getD_eq_getElem _ _ hix).symm
      have hfree : isValid (slots (BFILE.file fsxp m dnum))[ix0] = false := by
        rw [e]
        exact Bool.eq_false_iff.2 hvalid
      apply hQ (.inl ⟨_, List.getElem_mem hix, hfree⟩) ms' m' (ix0 + 1)
        (hc.of_withICache (c := c') hinv)
      exact .inl ⟨ix0, _, List.getElem?_eq_getElem hix, hfree, hslots⟩
  · apply wp_link' hx hinv' hi
    · exact fun h ms' m' ix hinv hlk => hQe h ms' m' ix hinv (hlk.of_withICache (c := c))
    · exact fun h ms' m' ix hc => hQ h ms' m' ix (hc.of_withICache (c := c) hinv)

end DIR

end Fscq
