import Fscq.Dir

/-!
# Directories with names as strings

A name is stored as its bytes, filled up with zero bytes.  Names with a zero byte and names that
are too long are refused.
-/

namespace Fscq

open CrashProg

def name2padstring (nbytes : ℕ) (name : BitVec (nbytes * 8)) : Sname :=
  Rec.arrayOfWord id nbytes name

/-- The bytes before the first zero byte. -/
def stringUnpad : Sname → Sname
  | [] => []
  | a :: s => if a = 0 then [] else a :: stringUnpad s

def name2string (nbytes : ℕ) (name : BitVec (nbytes * 8)) : Sname :=
  stringUnpad (name2padstring nbytes name)

def string2name' (nbytes : ℕ) (s : Sname) : BitVec (nbytes * 8) := Rec.arrayToWord id nbytes s

theorem stringUnpad_append_replicate {s : Sname} (h : ∀ a ∈ s, a ≠ 0) (k : ℕ) :
    stringUnpad (s ++ List.replicate k 0) = s := by
  induction s with
  | nil =>
    cases k with
    | zero => rfl
    | succ k => rw [List.nil_append, List.replicate_succ, stringUnpad, if_pos rfl]
  | cons a s ih =>
    rw [List.cons_append, stringUnpad, if_neg (h a List.mem_cons_self),
      ih fun b hb => h b (List.mem_cons_of_mem _ hb)]

theorem name2string_string2name' {nbytes : ℕ} {s : Sname} (h : ∀ a ∈ s, a ≠ 0)
    (hl : s.length ≤ nbytes) : name2string nbytes (string2name' nbytes s) = s := by
  rw [name2string, name2padstring, string2name',
    Rec.arrayOfWord_arrayToWord_of_le (fun _ _ => rfl) hl]
  exact stringUnpad_append_replicate h _

namespace SDIR

def namelen : ℕ := DIR.filenameLen / 8

theorem namelen_mul : namelen * 8 = DIR.filenameLen := rfl

def sname2wname (s : Sname) : DIR.Filename := (string2name' namelen s).cast namelen_mul

def wname2sname (w : DIR.Filename) : Sname := name2string namelen (w.cast namelen_mul.symm)

def isNozero : Sname → Bool
  | [] => true
  | c :: s => if c = 0 then false else isNozero s

def isValidSname (s : Sname) : Bool := isNozero s && if s.length ≤ namelen then true else false

theorem isNozero_iff {s : Sname} : isNozero s = true ↔ ∀ a ∈ s, a ≠ 0 := by
  induction s with
  | nil => simp [isNozero]
  | cons c s ih =>
    rw [isNozero]
    split_ifs with h
    · simp [h]
    · rw [List.forall_mem_cons, ih]
      exact ⟨fun hs => ⟨h, hs⟩, fun hs => hs.2⟩

theorem wname2sname_sname2wname {s : Sname} (h : isValidSname s = true) :
    wname2sname (sname2wname s) = s := by
  rw [isValidSname, Bool.and_eq_true, isNozero_iff] at h
  have hl : s.length ≤ namelen := by simpa using h.2
  rw [wname2sname, sname2wname, Rec.cast_cast_self]
  exact name2string_string2name' h.1 hl

/-! ### The programs -/

section

variable (ixp : InodeXparams) (dnum : ℕ)

def lookup (name : Sname) (ms : BFILE.MemState) :
    TxnProg (BFILE.MemState × Option (ℕ × Bool)) :=
  if isValidSname name then DIR.lookup ixp dnum (sname2wname name) ms
  else pure (ms, none)

def unlink (name : Sname) (ms : BFILE.MemState) : TxnProg (BFILE.MemState × ℕ × Res Unit) :=
  if isValidSname name then DIR.unlink ixp dnum (sname2wname name) ms
  else pure (ms, 0, .error .ENAMETOOLONG)

def link (bxps : BallocXparams × BallocXparams) (name : Sname) (inum : ℕ) (isdir : Bool) (ix0 : ℕ)
    (ms : BFILE.MemState) : TxnProg (BFILE.MemState × ℕ × Res Unit) :=
  if isValidSname name then DIR.link ixp dnum bxps (sname2wname name) inum isdir ix0 ms
  else pure (ms, 0, .error .ENAMETOOLONG)

abbrev Readent := Sname × ℕ × Bool

def readdirTrans (di : DIR.Readent) : Readent := (wname2sname di.1, di.2)

def readdir (ms : BFILE.MemState) : TxnProg (BFILE.MemState × List Readent) := do
  let (ms, r) ← DIR.readdir ixp dnum ms
  pure (ms, r.map readdirTrans)

theorem atMost_link (bxps : BallocXparams × BallocXparams) (name : Sname) (inum : ℕ) (isdir : Bool)
    (ix0 : ℕ) (ms : BFILE.MemState) :
    Txn.AtMost 9 (link ixp dnum bxps name inum isdir ix0 ms) := by
  unfold link
  split_ifs
  · exact DIR.atMost_link ixp dnum bxps _ inum isdir ix0 ms
  · exact Txn.atMost_pure 9 _

theorem atMost_readdir (ms : BFILE.MemState) : Txn.AtMost 0 (readdir ixp dnum ms) :=
  ((FileRASig.atMost_readall DIR.dentSig ixp dnum ms).after fun _ => Txn.atMost_pure 0 _).after
    fun _ => Txn.atMost_pure 0 _

end

/-! ### What they do -/

/-- The entries of a directory. -/
def dents (f : BFILE.BFile) : List Readent := (DIR.dents f).map readdirTrans

/-- The file is a directory: each name is valid and has one entry. -/
structure DirOk (f : BFILE.BFile) : Prop where
  valid : ∀ e ∈ DIR.dents f, ∃ s, isValidSname s = true ∧ e.1 = sname2wname s
  nodup : ((dents f).map Prod.fst).Nodup

variable {f f' : BFILE.BFile} {name : Sname} {e : ℕ × Bool}

theorem DirOk.valid_of_mem (h : DirOk f) (he : (name, e) ∈ dents f) : isValidSname name = true := by
  obtain ⟨di, hdi, heq⟩ := List.mem_map.1 he
  obtain ⟨s, hs, hds⟩ := h.valid di hdi
  have hn : wname2sname di.1 = name := congrArg Prod.fst heq
  rw [hds, wname2sname_sname2wname hs] at hn
  exact hn ▸ hs

/-- A name without an entry is not stored. -/
theorem DirOk.not_mem (h : DirOk f) (hn : ∀ e ∈ DIR.dents f, e.1 ≠ sname2wname name) :
    ∀ e ∈ dents f, e.1 ≠ name := by
  intro e he hname
  obtain ⟨di, hdi, rfl⟩ := List.mem_map.1 he
  obtain ⟨s, hs, hds⟩ := h.valid di hdi
  have hs' : s = name := by
    rw [← hname, readdirTrans, hds, wname2sname_sname2wname hs]
  exact hn di hdi (hs' ▸ hds)

theorem perm_dents (hv : isValidSname name = true)
    (hp : (DIR.dents f').Perm ((sname2wname name, e) :: DIR.dents f)) :
    (dents f').Perm ((name, e) :: dents f) := by
  have := hp.map readdirTrans
  rwa [List.map_cons, readdirTrans, wname2sname_sname2wname hv] at this

theorem DirOk.link (h : DirOk f) (hv : isValidSname name = true) (hn : ∀ e ∈ dents f, e.1 ≠ name)
    (hp : (DIR.dents f').Perm ((sname2wname name, e) :: DIR.dents f)) : DirOk f' where
  valid di hdi := by
    rcases List.mem_cons.1 (hp.mem_iff.1 hdi) with rfl | hdi
    · exact ⟨name, hv, rfl⟩
    · exact h.valid di hdi
  nodup := by
    have hp' := ((perm_dents hv hp).map Prod.fst).nodup_iff.2
    apply hp'
    rw [List.map_cons, List.nodup_cons]
    refine ⟨?_, h.nodup⟩
    intro hmem
    obtain ⟨di, hdi, heq⟩ := List.mem_map.1 hmem
    exact hn di hdi heq

theorem DirOk.unlink (h : DirOk f) (hv : isValidSname name = true)
    (hp : (DIR.dents f).Perm ((sname2wname name, e) :: DIR.dents f')) : DirOk f' where
  valid di hdi := h.valid di (hp.mem_iff.2 (List.mem_cons_of_mem _ hdi))
  nodup := by
    have hp' := ((perm_dents hv hp).map Prod.fst).nodup_iff.1 h.nodup
    rw [List.map_cons, List.nodup_cons] at hp'
    exact hp'.2

/-- A directory that has lost an entry has a slot that is not used. -/
theorem hasRoom_of_perm {fsxp : FsXparams} {m m' : Mem} {ms' : BFILE.MemState} {d : ℕ} {e : Readent}
    (hp : (dents (BFILE.file fsxp m d)).Perm (e :: dents (BFILE.file fsxp m' d)))
    (hlen : (BFILE.file fsxp m' d).data.length = (BFILE.file fsxp m d).data.length) :
    DIR.HasRoom fsxp m' ms' d := by
  by_contra hroom
  have hfull : ∀ de ∈ DIR.slots (BFILE.file fsxp m' d), DIR.isValid de = true :=
    fun de hde => Bool.not_eq_false _ ▸ fun hfree => hroom (.inl ⟨de, hde, hfree⟩)
  have hcount : ∀ f : BFILE.BFile, (dents f).length ≤ (DIR.slots f).length := by
    intro f
    rw [dents, DIR.dents, DIR.entries, List.length_map, List.length_map]
    exact List.length_filter_le _ _
  have hall : (dents (BFILE.file fsxp m' d)).length = (DIR.slots (BFILE.file fsxp m' d)).length := by
    rw [dents, DIR.dents, DIR.entries, List.length_map, List.length_map,
      List.filter_eq_self.2 hfull]
  have hle := hcount (BFILE.file fsxp m d)
  rw [hp.length_eq, List.length_cons, hall, DIR.length_slots, DIR.length_slots, hlen] at hle
  exact absurd hle (Nat.not_succ_le_self _)

/-- The error when an entry with a name that is not in the directory cannot be added. -/
def linkErr (fsxp : FsXparams) (m : Mem) (dnum : ℕ) (name : Sname) : Errno :=
  if isValidSname name then BFILE.growErr fsxp m dnum else .ENAMETOOLONG

section

variable {n dnum : ℕ} {fsxp : FsXparams} {m : Mem} {ms : BFILE.MemState}
  (hx : fsxp.Ok n) (hinv : BFILE.Inv fsxp m ms) (hi : dnum < INODE.ninodes fsxp.inode)

include hx hinv hi

theorem wp_lookup (hd : DirOk (BFILE.file fsxp m dnum))
    {Q : BFILE.MemState × Option (ℕ × Bool) → Mem → Prop}
    (hQ : ∀ c r, BFILE.Inv fsxp m { ms with msICache := c } →
      (∀ e, r = some e → (name, e) ∈ dents (BFILE.file fsxp m dnum)) →
      (r = none → ∀ e ∈ dents (BFILE.file fsxp m dnum), e.1 ≠ name) →
      Q ({ ms with msICache := c }, r) m) :
    Txn.wp n (lookup fsxp.inode dnum name ms) Q m := by
  rw [lookup]
  split_ifs with hv
  · apply DIR.wp_lookup hx hinv hi
    intro c r hinv' h₁ h₂
    apply hQ c r hinv'
    · intro e he
      have := List.mem_map_of_mem (f := readdirTrans) (h₁ e he)
      rwa [readdirTrans, wname2sname_sname2wname hv] at this
    · exact fun hr => hd.not_mem (h₂ hr)
  · apply wp_pure
    apply hQ ms.msICache none hinv
    · intro e he
      cases he
    · rintro - ⟨s, e⟩ he rfl
      exact hv (hd.valid_of_mem he)

theorem wp_readdir {Q : BFILE.MemState × List Readent → Mem → Prop}
    (hQ : ∀ c, BFILE.Inv fsxp m { ms with msICache := c } →
      Q ({ ms with msICache := c }, dents (BFILE.file fsxp m dnum)) m) :
    Txn.wp n (readdir fsxp.inode dnum ms) Q m := by
  apply wp_bind
  apply DIR.wp_readdir hx hinv hi
  intro c hinv'
  exact wp_pure (hQ c hinv')

theorem wp_unlink (hd : DirOk (BFILE.file fsxp m dnum))
    (he : (name, e) ∈ dents (BFILE.file fsxp m dnum))
    {Q : BFILE.MemState × ℕ × Res Unit → Mem → Prop}
    (hQ : ∀ ms' m' ix, DIR.Changed fsxp dnum m ms m' ms' → BFILE.Kept fsxp dnum m ms m' ms' →
      DirOk (BFILE.file fsxp m' dnum) →
      (dents (BFILE.file fsxp m dnum)).Perm ((name, e) :: dents (BFILE.file fsxp m' dnum)) →
      Q (ms', ix, .ok ()) m') :
    Txn.wp n (unlink fsxp.inode dnum name ms) Q m := by
  have hv := hd.valid_of_mem he
  rw [unlink, if_pos hv]
  apply DIR.wp_unlink hx hinv hi
  · intro c hnot
    exact absurd rfl (hd.not_mem hnot _ he)
  · intro ms' m' ix hc hk hu
    obtain ⟨e', hp⟩ := hu.perm
    have hp' := perm_dents hv hp
    -- the name has one entry, so the one removed is the given one
    have heq : (name, e) = (name, e') := by
      have hnd := (hp'.map Prod.fst).nodup_iff.1 hd.nodup
      rw [List.map_cons, List.nodup_cons] at hnd
      rcases List.mem_cons.1 (hp'.mem_iff.1 he) with h | h
      · exact h
      · exact absurd (List.mem_map_of_mem (f := Prod.fst) h) hnd.1
    obtain rfl : e = e' := congrArg Prod.snd heq
    exact hQ ms' m' ix hc hk (hd.unlink hv hp) hp'

theorem wp_link {inum ix0 : ℕ} {isdir : Bool} (hd : DirOk (BFILE.file fsxp m dnum))
    (hn : ∀ e ∈ dents (BFILE.file fsxp m dnum), e.1 ≠ name) (hinum : inum < 2 ^ addrlen)
    {Q : BFILE.MemState × ℕ × Res Unit → Mem → Prop}
    (hQe : ¬ (isValidSname name ∧ DIR.HasRoom fsxp m ms dnum) → ∀ ms' m' ix,
      BFILE.Inv fsxp m' ms' → BFILE.Leaks fsxp m ms m' ms' →
      Q (ms', ix, .error (linkErr fsxp m dnum name)) m')
    (hQ : isValidSname name → DIR.HasRoom fsxp m ms dnum → ∀ ms' m' ix,
      DIR.Changed fsxp dnum m ms m' ms' → DirOk (BFILE.file fsxp m' dnum) →
      (dents (BFILE.file fsxp m' dnum)).Perm
        ((name, inum, isdir) :: dents (BFILE.file fsxp m dnum)) → Q (ms', ix, .ok ()) m') :
    Txn.wp n (link fsxp.inode dnum fsxp.blockAlloc name inum isdir ix0 ms) Q m := by
  rw [link]
  split_ifs with hv
  · have herr : linkErr fsxp m dnum name = BFILE.growErr fsxp m dnum := if_pos hv
    apply DIR.wp_link hx hinv hi
    · rw [← herr]
      exact fun hlack => hQe fun h => hlack h.2
    · intro hroom ms' m' ix hc hl
      have hp := hl.perm (DIR.isValid_mkDent _ inum isdir)
      rw [DIR.readent_mkDent hinum] at hp
      exact hQ hv hroom ms' m' ix hc (hd.link hv hn hp) (perm_dents hv hp)
  · have herr : linkErr fsxp m dnum name = .ENAMETOOLONG := if_neg hv
    rw [← herr]
    exact wp_pure (hQe (fun h => hv h.1) ms m 0 hinv (BFILE.Leaks.withICache fsxp m ms ms.msICache))

end

end SDIR

end Fscq
