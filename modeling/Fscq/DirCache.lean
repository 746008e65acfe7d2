import Fscq.DirName

/-!
# Directories with cached entries

The entries of a directory are read once and then kept in memory, with a hint where a free slot may
be.
-/

namespace Fscq

open CrashProg

namespace CacheOneDir

def fillCache' : List SDIR.Readent → Dcache → Dcache
  | [], ocache => ocache
  | f :: files, ocache => fillCache' files (ocache.insert f.1 f.2)

def fillCache (files : List SDIR.Readent) : Dcache := fillCache' files ∅

section

variable (ixp : InodeXparams) (dnum : ℕ)

def initCache (ms : BFILE.MemState) : TxnProg (BFILE.MemState × Dcache × ℕ) := do
  let (ms, files) ← SDIR.readdir ixp dnum ms
  let ocache := fillCache files
  pure (BFILE.cachePut dnum (ocache, 0) ms, ocache, 0)

def getDcache (ms : BFILE.MemState) : TxnProg (BFILE.MemState × Dcache × ℕ) :=
  match BFILE.cacheGet dnum ms with
  | none => initCache ixp dnum ms
  | some r => pure (ms, r)

def lookup (name : Sname) (ms : BFILE.MemState) :
    TxnProg (BFILE.MemState × Option (ℕ × Bool)) := do
  let (ms, cache) ← getDcache ixp dnum ms
  pure (ms, cache.1[name]?)

def unlink (name : Sname) (ms : BFILE.MemState) : TxnProg (BFILE.MemState × Res Unit) := do
  let (ms, cache) ← getDcache ixp dnum ms
  match cache.1[name]? with
  | none => pure (ms, .error .ENOENT)
  | some _ => do
    let (ms, ix, r) ← SDIR.unlink ixp dnum name ms
    pure (BFILE.cachePut dnum (cache.1.erase name, ix) ms, r)

variable (bxps : BallocXparams × BallocXparams)

/-- Add an entry whose name is not in the directory. -/
def link' (name : Sname) (inum : ℕ) (isdir : Bool) (ms : BFILE.MemState) :
    TxnProg (BFILE.MemState × Res Unit) := do
  let (ms, cache) ← getDcache ixp dnum ms
  let (ms, ix, r) ← SDIR.link ixp dnum bxps name inum isdir cache.2 ms
  match r with
  | .error _ => pure (ms, r)
  | .ok _ => pure (BFILE.cachePut dnum (cache.1.insert name (inum, isdir), ix) ms, r)

def link (name : Sname) (inum : ℕ) (isdir : Bool) (ms : BFILE.MemState) :
    TxnProg (BFILE.MemState × Res Unit) := do
  let (ms, lookupRes) ← lookup ixp dnum name ms
  match lookupRes with
  | some _ => pure (ms, .error .EEXIST)
  | none => link' ixp dnum bxps name inum isdir ms

def readdir (ms : BFILE.MemState) : TxnProg (BFILE.MemState × List SDIR.Readent) :=
  SDIR.readdir ixp dnum ms

theorem atMost_getDcache (ms : BFILE.MemState) : Txn.AtMost 0 (getDcache ixp dnum ms) := by
  unfold getDcache
  split
  · exact (SDIR.atMost_readdir ixp dnum ms).after fun _ => Txn.atMost_pure 0 _
  · exact Txn.atMost_pure 0 _

theorem atMost_lookup (name : Sname) (ms : BFILE.MemState) :
    Txn.AtMost 0 (lookup ixp dnum name ms) :=
  (atMost_getDcache ixp dnum ms).after fun _ => Txn.atMost_pure 0 _

theorem atMost_link (name : Sname) (inum : ℕ) (isdir : Bool) (ms : BFILE.MemState) :
    Txn.AtMost 9 (link ixp dnum bxps name inum isdir ms) := by
  apply (atMost_lookup ixp dnum name ms).after
  rintro ⟨ms', _ | e⟩
  · apply (atMost_getDcache ixp dnum ms').after
    rintro ⟨ms'', cache⟩
    apply (SDIR.atMost_link ixp dnum bxps name inum isdir cache.2 ms'').bind (k := 0)
    rintro ⟨ms₃, ix, _ | u⟩
    · exact Txn.atMost_pure 0 _
    · exact Txn.atMost_pure 0 _
  · exact Txn.atMost_pure 9 _

end

/-! ### What they do -/

/-- A cached map has the entries of a list. -/
def Agrees (l : List SDIR.Readent) (dc : Dcache) : Prop :=
  ∀ name e, dc[name]? = some e ↔ (name, e) ∈ l

variable {l l' : List SDIR.Readent} {dc : Dcache} {name : Sname} {e : ℕ × Bool}

theorem getElem?_insert (dc : Dcache) (s name : Sname) (e : ℕ × Bool) :
    (dc.insert s e)[name]? = if name = s then some e else dc[name]? := by
  rw [Std.ExtTreeMap.getElem?_insert]
  rcases eq_or_ne name s with rfl | hne
  · simp
  · rw [if_neg (fun h => hne (Std.LawfulEqCmp.eq_of_compare h).symm), if_neg hne]

theorem Agrees.insert (h : Agrees l dc) (hn : ∀ e ∈ l, e.1 ≠ name)
    (hp : l'.Perm ((name, e) :: l)) : Agrees l' (dc.insert name e) := by
  intro s e'
  rw [getElem?_insert, hp.mem_iff, List.mem_cons, Prod.mk.injEq]
  rcases eq_or_ne s name with rfl | hne
  · rw [if_pos rfl, Option.some.injEq]
    constructor
    · exact fun he => .inl ⟨rfl, he.symm⟩
    · rintro (⟨-, he⟩ | hmem)
      · exact he.symm
      · exact absurd rfl (hn _ hmem)
  · rw [if_neg hne, h s e']
    simp [hne]

theorem Agrees.erase (h : Agrees l dc) (hnd : (l.map Prod.fst).Nodup)
    (hp : l.Perm ((name, e) :: l')) : Agrees l' (dc.erase name) := by
  have hnd' := (hp.map Prod.fst).nodup_iff.1 hnd
  rw [List.map_cons, List.nodup_cons] at hnd'
  intro s e'
  rw [Std.ExtTreeMap.getElem?_erase]
  rcases eq_or_ne s name with rfl | hne
  · rw [if_pos Std.ReflCmp.compare_self]
    constructor
    · intro hx
      cases hx
    · exact fun hmem => absurd (List.mem_map_of_mem (f := Prod.fst) hmem) hnd'.1
  · rw [if_neg (fun hc => hne (Std.LawfulEqCmp.eq_of_compare hc).symm), h s e', hp.mem_iff,
      List.mem_cons, Prod.mk.injEq]
    simp [hne]

theorem agrees_fillCache' (l₀ : List SDIR.Readent) (h : Agrees l₀ dc)
    (hnd : ((l₀ ++ l).map Prod.fst).Nodup) : Agrees (l₀ ++ l) (fillCache' l dc) := by
  induction l generalizing l₀ dc with
  | nil => rwa [List.append_nil]
  | cons f l ih =>
    have happ : l₀ ++ f :: l = l₀ ++ [f] ++ l := by rw [List.append_assoc, List.singleton_append]
    rw [happ] at hnd ⊢
    apply ih (l₀ ++ [f]) _ hnd
    apply h.insert _ (List.perm_append_singleton f l₀)
    rw [List.map_append, List.map_append, List.nodup_append, List.nodup_append] at hnd
    intro e he heq
    exact hnd.1.2.2 _ (List.mem_map_of_mem (f := Prod.fst) he) _ (by simp) heq

theorem agrees_fillCache (hnd : (l.map Prod.fst).Nodup) : Agrees l (fillCache l) := by
  have h₀ : Agrees [] (∅ : Dcache) := by
    intro name e
    simp
  exact agrees_fillCache' [] h₀ hnd

/-- A change of one directory and of its cached entries. -/
structure Changed (fsxp : FsXparams) (dnum : ℕ) (m : Mem) (ms : BFILE.MemState) (m' : Mem)
    (ms' : BFILE.MemState) : Prop where
  inv : BFILE.Inv fsxp m' ms'
  step : BFILE.Step fsxp {dnum} m ms m' ms'
  attr : (BFILE.file fsxp m' dnum).attr = (BFILE.file fsxp m dnum).attr
  dir : SDIR.DirOk (BFILE.file fsxp m' dnum)
  other : ∀ d, d ≠ dnum → ms'.msCache[d]? = ms.msCache[d]?
  cache : ∃ dc, ms'.msCache[dnum]? = some dc ∧ Agrees (SDIR.dents (BFILE.file fsxp m' dnum)) dc.1

variable {n dnum : ℕ} {fsxp : FsXparams} {m m' m'' : Mem} {ms ms' ms'' : BFILE.MemState}
  {r : Dcache × ℕ}

theorem Changed.trans (hinv : BFILE.Inv fsxp m ms) (h : Changed fsxp dnum m ms m' ms')
    (h' : Changed fsxp dnum m' ms' m'' ms'') : Changed fsxp dnum m ms m'' ms'' where
  inv := h'.inv
  step := h.step.trans_self hinv h'.step
  attr := h'.attr.trans h.attr
  dir := h'.dir
  other d hd := (h'.other d hd).trans (h.other d hd)
  cache := h'.cache

theorem getElem?_cachePut (d : ℕ) :
    (BFILE.cachePut dnum r ms).msCache[d]? = if d = dnum then some r else ms.msCache[d]? := by
  rw [BFILE.cachePut, Std.ExtTreeMap.getElem?_insert]
  rcases eq_or_ne d dnum with rfl | hne
  · simp
  · rw [if_neg (fun h => hne (compare_eq_iff_eq.1 h).symm), if_neg hne]

/-- A change of the directory, after which its entries are put in the cache. -/
theorem Changed.of_cachePut (hinv : BFILE.Inv fsxp m ms) (h : DIR.Changed fsxp dnum m ms m' ms')
    (hd : SDIR.DirOk (BFILE.file fsxp m' dnum))
    (ha : Agrees (SDIR.dents (BFILE.file fsxp m' dnum)) r.1) :
    Changed fsxp dnum m ms m' (BFILE.cachePut dnum r ms') where
  inv := ⟨h.inv.icache, h.inv.len, h.inv.own⟩
  step := h.step.trans_self hinv (BFILE.Step.of_eq fsxp {dnum} m' rfl rfl rfl rfl)
  attr := h.attr
  dir := hd
  other d hd := by rw [getElem?_cachePut, if_neg hd, h.msCache]
  cache := ⟨r, by rw [getElem?_cachePut, if_pos rfl], ha⟩

/-- An entry with the name can be added to the directory. -/
structure CanLink (fsxp : FsXparams) (m : Mem) (ms : BFILE.MemState) (dnum : ℕ) (name : Sname) :
    Prop where
  valid : SDIR.isValidSname name
  fresh : ∀ e ∈ SDIR.dents (BFILE.file fsxp m dnum), e.1 ≠ name
  room : DIR.HasRoom fsxp m ms dnum

/-- The directory `dnum` is there and its cached entries are right. -/
structure Ready (fsxp : FsXparams) (dnum : ℕ) (m : Mem) (ms : BFILE.MemState) : Prop where
  inv : BFILE.Inv fsxp m ms
  lt : dnum < INODE.ninodes fsxp.inode
  dir : SDIR.DirOk (BFILE.file fsxp m dnum)
  cache : ∀ dc, ms.msCache[dnum]? = some dc → Agrees (SDIR.dents (BFILE.file fsxp m dnum)) dc.1

theorem Changed.ready (h : Changed fsxp dnum m ms m' ms') (hr : Ready fsxp dnum m ms) :
    Ready fsxp dnum m' ms' where
  inv := h.inv
  lt := hr.lt
  dir := h.dir
  cache dc hdc := by
    obtain ⟨dc', hdc', ha⟩ := h.cache
    obtain rfl : dc' = dc := Option.some.inj (hdc'.symm.trans hdc)
    exact ha

/-- The error when an entry cannot be added. -/
def linkErr (fsxp : FsXparams) (m : Mem) (dnum : ℕ) (name : Sname) : Errno :=
  if name ∈ (SDIR.dents (BFILE.file fsxp m dnum)).map Prod.fst then .EEXIST
  else SDIR.linkErr fsxp m dnum name

/-- What an attempt to add an entry leaves that fails: the entries are in the cache, and there may be
fewer free blocks. -/
structure Failed (fsxp : FsXparams) (dnum : ℕ) (m : Mem) (ms : BFILE.MemState) (m' : Mem)
    (ms' : BFILE.MemState) : Prop where
  inv : BFILE.Inv fsxp m' ms'
  leaks : BFILE.Leaks fsxp m { ms with msCache := ms'.msCache } m' ms'
  other : ∀ d, d ≠ dnum → ms'.msCache[d]? = ms.msCache[d]?
  cache : ∃ dc, ms'.msCache[dnum]? = some dc ∧ Agrees (SDIR.dents (BFILE.file fsxp m dnum)) dc.1

/-- The entries have been read into the cache, and then the attempt fails. -/
theorem Changed.failed (hch : Changed fsxp dnum m ms m ms')
    (hms : ms' = { ms with msICache := ms'.msICache, msCache := ms'.msCache })
    (hinv : BFILE.Inv fsxp m' ms'') (hlk : BFILE.Leaks fsxp m ms' m' ms'') :
    Failed fsxp dnum m ms m' ms'' where
  inv := hinv
  leaks := by
    have h₁ := hlk.side
    have h₂ := hlk.free
    have h₃ := hlk.frame
    have h₄ := hlk.coh
    have h₅ := hlk.msAlloc
    have h₆ := hlk.msIAllocC
    have h₇ := hlk.msDBlocks
    rw [hms] at h₁ h₂ h₃ h₄ h₅ h₆ h₇
    exact ⟨h₃, h₂, h₁, h₄, h₅, h₆, rfl, h₇⟩
  other d hd := by rw [hlk.msCache, hch.other d hd]
  cache := by
    rw [hlk.msCache]
    exact hch.cache

theorem dirChanged_withICache {c : INODE.Cache} (h : BFILE.Inv fsxp m { ms with msICache := c }) :
    DIR.Changed fsxp dnum m ms m { ms with msICache := c } :=
  ⟨h, BFILE.Step.withICache fsxp {dnum} m ms c, rfl, rfl⟩

variable (hx : fsxp.Ok n) (hr : Ready fsxp dnum m ms)

include hx hr

theorem wp_getDcache {Q : BFILE.MemState × Dcache × ℕ → Mem → Prop}
    (hQ : ∀ ms' r, Changed fsxp dnum m ms m ms' →
      ms' = { ms with msICache := ms'.msICache, msCache := ms'.msCache } →
      Agrees (SDIR.dents (BFILE.file fsxp m dnum)) r.1 → Q (ms', r) m) :
    Txn.wp n (getDcache fsxp.inode dnum ms) Q m := by
  unfold getDcache
  cases hget : BFILE.cacheGet dnum ms with
  | none =>
    apply wp_bind
    apply SDIR.wp_readdir hx hr.inv hr.lt
    intro c hinv'
    apply wp_pure
    have ha := agrees_fillCache hr.dir.nodup
    exact hQ _ _ (Changed.of_cachePut hr.inv (dirChanged_withICache hinv') hr.dir ha) rfl ha
  | some r =>
    apply wp_pure
    have ha := hr.cache r hget
    exact hQ ms r ⟨hr.inv, BFILE.Step.refl fsxp _ m ms, rfl, hr.dir, fun _ _ => rfl,
      r, hget, ha⟩ rfl ha

theorem wp_lookup {Q : BFILE.MemState × Option (ℕ × Bool) → Mem → Prop}
    (hQ : ∀ ms' r, Changed fsxp dnum m ms m ms' →
      ms' = { ms with msICache := ms'.msICache, msCache := ms'.msCache } →
      (∀ e, r = some e ↔ (name, e) ∈ SDIR.dents (BFILE.file fsxp m dnum)) → Q (ms', r) m) :
    Txn.wp n (lookup fsxp.inode dnum name ms) Q m := by
  apply wp_bind
  apply wp_getDcache hx hr
  intro ms' r hch hms ha
  exact wp_pure (hQ ms' _ hch hms fun e => ha name e)

theorem wp_readdir {Q : BFILE.MemState × List SDIR.Readent → Mem → Prop}
    (hQ : ∀ c, BFILE.Inv fsxp m { ms with msICache := c } →
      Q ({ ms with msICache := c }, SDIR.dents (BFILE.file fsxp m dnum)) m) :
    Txn.wp n (readdir fsxp.inode dnum ms) Q m :=
  SDIR.wp_readdir hx hr.inv hr.lt hQ

theorem wp_unlink (he : (name, e) ∈ SDIR.dents (BFILE.file fsxp m dnum))
    {Q : BFILE.MemState × Res Unit → Mem → Prop}
    (hQ : ∀ ms' m', Changed fsxp dnum m ms m' ms' → BFILE.Kept fsxp dnum m ms m' ms' →
      (SDIR.dents (BFILE.file fsxp m dnum)).Perm
        ((name, e) :: SDIR.dents (BFILE.file fsxp m' dnum)) → Q (ms', .ok ()) m') :
    Txn.wp n (unlink fsxp.inode dnum name ms) Q m := by
  apply wp_bind
  apply wp_getDcache hx hr
  intro ms₁ r hch hms₁ ha
  have hr₁ := hch.ready hr
  dsimp only
  rw [(ha name e).2 he]
  apply wp_bind
  apply SDIR.wp_unlink hx hr₁.inv hr.lt hr.dir he
  intro ms₂ m₂ ix hch' hk hd' hp
  apply wp_pure
  have hk' : BFILE.Kept fsxp dnum m ms m₂ (BFILE.cachePut dnum (r.1.erase name, ix) ms₂) := by
    have hk₁ : BFILE.Kept fsxp dnum m ms m ms₁ := by
      rw [hms₁]
      exact BFILE.Kept.of_eq fsxp dnum m rfl rfl
    exact (hk₁.trans hk).trans (BFILE.Kept.of_eq fsxp dnum m₂ rfl rfl)
  have ha' : Agrees (SDIR.dents (BFILE.file fsxp m₂ dnum)) (r.1.erase name) :=
    ha.erase hr.dir.nodup hp
  have hch₂ := Changed.of_cachePut (r := (r.1.erase name, ix)) hr₁.inv hch' hd' ha'
  exact hQ _ m₂ (hch.trans hr.inv hch₂) hk' hp

/-- A name that is not there is not removed. -/
theorem wp_unlink_none (hn : ∀ e, (name, e) ∉ SDIR.dents (BFILE.file fsxp m dnum))
    {Q : BFILE.MemState × Res Unit → Mem → Prop}
    (hQ : ∀ ms', Changed fsxp dnum m ms m ms' →
      ms' = { ms with msICache := ms'.msICache, msCache := ms'.msCache } →
      Q (ms', .error .ENOENT) m) :
    Txn.wp n (unlink fsxp.inode dnum name ms) Q m := by
  apply wp_bind
  apply wp_getDcache hx hr
  intro ms' r hch hms ha
  have hnone : r.1[name]? = none := by
    rw [Option.eq_none_iff_forall_ne_some]
    exact fun e he => hn e ((ha name e).1 he)
  dsimp only
  rw [hnone]
  exact wp_pure (hQ ms' hch hms)

theorem wp_link {inum : ℕ} {isdir : Bool} (hinum : inum < 2 ^ addrlen)
    {Q : BFILE.MemState × Res Unit → Mem → Prop}
    (hQe : ¬ CanLink fsxp m ms dnum name → ∀ ms' m', Failed fsxp dnum m ms m' ms' →
      Q (ms', .error (linkErr fsxp m dnum name)) m')
    (hQ : CanLink fsxp m ms dnum name → ∀ ms' m', Changed fsxp dnum m ms m' ms' →
      (SDIR.dents (BFILE.file fsxp m' dnum)).Perm
        ((name, inum, isdir) :: SDIR.dents (BFILE.file fsxp m dnum)) → Q (ms', .ok ()) m') :
    Txn.wp n (link fsxp.inode dnum fsxp.blockAlloc name inum isdir ms) Q m := by
  apply wp_bind
  apply wp_lookup hx hr
  intro ms₁ res hch hms₁ hres
  cases res with
  | some e =>
    have hmem := (hres e).1 rfl
    have herr : linkErr fsxp m dnum name = .EEXIST :=
      if_pos (List.mem_map_of_mem (f := Prod.fst) hmem)
    rw [← herr]
    apply wp_pure (hQe (fun h => h.fresh _ hmem rfl) ms₁ m _)
    exact hch.failed hms₁ hch.inv (BFILE.Leaks.withICache fsxp m ms₁ ms₁.msICache)
  | none =>
    have hr₁ := hch.ready hr
    apply wp_bind
    apply wp_getDcache hx hr₁
    intro ms₂ r hch' hms₂ ha
    have hch₂ := hch.trans hr.inv hch'
    have hr₂ := hch₂.ready hr
    have hn : ∀ e ∈ SDIR.dents (BFILE.file fsxp m dnum), e.1 ≠ name := by
      rintro ⟨s, e⟩ he rfl
      cases (hres e).2 he
    have hroom : DIR.HasRoom fsxp m ms₂ dnum ↔ DIR.HasRoom fsxp m ms dnum := by
      rw [hms₂, hms₁]
      exact Iff.rfl
    apply wp_bind
    apply SDIR.wp_link hx hr₂.inv hr.lt hr.dir hn hinum
    · intro hlack ms' m' ix hinv' hlk
      have herr : linkErr fsxp m dnum name = SDIR.linkErr fsxp m dnum name := by
        apply if_neg
        intro hmem
        obtain ⟨e, he, hname⟩ := List.mem_map.1 hmem
        exact hn e he hname
      rw [← herr]
      apply wp_pure (hQe (fun h => hlack ⟨h.valid, hroom.2 h.room⟩) ms' m' _)
      apply hch₂.failed _ hinv' hlk
      rw [hms₁] at hms₂
      exact hms₂
    · intro hv hroom' ms₃ m₃ ix hch₃ hd₃ hp
      apply wp_pure
      have ha' : Agrees (SDIR.dents (BFILE.file fsxp m₃ dnum)) (r.1.insert name (inum, isdir)) :=
        ha.insert hn hp
      exact hQ ⟨hv, hn, hroom.1 hroom'⟩ _ m₃ (hch₂.trans hr.inv
        (Changed.of_cachePut (r := (r.1.insert name (inum, isdir), ix)) hr₂.inv hch₃ hd₃ ha')) hp

/-- An entry whose name is not valid is not added. -/
theorem wp_link_invalid {inum : ℕ} {isdir : Bool} (hname : SDIR.isValidSname name = false)
    {Q : BFILE.MemState × Res Unit → Mem → Prop}
    (hQ : ∀ ms', Ready fsxp dnum m ms' →
      ms' = { ms with msICache := ms'.msICache, msCache := ms'.msCache } →
      Q (ms', .error .ENAMETOOLONG) m) :
    Txn.wp n (link fsxp.inode dnum fsxp.blockAlloc name inum isdir ms) Q m := by
  apply wp_bind
  apply wp_lookup hx hr
  intro ms₁ res hch hms₁ hres
  cases res with
  | some e =>
    rw [hr.dir.valid_of_mem ((hres e).1 rfl)] at hname
    cases hname
  | none =>
    apply wp_bind
    apply wp_getDcache hx (hch.ready hr)
    intro ms₂ r hch₂ hms₂ _
    have hlink : SDIR.link fsxp.inode dnum fsxp.blockAlloc name inum isdir r.2 ms₂ =
        pure (ms₂, 0, .error .ENAMETOOLONG) := by
      rw [SDIR.link, hname]
      rfl
    rw [hms₁] at hms₂
    dsimp only
    rw [hlink]
    exact wp_bind (wp_pure (wp_pure (hQ ms₂ (hch₂.ready (hch.ready hr)) hms₂)))

end CacheOneDir

end Fscq
