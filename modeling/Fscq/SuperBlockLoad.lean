import Fscq.CacheRun
import Fscq.RecPath
import Fscq.SuperBlock

/-!
# Reading the superblock

The superblock is written and read by the names of its fields.  What has been written is read back,
from the record, from the cache, and after any number of crashes as long as nothing else is written to
block zero.
-/

namespace Fscq

open CrashProg

open Rec (FieldIn recget recset)

namespace SB

/-! ### Fields by name -/

/-- The fields of a superblock. -/
def superblockFields : List (String × Rec.Ty) :=
  [("data_start", .wordF addrlen), ("log_header", .wordF addrlen), ("log_descr", .wordF addrlen),
    ("log_descrlen", .wordF addrlen), ("log_data", .wordF addrlen), ("log_len", .wordF addrlen),
    ("ixstart", .wordF addrlen), ("ixlen", .wordF addrlen),
    ("bastart1", .wordF addrlen), ("banblocks1", .wordF addrlen),
    ("bastart2", .wordF addrlen), ("banblocks2", .wordF addrlen),
    ("iastart", .wordF addrlen), ("ianblocks", .wordF addrlen),
    ("root_inum", .wordF addrlen), ("maxblock", .wordF addrlen), ("magic", .wordF addrlen)]

/-- The address in a field.  The place of the field is found from its name. -/
def getField (sb : superblockType.data) (s : String)
    (f : FieldIn superblockFields s (.wordF addrlen) := by
      repeat' first | exact .FE _ _ _ | refine .FS _ _ (by decide) ?_) : ℕ :=
  let w : Waddr := recget f sb
  w.toNat

/-- A superblock with another address in a field. -/
def setField (s : String) (a : ℕ) (sb : superblockType.data)
    (f : FieldIn superblockFields s (.wordF addrlen) := by
      repeat' first | exact .FE _ _ _ | refine .FS _ _ (by decide) ?_) : superblockType.data :=
  recset f sb (addr2w a)

def superblock0 : superblockType.data := Rec.ofWord superblockType 0

def superblockPad0 : superblockPadded.data := Rec.ofWord superblockPadded 0

def fillSuperblock (fsxp : FsXparams) : superblockType.data :=
  let sb := superblock0
  let sb := setField "data_start" fsxp.log.dataStart sb
  let sb := setField "log_header" fsxp.log.logHeader sb
  let sb := setField "log_descr" fsxp.log.logDescriptor sb
  let sb := setField "log_descrlen" fsxp.log.logDescLen sb
  let sb := setField "log_data" fsxp.log.logData sb
  let sb := setField "log_len" fsxp.log.logLen sb
  let sb := setField "ixstart" fsxp.inode.ixStart sb
  let sb := setField "ixlen" fsxp.inode.ixLen sb
  let sb := setField "bastart1" fsxp.blockAlloc1.bmapStart sb
  let sb := setField "banblocks1" fsxp.blockAlloc1.bmapNBlocks sb
  let sb := setField "bastart2" fsxp.blockAlloc2.bmapStart sb
  let sb := setField "banblocks2" fsxp.blockAlloc2.bmapNBlocks sb
  let sb := setField "iastart" fsxp.inodeAlloc.bmapStart sb
  let sb := setField "ianblocks" fsxp.inodeAlloc.bmapNBlocks sb
  let sb := setField "root_inum" fsxp.rootInum sb
  let sb := setField "maxblock" fsxp.maxBlock sb
  setField "magic" fsxp.magic sb

/-- The field of the padded record that holds the superblock. -/
def sbField : FieldIn [("sb", superblockType), ("pad", .wordF (valulen - superblockType.len))] "sb"
    superblockType :=
  .FE "sb" superblockType _

def unpickleSuperblock (sbp : BitVec superblockPadded.len) : FsXparams :=
  let sb : superblockType.data := recget sbField (Rec.ofWord superblockPadded sbp)
  { log :=
      { dataStart := getField sb "data_start", logHeader := getField sb "log_header"
        logDescriptor := getField sb "log_descr", logDescLen := getField sb "log_descrlen"
        logData := getField sb "log_data", logLen := getField sb "log_len" }
    inode := { ixStart := getField sb "ixstart", ixLen := getField sb "ixlen" }
    blockAlloc1 := { bmapStart := getField sb "bastart1", bmapNBlocks := getField sb "banblocks1" }
    blockAlloc2 := { bmapStart := getField sb "bastart2", bmapNBlocks := getField sb "banblocks2" }
    inodeAlloc := { bmapStart := getField sb "iastart", bmapNBlocks := getField sb "ianblocks" }
    rootInum := getField sb "root_inum"
    maxBlock := getField sb "maxblock"
    magic := getField sb "magic" }

def vUnpickleSuperblock (v : Valu) : FsXparams :=
  unpickleSuperblock (v.cast superblockPadded_len.symm)

/-! ### The record -/

/-- The fields of a layout, in the order of the superblock. -/
def fields (fsxp : FsXparams) : List ℕ :=
  [fsxp.log.dataStart, fsxp.log.logHeader, fsxp.log.logDescriptor, fsxp.log.logDescLen,
    fsxp.log.logData, fsxp.log.logLen, fsxp.inode.ixStart, fsxp.inode.ixLen,
    fsxp.blockAlloc1.bmapStart, fsxp.blockAlloc1.bmapNBlocks, fsxp.blockAlloc2.bmapStart,
    fsxp.blockAlloc2.bmapNBlocks, fsxp.inodeAlloc.bmapStart, fsxp.inodeAlloc.bmapNBlocks,
    fsxp.rootInum, fsxp.maxBlock, fsxp.magic]

/-- Each field has its place in a superblock. -/
def Fits (fsxp : FsXparams) : Prop := ∀ a ∈ fields fsxp, a < 2 ^ addrlen

/-- The superblock of a layout with its padding. -/
def padded (fsxp : FsXparams) : superblockPadded.data :=
  let pad : BitVec (valulen - superblockType.len) := 0
  (fillSuperblock fsxp, pad, ())

/-- Filling in the fields by name gives the record of the layout. -/
theorem pickleSuperblock_eq_padded (fsxp : FsXparams) :
    pickleSuperblock fsxp = Rec.toWord superblockPadded (padded fsxp) := rfl

theorem padded_eq (fsxp : FsXparams) :
    padded fsxp = recset sbField superblockPad0 (fillSuperblock fsxp) := by
  let padField : FieldIn _ "pad" (.wordF (valulen - superblockType.len)) :=
    .FS "sb" superblockType (by decide) (.FE "pad" (.wordF (valulen - superblockType.len)) [])
  have hpad : recget padField superblockPad0 = (0 : BitVec (valulen - superblockType.len)) := by
    refine (Rec.recget_ofWordFields padField 0).trans ?_
    exact BitVec.extractLsb'_zero
  exact Prod.ext rfl (Prod.ext hpad.symm rfl)

theorem wellFormed_padded (fsxp : FsXparams) : Rec.WellFormed superblockPadded (padded fsxp) := by
  refine ⟨?_, trivial, trivial⟩
  exact ⟨trivial, trivial, trivial, trivial, trivial, trivial, trivial, trivial, trivial, trivial,
    trivial, trivial, trivial, trivial, trivial, trivial, trivial, trivial⟩

/-- A layout is determined by its fields. -/
theorem fields_injective : Function.Injective fields := by
  intro fsxp fsxp' h
  obtain ⟨⟨⟩, ⟨⟩, ⟨⟩, ⟨⟩, ⟨⟩, _, _, _⟩ := fsxp
  obtain ⟨⟨⟩, ⟨⟩, ⟨⟩, ⟨⟩, ⟨⟩, _, _, _⟩ := fsxp'
  simp only [fields, List.cons.injEq] at h
  simp [h]

theorem fields_unpickleSuperblock (fsxp : FsXparams) :
    fields (unpickleSuperblock (pickleSuperblock fsxp)) =
      (fields fsxp).map fun a => (addr2w a).toNat := by
  have hget : recget sbField (Rec.ofWord superblockPadded (pickleSuperblock fsxp)) =
      fillSuperblock fsxp := by
    rw [pickleSuperblock_eq_padded, Rec.ofWord_toWord _ _ (wellFormed_padded fsxp)]
    rfl
  rw [unpickleSuperblock, hget]
  rfl

theorem unpickleSuperblock_pickleSuperblock {fsxp : FsXparams} (h : Fits fsxp) :
    unpickleSuperblock (pickleSuperblock fsxp) = fsxp := by
  apply fields_injective
  rw [fields_unpickleSuperblock]
  exact (List.map_congr_left fun a ha => toNat_addr2w (h a ha)).trans (List.map_id _)

theorem vUnpickleSuperblock_vPickleSuperblock {fsxp : FsXparams} (h : Fits fsxp) :
    vUnpickleSuperblock (vPickleSuperblock fsxp) = fsxp := by
  rw [vUnpickleSuperblock, vPickleSuperblock, Rec.cast_cast_self,
    unpickleSuperblock_pickleSuperblock h]

theorem getLsbD_toWordFields_zero (s : String) (l i : ℕ) :
    (Rec.toWordFields [(s, .wordF l)] ((0 : BitVec l), ())).getLsbD i = false := by
  refine (getLsbD_combine (0 : BitVec l) (0 : BitVec 0) i).trans ?_
  simp

/-- Behind the superblock the block is zero. -/
theorem getLsbD_vPickleSuperblock (fsxp : FsXparams) {i : ℕ} (h : superblockType.len ≤ i) :
    (vPickleSuperblock fsxp).getLsbD i = false := by
  rw [vPickleSuperblock, BitVec.getLsbD_cast, pickleSuperblock_eq_padded]
  refine (getLsbD_combine (Rec.toWord superblockType (fillSuperblock fsxp)) _ i).trans ?_
  rw [if_neg (Nat.not_lt.2 h)]
  exact getLsbD_toWordFields_zero "pad" _ _

/-! ### Block zero -/

/-- The disk has `n` blocks, and block zero holds `v` whatever happens. -/
structure Fixed (n : ℕ) (v : Valu) (d : Rawdisk) : Prop where
  dom : ∀ a, d a = none ↔ n ≤ a
  block : ∃ vs, d 0 = some vs ∧ ∀ x ∈ vsmerge vs, x = v

section

variable {n : ℕ} {v : Valu} {d d' : Rawdisk}

theorem Fixed.possibleSync (h : Fixed n v d) (hd : PossibleSync d d') : Fixed n v d' where
  dom a := by
    rw [← h.dom a]
    rcases hd a with ⟨h₁, h₂⟩ | ⟨w, l, l', h₁, h₂, -⟩
    · rw [h₁, h₂]
    · rw [h₁, h₂]
      simp
  block := by
    obtain ⟨vs, hvs, hv⟩ := h.block
    rcases hd 0 with ⟨h₁, -⟩ | ⟨w, l, l', h₁, h₂, hl⟩
    · rw [hvs] at h₁
      cases h₁
    · rw [hvs, Option.some.injEq] at h₁
      subst h₁
      exact ⟨_, h₂, fun x hx => hv x (List.cons_subset_cons w hl hx)⟩

theorem Fixed.possibleCrash (h : Fixed n v d) (hd : PossibleCrash d d') : Fixed n v d' where
  dom a := by
    rw [← h.dom a]
    rcases hd a with ⟨h₁, h₂⟩ | ⟨vs, w, h₁, h₂, -⟩
    · rw [h₁, h₂]
    · rw [h₁, h₂]
      simp
  block := by
    obtain ⟨vs, hvs, hv⟩ := h.block
    rcases hd 0 with ⟨h₁, -⟩ | ⟨vs', w, h₁, h₂, hw⟩
    · rw [hvs] at h₁
      cases h₁
    · rw [hvs, Option.some.injEq] at h₁
      subst h₁
      obtain rfl : w = v := hv w hw
      exact ⟨_, h₂, by simp [vsmerge]⟩

theorem Fixed.syncMem (h : Fixed n v d) : Fixed n v (syncMem d) where
  dom a := by
    rw [← h.dom a, Fscq.syncMem, Option.map_eq_none_iff]
  block := by
    obtain ⟨vs, hvs, hv⟩ := h.block
    refine ⟨(vs.1, []), by rw [Fscq.syncMem, hvs, Option.map_some], ?_⟩
    intro x hx
    exact hv x (List.mem_cons.2 (.inl (List.mem_singleton.1 hx)))

/-- Another block gets a new value set. -/
theorem Fixed.update {a : ℕ} {vs vs' : Valuset} (h : Fixed n v d) (ha : a ≠ 0) (hd : d a = some vs) :
    Fixed n v (Function.update d a (some vs')) where
  dom b := by
    rw [← h.dom b]
    rcases eq_or_ne b a with rfl | hb
    · rw [Function.update_self, hd]
      simp
    · rw [Function.update_of_ne hb]
  block := by
    rw [Function.update_of_ne ha.symm]
    exact h.block

end

/-! ### Reading -/

variable [Platform]

def load (cs : CacheState) : Prog (CacheState × FsXparams) := do
  let (cs, v) ← BufCache.read 0 cs
  pure (cs, vUnpickleSuperblock v)

/-- What happens after a crash: a fresh cache, and the layout is read. -/
def loadBoot (cachesize : ℕ) : Prog (CacheState × FsXparams) := do
  let cs ← BufCache.initRecover cachesize
  load cs

/-- The operation does not change block zero. -/
def Spares {α : Type} : DiskOp α → Prop
  | .write a _ => a ≠ 0
  | .trim a => a ≠ 0
  | _ => True

/-- The states that operations other than changes of block zero, and crashes, lead to. -/
inductive Later (s : St) : St → Prop
  | refl : Later s s
  | step {s₁ s₂ : St} {α : Type} {o : DiskOp α} {v : α} (h : Later s s₁) (ho : Spares o)
      (hs : diskSem.step s₁ o s₂ v) : Later s s₂
  | reboot {s₁ s₂ : St} (h : Later s s₁) (hr : Reboot s₁ s₂) : Later s s₂

variable {n k : ℕ} {cs : CacheState} {m : ADisk} {hm : Hashmap} {s s' : St} {fsxp : FsXparams}
  {v : Valu}

theorem Fixed.execStep {α : Type} {o : DiskOp α} {x : α} (h : Fixed n v s.disk) (ho : Spares o)
    (hs : ExecStep s o s' x) : Fixed n v s'.disk := by
  rcases hs with ⟨s₁, d, hstep, hd, rfl⟩ | ⟨-, rfl⟩
  · refine Fixed.possibleSync ?_ hd
    cases o with
    | read a =>
      obtain ⟨_, _, rfl⟩ := hstep
      exact h
    | write a w =>
      obtain ⟨v₀, l, ha, rfl⟩ := hstep
      exact h.update ho ha
    | sync =>
      obtain rfl := hstep
      exact h.syncMem
    | trim a =>
      obtain ⟨vs, vs', ha, rfl⟩ := hstep
      exact h.update ho ha
    | varAlloc w =>
      obtain ⟨-, rfl⟩ := hstep
      exact h
    | varDelete i =>
      obtain ⟨-, rfl⟩ := hstep
      exact h
    | varGet i T =>
      obtain ⟨-, rfl⟩ := hstep
      exact h
    | varSet i w =>
      obtain ⟨-, rfl⟩ := hstep
      exact h
    | hash buf =>
      obtain ⟨-, -, rfl⟩ := hstep
      exact h
    | hash2 buf₁ buf₂ =>
      obtain ⟨-, -, rfl⟩ := hstep
      exact h
    | alertModified => exact hstep.elim
    | debug t i => exact hstep.elim
    | rdtsc => exact hstep.elim
  · exact h

theorem Fixed.later (h : Fixed n v s.disk) (hs : Later s s') : Fixed n v s'.disk := by
  induction hs with
  | refl => exact h
  | step _ ho hs ih => exact ih.execStep ho hs
  | reboot _ hr ih => exact ih.possibleCrash hr.1

/-- The cache has nothing else pending for block zero. -/
theorem Fixed.of_cstate (h : CState n cs m hm s) (hn : 0 < n) (hv : ∀ x ∈ m.poss 0, x = v) :
    Fixed n v s.disk where
  dom a := by
    refine ⟨fun hnone => ?_, h.rep.dom a⟩
    by_contra hlt
    obtain ⟨w, l, hd, -⟩ := h.rep.block a (by omega)
    rw [hnone] at hd
    cases hd
  block := by
    obtain ⟨w, l, hd, hposs, -⟩ := h.rep.block 0 hn
    exact ⟨_, hd, fun x hx => hv x (hposs x hx)⟩

theorem Fixed.crash (h : Fixed n v s.disk) : CCrash n (fun m _ => ∀ x ∈ m.poss 0, x = v) s := by
  have hcs : CState n (BufCache.cache0 1) (BufCache.View.init s.disk).disk s.hm s :=
    (BufCache.shows_cache0 one_ne_zero h.dom).state
  refine hcs.crash ?_
  obtain ⟨vs, hvs, hv⟩ := h.block
  intro x hx
  simp only [BufCache.View.init, hvs] at hx
  exact hv x hx

theorem wp_load {CC : ADisk → Hashmap → Prop} {Q : CacheState × FsXparams → St → Prop}
    (h : CState n cs m hm s) (hn : 0 < n) (hf : Fits fsxp) (hv : m.cur 0 = vPickleSuperblock fsxp)
    (hc : CC m hm) (hQ : ∀ cs' s', CState n cs' m hm s' → Q (cs', fsxp) s') :
    wp diskSem (load cs) Q (CCrash n CC) s := by
  refine wp_bind (BufCache.wp_read h hn hc fun cs' s' h' => wp_pure ?_)
  rw [hv, vUnpickleSuperblock_vPickleSuperblock hf]
  exact hQ cs' s' h'

/-- Whatever crashes there are, reading the superblock ends with the layout. -/
theorem loadBoot_sat {out : RecOutcome St (CacheState × FsXparams) (CacheState × FsXparams)}
    (h : Fixed n (vPickleSuperblock fsxp) s.disk) (hn : 0 < n) (hf : Fits fsxp) (hr : Reboot s s')
    (e : ExecRecover diskSem Reboot s' (loadBoot k) (loadBoot k) out) :
    out.Sat (fun r _ => r.2 = fsxp) (fun r _ => r.2 = fsxp) := by
  have hboot : ∀ s₁ s₂, CCrash n (fun m _ => ∀ x ∈ m.poss 0, x = vPickleSuperblock fsxp) s₁ →
      Reboot s₁ s₂ → wp diskSem (loadBoot k) (fun r _ => r.2 = fsxp)
        (CCrash n fun m _ => ∀ x ∈ m.poss 0, x = vPickleSuperblock fsxp) s₂ := by
    intro s₁ s₂ h₁ hr₁
    refine BufCache.wp_boot h₁ hr₁ ?_ ?_
    · rintro m _ f hm hf x rfl
      exact hm _ (hf 0 hn)
    · intro cs f hm s h hc
      exact wp_load h hn hf (hc _ rfl) hc fun _ _ _ => rfl
  exact e.sound (hboot s s' h.crash hr) hboot

/-- The superblock that is made for a layout is the only one for it, fills one block with zeros
behind its fields, and is read back, also after crashes. -/
theorem superblock_exact :
    (∀ fsxp, pickleSuperblock fsxp =
      Rec.toWord superblockPadded (recset sbField superblockPad0 (fillSuperblock fsxp))) ∧
    superblockPadded.len = valulen ∧
    (∀ fsxp i, superblockType.len ≤ i → (vPickleSuperblock fsxp).getLsbD i = false) ∧
    (∀ fsxp, Fits fsxp → unpickleSuperblock (pickleSuperblock fsxp) = fsxp) ∧
    (∀ fsxp fsxp', Fits fsxp → Fits fsxp' →
      vPickleSuperblock fsxp = vPickleSuperblock fsxp' → fsxp = fsxp') ∧
    ∀ fsxp n cs m hm s, Fits fsxp → 0 < n → CState n cs m hm s →
      wp diskSem (init fsxp cs) (fun cs' s' =>
        (∃ m', CState n cs' m' hm s' ∧ m'.cur 0 = vPickleSuperblock fsxp) ∧
        (∀ cs₁ m₁ hm₁ s₁, CState n cs₁ m₁ hm₁ s₁ → m₁.cur 0 = vPickleSuperblock fsxp →
          wp diskSem (load cs₁) (fun r _ => r.2 = fsxp) (fun _ => True) s₁) ∧
        ∀ s₁ s₂ k out, Later s' s₁ → Reboot s₁ s₂ →
          ExecRecover diskSem Reboot s₂ (loadBoot k) (loadBoot k) out →
          out.Sat (fun r _ => r.2 = fsxp) fun r _ => r.2 = fsxp) (fun _ => True) s := by
  refine ⟨fun fsxp => ?_, superblockPadded_len, fun fsxp i => getLsbD_vPickleSuperblock fsxp,
    fun fsxp => unpickleSuperblock_pickleSuperblock, ?_, ?_⟩
  · rw [pickleSuperblock_eq_padded, padded_eq]
  · intro fsxp fsxp' hf hf' h
    rw [← vUnpickleSuperblock_vPickleSuperblock hf, h, vUnpickleSuperblock_vPickleSuperblock hf']
  · intro fsxp n cs m hm s hf hn h
    refine wp_init h hn fun cs' s' h' => ⟨⟨_, h', ?_⟩, ?_, ?_⟩
    · simp [ADisk.sync, ADisk.write]
    · intro cs₁ m₁ hm₁ s₁ h₁ hv
      have hw : wp diskSem (load cs₁) (fun r _ => r.2 = fsxp) (CCrash n fun _ _ => True) s₁ :=
        wp_load h₁ hn hf hv trivial fun _ _ _ => rfl
      exact hw.anyCrash
    · intro s₁ s₂ k out hl hr e
      have hfix : Fixed n (vPickleSuperblock fsxp) s'.disk := by
        refine Fixed.of_cstate h' hn ?_
        rintro x ⟨-, hx⟩
        simpa [ADisk.write] using hx rfl
      exact loadBoot_sat (hfix.later hl) hn hf hr e

end SB

namespace Sample

local instance superblockPlatform : Platform := platform

/-- A layout with seventeen different numbers. -/
def numbered : FsXparams where
  log := ⟨1, 2, 3, 4, 5, 6⟩
  inode := ⟨7, 8⟩
  blockAlloc1 := ⟨9, 10⟩
  blockAlloc2 := ⟨11, 12⟩
  inodeAlloc := ⟨13, 14⟩
  rootInum := 15
  maxBlock := 16
  magic := 17

/-- A disk of one block. -/
def blankBlock : St := ⟨fun a => if a = 0 then some (0, []) else none, fun _ => none, .empty⟩

theorem fits_numbered : SB.Fits numbered := by
  simp [SB.Fits, SB.fields, numbered, addrlen]

/-- The superblock of the layout is written and read back after a crash. -/
theorem superblock_exact_numbered :
    SB.unpickleSuperblock (SB.pickleSuperblock numbered) = numbered ∧
    wp diskSem (SB.init numbered (BufCache.cache0 1)) (fun _ s' => ∀ s₂ out, Reboot s' s₂ →
      ExecRecover diskSem Reboot s₂ (SB.loadBoot 1) (SB.loadBoot 1) out →
      out.Sat (fun r _ => r.2 = numbered) fun r _ => r.2 = numbered) (fun _ => True) blankBlock := by
  obtain ⟨-, -, -, hround, -, hinit⟩ := SB.superblock_exact
  refine ⟨hround numbered fits_numbered, ?_⟩
  have hdom : ∀ a, blankBlock.disk a = none ↔ 1 ≤ a := by
    intro a
    simp [blankBlock, Nat.one_le_iff_ne_zero]
  have hcs := (BufCache.shows_cache0 one_ne_zero hdom).state
  refine wp_mono (hinit numbered 1 _ _ _ _ fits_numbered one_pos hcs) ?_ fun _ => id
  intro cs' s' h s₂ out hr e
  exact h.2.2 s' s₂ 1 out .refl hr e

end Sample

end Fscq
