import Fscq.DiskLogAtomic

/-!
# Runs of the disk log

A run is a sequence of extensions and truncations of the log, in any order.  Its history lists the
operations with their answers, and determines what is in the log: the entries of the successful
extensions since the last truncation, on blocks that lie one behind the other, with the checksums
that the extensions have computed one from the other.  `RunIs` is the invariant that says so;
reading the log back, recomputing its checksums and recovering it are then corollaries.
-/

namespace Fscq

open CrashProg

namespace PaddedLog

/-- The operations that change the log. -/
inductive LogOp
  | extend (new : Contents)
  | trunc

/-- Only entries with nonzero addresses are put into the log. -/
def LogOp.Valid : LogOp → Prop
  | .extend new => ∀ e ∈ new, EntryValid e
  | .trunc => True

/-- The operations of a run with their answers, newest first. -/
abbrev History := List (LogOp × Bool)

/-- What the successful extensions since the last truncation have added, oldest first, if an
extension by `new` adds `f new`. -/
def sinceTrunc {α : Type} (f : Contents → List α) : History → List α
  | [] => []
  | (.extend new, true) :: hist => sinceTrunc f hist ++ f new
  | (.extend _, false) :: hist => sinceTrunc f hist
  | (.trunc, _) :: _ => []

/-- The descriptor blocks of new entries. -/
def newDesc (new : Contents) : List Valu := descSig.nopadIpack (new.map entAddr)

/-- The entries in the log after a run. -/
def entries : History → Contents := sinceTrunc id

variable [Platform]

/-- The checksums after a run: each extension continues from those in the header. -/
def runChecksum : History → BitVec hashlen × BitVec hashlen
  | [] => (defaultHash, defaultHash)
  | (.extend new, true) :: hist =>
    (hashFold (runChecksum hist).1 (newDesc new), hashFold (runChecksum hist).2 (valsNonzero new))
  | (.extend _, false) :: hist => runChecksum hist
  | (.trunc, _) :: _ => (defaultHash, defaultHash)

theorem runChecksum_eq (hist : History) :
    runChecksum hist = (hashFold defaultHash (sinceTrunc newDesc hist),
      hashFold defaultHash (sinceTrunc valsNonzero hist)) := by
  induction hist with
  | nil => rfl
  | cons r hist ih =>
    obtain ⟨op, ok⟩ := r
    cases op with
    | trunc => rfl
    | extend new =>
      cases ok with
      | true => simp [runChecksum, sinceTrunc, hashFold_append, ih]
      | false => exact ih

/-! ### The programs of a run -/

/-- An operation as a program; an extension answers whether it succeeded. -/
def LogOp.exec (xp : LogXparams) (cs : CacheState) : LogOp → Prog (CacheState × Bool)
  | .extend new => PaddedLog.extend xp new cs
  | .trunc => do
    let cs ← PaddedLog.trunc xp cs
    pure (cs, true)

/-- Run the operations in order and record their answers. -/
def runOps (xp : LogXparams) : List LogOp → CacheState × History → Prog (CacheState × History) :=
  forEach fun op (cs, hist) => do
    let (cs, ok) ← op.exec xp cs
    pure (cs, (op, ok) :: hist)

/-- Recovery that also answers whether the checksums matched. -/
def recoverChecked (xp : LogXparams) (cs : CacheState) : Prog (CacheState × Bool) := do
  let (cs, header) ← Hdr.read xp cs
  let (prevNdesc, prevNdata) := header.previousLength
  let (ndesc, ndata) := header.currentLength
  let (addrChecksum, valuChecksum) := header.checksum
  let (cs, wal) ← AsyncRecArray.readAll descSig xp ndesc cs
  let (cs, vl) ← AsyncRecArray.readAll dataSig xp ndata cs
  let defaultHash ← Prog.hash defaultValu
  let hAddr ← hashList defaultHash (descSig.ipack wal)
  let hValu ← hashList defaultHash vl
  if addrChecksum = hAddr ∧ valuChecksum = hValu then pure (cs, true)
  else do
    Prog.debug "hash mismatch" 0
    let (cs, wal) ← AsyncRecArray.readAll descSig xp prevNdesc cs
    let (cs, vl) ← AsyncRecArray.readAll dataSig xp prevNdata cs
    let addrChecksum ← hashList defaultHash (descSig.ipack wal)
    let valuChecksum ← hashList defaultHash vl
    let cs ← Hdr.write xp ⟨(prevNdesc, prevNdata), (prevNdesc, prevNdata),
      (addrChecksum, valuChecksum)⟩ cs
    let cs ← Hdr.syncNow xp cs
    pure (cs, false)

theorem recoverChecked_erases (xp : LogXparams) (cs : CacheState) :
    Erases diskSem Prod.fst (recoverChecked xp cs) (recover xp cs) := by
  refine (Erases.refl _).bind fun r => (Erases.refl _).bind fun r₁ => (Erases.refl _).bind fun r₂ =>
    (Erases.refl _).bind fun h => (Erases.refl _).bind fun ha => (Erases.refl _).bind fun hv => ?_
  dsimp only [id]
  split_ifs
  · exact .pure _
  · refine (Erases.refl _).bind fun _ => (Erases.refl _).bind fun r₃ => (Erases.refl _).bind
      fun r₄ => (Erases.refl _).bind fun pa => (Erases.refl _).bind fun pv =>
        (Erases.refl _).bind fun cs' => ?_
    exact .tag (fun _ => rfl) _

/-! ## The log after a run -/

/-- The disk `m` holds the log of a run with the history `hist`. -/
structure RunRep (xp : LogXparams) (hist : History) (m : ADisk) (hm : Hashmap) : Prop where
  synced : Synced xp m hm (entries hist)
  desc : curDesc xp m = sinceTrunc newDesc hist
  data : curData xp m = sinceTrunc valsNonzero hist

/-- The state of the machine after a run with the history `hist`. -/
def RunIs (n : ℕ) (xp : LogXparams) (hist : History) (cs : CacheState) (s : St) : Prop :=
  ∃ m hm, CState n cs m hm s ∧ RunRep xp hist m hm

variable {n : ℕ} {xp : LogXparams} {cs : CacheState} {m : ADisk} {hm : Hashmap} {s : St}
  {hist : History} {l : Contents} {CC : ADisk → Hashmap → Prop}

/-- A run that leaves an empty log. -/
theorem runRep_of_nil (hs : Synced xp m hm []) (h : (hdrOf xp m).currentLength = (0, 0))
    (hist : History) (he : ∀ {α : Type} (f : Contents → List α), sinceTrunc f hist = []) :
    RunRep xp hist m hm := by
  refine ⟨?_, ?_, ?_⟩
  · rwa [entries, he]
  · rw [curDesc, h, he]
    rfl
  · rw [curData, h, he]
    rfl

theorem RunRep.extend {m' : ADisk} {hm' : Hashmap} {new : Contents} (h : RunRep xp hist m hm)
    (hs : Synced xp m' hm' (entries hist ++ new)) (he : Extends xp m m' new) :
    RunRep xp ((.extend new, true) :: hist) m' hm' where
  synced := hs
  desc := by
    rw [he.desc, h.desc]
    rfl
  data := by
    rw [he.data, h.data]
    rfl

/-- An initialised log is empty, whatever was on the disk before. -/
theorem wp_init {Q : CacheState → St → Prop} (hl : Layout n xp) (h : CState n cs m hm s)
    (hQ : ∀ cs' m' hm' s', CState n cs' m' hm' s' → Synced xp m' hm' [] →
      m'.cur xp.logHeader = Hdr.empty.encode → Q cs' s') :
    wp diskSem (init xp cs) Q (fun _ => True) s := by
  have hinit : wp diskSem (init xp cs) Q (CCrash n fun _ _ => True) s := by
    unfold init Hdr.init
    refine wp_bind (wp_hashDefault h fun hm₁ s h _ => ?_)
    refine wp_bind (Hdr.wp_write hl h trivial fun cs s h => ?_)
    refine Hdr.wp_syncNow h trivial fun cs s h => ?_
    exact hQ _ _ _ _ h (synced_header hl Hdr.empty_good (holds_nil xp m hm₁))
      (by simp [ADisk.sync, ADisk.write, Hdr.empty])
  exact hinit.anyCrash

/-- One operation of a run. -/
theorem RunIs.wp_exec (hl : Layout n xp) (h : RunIs n xp hist cs s) {op : LogOp}
    (hop : op.Valid) :
    wp diskSem (op.exec xp cs) (fun r s' => RunIs n xp ((op, r.2) :: hist) r.1 s')
      (fun _ => True) s := by
  obtain ⟨m, hm, h, hr⟩ := h
  have hexec : wp diskSem (op.exec xp cs) (fun r s' => RunIs n xp ((op, r.2) :: hist) r.1 s')
      (CCrash n fun _ _ => True) s := by
    cases op with
    | extend new =>
      refine wp_extend hl h hr.synced hop (fun _ _ _ _ _ => trivial) ?_ ?_
      · intro cs' m' hm' s' h' _ _ hs he
        exact ⟨m', hm', h', hr.extend hs he⟩
      · intro cs' s' h' _
        exact ⟨m, hm, h', hr.synced, hr.desc, hr.data⟩
    | trunc =>
      refine wp_bind (wp_trunc hl h hr.synced (fun _ _ _ _ _ => trivial) ?_)
      intro cs' m' hm' s' h' _ _ hs h0
      exact wp_pure ⟨m', hm', h', runRep_of_nil hs h0 _ fun _ => rfl⟩
  exact hexec.anyCrash

/-- A run of operations. -/
theorem RunIs.wp_runOps (hl : Layout n xp) {ops : List LogOp} (hops : ∀ op ∈ ops, op.Valid)
    (h : RunIs n xp hist cs s) :
    wp diskSem (runOps xp ops (cs, hist))
      (fun r s' => r.2.map Prod.fst = ops.reverse ++ hist.map Prod.fst ∧ RunIs n xp r.2 r.1 s')
      (fun _ => True) s := by
  -- the invariant is about the operations still to come
  refine wp_mono (wp_forEach (fun rest r s => rest ⊆ ops ∧
    rest.reverse ++ r.2.map Prod.fst = ops.reverse ++ hist.map Prod.fst ∧
    RunIs n xp r.2 r.1 s) ?_ ops (cs, hist) s ⟨List.Subset.refl _, rfl, h⟩) ?_ fun _ => id
  · rintro op rest ⟨cs, hist'⟩ s ⟨hsub, hlist, h⟩
    refine wp_seq (h.wp_exec hl (hops op (hsub List.mem_cons_self))) ?_
    rintro ⟨cs', ok⟩ s' h'
    refine wp_pure ⟨fun o ho => hsub (List.mem_cons_of_mem _ ho), ?_, h'⟩
    simpa using hlist
  · rintro r s' ⟨-, h₁, h₂⟩
    exact ⟨by simpa using h₁, h₂⟩

/-- A run from an initialised log. -/
theorem wp_initRun (hl : Layout n xp) {ops : List LogOp} (hops : ∀ op ∈ ops, op.Valid)
    (h : CState n cs m hm s) :
    wp diskSem (do
      let cs ← init xp cs
      runOps xp ops (cs, []))
      (fun r s' => r.2.map Prod.fst = ops.reverse ∧ RunIs n xp r.2 r.1 s') (fun _ => True) s := by
  refine wp_bind (wp_init hl h fun cs' m' hm' s' h' hs hv => ?_)
  have h0 : (hdrOf xp m').currentLength = (0, 0) := by
    rw [hdrOf_encode Hdr.empty_good hv]
    rfl
  have hrun : RunIs n xp [] cs' s' := ⟨m', hm', h', runRep_of_nil hs h0 _ fun _ => rfl⟩
  refine wp_mono (hrun.wp_runOps hl hops) ?_ fun _ => id
  rintro r s'' ⟨h₁, h₂⟩
  exact ⟨by simpa using h₁, h₂⟩

/-- After every sequence of extensions and truncations of an initialised log, reading the log
returns the entries of the successful extensions since the last truncation, in order. -/
theorem read_after_run (hl : Layout n xp) (ops : List LogOp) (hops : ∀ op ∈ ops, op.Valid)
    (h : CState n cs m hm s) :
    wp diskSem (do
      let cs ← init xp cs
      runOps xp ops (cs, []))
      (fun r s' => r.2.map Prod.fst = ops.reverse ∧
        wp diskSem (read xp r.1) (fun q _ => q.2 = entries r.2) (fun _ => True) s')
      (fun _ => True) s := by
  refine wp_mono (wp_initRun hl hops h) ?_ fun _ => id
  rintro ⟨cs', hist⟩ s' ⟨hops', m', hm', h', hr⟩
  refine ⟨hops', ?_⟩
  have hread : wp diskSem (read xp cs') (fun q _ => q.2 = entries hist)
      (CCrash n fun _ _ => True) s' :=
    wp_read hl h' hr.synced trivial fun _ _ _ => rfl
  exact hread.anyCrash

/-! ## The checksums -/

/-- The checksums in the header are those of the blocks on disk. -/
theorem Synced.checksum_eq (h : Synced xp m hm l) :
    (hdrOf xp m).checksum =
      (hashFold defaultHash (curDesc xp m), hashFold defaultHash (curData xp m)) := by
  obtain ⟨-, hd, hg, hv, hh⟩ := h
  rw [curDesc, curData, hdrOf_encode hg hv]
  exact Prod.ext hh.chk_desc.eq_hashFold hh.chk_data.eq_hashFold

/-- Recovery finds the checksums of a complete log right and does not touch the disk. -/
theorem wp_recoverChecked {Q : CacheState × Bool → St → Prop} (hl : Layout n xp)
    (h : CState n cs m hm s) (hs : Synced xp m hm l) (hc : ∀ hm', CC m hm')
    (hQ : ∀ cs' hm' s', CState n cs' m hm' s' → hm.Le hm' → Q (cs', true) s') :
    wp diskSem (recoverChecked xp cs) Q (CCrash n CC) s := by
  obtain ⟨-, ⟨⟨pd, pv⟩, ⟨nd, nv⟩, ⟨ca, cv⟩⟩, hg, hv, hh⟩ := hs
  unfold recoverChecked
  refine wp_bind (Hdr.wp_read hl h (hc hm) fun cs s h => ?_)
  rw [hv, Hdr.ofHeader_encode hg]
  dsimp only
  refine wp_bind (AsyncRecArray.wp_readAll h (hh.area_le hl).1 (hc hm) fun cs s h => ?_)
  refine wp_bind (AsyncRecArray.wp_readAll h (hh.area_le hl).2 (hc hm) fun cs s h => ?_)
  dsimp only
  rw [dataSig_items, RASig.ipack_items]
  refine wp_bind (wp_hashDefault h fun hm₁ s h hle₁ => ?_)
  refine wp_bind (wp_hashList' (l := []) h rfl fun hm₂ ca' s h hle₂ hr₁ => ?_)
  refine wp_bind (wp_hashList' (l := []) h rfl fun hm₃ cv' s h hle₃ hr₂ => ?_)
  have hle := (hle₁.trans hle₂).trans hle₃
  rw [List.append_nil] at hr₁ hr₂
  have hchk : ca = ca' ∧ cv = cv' :=
    ⟨(hh.chk_desc.mono hle).unique (hr₁.mono hle₃), (hh.chk_data.mono hle).unique hr₂⟩
  rw [if_pos hchk]
  exact wp_pure (hQ _ _ _ h hle)

/-- After every sequence of extensions and truncations of an initialised log, the checksums in the
header, which the extensions have computed one from the other, are the ones of all descriptor words
and all data blocks on disk.  Recovery finds that they match, both at once and after a crash, and
leaves the log as it is. -/
theorem checksums_agree (k : ℕ) (hl : Layout n xp) (ops : List LogOp)
    (hops : ∀ op ∈ ops, op.Valid) (h : CState n cs m hm s) :
    (∀ cs, Erases diskSem Prod.fst (recoverChecked xp cs) (recover xp cs)) ∧
    wp diskSem (do
      let cs ← init xp cs
      runOps xp ops (cs, []))
      (fun r s' => r.2.map Prod.fst = ops.reverse ∧ ∃ m' hm', CState n r.1 m' hm' s' ∧
        (hdrOf xp m').checksum = runChecksum r.2 ∧
        runChecksum r.2 =
          (hashFold defaultHash (descSig.ipack (descSig.items (curDesc xp m'))),
            hashFold defaultHash (dataSig.items (curData xp m'))) ∧
        wp diskSem (recoverChecked xp r.1)
          (fun q s'' => q.2 = true ∧ ∃ hm'', CState n q.1 m' hm'' s'') (fun _ => True) s' ∧
        ∀ s₂, Reboot s' s₂ → wp diskSem (do
          let cs ← BufCache.initRecover k
          recoverChecked xp cs)
          (fun q s'' => q.2 = true ∧ LogIs n xp (entries r.2) q.1 s'') (fun _ => True) s₂)
      (fun _ => True) s := by
  refine ⟨recoverChecked_erases xp, ?_⟩
  refine wp_mono (wp_initRun hl hops h) ?_ fun _ => id
  rintro ⟨cs', hist⟩ s' ⟨hops', m', hm', h', hr⟩
  have hchk := hr.synced.checksum_eq
  refine ⟨hops', m', hm', h', ?_, ?_, ?_, fun s₂ hb => ?_⟩
  · rw [hchk, runChecksum_eq, hr.desc, hr.data]
  · rw [runChecksum_eq, RASig.ipack_items, dataSig_items, hr.desc, hr.data]
  · have hrec : wp diskSem (recoverChecked xp cs')
        (fun q s'' => q.2 = true ∧ ∃ hm'', CState n q.1 m' hm'' s'')
        (CCrash n fun _ _ => True) s' :=
      wp_recoverChecked hl h' hr.synced (fun _ => trivial) fun _ hm'' _ h'' _ => ⟨rfl, hm'', h''⟩
    exact hrec.anyCrash
  · -- the machine restarts with the same log
    have hcrash : CCrash n (fun m hm => Synced xp m hm (entries hist)) s' := h'.crash hr.synced
    obtain ⟨m₁, hm₁, f, hs, hf, hboot⟩ := hcrash.reboot hb
    have hs' := hs.crash hl hf
    have hrec : wp diskSem (do
        let cs ← BufCache.initRecover k
        recoverChecked xp cs)
        (fun q s'' => q.2 = true ∧ LogIs n xp (entries hist) q.1 s'')
        (CCrash n fun _ _ => True) s₂ := by
      refine wp_bind (BufCache.wp_init hboot trivial fun s₃ h₃ => ?_)
      refine wp_recoverChecked hl h₃ hs' (fun _ => trivial) fun cs'' hm'' s'' h'' hle => ?_
      exact ⟨rfl, (hs'.mono hle).logIs h''⟩
    exact hrec.anyCrash

end PaddedLog

namespace Sample

local instance diskLogPlatform : Platform := platform

/-- Entries are added, dropped and added again. -/
def logOps : List PaddedLog.LogOp := [.extend [(1, 7)], .trunc, .extend [(2, 8)], .extend [(1, 9)]]

theorem logOps_valid : ∀ op ∈ logOps, op.Valid := by
  simp [logOps, PaddedLog.LogOp.Valid, PaddedLog.EntryValid, addrlen]

theorem read_after_run_boot :
    wp diskSem (do
      let cs ← PaddedLog.init xp (BufCache.cache0 10)
      PaddedLog.runOps xp logOps (cs, []))
      (fun r s' => r.2.map Prod.fst = logOps.reverse ∧
        wp diskSem (PaddedLog.read xp r.1) (fun q _ => q.2 = PaddedLog.entries r.2)
          (fun _ => True) s')
      (fun _ => True) boot :=
  PaddedLog.read_after_run layout logOps logOps_valid booted.cstate

theorem checksums_agree_boot :
    (∀ cs, Erases diskSem Prod.fst (PaddedLog.recoverChecked xp cs) (PaddedLog.recover xp cs)) ∧
    wp diskSem (do
      let cs ← PaddedLog.init xp (BufCache.cache0 10)
      PaddedLog.runOps xp logOps (cs, []))
      (fun r s' => r.2.map Prod.fst = logOps.reverse ∧ ∃ m' hm', CState 518 r.1 m' hm' s' ∧
        (PaddedLog.hdrOf xp m').checksum = PaddedLog.runChecksum r.2 ∧
        PaddedLog.runChecksum r.2 =
          (hashFold defaultHash
              (PaddedLog.descSig.ipack (PaddedLog.descSig.items (PaddedLog.curDesc xp m'))),
            hashFold defaultHash (PaddedLog.dataSig.items (PaddedLog.curData xp m'))) ∧
        wp diskSem (PaddedLog.recoverChecked xp r.1)
          (fun q s'' => q.2 = true ∧ ∃ hm'', CState 518 q.1 m' hm'' s'') (fun _ => True) s' ∧
        ∀ s₂, Reboot s' s₂ → wp diskSem (do
          let cs ← BufCache.initRecover 10
          PaddedLog.recoverChecked xp cs)
          (fun q s'' => q.2 = true ∧ PaddedLog.LogIs 518 xp (PaddedLog.entries r.2) q.1 s'')
          (fun _ => True) s₂)
      (fun _ => True) boot :=
  PaddedLog.checksums_agree 10 layout logOps logOps_valid booted.cstate

end Sample

end Fscq
