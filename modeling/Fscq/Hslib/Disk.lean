import Mathlib.Data.List.SplitBy
import Fscq.Hslib.WordSlice

/-!
# The flush log and the crash materialiser

`Disk.hs` records the writes of a run in groups, one for each flush, newest first.  From such a log
`fscq.hs` makes images of what a crash may leave: all groups up to some flush, and of the next group
a choice of writes.  Each image starts as a copy of `/tmp/crashlog.img`, which is the file that the
recorded run has written to.

Behind a log of `Disk.hs` they are what a crash may leave of `/tmp/crashlog.img`
(`materializeCrashes_adds`).
-/

namespace Fscq.Hslib

/-! ## Disk -/

/-- The contents of an image file, by block number. -/
abbrev Image := ℕ → ByteString

/-- The writes since the last flush and the write groups flushed before, all newest first. -/
structure FlushLog where
  writes : List (ℕ × CoqWord)
  flushed : List (List (ℕ × CoqWord))

structure DiskState where
  image : Image
  flushLog : Option FlushLog

def initDisk (image : Image) : DiskState := ⟨image, none⟩

def initDiskCrashlog (image : Image) : DiskState := ⟨image, some ⟨[], []⟩⟩

def logWrite (fl : Option FlushLog) (a : ℕ) (v : CoqWord) : Option FlushLog :=
  fl.map fun fl => ⟨(a, v) :: fl.writes, fl.flushed⟩

def logFlush (fl : Option FlushLog) : Option FlushLog :=
  fl.map fun fl => ⟨[], fl.writes :: fl.flushed⟩

/-- The block that `fdSeek` goes to: the offset is a signed number of 64 bits, and a negative one is
refused. -/
def seek (a : ℕ) : Option ℕ :=
  if toInt (4096 * a) < 0 then none else some (toInt (4096 * a) / 4096).toNat

/-- `write_disk` of a byte string: 4096 bytes go to the file. -/
def writeBytes (s : DiskState) (a : ℕ) (bs : ByteString) : Option DiskState :=
  if bs.length < 4096 then none
  else (seek a).map fun b =>
    ⟨Function.update s.image b (bs.take 4096), logWrite s.flushLog a (.WBS bs)⟩

def writeDisk (s : DiskState) (a : ℕ) : CoqWord → Option DiskState
  | .W64 _ => none
  | .W w => (i2bs w 4096).bind (writeBytes s a)
  | .WBS bs => writeBytes s a bs

def syncDisk (s : DiskState) : DiskState := ⟨s.image, logFlush s.flushLog⟩

def getFlushLog (s : DiskState) : List (List (ℕ × CoqWord)) :=
  match s.flushLog with
  | none => []
  | some fl => fl.writes :: fl.flushed

/-! ## Crash images -/

def applyFlushgroup (ds : DiskState) : List (ℕ × CoqWord) → Option DiskState
  | [] => some ds
  | (a, v) :: rest => (applyFlushgroup ds rest).bind fun ds => writeDisk ds a v

def applyFlushgroups (ds : DiskState) : List (List (ℕ × CoqWord)) → Option DiskState
  | [] => some ds
  | flushgroup :: rest => (applyFlushgroups ds rest).bind fun ds => applyFlushgroup ds flushgroup

/-- The files of `/tmp`: `crashlog.img`, and the numbered images that have been made, with the number
of the next one. -/
structure Tmp where
  crashlog : Image
  idx : ℕ
  images : ℕ → Option Image

/-- A numbered image, made from a copy of `crashlog.img`. -/
def materializeFlushgroups (groups : List (List (ℕ × CoqWord))) (tmp : Tmp) : Option Tmp :=
  (applyFlushgroups (initDisk tmp.crashlog) groups).map fun ds =>
    ⟨tmp.crashlog, tmp.idx + 1, Function.update tmp.images tmp.idx (some ds.image)⟩

def writeSubsets' {α : Type} : List (List (ℕ × α)) → List (List (ℕ × α))
  | [] => [[]]
  | heads :: tails =>
    writeSubsets' tails ++ (writeSubsets' tails).flatMap fun ts => heads.map fun hd => hd :: ts

/-- At most one write of each run of adjacent writes to one address. -/
def writeSubsets {α : Type} (writes : List (ℕ × α)) : List (List (ℕ × α)) :=
  writeSubsets' (writes.splitBy fun x y => x.1 == y.1)

/-- The images for the choices of writes of one group, behind all writes of the older groups. -/
def materializeGroup (lastgroup : List (ℕ × CoqWord)) (othergroups : List (List (ℕ × CoqWord)))
    (tmp : Tmp) : Option Tmp :=
  (writeSubsets lastgroup).foldlM
    (fun tmp lastsubset => materializeFlushgroups (lastsubset :: othergroups) tmp) tmp

def materializeCrashes : List (List (ℕ × CoqWord)) → Tmp → Option Tmp
  | [], tmp => materializeFlushgroups [] tmp
  | lastgroup :: othergroups, tmp =>
    (materializeCrashes othergroups tmp).bind (materializeGroup lastgroup othergroups)

/-- What `fscqDestroy` leaves in `/tmp` when the disk is `crashlog.img`, the images of earlier runs
having been removed. -/
def fscqDestroy (ds : DiskState) : Option Tmp :=
  materializeCrashes (getFlushLog ds) ⟨ds.image, 0, fun _ => none⟩

/-! ## Runs -/

inductive DiskOp where
  | write (a : ℕ) (v : CoqWord)
  | sync

def DiskOp.exec (s : DiskState) : DiskOp → Option DiskState
  | write a v => writeDisk s a v
  | sync => some (syncDisk s)

def runOps (s : DiskState) : List DiskOp → Option DiskState
  | [] => some s
  | op :: ops => (op.exec s).bind fun s => runOps s ops

/-- The block that writing a word puts on the disk. -/
def block : CoqWord → ByteString
  | .W64 _ => []
  | .W w => ((i2bs w 4096).getD []).take 4096
  | .WBS bs => bs.take 4096

/-- The write groups of a run in program order, the last one not yet flushed; `g` are the writes
since the last flush. -/
def flushGroups (g : List (ℕ × ByteString)) : List DiskOp → List (List (ℕ × ByteString))
  | [] => [g]
  | .write a v :: ops => flushGroups (g ++ [(a, block v)]) ops
  | .sync :: ops => g :: flushGroups [] ops

/-- The writes applied in program order. -/
def applyWrites (image : Image) (ws : List (ℕ × ByteString)) : Image :=
  ws.foldl (fun image w => Function.update image w.1 w.2) image

/-- What a crash within the group `g` may leave, the groups `pre` being complete: each address
independently keeps its old value or has any one value written to it. -/
def GroupImage (base : Image) (pre : List (List (ℕ × ByteString))) (g : List (ℕ × ByteString))
    (D : Image) : Prop :=
  ∀ a, D a = applyWrites base pre.flatten a ∨ (a, D a) ∈ g

/-- What a crash may leave of an image and groups of writes. -/
def CrashImage (base : Image) (groups : List (List (ℕ × ByteString))) (D : Image) : Prop :=
  ∃ pre g post, groups = pre ++ g :: post ∧ GroupImage base pre g D

/-- The blocks that a run writes, in order. -/
def blocksWritten : List DiskOp → List (ℕ × ByteString)
  | [] => []
  | .write a v :: ops => (a, block v) :: blocksWritten ops
  | .sync :: ops => blocksWritten ops

/-! ## Applying writes -/

theorem applyWrites_append (image : Image) (ws vs : List (ℕ × ByteString)) :
    applyWrites image (ws ++ vs) = applyWrites (applyWrites image ws) vs := List.foldl_append

theorem applyWrites_singleton (image : Image) (w : ℕ × ByteString) :
    applyWrites image [w] = Function.update image w.1 w.2 := rfl

/-- A block has a value that was written to it, or none was and it has its old value. -/
theorem applyWrites_cases (image : Image) (ws : List (ℕ × ByteString)) (a : ℕ) :
    (applyWrites image ws a = image a ∧ ∀ b, (a, b) ∉ ws) ∨ (a, applyWrites image ws a) ∈ ws := by
  induction ws using List.reverseRecOn with
  | nil => exact .inl ⟨rfl, fun _ => List.not_mem_nil⟩
  | append_singleton ws w ih =>
    rw [applyWrites_append]
    by_cases h : a = w.1
    · refine .inr (List.mem_append_right _ ?_)
      simp [applyWrites, h]
    · have hkeep : applyWrites (applyWrites image ws) [w] a = applyWrites image ws a :=
        Function.update_of_ne h _ _
      rw [hkeep]
      refine ih.imp (fun ⟨hold, hnone⟩ => ⟨hold, fun b hb => ?_⟩) (List.mem_append_left _)
      rcases List.mem_append.mp hb with hb | hb
      · exact hnone b hb
      · exact h (by rw [← List.mem_singleton.mp hb])

/-- Writes that all agree with `D`, and cover every block where the image does not, give `D`. -/
theorem applyWrites_eq {image D : Image} {ws : List (ℕ × ByteString)}
    (hws : ∀ w ∈ ws, w.2 = D w.1) (hD : ∀ a, D a = image a ∨ (a, D a) ∈ ws) :
    applyWrites image ws = D := by
  induction ws generalizing image with
  | nil => exact funext fun a => ((hD a).resolve_right List.not_mem_nil).symm
  | cons w ws ih =>
    refine ih (fun v hv => hws v (List.mem_cons_of_mem _ hv)) fun a => ?_
    dsimp only
    by_cases ha : a = w.1
    · subst ha
      rw [Function.update_self, hws w List.mem_cons_self]
      exact .inl rfl
    · rw [Function.update_of_ne ha]
      refine (hD a).imp_right fun hmem => (List.mem_cons.mp hmem).resolve_left fun he => ha ?_
      rw [← he]

/-- What a block holds after writes to it does not depend on what it held before. -/
theorem applyWrites_congr {image image' : Image} {ws : List (ℕ × ByteString)} {a : ℕ}
    (h : image a = image' a ∨ ∃ b, (a, b) ∈ ws) : applyWrites image ws a = applyWrites image' ws a := by
  induction ws generalizing image image' with
  | nil => exact h.resolve_right fun ⟨b, hb⟩ => List.not_mem_nil hb
  | cons w ws ih =>
    refine ih ?_
    dsimp only
    by_cases ha : a = w.1
    · subst ha
      rw [Function.update_self, Function.update_self]
      exact .inl rfl
    · rw [Function.update_of_ne ha, Function.update_of_ne ha]
      exact h.imp_right fun ⟨b, hb⟩ => ⟨b, (List.mem_cons.mp hb).resolve_left fun he => ha (by rw [← he])⟩

theorem applyWrites_of_notMem {image : Image} {ws : List (ℕ × ByteString)} {a : ℕ}
    (h : ∀ b, (a, b) ∉ ws) : applyWrites image ws a = image a :=
  (applyWrites_cases image ws a).elim And.left fun hmem => absurd hmem (h _)

/-! ## Where writes go -/

theorem seek_of_lt {a : ℕ} (h : a < 2 ^ 51) : seek a = some a := by
  have hoff : toInt (4096 * a) = 4096 * a := by
    have := toInt_of_lt (show 4096 * a < 2 ^ 63 by omega)
    push_cast at this
    exact this
  rw [seek, hoff, if_neg (by omega), Int.mul_ediv_cancel_left _ (by norm_num), Int.toNat_natCast]

/-- No write goes further than the largest offset. -/
theorem lt_of_seek {a b : ℕ} (h : seek a = some b) : b < 2 ^ 51 := by
  rw [seek] at h
  split_ifs at h
  have := toInt_lt (4096 * a)
  have hb := Option.some.inj h
  omega

attribute [irreducible] seek

/-- The block that a write to `a` ends up in. -/
def place (a : ℕ) : ℕ := (seek a).getD 0

theorem place_eq {a b : ℕ} (h : seek a = some b) : place a = b := by
  rw [place, h, Option.getD_some]

theorem place_lt (a : ℕ) : place a < 2 ^ 51 := by
  cases h : seek a with
  | none =>
    rw [place, h]
    exact Nat.two_pow_pos 51
  | some b =>
    rw [place_eq h]
    exact lt_of_seek h

def placed (ws : List (ℕ × ByteString)) : List (ℕ × ByteString) := ws.map fun w => (place w.1, w.2)

theorem placed_eq {ws : List (ℕ × ByteString)} (h : ∀ w ∈ ws, w.1 < 2 ^ 51) : placed ws = ws := by
  rw [placed, List.map_congr_left (g := id) fun w hw => ?_, List.map_id]
  rw [place_eq (seek_of_lt (h w hw))]
  rfl

theorem lt_of_mem_placed {ws : List (ℕ × ByteString)} {w : ℕ × ByteString} (h : w ∈ placed ws) :
    w.1 < 2 ^ 51 := by
  obtain ⟨v, -, rfl⟩ := List.mem_map.mp h
  exact place_lt v.1

/-! ## The recorded log -/

/-- Disk.hs only logs byte strings that fill a block, and blocks that it can seek to. -/
def Logged (g : List (ℕ × CoqWord)) : Prop :=
  ∀ w ∈ g, seek w.1 = some (place w.1) ∧ ∃ bs, w.2 = .WBS bs ∧ 4096 ≤ bs.length

/-- A recorded group as the blocks it writes, oldest first. -/
def programOrder (g : List (ℕ × CoqWord)) : List (ℕ × ByteString) :=
  (g.map fun w => (place w.1, block w.2)).reverse

theorem programOrder_cons (w : ℕ × CoqWord) (g : List (ℕ × CoqWord)) :
    programOrder (w :: g) = programOrder g ++ [(place w.1, block w.2)] := by
  simp [programOrder]

theorem mem_programOrder {g : List (ℕ × CoqWord)} {w : ℕ × ByteString} :
    w ∈ programOrder g ↔ ∃ u ∈ g, place u.1 = w.1 ∧ block u.2 = w.2 := by
  rw [programOrder, List.mem_reverse, List.mem_map]
  exact exists_congr fun u => and_congr_right fun _ => Prod.ext_iff

/-- A write that succeeds puts the word's block on the disk and logs a byte string with it. -/
theorem writeDisk_eq_some {s s' : DiskState} {a : ℕ} {v : CoqWord} (h : writeDisk s a v = some s') :
    seek a = some (place a) ∧ ∃ bs, 4096 ≤ bs.length ∧ bs.take 4096 = block v ∧
      s' = ⟨Function.update s.image (place a) (block v), logWrite s.flushLog a (.WBS bs)⟩ := by
  have hbytes : ∀ bs, writeBytes s a bs = some s' → seek a = some (place a) ∧ 4096 ≤ bs.length ∧
      s' = ⟨Function.update s.image (place a) (bs.take 4096), logWrite s.flushLog a (.WBS bs)⟩ := by
    intro bs hw
    rw [writeBytes] at hw
    split_ifs at hw with hlen
    obtain ⟨b, hb, hs⟩ := Option.map_eq_some_iff.mp hw
    rw [place_eq hb]
    exact ⟨hb, not_lt.mp hlen, hs.symm⟩
  cases v with
  | W64 w => cases h
  | W i =>
    obtain ⟨bs, hbs, hw⟩ := Option.bind_eq_some_iff.mp h
    have hblock : block (.W i) = bs.take 4096 := by rw [block, hbs, Option.getD_some]
    obtain ⟨hseek, hlen, hs⟩ := hbytes bs hw
    rw [hblock]
    exact ⟨hseek, bs, hlen, rfl, hs⟩
  | WBS bs =>
    obtain ⟨hseek, hlen, hs⟩ := hbytes bs h
    exact ⟨hseek, bs, hlen, rfl, hs⟩

/-- The log of a run is the run's writes, group by group. -/
theorem getFlushLog_runOps {image : Image} {writes : List (ℕ × CoqWord)}
    {flushed : List (List (ℕ × CoqWord))} {g : List (ℕ × ByteString)} {ops : List DiskOp}
    {ds : DiskState} (hw : Logged writes) (hf : ∀ g ∈ flushed, Logged g)
    (hg : programOrder writes = placed g)
    (h : runOps ⟨image, some ⟨writes, flushed⟩⟩ ops = some ds) :
    (∀ g ∈ getFlushLog ds, Logged g) ∧
    ((getFlushLog ds).map programOrder).reverse =
      (flushed.map programOrder).reverse ++ (flushGroups g ops).map placed := by
  induction ops generalizing image writes flushed g with
  | nil =>
    obtain rfl := Option.some.inj h
    refine ⟨List.forall_mem_cons.mpr ⟨hw, hf⟩, ?_⟩
    rw [getFlushLog, List.map_cons, List.reverse_cons, hg]
    rfl
  | cons op ops ih =>
    obtain ⟨s, hs, h⟩ := Option.bind_eq_some_iff.mp h
    cases op with
    | write a v =>
      obtain ⟨hseek, bs, hlen, hblock, rfl⟩ := writeDisk_eq_some hs
      have hlog : Logged ((a, .WBS bs) :: writes) :=
        List.forall_mem_cons.mpr ⟨⟨hseek, bs, rfl, hlen⟩, hw⟩
      refine ih hlog hf ?_ h
      rw [programOrder_cons, hg, placed, placed, List.map_append, ← hblock]
      rfl
    | sync =>
      obtain rfl := Option.some.inj hs
      obtain ⟨hall, heq⟩ := ih (g := []) (fun _ h => absurd h List.not_mem_nil)
        (List.forall_mem_cons.mpr ⟨hw, hf⟩) rfl h
      refine ⟨hall, heq.trans ?_⟩
      rw [List.map_cons, List.reverse_cons, List.append_assoc, flushGroups, List.map_cons, hg]
      rfl

theorem image_runOps {s ds : DiskState} {ops : List DiskOp} (h : runOps s ops = some ds) :
    ds.image = applyWrites s.image (placed (blocksWritten ops)) := by
  induction ops generalizing s with
  | nil => rw [← Option.some.inj h]; rfl
  | cons op ops ih =>
    obtain ⟨s', hs, hrun⟩ := Option.bind_eq_some_iff.mp h
    cases op with
    | write a v =>
      obtain ⟨-, bs, -, -, rfl⟩ := writeDisk_eq_some hs
      exact ih hrun
    | sync => exact (ih hrun).trans (by rw [← Option.some.inj hs]; rfl)

/-! ## Applying the log -/

/-- Writing a logged word succeeds. -/
theorem writeDisk_eq {s : DiskState} {a : ℕ} {bs : ByteString} (h : seek a = some (place a))
    (hlen : 4096 ≤ bs.length) : writeDisk s a (.WBS bs) =
      some ⟨Function.update s.image (place a) (block (.WBS bs)), logWrite s.flushLog a (.WBS bs)⟩ := by
  rw [writeDisk, writeBytes, if_neg (by omega), h, Option.map_some, block]

theorem applyFlushgroup_eq {image : Image} {g : List (ℕ × CoqWord)} (h : Logged g) :
    applyFlushgroup (initDisk image) g = some (initDisk (applyWrites image (programOrder g))) := by
  induction g with
  | nil => rfl
  | cons w g ih =>
    obtain ⟨hw, hg⟩ := List.forall_mem_cons.mp h
    obtain ⟨a, v⟩ := w
    obtain ⟨hseek, bs, hv, hlen⟩ := hw
    dsimp only at hv hseek
    subst hv
    rw [applyFlushgroup, ih hg, Option.bind_some, writeDisk_eq hseek hlen, programOrder_cons,
      applyWrites_append, applyWrites_singleton, initDisk, initDisk, logWrite, Option.map_none]

theorem applyFlushgroups_eq {image : Image} {gs : List (List (ℕ × CoqWord))}
    (h : ∀ g ∈ gs, Logged g) : applyFlushgroups (initDisk image) gs =
      some (initDisk (applyWrites image (gs.map programOrder).reverse.flatten)) := by
  induction gs with
  | nil => rfl
  | cons g gs ih =>
    obtain ⟨hg, hgs⟩ := List.forall_mem_cons.mp h
    rw [applyFlushgroups, ih hgs, Option.bind_some, applyFlushgroup_eq hg, List.map_cons,
      List.reverse_cons, List.flatten_append, applyWrites_append, List.flatten_singleton]

/-! ## Choices of writes -/

theorem mem_of_mem_writeSubsets' {α : Type} {gs : List (List (ℕ × α))} {sub : List (ℕ × α)}
    (h : sub ∈ writeSubsets' gs) {w : ℕ × α} (hw : w ∈ sub) : w ∈ gs.flatten := by
  induction gs generalizing sub with
  | nil =>
    rw [List.mem_singleton.mp h] at hw
    cases hw
  | cons heads tails ih =>
    rw [List.flatten_cons, List.mem_append]
    rcases List.mem_append.mp h with h | h
    · exact .inr (ih h hw)
    · obtain ⟨ts, hts, h⟩ := List.mem_flatMap.mp h
      obtain ⟨hd, hhd, rfl⟩ := List.mem_map.mp h
      rcases List.mem_cons.mp hw with rfl | hw
      · exact .inl hhd
      · exact .inr (ih hts hw)

/-- Taking from each run the first write that passes a test, where there is one, is a choice. -/
theorem filterMap_find_mem_writeSubsets' {α : Type} (p : ℕ × α → Bool) (gs : List (List (ℕ × α))) :
    gs.filterMap (List.find? p) ∈ writeSubsets' gs := by
  induction gs with
  | nil => exact List.mem_singleton_self _
  | cons heads tails ih =>
    refine List.mem_append.mpr ?_
    cases hfind : heads.find? p with
    | none => exact .inl (by rwa [List.filterMap_cons_none hfind])
    | some w =>
      rw [List.filterMap_cons_some hfind]
      exact .inr (List.mem_flatMap.mpr
        ⟨_, ih, List.mem_map.mpr ⟨w, List.mem_of_find?_eq_some hfind, rfl⟩⟩)

theorem Logged.of_mem_writeSubsets {g sub : List (ℕ × CoqWord)} (h : Logged g)
    (hsub : sub ∈ writeSubsets g) : Logged sub := fun w hw => h w <| by
  have := mem_of_mem_writeSubsets' hsub hw
  rwa [List.flatten_splitBy] at this

theorem address_eq_of_mem_run {α : Type} {g run : List (ℕ × α)} {x y : ℕ × α}
    (h : run ∈ g.splitBy fun x y => x.1 == y.1) (hx : x ∈ run) (hy : y ∈ run) : x.1 = y.1 := by
  have hchain : run.IsChain fun x y => x.1 = y.1 :=
    (List.isChain_of_mem_splitBy h).imp fun _ _ => beq_iff_eq.mp
  have : IsTrans (ℕ × α) fun x y => x.1 = y.1 := ⟨fun _ _ _ => Eq.trans⟩
  have : Std.Symm fun x y : ℕ × α => x.1 = y.1 := ⟨fun _ _ => Eq.symm⟩
  exact List.Pairwise.forall_of_forall (R := fun x y : ℕ × α => x.1 = y.1) (fun _ _ => rfl)
    hchain.pairwise hx hy

/-- The choices of a group's writes give, for each address independently, the old value or any one
that the group writes. -/
theorem exists_writeSubsets_iff {base D : Image} {g : List (ℕ × CoqWord)} :
    (∃ sub ∈ writeSubsets g, applyWrites base (programOrder sub) = D) ↔
      ∀ a, D a = base a ∨ (a, D a) ∈ programOrder g := by
  constructor
  · rintro ⟨sub, hsub, rfl⟩ a
    refine (applyWrites_cases base (programOrder sub) a).imp And.left fun hmem => ?_
    obtain ⟨u, hu, hblock⟩ := mem_programOrder.mp hmem
    have := mem_of_mem_writeSubsets' hsub hu
    rw [List.flatten_splitBy] at this
    exact mem_programOrder.mpr ⟨u, this, hblock⟩
  · intro hD
    -- Of every run take a write that agrees with `D`; writes to one address in several runs agree.
    refine ⟨_, filterMap_find_mem_writeSubsets' (fun w => block w.2 == D (place w.1)) _,
      applyWrites_eq ?_ fun a => (hD a).imp_right fun hmem => ?_⟩
    · intro w hw
      obtain ⟨u, hu, hplace, hblock⟩ := mem_programOrder.mp hw
      obtain ⟨run, -, hfind⟩ := List.mem_filterMap.mp hu
      have := List.find?_some hfind
      rw [← hblock, ← hplace]
      exact beq_iff_eq.mp this
    · obtain ⟨u, hu, hplace, hblock⟩ := mem_programOrder.mp hmem
      dsimp only at hplace hblock
      rw [← List.flatten_splitBy (fun x y => x.1 == y.1) g] at hu
      obtain ⟨run, hrun, hu⟩ := List.mem_flatten.mp hu
      obtain ⟨w, hfind⟩ : ∃ w, run.find? (fun w => block w.2 == D (place w.1)) = some w :=
        Option.isSome_iff_exists.mp (List.find?_isSome.mpr
          ⟨u, hu, beq_iff_eq.mpr (by rw [hplace, hblock])⟩)
      have haddr : place w.1 = a := by
        rw [address_eq_of_mem_run hrun (List.mem_of_find?_eq_some hfind) hu, hplace]
      have hval := List.find?_some hfind
      rw [beq_iff_eq, haddr] at hval
      exact mem_programOrder.mpr ⟨w, List.mem_filterMap.mpr ⟨run, hrun, hfind⟩, haddr, hval⟩

/-! ## The images that are made -/

/-- One of the numbered images has these contents. -/
def Tmp.Made (tmp : Tmp) (D : Image) : Prop := ∃ i < tmp.idx, tmp.images i = some D

/-- `tmp'` has the images of `tmp` and those that satisfy `P`, and the same `crashlog.img`. -/
def Tmp.Adds (tmp tmp' : Tmp) (P : Image → Prop) : Prop :=
  tmp'.crashlog = tmp.crashlog ∧ ∀ D, tmp'.Made D ↔ tmp.Made D ∨ P D

theorem Tmp.Adds.trans {tmp tmp' tmp'' : Tmp} {P Q : Image → Prop} (h : tmp.Adds tmp' P)
    (h' : tmp'.Adds tmp'' Q) : tmp.Adds tmp'' fun D => P D ∨ Q D :=
  ⟨h'.1.trans h.1, fun D => by rw [h'.2, h.2, or_assoc]⟩

theorem Tmp.Adds.congr {tmp tmp' : Tmp} {P Q : Image → Prop} (h : tmp.Adds tmp' P)
    (hPQ : ∀ D, P D ↔ Q D) : tmp.Adds tmp' Q :=
  ⟨h.1, fun D => by rw [h.2, hPQ]⟩

theorem Tmp.not_made (image : Image) (images : ℕ → Option Image) (D : Image) :
    ¬ Tmp.Made ⟨image, 0, images⟩ D := fun ⟨_, hi, _⟩ => Nat.not_lt_zero _ hi

/-- The images behind all writes of the groups `gs`. -/
theorem materializeFlushgroups_adds {gs : List (List (ℕ × CoqWord))} (h : ∀ g ∈ gs, Logged g)
    (tmp : Tmp) : ∃ tmp', materializeFlushgroups gs tmp = some tmp' ∧
      tmp.Adds tmp' fun D => applyWrites tmp.crashlog (gs.map programOrder).reverse.flatten = D := by
  have hmake : materializeFlushgroups gs tmp = some ⟨tmp.crashlog, tmp.idx + 1, Function.update
      tmp.images tmp.idx (some (applyWrites tmp.crashlog (gs.map programOrder).reverse.flatten))⟩ := by
    rw [materializeFlushgroups, applyFlushgroups_eq h]
    rfl
  refine ⟨_, hmake, rfl, fun D => ?_⟩
  constructor
  · rintro ⟨i, hi, himage⟩
    dsimp only at hi himage
    rcases Nat.lt_succ_iff_lt_or_eq.mp hi with hlt | rfl
    · rw [Function.update_of_ne hlt.ne] at himage
      exact .inl ⟨i, hlt, himage⟩
    · rw [Function.update_self] at himage
      exact .inr (Option.some.inj himage)
  · rintro (⟨i, hi, himage⟩ | rfl)
    · exact ⟨i, hi.trans (Nat.lt_succ_self _), (Function.update_of_ne hi.ne _ _).trans himage⟩
    · exact ⟨tmp.idx, Nat.lt_succ_self _, Function.update_self ..⟩

theorem foldlM_adds {subs gs : List (List (ℕ × CoqWord))} (hs : ∀ g ∈ subs, Logged g)
    (hgs : ∀ g ∈ gs, Logged g) (tmp : Tmp) :
    ∃ tmp', subs.foldlM (fun tmp sub => materializeFlushgroups (sub :: gs) tmp) tmp = some tmp' ∧
      tmp.Adds tmp' fun D => ∃ sub ∈ subs, applyWrites
        (applyWrites tmp.crashlog (gs.map programOrder).reverse.flatten) (programOrder sub) = D := by
  induction subs generalizing tmp with
  | nil => exact ⟨tmp, rfl, rfl, fun D => by simp⟩
  | cons sub subs ih =>
    obtain ⟨hsub, hs⟩ := List.forall_mem_cons.mp hs
    obtain ⟨t, ht, hadd⟩ := materializeFlushgroups_adds (List.forall_mem_cons.mpr ⟨hsub, hgs⟩) tmp
    obtain ⟨tmp', htmp, hmore⟩ := ih hs t
    refine ⟨tmp', by rw [List.foldlM_cons, ht]; exact htmp, (hadd.trans hmore).congr fun D => ?_⟩
    rw [List.exists_mem_cons_iff, hadd.1, List.map_cons, List.reverse_cons, List.flatten_append,
      applyWrites_append, List.flatten_singleton]

/-- One group's choices give what a crash within the group may leave of `crashlog.img`. -/
theorem materializeGroup_adds {g : List (ℕ × CoqWord)} {gs : List (List (ℕ × CoqWord))}
    (hg : Logged g) (hgs : ∀ g ∈ gs, Logged g) (tmp : Tmp) :
    ∃ tmp', materializeGroup g gs tmp = some tmp' ∧
      tmp.Adds tmp' (GroupImage tmp.crashlog (gs.map programOrder).reverse (programOrder g)) := by
  obtain ⟨tmp', htmp, hadd⟩ := foldlM_adds (fun sub hsub => hg.of_mem_writeSubsets hsub) hgs tmp
  exact ⟨tmp', htmp, hadd.congr fun D => exists_writeSubsets_iff⟩

theorem crashImage_snoc {base D : Image} {gs : List (List (ℕ × ByteString))}
    {g : List (ℕ × ByteString)} :
    CrashImage base (gs ++ [g]) D ↔ CrashImage base gs D ∨ GroupImage base gs g D := by
  constructor
  · rintro ⟨pre, h, post, hsplit, hD⟩
    induction post using List.reverseRecOn with
    | nil =>
      obtain ⟨rfl, he⟩ := List.append_inj' hsplit rfl
      obtain rfl := List.singleton_inj.mp he
      exact .inr hD
    | append_singleton post x =>
      rw [← List.cons_append, ← List.append_assoc] at hsplit
      exact .inl ⟨pre, h, post, (List.append_inj' hsplit rfl).1, hD⟩
  · rintro (⟨pre, h, post, rfl, hD⟩ | hD)
    · exact ⟨pre, h, post ++ [g], by simp, hD⟩
    · exact ⟨gs, g, [], rfl, hD⟩

/-- Nothing written is always possible. -/
theorem crashImage_base {base : Image} {gs : List (List (ℕ × ByteString))} (h : gs ≠ []) :
    CrashImage base gs base := by
  obtain ⟨g, gs, rfl⟩ := List.exists_cons_of_ne_nil h
  exact ⟨[], g, gs, rfl, fun a => .inl rfl⟩

/-- The images are those that a crash may leave of `crashlog.img`, and `crashlog.img` itself. -/
theorem materializeCrashes_adds {log : List (List (ℕ × CoqWord))} (h : ∀ g ∈ log, Logged g)
    (tmp : Tmp) : ∃ tmp', materializeCrashes log tmp = some tmp' ∧ tmp.Adds tmp' fun D =>
      tmp.crashlog = D ∨ CrashImage tmp.crashlog (log.map programOrder).reverse D := by
  induction log with
  | nil =>
    obtain ⟨tmp', htmp, hadd⟩ := materializeFlushgroups_adds h tmp
    refine ⟨tmp', htmp, hadd.congr fun D => ?_⟩
    refine (or_iff_left ?_).symm
    rintro ⟨pre, g, post, hsplit, -⟩
    simp at hsplit
  | cons g gs ih =>
    obtain ⟨hg, hgs⟩ := List.forall_mem_cons.mp h
    obtain ⟨t, ht, hadd⟩ := ih hgs
    obtain ⟨tmp', htmp, hmore⟩ := materializeGroup_adds hg hgs t
    refine ⟨tmp', by rw [materializeCrashes, ht, Option.bind_some, htmp],
      (hadd.trans hmore).congr fun D => ?_⟩
    rw [hadd.1, or_assoc, List.map_cons, List.reverse_cons, crashImage_snoc]

end Fscq.Hslib
