import Fscq.Hslib.Disk

/-!
# The images of a recorded run

The images that `fscqDestroy` makes start from the file that the run has written to, so that they
are those of a crash of the run only where that makes no difference: `crash_images_exact`.
-/

namespace Fscq.Hslib

/-- The offsets of the blocks fit a signed number of 64 bits. -/
def InRange (ops : List DiskOp) : Prop := ∀ w ∈ blocksWritten ops, w.1 < 2 ^ 51

/-- A block that ends with another content than it started with has both contents written to it
before the first flush. -/
def WrittenFirst (image : Image) (ops : List DiskOp) : Prop :=
  ∀ a, applyWrites image (blocksWritten ops) a ≠ image a →
    (a, image a) ∈ (flushGroups [] ops).headD [] ∧
    (a, applyWrites image (blocksWritten ops) a) ∈ (flushGroups [] ops).headD []

/-! ## The groups of a run -/

theorem flatten_flushGroups (g : List (ℕ × ByteString)) (ops : List DiskOp) :
    (flushGroups g ops).flatten = g ++ blocksWritten ops := by
  induction ops generalizing g with
  | nil => simp [flushGroups, blocksWritten]
  | cons op ops ih =>
    cases op with
    | write a v => simp [flushGroups, blocksWritten, ih]
    | sync => simp [flushGroups, blocksWritten, ih]

theorem flushGroups_ne_nil (g : List (ℕ × ByteString)) (ops : List DiskOp) :
    flushGroups g ops ≠ [] := by
  induction ops generalizing g with
  | nil => exact List.cons_ne_nil _ _
  | cons op ops ih =>
    cases op with
    | write a v => exact ih _
    | sync => exact List.cons_ne_nil _ _

theorem mem_blocksWritten {ops : List DiskOp} {w : ℕ × ByteString} :
    w ∈ blocksWritten ops ↔ ∃ g ∈ flushGroups [] ops, w ∈ g := by
  rw [← List.mem_flatten, flatten_flushGroups, List.nil_append]

theorem map_placed {ops : List DiskOp} (h : InRange ops) :
    (flushGroups [] ops).map placed = flushGroups [] ops := by
  rw [List.map_congr_left (g := id) fun g hg => ?_, List.map_id]
  exact placed_eq fun w hw => h w (mem_blocksWritten.mpr ⟨g, hg, hw⟩)

/-- The images that `fscqDestroy` makes are those that a crash may leave of the image that the run
has ended with. -/
theorem fscqDestroy_eq {image : Image} {ops : List DiskOp} {ds : DiskState}
    (h : runOps (initDiskCrashlog image) ops = some ds) : ∃ tmp, fscqDestroy ds = some tmp ∧
      ∀ D, tmp.Made D ↔ CrashImage (applyWrites image (placed (blocksWritten ops)))
        ((flushGroups [] ops).map placed) D := by
  have himage : ds.image = _ := image_runOps h
  obtain ⟨hlogged, hgroups⟩ := getFlushLog_runOps (g := []) (fun _ h => absurd h List.not_mem_nil)
    (fun _ h => absurd h List.not_mem_nil) rfl h
  obtain ⟨tmp, htmp, -, hmade⟩ := materializeCrashes_adds hlogged ⟨ds.image, 0, fun _ => none⟩
  refine ⟨tmp, htmp, fun D => ?_⟩
  refine (hmade D).trans ((or_iff_right (Tmp.not_made _ _ D)).trans ?_)
  dsimp only
  rw [hgroups, himage]
  refine or_iff_right_of_imp ?_
  rintro rfl
  exact crashImage_base (List.map_eq_nil_iff.not.mpr (flushGroups_ne_nil [] ops))

/-! ## When the images are those of the run -/

/-- Where the changed blocks have both contents written first, the choices of a group do not depend
on whether they start from the image before the run or from the one after it. -/
theorem groupImage_congr {image D : Image} {ops : List DiskOp}
    {pre post : List (List (ℕ × ByteString))} {g : List (ℕ × ByteString)}
    (h : WrittenFirst image ops) (hsplit : flushGroups [] ops = pre ++ g :: post) :
    GroupImage (applyWrites image (blocksWritten ops)) pre g D ↔ GroupImage image pre g D := by
  refine forall_congr' fun a => ?_
  by_cases hchange : applyWrites image (blocksWritten ops) a = image a
  · rw [applyWrites_congr (.inl hchange)]
  obtain ⟨hold, hnew⟩ := h a hchange
  rw [hsplit] at hold hnew
  cases pre with
  | nil =>
    have hchosen : ∀ b, (a, b) ∈ g → (D a = b ∨ (a, D a) ∈ g ↔ (a, D a) ∈ g) :=
      fun b hb => or_iff_right_of_imp fun he => he ▸ hb
    exact (hchosen _ hnew).trans (hchosen _ hold).symm
  | cons g' pre =>
    have hwritten : (a, image a) ∈ (g' :: pre).flatten :=
      List.mem_flatten_of_mem List.mem_cons_self hold
    rw [applyWrites_congr (.inr ⟨_, hwritten⟩)]

theorem crashImage_congr {image D : Image} {ops : List DiskOp} (h : WrittenFirst image ops) :
    CrashImage (applyWrites image (blocksWritten ops)) (flushGroups [] ops) D ↔
      CrashImage image (flushGroups [] ops) D :=
  exists_congr fun _ => exists_congr fun _ => exists_congr fun _ =>
    and_congr_right fun hsplit => groupImage_congr h hsplit

/-- Each of the two images is a choice of no write, so it is one of the other's choices only where
its contents are written. -/
theorem writtenFirst_of_groupImage {image : Image} {ops : List DiskOp}
    {g : List (ℕ × ByteString)} {gs : List (List (ℕ × ByteString))}
    (hsplit : flushGroups [] ops = g :: gs)
    (h : ∀ D, GroupImage (applyWrites image (blocksWritten ops)) [] g D ↔ GroupImage image [] g D) :
    WrittenFirst image ops := by
  intro a hchange
  have hold := (h image).mpr (fun a => .inl rfl) a
  have hnew := (h (applyWrites image (blocksWritten ops))).mp (fun a => .inl rfl) a
  rw [hsplit]
  exact ⟨hold.resolve_left (Ne.symm hchange), hnew.resolve_left hchange⟩

/-- The groups' choices are those of the run in every group of the log just in case the changed
blocks have both contents written first. -/
theorem materializeGroup_iff {image : Image} {ops : List DiskOp} {ds : DiskState}
    (h : runOps (initDiskCrashlog image) ops = some ds) (hrange : InRange ops) :
    (∀ newer g older, getFlushLog ds = newer ++ g :: older →
      ∃ tmp, materializeGroup g older ⟨ds.image, 0, fun _ => none⟩ = some tmp ∧ ∀ D, tmp.Made D ↔
        GroupImage image (older.map programOrder).reverse (programOrder g) D) ↔
      WrittenFirst image ops := by
  obtain ⟨hlogged, hgroups⟩ := getFlushLog_runOps (g := []) (fun _ h => absurd h List.not_mem_nil)
    (fun _ h => absurd h List.not_mem_nil) rfl h
  rw [map_placed hrange, List.map_nil, List.reverse_nil, List.nil_append] at hgroups
  have himage : ds.image = applyWrites image (placed (blocksWritten ops)) := image_runOps h
  rw [placed_eq hrange] at himage
  have hmade : ∀ {newer g older}, getFlushLog ds = newer ++ g :: older →
      ∃ tmp, materializeGroup g older ⟨ds.image, 0, fun _ => none⟩ = some tmp ∧
        ∀ D, tmp.Made D ↔ GroupImage ds.image (older.map programOrder).reverse (programOrder g) D := by
    intro newer g older hlog
    rw [hlog] at hlogged
    obtain ⟨hg, holder⟩ := List.forall_mem_cons.mp (List.forall_mem_append.mp hlogged).2
    obtain ⟨tmp, htmp, -, hadd⟩ := materializeGroup_adds hg holder ⟨ds.image, 0, fun _ => none⟩
    exact ⟨tmp, htmp, fun D => (hadd D).trans (or_iff_right (Tmp.not_made _ _ D))⟩
  constructor
  · intro hall
    obtain ⟨newer, g, hlog⟩ : ∃ newer g, getFlushLog ds = newer ++ [g] := by
      refine (List.eq_nil_or_concat' (getFlushLog ds)).resolve_left fun hnil => ?_
      rw [hnil] at hgroups
      exact flushGroups_ne_nil [] ops hgroups.symm
    obtain ⟨tmp, htmp, hrun⟩ := hall newer g [] hlog
    obtain ⟨tmp', htmp', hend⟩ := hmade hlog
    obtain rfl := Option.some.inj (htmp.symm.trans htmp')
    rw [hlog, List.map_append, List.reverse_append] at hgroups
    refine writtenFirst_of_groupImage hgroups.symm fun D => ?_
    rw [← himage]
    exact (hend D).symm.trans (hrun D)
  · intro hfirst newer g older hlog
    obtain ⟨tmp, htmp, hend⟩ := hmade hlog
    refine ⟨tmp, htmp, fun D => (hend D).trans ?_⟩
    rw [hlog, List.map_append, List.map_cons, List.reverse_append, List.reverse_cons,
      List.append_assoc] at hgroups
    rw [himage]
    exact groupImage_congr hfirst hgroups.symm

/-- Where the initial content of a block that a run changes is not written to it, the image before
the run is not among those that a crash may leave of the image after it. -/
theorem not_crashImage_initial {image : Image} {ops : List DiskOp} {a : ℕ}
    (hchange : applyWrites image (blocksWritten ops) a ≠ image a)
    (hnone : (a, image a) ∉ blocksWritten ops) :
    ¬ CrashImage (applyWrites image (blocksWritten ops)) (flushGroups [] ops) image := by
  rintro ⟨pre, g, post, hsplit, hD⟩
  have hunwritten : ∀ h ∈ pre ++ g :: post, (a, image a) ∉ h := fun h hh hmem =>
    hnone (mem_blocksWritten.mpr ⟨h, hsplit ▸ hh, hmem⟩)
  rcases hD a with hold | hnew
  · rcases applyWrites_cases (applyWrites image (blocksWritten ops)) pre.flatten a with
      ⟨hkeep, -⟩ | hmem
    · exact hchange (hkeep.symm.trans hold.symm)
    · rw [← hold] at hmem
      obtain ⟨g, hg, hmem⟩ := List.mem_flatten.mp hmem
      exact hunwritten g (List.mem_append_left _ hg) hmem
  · exact hunwritten g (List.mem_append_right _ List.mem_cons_self) hnew

/-- No image has a block past the largest offset overwritten. -/
theorem CrashImage.eq_of_le {image D : Image} {groups : List (List (ℕ × ByteString))} {a : ℕ}
    (h : CrashImage image (groups.map placed) D) (ha : 2 ^ 51 ≤ a) : D a = image a := by
  obtain ⟨pre, g, post, hsplit, hD⟩ := h
  have hunwritten : ∀ h ∈ pre ++ g :: post, ∀ b, (a, b) ∉ h := by
    intro h hh b hmem
    rw [← hsplit] at hh
    obtain ⟨h', -, rfl⟩ := List.mem_map.mp hh
    exact absurd (lt_of_mem_placed hmem) (not_lt.mpr ha)
  rcases hD a with hold | hnew
  · rw [hold]
    refine applyWrites_of_notMem fun b hmem => ?_
    obtain ⟨g, hg, hmem⟩ := List.mem_flatten.mp hmem
    exact hunwritten g (List.mem_append_left _ hg) b hmem
  · exact absurd hnew (hunwritten g (List.mem_append_right _ List.mem_cons_self) _)

/-- Every write of a run may be on the disk after a crash. -/
theorem exists_crashImage {image : Image} {ops : List DiskOp} {w : ℕ × ByteString}
    (h : w ∈ blocksWritten ops) : ∃ D, CrashImage image (flushGroups [] ops) D ∧ D w.1 = w.2 := by
  obtain ⟨g, hg, hw⟩ := mem_blocksWritten.mp h
  obtain ⟨pre, post, hsplit⟩ := List.append_of_mem hg
  refine ⟨Function.update (applyWrites image pre.flatten) w.1 w.2, ⟨pre, g, post, hsplit, fun a => ?_⟩,
    Function.update_self ..⟩
  by_cases ha : a = w.1
  · rw [ha, Function.update_self]
    exact .inr hw
  · exact .inl (Function.update_of_ne ha _ _)

/-- The images are those that a crash may leave of the image before the run where the offsets fit
and each changed block has both contents written to it before the first flush, and group by group in
no other case.  One is missing where a write goes past the largest offset, or where the initial
content of a changed block is never written to it. -/
theorem crash_images_exact {image : Image} {ops : List DiskOp} {ds : DiskState}
    (h : runOps (initDiskCrashlog image) ops = some ds) : ∃ tmp, fscqDestroy ds = some tmp ∧
    (InRange ops → WrittenFirst image ops →
      ∀ D, tmp.Made D ↔ CrashImage image (flushGroups [] ops) D) ∧
    (InRange ops → ((∀ newer g older, getFlushLog ds = newer ++ g :: older →
      ∃ tmp, materializeGroup g older ⟨ds.image, 0, fun _ => none⟩ = some tmp ∧ ∀ D, tmp.Made D ↔
        GroupImage image (older.map programOrder).reverse (programOrder g) D) ↔
      WrittenFirst image ops)) ∧
    (InRange ops → (∃ a, applyWrites image (blocksWritten ops) a ≠ image a ∧
      (a, image a) ∉ blocksWritten ops) →
      CrashImage image (flushGroups [] ops) image ∧ ¬ tmp.Made image) ∧
    ((∃ w ∈ blocksWritten ops, 2 ^ 51 ≤ w.1 ∧ w.2 ≠ image w.1) →
      ∃ D, CrashImage image (flushGroups [] ops) D ∧ ¬ tmp.Made D) := by
  obtain ⟨tmp, htmp, hmade⟩ := fscqDestroy_eq h
  refine ⟨tmp, htmp, fun hrange hfirst D => ?_, materializeGroup_iff h, fun hrange => ?_, ?_⟩
  · rw [hmade, placed_eq hrange, map_placed hrange]
    exact crashImage_congr hfirst
  · rintro ⟨a, hchange, hnone⟩
    rw [hmade, placed_eq hrange, map_placed hrange]
    exact ⟨crashImage_base (flushGroups_ne_nil [] ops), not_crashImage_initial hchange hnone⟩
  · rintro ⟨w, hw, hle, hne⟩
    obtain ⟨D, hD, hval⟩ := exists_crashImage hw
    refine ⟨D, hD, fun hm => hne ?_⟩
    rw [← hval, ((hmade D).mp hm).eq_of_le hle]
    exact applyWrites_of_notMem fun b hmem => absurd (lt_of_mem_placed hmem) (not_lt.mpr hle)

/-! ## Two runs -/

/-- A block whose bytes are all `b`. -/
def constBlock (b : UInt8) : ByteString := List.replicate 4096 b

theorem block_constBlock (b : UInt8) : block (.WBS (constBlock b)) = constBlock b := by
  rw [block, constBlock, List.take_replicate, Nat.min_self]

theorem constBlock_inj {b b' : UInt8} (h : constBlock b = constBlock b') : b = b' :=
  (List.replicate_right_inj (by decide)).mp h

theorem exists_runOps (s : DiskState) {ops : List DiskOp} (h : ∀ a v, .write a v ∈ ops →
    a < 2 ^ 51 ∧ ∃ b, v = .WBS (constBlock b)) : ∃ ds, runOps s ops = some ds := by
  induction ops generalizing s with
  | nil => exact ⟨s, rfl⟩
  | cons op ops ih =>
    have htail := fun s' => ih s' fun a v hmem => h a v (List.mem_cons_of_mem _ hmem)
    cases op with
    | write a v =>
      obtain ⟨ha, b, rfl⟩ := h a v List.mem_cons_self
      have hseek : seek a = some (place a) := by
        rw [place_eq (seek_of_lt ha)]
        exact seek_of_lt ha
      have hlen : 4096 ≤ (constBlock b).length := List.length_replicate.ge
      obtain ⟨ds, hds⟩ := htail _
      exact ⟨ds, by rw [runOps, DiskOp.exec, writeDisk_eq hseek hlen]; exact hds⟩
    | sync =>
      obtain ⟨ds, hds⟩ := htail (syncDisk s)
      exact ⟨ds, hds⟩

/-- A block is overwritten with what it holds and then with something else, before a flush. -/
theorem crash_images_exact_rewrite : ∃ ds tmp,
    runOps (initDiskCrashlog fun _ => constBlock 0)
      [.write 0 (.WBS (constBlock 0)), .write 0 (.WBS (constBlock 1)), .sync] = some ds ∧
    fscqDestroy ds = some tmp ∧
    ∀ D, tmp.Made D ↔
      CrashImage (fun _ => constBlock 0) [[(0, constBlock 0), (0, constBlock 1)], []] D := by
  obtain ⟨ds, hds⟩ : ∃ ds, runOps (initDiskCrashlog fun _ => constBlock 0)
      [.write 0 (.WBS (constBlock 0)), .write 0 (.WBS (constBlock 1)), .sync] = some ds := by
    refine exists_runOps _ fun a v hmem => ?_
    simp only [List.mem_cons, DiskOp.write.injEq, List.not_mem_nil, or_false, reduceCtorEq] at hmem
    rcases hmem with ⟨rfl, rfl⟩ | ⟨rfl, rfl⟩
    · exact ⟨by decide, 0, rfl⟩
    · exact ⟨by decide, 1, rfl⟩
  obtain ⟨tmp, htmp, hexact, -⟩ := crash_images_exact hds
  have hblocks : blocksWritten [.write 0 (.WBS (constBlock 0)), .write 0 (.WBS (constBlock 1)), .sync] =
      [(0, constBlock 0), (0, constBlock 1)] := by
    simp only [blocksWritten, block_constBlock]
  have hgroups : flushGroups [] [.write 0 (.WBS (constBlock 0)), .write 0 (.WBS (constBlock 1)), .sync] =
      [[(0, constBlock 0), (0, constBlock 1)], []] := by
    simp only [flushGroups, block_constBlock, List.nil_append, List.cons_append]
  refine ⟨ds, tmp, hds, htmp, ?_⟩
  rw [hgroups] at hexact
  refine hexact ?_ ?_
  · intro w hw
    rw [hblocks] at hw
    have hzero : w.1 = 0 := by
      rcases List.mem_pair.mp hw with rfl | rfl <;> rfl
    rw [hzero]
    decide
  · intro a hchange
    rw [hblocks] at hchange ⊢
    rw [hgroups, List.headD_cons]
    obtain rfl : a = 0 := by
      by_contra hne
      refine hchange (applyWrites_of_notMem fun b hmem => hne ?_)
      rcases List.mem_pair.mp hmem with he | he <;> exact congrArg Prod.fst he
    refine ⟨List.mem_cons_self, List.mem_cons_of_mem _ (List.mem_singleton.mpr ?_)⟩
    rw [applyWrites, List.foldl_cons, List.foldl_cons, List.foldl_nil, Function.update_self]

/-- A crash before the first flush may leave the overwritten block as it was; no image has it so. -/
theorem fscqDestroy_misses_initial : ∃ ds tmp,
    runOps (initDiskCrashlog fun _ => constBlock 0) [.write 0 (.WBS (constBlock 1))] = some ds ∧
    fscqDestroy ds = some tmp ∧
    CrashImage (fun _ => constBlock 0) (flushGroups [] [.write 0 (.WBS (constBlock 1))])
      (fun _ => constBlock 0) ∧
    ¬ tmp.Made fun _ => constBlock 0 := by
  obtain ⟨ds, hds⟩ : ∃ ds, runOps (initDiskCrashlog fun _ => constBlock 0)
      [.write 0 (.WBS (constBlock 1))] = some ds := by
    refine exists_runOps _ fun a v hmem => ?_
    cases List.mem_singleton.mp hmem
    exact ⟨by decide, 1, rfl⟩
  have hblocks : blocksWritten [.write 0 (.WBS (constBlock 1))] = [(0, constBlock 1)] := by
    rw [blocksWritten, blocksWritten, block_constBlock]
  have hrange : InRange [.write 0 (.WBS (constBlock 1))] := by
    intro w hw
    rw [hblocks] at hw
    cases List.mem_singleton.mp hw
    exact Nat.two_pow_pos 51
  obtain ⟨tmp, htmp, hmade⟩ := fscqDestroy_eq hds
  rw [placed_eq hrange, map_placed hrange] at hmade
  refine ⟨ds, tmp, hds, htmp, crashImage_base (flushGroups_ne_nil [] _), fun hm => ?_⟩
  refine not_crashImage_initial (a := 0) ?_ ?_ ((hmade _).mp hm)
  · rw [hblocks, applyWrites_singleton, Function.update_self]
    exact fun h => absurd (constBlock_inj h) (by decide)
  · rw [hblocks, List.mem_singleton]
    exact fun h => absurd (constBlock_inj (congrArg Prod.snd h)) (by decide)

end Fscq.Hslib
