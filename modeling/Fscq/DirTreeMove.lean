import Fscq.DirTreeProof

/-!
# Renaming

An entry is taken out of one directory and put into another, whose entry of that name is deleted
before.
-/

namespace Fscq

open CrashProg

open Relation (ReflTransGen)

namespace DIRTREE

open BFILE (file)

variable {n d i : ℕ} {fsxp : FsXparams} {roots : Multiset ℕ} {A : Finset ℕ} {K : ℕ → Bool}
  {m m' : Mem} {ms ms' : BFILE.MemState} {name : Sname} {b : Bool}

theorem children_subset_of_perm (hK : K d = true) {e : SDIR.Readent}
    (hp : (SDIR.dents (file fsxp m d)).Perm (e :: SDIR.dents (file fsxp m' d))) :
    children fsxp K m' d ⊆ children fsxp K m d := by
  rw [children_of_dir hK, children_of_dir hK]
  intro v hv
  exact (hp.map _).mem_iff.2 (List.mem_cons_of_mem _ hv)

/-- What the new entry for a root leaves. -/
structure Linked (fsxp : FsXparams) (roots : Multiset ℕ) (A : Finset ℕ) (K : ℕ → Bool) (d : ℕ)
    (name : Sname) (i : ℕ) (b : Bool) (m : Mem) (ms : BFILE.MemState) (m' : Mem)
    (ms' : BFILE.MemState) : Prop where
  inv : Inv fsxp roots A K m' ms'
  step : BFILE.Step fsxp {d} m ms m' ms'
  attr : (file fsxp m' d).attr = (file fsxp m d).attr
  perm : (SDIR.dents (file fsxp m' d)).Perm ((name, i, b) :: SDIR.dents (file fsxp m d))

/-- The last step of a rename. -/
theorem wp_link (hx : fsxp.Ok n) (h : Inv fsxp (i ::ₘ roots) A K m ms) (hd : d ∈ A)
    (hK : K d = true) (hr : ∃ r ∈ roots, ReflTransGen (Edge (children fsxp K m)) r d) (hb : b = K i)
    {Q : BFILE.MemState × Res Unit → Mem → Prop}
    (hQe : ¬ CacheOneDir.CanLink fsxp m ms d name →
      ∀ ms' m', Q (ms', .error (CacheOneDir.linkErr fsxp m d name)) m')
    (hQ : CacheOneDir.CanLink fsxp m ms d name →
      ∀ ms' m', Linked fsxp roots A K d name i b m ms m' ms' → Q (ms', .ok ()) m') :
    Txn.wp n (CacheOneDir.link fsxp.inode d fsxp.blockAlloc name i b ms) Q m := by
  have hiA : i ∈ A := h.forest.root_mem (Multiset.mem_cons_self i roots)
  apply CacheOneDir.wp_link hx (h.ready hd hK) ((h.lt hiA).trans_le hx.inums)
  · exact fun hlack ms' m' _ => hQe hlack ms' m'
  · intro hcan ms' m' hch hp
    exact hQ hcan ms' m' ⟨h.linked hd hK hr hch hb hp, hch.step, hch.attr, hp⟩

/-- There is room for an entry where one has been removed. -/
theorem Deleted.canLink (h : Inv fsxp roots A K m ms) (hd : d ∈ A) (hK : K d = true)
    (hdel : Deleted fsxp K d name i b m ms m' ms') : CacheOneDir.CanLink fsxp m' ms' d name where
  valid := (h.dir d hd hK).valid_of_mem hdel.mem
  fresh := by
    have hnd := (hdel.perm.map Prod.fst).nodup_iff.1 (h.dir d hd hK).nodup
    rw [List.map_cons, List.nodup_cons] at hnd
    rintro e he rfl
    exact hnd.1 (List.mem_map.2 ⟨e, he, rfl⟩)
  room := by
    apply SDIR.hasRoom_of_perm hdel.perm
    rw [BFILE.length_data, BFILE.length_data, hdel.length]

/-- What a rename does that has removed the entry of the source, the inode `i`, and looks up the
destination from the directory `d`. -/
inductive Placed (fsxp : FsXparams) (roots : Multiset ℕ) (A : Finset ℕ) (K : ℕ → Bool) (d : ℕ)
    (dstpath : List Sname) (dstname : Sname) (i : ℕ) (b : Bool) (m : Mem) (ms : BFILE.MemState) :
    BFILE.MemState × Res Unit → Mem → Prop
  | noDest {m' : Mem} {ms' : BFILE.MemState} {e : Errno}
    (ht : walk fsxp m d true dstpath = .error e) :
    Placed fsxp roots A K d dstpath dstname i b m ms (ms', .error .ENOENT) m'
  | destFile {m' : Mem} {ms' : BFILE.MemState} {j : ℕ}
    (ht : walk fsxp m d true dstpath = .ok (j, false)) :
    Placed fsxp roots A K d dstpath dstname i b m ms (ms', .error .ENOTDIR) m'
  | notEmpty {m' : Mem} {ms' : BFILE.MemState} {ddst j : ℕ}
    (ht : walk fsxp m d true dstpath = .ok (ddst, true))
    (hj : (dstname, j, true) ∈ SDIR.dents (file fsxp m ddst))
    (hne : SDIR.dents (file fsxp m j) ≠ []) :
    Placed fsxp roots A K d dstpath dstname i b m ms (ms', .error .ENOTEMPTY) m'
  | noRoom {m' : Mem} {ms' : BFILE.MemState} {ddst : ℕ}
    (ht : walk fsxp m d true dstpath = .ok (ddst, true))
    (hn : ∀ e, (dstname, e) ∉ SDIR.dents (file fsxp m ddst))
    (hlack : ¬ CacheOneDir.CanLink fsxp m ms ddst dstname) :
    Placed fsxp roots A K d dstpath dstname i b m ms
      (ms', .error (CacheOneDir.linkErr fsxp m ddst dstname)) m'
  | added {m' : Mem} {ms' : BFILE.MemState} {ddst : ℕ}
    (ht : walk fsxp m d true dstpath = .ok (ddst, true))
    (hn : ∀ e, (dstname, e) ∉ SDIR.dents (file fsxp m ddst))
    (hcan : CacheOneDir.CanLink fsxp m ms ddst dstname)
    (hl : Linked fsxp roots A K ddst dstname i b m ms m' ms') :
    Placed fsxp roots A K d dstpath dstname i b m ms (ms', .ok ()) m'
  | replaced {m' m₁ : Mem} {ms' ms₁ : BFILE.MemState} {ddst j : ℕ} {b' : Bool}
    (ht : walk fsxp m d true dstpath = .ok (ddst, true))
    (h₁ : Inv fsxp (i ::ₘ roots) (A.erase j) K m₁ ms₁)
    (hd : Deleted fsxp K ddst dstname j b' m ms m₁ ms₁)
    (hl : Linked fsxp roots (A.erase j) K ddst dstname i b m₁ ms₁ m' ms') :
    Placed fsxp roots A K d dstpath dstname i b m ms (ms', .ok ()) m'

/-- What a rename does.  The destination is looked up once the source has been removed, so it is not
below the source. -/
inductive Renamed (fsxp : FsXparams) (roots : Multiset ℕ) (A : Finset ℕ) (K : ℕ → Bool) (d : ℕ)
    (srcpath : List Sname) (srcname : Sname) (dstpath : List Sname) (dstname : Sname) (m : Mem)
    (ms : BFILE.MemState) : BFILE.MemState × Res Unit → Mem → Prop
  | noSource {m' : Mem} {ms' : BFILE.MemState} {e : Errno}
    (hs : walk fsxp m d true srcpath = .error e) :
    Renamed fsxp roots A K d srcpath srcname dstpath dstname m ms (ms', .error .ENOENT) m'
  | sourceFile {m' : Mem} {ms' : BFILE.MemState} {i : ℕ}
    (hs : walk fsxp m d true srcpath = .ok (i, false)) :
    Renamed fsxp roots A K d srcpath srcname dstpath dstname m ms (ms', .error .ENOTDIR) m'
  | noEntry {m' : Mem} {ms' : BFILE.MemState} {dsrc : ℕ}
    (hs : walk fsxp m d true srcpath = .ok (dsrc, true))
    (hn : ∀ e, (srcname, e) ∉ SDIR.dents (file fsxp m dsrc)) :
    Renamed fsxp roots A K d srcpath srcname dstpath dstname m ms (ms', .error .ENOENT) m'
  | placed {r : BFILE.MemState × Res Unit} {m' m₁ : Mem} {ms₁ : BFILE.MemState} {dsrc i : ℕ} {b : Bool}
    (hs : walk fsxp m d true srcpath = .ok (dsrc, true))
    (hu : Unlinked fsxp roots A K dsrc srcname i b m ms m₁ ms₁)
    (hp : Placed fsxp roots A K d dstpath dstname i b m₁ ms₁ r m') :
    Renamed fsxp roots A K d srcpath srcname dstpath dstname m ms r m'

theorem Unlinked.of_cached (hi : BFILE.Inv fsxp m ms) {ms₁ : BFILE.MemState} (hc : Cached ms ms₁)
    (h : Unlinked fsxp roots A K d name i b m ms₁ m' ms') :
    Unlinked fsxp roots A K d name i b m ms m' ms' := by
  have hst := (hc.step {d} m).trans_self hi h.step
  obtain ⟨c, c', rfl⟩ := hc
  exact ⟨h.mem, h.inv, hst, ⟨h.kept.blocks, h.kept.nodes, h.kept.free,
    h.kept.msDBlocks⟩, h.attr, h.perm⟩

theorem Linked.of_cached (hi : BFILE.Inv fsxp m ms) {ms₁ : BFILE.MemState} (hc : Cached ms ms₁)
    (h : Linked fsxp roots A K d name i b m ms₁ m' ms') :
    Linked fsxp roots A K d name i b m ms m' ms' := by
  have hst := (hc.step {d} m).trans_self hi h.step
  obtain ⟨c, c', rfl⟩ := hc
  exact { h with step := hst }

/-- Where the source has been below the directory `d`, that directory is not below the source, else
there would have been a cycle. -/
theorem Unlinked.reach {dsrc : ℕ} (h : Inv fsxp roots A K m ms) (hd : d ∈ A)
    (hK : K dsrc = true) (hp : ReflTransGen (Edge (children fsxp K m)) d dsrc)
    (hu : Unlinked fsxp roots A K dsrc name i b m ms m' ms') :
    ∃ r ∈ roots, ReflTransGen (Edge (children fsxp K m')) r d := by
  have hedge := edge_of_mem hK hu.mem
  obtain ⟨r, hr, hpath⟩ := hu.inv.forest.reach d hd
  rcases Multiset.mem_cons.1 hr with rfl | hr
  · have hsub : ∀ v ∈ A, children fsxp K m' v ⊆ children fsxp K m v := by
      intro v hv
      rcases eq_or_ne v dsrc with rfl | hne
      · exact children_subset_of_perm hK hu.perm
      · rw [children_congr (hu.step.file h.inv (h.lt hv) hne)]
        exact Multiset.Subset.refl _
    have hrA := h.forest.child_mem (h.forest.reach_mem hd hp) hedge
    have hcycle := (hu.inv.forest.reach_mono hsub hrA hpath).trans hp
    exact absurd (Relation.TransGen.tail' hcycle hedge) (h.forest.acyclic hrA)
  · exact ⟨r, hr, hpath⟩

/-- The destination can still be reached after the entry there has been deleted. -/
theorem Deleted.reach {ddst j : ℕ} (h : Inv fsxp (i ::ₘ roots) A K m ms) (ht : ddst ∈ A)
    (hK : K ddst = true) (hr : ∃ r ∈ roots, ReflTransGen (Edge (children fsxp K m)) r ddst)
    (h' : Inv fsxp (i ::ₘ roots) (A.erase j) K m' ms')
    (hdel : Deleted fsxp K ddst name j b m ms m' ms') :
    ddst ∈ A.erase j ∧ ∃ r ∈ roots, ReflTransGen (Edge (children fsxp K m')) r ddst := by
  have hedge := edge_of_mem hK hdel.mem
  have htj : ddst ≠ j := by
    rintro rfl
    exact h.forest.acyclic ht (.single hedge)
  have ht' : ddst ∈ A.erase j := Finset.mem_erase.2 ⟨htj, ht⟩
  have hsub : ∀ v ∈ A.erase j, children fsxp K m' v ⊆ children fsxp K m v := by
    intro v hv
    rcases eq_or_ne v ddst with rfl | hne
    · exact children_subset_of_perm hK hdel.perm
    · rw [children_congr (hdel.file_eq h hv hne)]
      exact Multiset.Subset.refl _
  refine ⟨ht', ?_⟩
  obtain ⟨r₀, hr₀, hp₀⟩ := hr
  obtain ⟨r, hr, hpath⟩ := h'.forest.reach ddst ht'
  rcases Multiset.mem_cons.1 hr with rfl | hr
  · have hpath' := h'.forest.reach_mono hsub
      (h'.forest.root_mem (Multiset.mem_cons_self r roots)) hpath
    have heq := h.forest.root_unique (Multiset.mem_cons_self r roots)
      (Multiset.mem_cons_of_mem hr₀) hpath' hp₀
    have hnd := (Multiset.nodup_add.1 h.forest.nodup).1
    exact absurd (heq ▸ hr₀) (Multiset.nodup_cons.1 hnd).1
  · exact ⟨r, hr, hpath⟩

theorem CanLink.of_cached {ms₁ : BFILE.MemState} (hc : Cached ms ms₁) :
    CacheOneDir.CanLink fsxp m ms₁ d name ↔ CacheOneDir.CanLink fsxp m ms d name := by
  obtain ⟨c, c', rfl⟩ := hc
  exact ⟨fun ⟨h₁, h₂, h₃⟩ => ⟨h₁, h₂, h₃⟩, fun ⟨h₁, h₂, h₃⟩ => ⟨h₁, h₂, h₃⟩⟩

theorem wp_rename (hx : fsxp.Ok n) (h : Inv fsxp roots A K m ms) (hd : d ∈ A) (hK : K d = true)
    {srcpath dstpath : List Sname} {srcname dstname : Sname} :
    Txn.wp n (rename fsxp d srcpath srcname dstpath dstname ms)
      (Renamed fsxp roots A K d srcpath srcname dstpath dstname m ms) m := by
  apply wp_bind
  apply wp_namei hx h hd hK
  intro ms₁ r h₁ _ hc₁ hs hr
  rcases r with e | ⟨dsrc, isdir⟩
  · exact wp_pure (.noSource hs.symm)
  obtain ⟨hsA, hsK, hsp⟩ := hr dsrc isdir rfl
  cases isdir with
  | false => exact wp_pure (.sourceFile hs.symm)
  | true =>
  apply wp_bind
  apply wp_lookup hx h₁ hsA hsK
  intro ms₂ r h₂ _ hc₂ hr
  cases r with
  | none => exact wp_pure (.noEntry hs.symm fun e he => Option.some_ne_none e ((hr e).2 he).symm)
  | some e =>
  obtain ⟨i, b⟩ := e
  have he := (hr _).1 rfl
  have hb := h.flag dsrc hsA hsK _ _ _ he
  apply wp_bind
  apply wp_unlink hx h₂ hsA hsK he
  intro ms₃ m₃ hu₃
  have hu := hu₃.of_cached h.inv (hc₁.trans hc₂)
  obtain ⟨r₀, hr₀, hp₀⟩ := hu.reach h hd hsK hsp
  apply wp_bind
  apply wp_namei hx hu.inv hd hK
  intro ms₄ r h₄ _ hc₄ ht hr
  rcases r with e | ⟨ddst, isdir⟩
  · exact wp_pure (.placed hs.symm hu (.noDest ht.symm))
  obtain ⟨htA, htK, htp⟩ := hr ddst isdir rfl
  cases isdir with
  | false => exact wp_pure (.placed hs.symm hu (.destFile ht.symm))
  | true =>
  have hpd := hp₀.trans htp
  apply wp_bind
  apply wp_lookup hx h₄ htA htK
  intro ms₅ r h₅ _ hc₅ hr
  have hc := hc₄.trans hc₅
  cases r with
  | none =>
    have hn : ∀ e, (dstname, e) ∉ SDIR.dents (file fsxp m₃ ddst) :=
      fun e he => Option.some_ne_none e ((hr e).2 he).symm
    apply wp_link hx h₅ htA htK ⟨r₀, hr₀, hpd⟩ hb
    · intro hlack ms' m'
      exact .placed hs.symm hu (.noRoom ht.symm hn fun hcan => hlack ((CanLink.of_cached hc).2 hcan))
    · intro hcan ms' m' hl
      exact .placed hs.symm hu (.added ht.symm hn ((CanLink.of_cached hc).1 hcan)
        (hl.of_cached hu.inv.inv hc))
  | some e =>
    have hj := (hr _).1 rfl
    apply wp_bind
    apply wp_delete hx h₅ htA htK
    · exact fun hn => absurd hj (hn e)
    · intro j hj hne ms' m'
      exact wp_pure (.placed hs.symm hu (.notEmpty ht.symm hj hne))
    · intro ms₆ m₆ j b' h₆ hdel
      obtain ⟨htA₆, hr₆⟩ := hdel.reach h₅ htA htK ⟨r₀, hr₀, hpd⟩ h₆
      have hdel₃ := hdel.of_cached hu.inv.inv hc
      apply wp_link hx h₆ htA₆ htK hr₆ hb
      · exact fun hlack => absurd (hdel.canLink h₅ htA htK) hlack
      · exact fun _ ms' m' hl => .placed hs.symm hu (.replaced ht.symm h₆ hdel₃ hl)

/-- A rename that does not fail changes directories only, and deletes one inode at most. -/
theorem Placed.moves (h : Inv fsxp (i ::ₘ roots) A K m ms) (hd : d ∈ A) (hK : K d = true)
    {dstpath : List Sname} {dstname : Sname} {r : BFILE.MemState × Res Unit}
    (hp : Placed fsxp roots A K d dstpath dstname i b m ms r m') (hr : r.2 = .ok ()) :
    ∃ A' ⊆ A, Inv fsxp roots A' K m' r.1 ∧ BFILE.Moves fsxp (touched A' K) m ms m' r.1 := by
  cases hp with
  | noDest ht => cases hr
  | destFile ht => cases hr
  | notEmpty ht hj hne => cases hr
  | noRoom ht hn hlack => cases hr
  | @added m' ms' ddst ht hn hcan hl =>
    obtain ⟨-, hKt, -⟩ := h.walk_mem dstpath hd hK ht
    have hsub : {ddst} ⊆ touched A K := Set.singleton_subset_iff.2 (.inl hKt)
    exact ⟨A, Finset.Subset.refl A, hl.inv, hl.step.toMoves.mono hsub⟩
  | @replaced m' m₁ ms' ms₁ ddst j b' ht _ hdel hl =>
    obtain ⟨-, hKt, -⟩ := h.walk_mem dstpath hd hK ht
    have hsub : {ddst} ⊆ touched (A.erase j) K := Set.singleton_subset_iff.2 (.inl hKt)
    exact ⟨A.erase j, Finset.erase_subset j A, hl.inv,
      (hdel.touched hKt).trans_self h.inv (hl.step.toMoves.mono hsub)⟩

theorem Renamed.moves (h : Inv fsxp roots A K m ms) (hd : d ∈ A) (hK : K d = true)
    {srcpath dstpath : List Sname} {srcname dstname : Sname} {r : BFILE.MemState × Res Unit}
    (hren : Renamed fsxp roots A K d srcpath srcname dstpath dstname m ms r m')
    (hr : r.2 = .ok ()) : ∃ A' ⊆ A, Inv fsxp roots A' K m' r.1 ∧
      BFILE.Moves fsxp (touched A' K) m ms m' r.1 := by
  cases hren with
  | noSource hs => cases hr
  | sourceFile hs => cases hr
  | noEntry hs hn => cases hr
  | @placed r m' m₁ ms₁ dsrc i b hs hu hp =>
    obtain ⟨-, hKs, -⟩ := h.walk_mem srcpath hd hK hs
    obtain ⟨A', hA, hinv', hmv⟩ := hp.moves hu.inv hd hK hr
    have hsub : {dsrc} ⊆ touched A' K := Set.singleton_subset_iff.2 (.inl hKs)
    exact ⟨A', hA, hinv', (hu.step.toMoves.mono hsub).trans_self h.inv hmv⟩

end DIRTREE

end Fscq
