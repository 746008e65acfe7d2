import Fscq.AsyncFSRebind
import Fscq.Fuse

/-!
# What the calls do to the files

`Fuse.files` are the regular files of the tree on a disk.  For each call that the server makes there
is a rule that says what it answers and how it changes these files.
-/

namespace Fscq

open CrashProg

open BFILE (MemState)

open LogSt (Flushed)

open AFS (Ok Effect InTree inTree_iff)

namespace Fuse

variable {n : ℕ} {fsxp : FsXparams} {A A' : Finset ℕ} {K K' : ℕ → Bool} {m m' : Mem}
  {L L' : LogSt} {ams ams' : MemState} {i d : ℕ} {b : Bool} {f : BFILE.BFile}

open Classical in
/-- The regular files of the tree. -/
noncomputable def files (fsxp : FsXparams) (m : Mem) (i : ℕ) : Option BFILE.BFile :=
  if InTree fsxp m i false then some (BFILE.file fsxp m i) else none

theorem files_eq_some : files fsxp m i = some f ↔ InTree fsxp m i false ∧ BFILE.file fsxp m i = f := by
  rw [files]
  split_ifs with h
  · rw [Option.some_inj]
    exact ⟨fun hf => ⟨h, hf⟩, fun hf => hf.2⟩
  · exact ⟨False.elim, fun hf => absurd hf.1 h⟩

theorem files_of_inv (h : DIRTREE.Inv fsxp {fsxp.rootInum} A K m ams)
    (hK : K fsxp.rootInum = true) (i : ℕ) :
    files fsxp m i = if i ∈ A ∧ K i = false then some (BFILE.file fsxp m i) else none := by
  rw [files]
  by_cases hi : i ∈ A ∧ K i = false
  · rw [if_pos hi, if_pos ((inTree_iff h hK).2 hi)]
  · rw [if_neg hi, if_neg fun ht => hi ((inTree_iff h hK).1 ht)]

theorem files_of_mem (h : DIRTREE.Inv fsxp {fsxp.rootInum} A K m ams)
    (hK : K fsxp.rootInum = true) (hi : i ∈ A) (hKi : K i = false) :
    files fsxp m i = some (BFILE.file fsxp m i) := by
  rw [files_of_inv h hK, if_pos ⟨hi, hKi⟩]

theorem mem_of_files (h : DIRTREE.Inv fsxp {fsxp.rootInum} A K m ams)
    (hK : K fsxp.rootInum = true) (hf : files fsxp m i = some f) :
    i ∈ A ∧ K i = false ∧ BFILE.file fsxp m i = f := by
  obtain ⟨ht, hf⟩ := files_eq_some.1 hf
  obtain ⟨hi, hKi⟩ := (inTree_iff h hK).1 ht
  exact ⟨hi, hKi, hf⟩

section

variable (h : DIRTREE.Inv fsxp {fsxp.rootInum} A K m ams)
  (h' : DIRTREE.Inv fsxp {fsxp.rootInum} A' K' m' ams') (hK : K fsxp.rootInum = true)
  (hK' : K' fsxp.rootInum = true)

include h h' hK hK'

/-- A file that stays in the tree and is not touched is the same. -/
theorem files_congr (hA : i ∈ A ∧ K i = false ↔ i ∈ A' ∧ K' i = false) {S : Set ℕ}
    (hmv : BFILE.Moves fsxp S m ams m' ams') (hS : i ∈ A ∧ K i = false → i ∉ S) :
    files fsxp m' i = files fsxp m i := by
  rw [files_of_inv h hK, files_of_inv h' hK']
  by_cases hi : i ∈ A ∧ K i = false
  · rw [if_pos hi, if_pos (hA.1 hi), hmv.file h.inv (h.lt hi.1) (hS hi)]
  · rw [if_neg hi, if_neg fun hi' => hi (hA.2 hi')]

end

open Classical in
/-- The directories of the tree. -/
noncomputable def dirs (fsxp : FsXparams) (m : Mem) (d : ℕ) : Option BFILE.BFile :=
  if InTree fsxp m d true then some (BFILE.file fsxp m d) else none

/-- One file of the tree has changed. -/
structure Sets (fsxp : FsXparams) (m : Mem) (i : ℕ) (f : BFILE.BFile) (m' : Mem) : Prop where
  files : files fsxp m' = Function.update (files fsxp m) i (some f)
  dirs : dirs fsxp m' = dirs fsxp m

theorem Sets.self (h : Sets fsxp m i f m') : Fuse.files fsxp m' i = some f := by
  rw [h.files, Function.update_self]

theorem Sets.refl (hf : Fuse.files fsxp m i = some f) : Sets fsxp m i f m := by
  refine ⟨?_, rfl⟩
  rw [← hf, Function.update_eq_self]

theorem Sets.trans {m₁ : Mem} {f₁ : BFILE.BFile} (h : Sets fsxp m i f₁ m₁)
    (h' : Sets fsxp m₁ i f m') : Sets fsxp m i f m' := by
  refine ⟨?_, h'.dirs.trans h.dirs⟩
  rw [h'.files, h.files, Function.update_idem]

theorem dirs_of_inv (h : DIRTREE.Inv fsxp {fsxp.rootInum} A K m ams)
    (hK : K fsxp.rootInum = true) (d : ℕ) :
    dirs fsxp m d = if d ∈ A ∧ K d = true then some (BFILE.file fsxp m d) else none := by
  rw [dirs]
  by_cases hd : d ∈ A ∧ K d = true
  · rw [if_pos hd, if_pos ((inTree_iff h hK).2 hd)]
  · rw [if_neg hd, if_neg fun ht => hd ((inTree_iff h hK).1 ht)]

/-- Paths depend on the directories only. -/
theorem walk_of_dirs (h : DIRTREE.Inv fsxp {fsxp.rootInum} A K m ams)
    (hK : K fsxp.rootInum = true) (hdirs : dirs fsxp m' = dirs fsxp m) (names : List Sname)
    (hd : d ∈ A) (hb : K d = b) :
    DIRTREE.walk fsxp m' d b names = DIRTREE.walk fsxp m d b names := by
  induction names generalizing d b with
  | nil => rfl
  | cons fn rest ih =>
    cases b with
    | false =>
      rw [DIRTREE.walk, DIRTREE.walk, if_neg Bool.false_ne_true, if_neg Bool.false_ne_true]
    | true =>
      have hfile : BFILE.file fsxp m' d = BFILE.file fsxp m d := by
        have hm : dirs fsxp m d = some (BFILE.file fsxp m d) := by
          rw [dirs_of_inv h hK, if_pos ⟨hd, hb⟩]
        rw [← hdirs, dirs] at hm
        split_ifs at hm
        exact Option.some.inj hm
      rw [DIRTREE.walk, DIRTREE.walk, hfile, if_pos rfl, if_pos rfl]
      split
      next j b' hfind =>
        have he := List.mem_of_find?_eq_some hfind
        have hedge := DIRTREE.edge_of_mem hb he
        exact ih (h.forest.child_mem hd hedge) (h.flag d hd hb _ _ _ he).symm
      next => rfl

/-- One file changes. -/
theorem sets_of_moves (h : DIRTREE.Inv fsxp {fsxp.rootInum} A K m ams)
    (h' : DIRTREE.Inv fsxp {fsxp.rootInum} A K m' ams') (hK : K fsxp.rootInum = true) (hi : i ∈ A)
    (hKi : K i = false) (hmv : BFILE.Moves fsxp {i} m ams m' ams') :
    Sets fsxp m i (BFILE.file fsxp m' i) m' := by
  constructor
  · funext j
    rcases eq_or_ne j i with rfl | hne
    · rw [Function.update_self, files_of_mem h' hK hi hKi]
    · rw [Function.update_of_ne hne]
      exact files_congr h h' hK hK .rfl hmv fun _ => hne
  · funext d
    rw [dirs_of_inv h hK, dirs_of_inv h' hK]
    by_cases hd : d ∈ A ∧ K d = true
    · have hne : d ≠ i := by
        rintro rfl
        rw [hKi] at hd
        cases hd.2
      rw [if_pos hd, if_pos hd, hmv.file h.inv (h.lt hd.1) hne]
    · rw [if_neg hd, if_neg hd]

/-- A new entry. -/
theorem files_insert (h : DIRTREE.Inv fsxp {fsxp.rootInum} A K m ams) (hK : K fsxp.rootInum = true)
    (hi : i ∉ A) (h' : DIRTREE.Inv fsxp {fsxp.rootInum} (insert i A) (Function.update K i b) m' ams')
    (hmv : BFILE.Moves fsxp (DIRTREE.touched A K) m ams m' ams') :
    files fsxp m i = none ∧ files fsxp m' =
      Function.update (files fsxp m) i (if b then none else some (BFILE.file fsxp m' i)) := by
  have hroot := h.forest.root_mem (Multiset.mem_singleton_self _)
  have hne : fsxp.rootInum ≠ i := by
    rintro rfl
    exact hi hroot
  have hK' : Function.update K i b fsxp.rootInum = true := by rw [Function.update_of_ne hne, hK]
  constructor
  · rw [files_of_inv h hK, if_neg fun hm => hi hm.1]
  · funext j
    rcases eq_or_ne j i with rfl | hne
    · rw [Function.update_self, files_of_inv h' hK', Function.update_self]
      cases b with
      | true => rw [if_neg fun hm => Bool.noConfusion hm.2, if_pos rfl]
      | false => rw [if_pos ⟨Finset.mem_insert_self .., rfl⟩, if_neg Bool.false_ne_true]
    · rw [Function.update_of_ne hne]
      apply files_congr h h' hK hK' _ hmv
      · rintro ⟨hj, hKj⟩ (hdir | hno)
        · rw [hKj] at hdir
          cases hdir
        · exact hno hj
      · rw [Function.update_of_ne hne, Finset.mem_insert, or_iff_right hne]

/-- Entries are removed. -/
theorem files_subset (h : DIRTREE.Inv fsxp {fsxp.rootInum} A K m ams) (hK : K fsxp.rootInum = true)
    (hA : A' ⊆ A) (h' : DIRTREE.Inv fsxp {fsxp.rootInum} A' K m' ams')
    (hmv : BFILE.Moves fsxp (DIRTREE.touched A' K) m ams m' ams') (hf : files fsxp m' i = some f) :
    files fsxp m i = some f := by
  obtain ⟨hi, hKi, rfl⟩ := mem_of_files h' hK hf
  rw [files_of_mem h hK (hA hi) hKi, hmv.file h.inv (h.lt (hA hi))]
  rintro (hdir | hno)
  · rw [hKi] at hdir
    cases hdir
  · exact hno hi

/-! ### Rules -/

/-- One more transaction is pending, or has been flushed. -/
structure Logged (n : ℕ) (fsxp : FsXparams) (A : Finset ℕ) (K : ℕ → Bool) (L : LogSt)
    (ams : MemState) (A' : Finset ℕ) (K' : ℕ → Bool) (L' : LogSt) (ams' : MemState) : Prop where
  effect : Effect n fsxp A K L ams A' K' L' ams'
  log : ∃ t, Flushed (L.push t) L'
  moves : ∃ S, BFILE.Moves fsxp S L.disk.cur ams L'.disk.cur ams'

section

variable (h : Ok n fsxp A K L ams)

include h

omit h in
theorem logged_of_logs {α : Type} {p : TxnProg α} {S : Set ℕ} {t : Valumap}
    (hch : AFS.Changes fsxp A K L.disk.cur ams m ams' A' K' S) (ht : Txn.Logs p L t m)
    (hr : Txn.InRange n t) (hL : Flushed (L.push t) L') :
    Logged n fsxp A K L ams A' K' L' ams' ∧ L'.disk.cur = m := by
  have hcur : L'.disk.cur = m := by
    rw [hL.disk, AFS.disk_push_of_logs ht]
  refine ⟨⟨Effect.logged_of_logs hch ht hr hL, ⟨t, hL⟩, S, ?_⟩, hcur⟩
  rw [hcur]
  exact hch.moves

variable [Platform] (hx : fsxp.Ok n) {α : Type} {xp : LogXparams}

/-- A transaction that is rolled back when its program fails or when it does not fit into the log. -/
theorem wp_transact_of {p : MemState → TxnProg (MemState × Res α)}
    {Q : MemState × Res α → LogSt → Prop}
    (hp : Txn.wp n (p ams) (fun r m => (∀ e, r.2 = .error e → Q (ams, .error e) L) ∧
      ∀ v, r.2 = .ok v → (∃ A' K' S, AFS.Changes fsxp A K L.disk.cur ams m r.1 A' K' S ∧
        ∀ L', Logged n fsxp A K L ams A' K' L' r.1 → L'.disk.cur = m → Q (r.1, .ok v) L') ∧
        ∀ t, Txn.Logs (p ams) L t m → Txn.InRange n t → xp.logLen < t.toList.length →
          ∀ L', Flushed L L' → Q (ams, .error .ELOGOVERFLOW) L') L.disk.cur) :
    LogProg.wp n xp (AFS.transact p ams) Q (AFS.crashIn fun _ _ => True) L := by
  apply AFS.wp_transact h.txn trivial
  apply Txn.wp_post hp
  rintro r m ⟨hQe, hr⟩
  refine ⟨hQe, fun v hv t ht htr => ?_⟩
  obtain ⟨⟨A', K', S, hch, hQ⟩, hover⟩ := hr v hv
  refine ⟨trivial, fun _ L' hL => ?_, hover t ht htr⟩
  obtain ⟨hlog, hcur⟩ := logged_of_logs hch ht htr hL
  exact hQ L' hlog hcur

theorem wp_transact {p : MemState → TxnProg (MemState × Res α)} {Q : MemState × Res α → LogSt → Prop}
    (hfail : ∀ e L', Flushed L L' → Q (ams, .error e) L')
    (hp : Txn.wp n (p ams) (fun r m => ∀ v, r.2 = .ok v → ∃ A' K' S,
      AFS.Changes fsxp A K L.disk.cur ams m r.1 A' K' S ∧
        ∀ L', Logged n fsxp A K L ams A' K' L' r.1 → L'.disk.cur = m → Q (r.1, .ok v) L')
      L.disk.cur) :
    LogProg.wp n xp (AFS.transact p ams) Q (AFS.crashIn fun _ _ => True) L := by
  apply wp_transact_of h
  apply Txn.wp_post hp
  exact fun r m hr => ⟨fun e _ => hfail e L .same, fun v hv => ⟨hr v hv, fun _ _ _ _ => hfail _⟩⟩

/-- A transaction that keeps its caches when it fails. -/
theorem wp_rebind_of {k : ℕ} {p : MemState → TxnProg (MemState × Res α)} (hk : Txn.AtMost k (p ams))
    {Q : MemState × Res α → LogSt → Prop}
    (hp : Txn.wp n (p ams) (fun r m => (∀ e, r.2 = .error e → Q (r.1, .error e) L) ∧
      ∀ v, r.2 = .ok v → (∃ A' K' S, AFS.Changes fsxp A K L.disk.cur ams m r.1 A' K' S ∧
        ∀ L', Logged n fsxp A K L ams A' K' L' r.1 → L'.disk.cur = m → Q (r.1, .ok v) L') ∧
        (xp.logLen < k → ∀ L', Flushed L L' → Q (r.1, .error .ELOGOVERFLOW) L')) L.disk.cur) :
    LogProg.wp n xp (AFS.rebind p ams) Q (AFS.crashIn fun _ _ => True) L := by
  apply AFS.wp_rebind h.txn trivial
  apply Txn.wp_post hp
  rintro r m ⟨hQe, hr⟩
  refine ⟨hQe, fun v hv t ht htr => ?_⟩
  obtain ⟨⟨A', K', S, hch, hQ⟩, hover⟩ := hr v hv
  refine ⟨trivial, fun L' hL => ?_, fun hlen => hover (hlen.trans_le (ht.length_le h.txn hk))⟩
  obtain ⟨hlog, hcur⟩ := logged_of_logs hch ht htr hL
  exact hQ L' hlog hcur

variable {C : LogSt → Prop} (hC : C L)

include hx hC

theorem wp_lookup (hd : d ∈ A) (hKd : K d = true) {names : List Sname}
    {Q : Res (ℕ × Bool) → FsState → Prop}
    (hQ : ∀ ams' r, Effect n fsxp A K L ams A K L ams' → DIRTREE.Cached ams ams' →
      r = DIRTREE.walk fsxp L.disk.cur d true names → (∀ i b, r = .ok (i, b) → i ∈ A ∧ K i = b) →
      Q r (ams', L)) :
    FuseProg.wp fsxp (.op (.lookup d names)) Q C (ams, L) := by
  refine FuseProg.wp_call n hC ((inTree_iff h.tree h.root).2 ⟨hd, hKd⟩) ?_
  apply AFS.wp_readonly h.txn trivial
  apply DIRTREE.wp_namei hx h.tree hd hKd
  intro ms' r hinv hmv hc hw hr
  exact hQ ms' r (.idle .same hinv hmv) hc hw fun i b he => ⟨(hr i b he).1, (hr i b he).2.1⟩

omit hx in
theorem wp_fileSync {Q : Unit → FsState → Prop}
    (hQ : ∀ al ams', Effect n fsxp A K L ams A K (L.dsyncVecs al) ams' →
      Q () (ams', L.dsyncVecs al)) : FuseProg.wp fsxp (.op (.fileSync i)) Q C (ams, L) := by
  refine FuseProg.wp_call n hC trivial ?_
  apply wp_bind
  exact AFS.wp_fileSync h.txn trivial trivial (wp_pure (hQ _ _ (.synced i)))

omit h hx in
theorem wp_treeSync {Q : Unit → FsState → Prop}
    (hQ : ∀ ams', Effect n fsxp A K L ams A K L.flushall ams' → Q () (ams', L.flushall)) :
    FuseProg.wp fsxp (.op .treeSync) Q C (ams, L) := by
  refine FuseProg.wp_call n hC trivial ?_
  apply wp_bind
  exact AFS.wp_treeSync trivial (wp_pure (hQ _ .flushed))

section

variable (hd : d ∈ A) (hKd : K d = true)

include hd hKd

/-- Making a file fails if there is no inode, if the entry cannot be added or if the log is small. -/
theorem wp_create {name : Sname} {Q : Res ℕ → FsState → Prop}
    (hfail : ∀ e L', Flushed L L' → (10 ≤ fsxp.log.logLen →
      IAlloc.freeList L.disk.cur fsxp ams.msIAllocC ≠ [] →
        ¬ CacheOneDir.CanLink fsxp L.disk.cur ams d name) → Q (.error e) (ams, L'))
    (hQ : ∀ ams' L' i A' K', Logged n fsxp A K L ams A' K' L' ams' →
      files fsxp L.disk.cur i = none → files fsxp L'.disk.cur =
        Function.update (files fsxp L.disk.cur) i (some DIRTREE.bfile0) →
      (SDIR.dents (BFILE.file fsxp L'.disk.cur d)).Perm
        ((name, i, false) :: SDIR.dents (BFILE.file fsxp L.disk.cur d)) → Q (.ok i) (ams', L')) :
    FuseProg.wp fsxp (.op (.create d name)) Q C (ams, L) := by
  refine FuseProg.wp_call n hC ((inTree_iff h.tree h.root).2 ⟨hd, hKd⟩) ?_
  apply wp_transact_of h
  apply DIRTREE.wp_mknod hx h.tree hd hKd
  · exact fun hl => ⟨fun e _ => hfail e L .same fun _ hne => absurd hl hne, fun v hv => nomatch hv⟩
  · exact fun _ hlack ms' m' e =>
      ⟨fun e _ => hfail e L .same fun _ _ => hlack, fun v hv => nomatch hv⟩
  · intro ms' m' i hi hinv hmv hp hfile
    refine ⟨fun e he => (nomatch he), fun v hv => ⟨?_, fun t ht _ hlen L' hL => ?_⟩⟩
    · obtain rfl : i = v := Except.ok.inj hv
      obtain ⟨hnone, hfiles⟩ := files_insert h.tree h.root hi hinv hmv
      refine ⟨_, _, _, ⟨hinv, hmv, fun j => AFS.kind_update hi (by rw [hfile]; rfl)⟩, ?_⟩
      intro L' hlog hcur
      apply hQ ms' L' i _ _ hlog hnone
      · rw [hcur, hfiles, hfile, if_neg Bool.false_ne_true]
      · rw [hcur]
        exact hp
    · have hfits := ht.length_le h.txn (DIRTREE.atMost_mknod fsxp false d name ams)
      exact hfail _ L' hL fun hlog => absurd hlen (Nat.not_lt.2 (hfits.trans hlog))

theorem wp_delete {name : Sname} {Q : Res Unit → FsState → Prop}
    (hfail : ∀ e L', Flushed L L' → Q (.error e) (ams, L'))
    (hQ : ∀ ams' L' A', Logged n fsxp A K L ams A' K L' ams' →
      (∀ i f, files fsxp L'.disk.cur i = some f → files fsxp L.disk.cur i = some f) →
      Q (.ok ()) (ams', L')) :
    FuseProg.wp fsxp (.op (.delete d name)) Q C (ams, L) := by
  refine FuseProg.wp_call n hC ((inTree_iff h.tree h.root).2 ⟨hd, hKd⟩) ?_
  apply wp_transact h hfail
  apply DIRTREE.wp_delete hx h.tree hd hKd
  · exact fun _ ms' m' v hv => nomatch hv
  · exact fun i _ _ ms' m' v hv => nomatch hv
  · intro ms' m' i b hinv hdel v _
    have hmv := hdel.touched (A := A) hKd
    refine ⟨A.erase i, K, _, .of_kind hinv hmv, fun L' hlog hcur => hQ ms' L' _ hlog ?_⟩
    rw [hcur]
    exact fun j f => files_subset h.tree h.root (A.erase_subset i) hinv hmv

theorem wp_rename {srcpath dstpath : List Sname} {srcname dstname : Sname}
    {Q : Res Unit → FsState → Prop} (hfail : ∀ e L', Flushed L L' → Q (.error e) (ams, L'))
    (hQ : ∀ ams' L' A', Logged n fsxp A K L ams A' K L' ams' →
      (∀ i f, files fsxp L'.disk.cur i = some f → files fsxp L.disk.cur i = some f) →
      Q (.ok ()) (ams', L')) :
    FuseProg.wp fsxp (.op (.rename d srcpath srcname dstpath dstname)) Q C (ams, L) := by
  refine FuseProg.wp_call n hC ((inTree_iff h.tree h.root).2 ⟨hd, hKd⟩) ?_
  apply wp_transact h hfail
  apply Txn.wp_post (DIRTREE.wp_rename hx h.tree hd hKd)
  intro r m hren v hv
  obtain ⟨A', hA, hinv, hmv⟩ := hren.moves h.tree hd hKd hv
  refine ⟨A', K, _, .of_kind hinv hmv, fun L' hlog hcur => ?_⟩
  apply hQ r.1 L' _ hlog
  rw [hcur]
  exact fun j f => files_subset h.tree h.root hA hinv hmv

/-- Making a directory.  If it fails, it does no harm in a state where it can fail only for the lack
of an inode. -/
theorem wp_mkdir {name : Sname} {Q : Res ℕ → FsState → Prop}
    (hfail : ∀ e ams' L', (10 ≤ fsxp.log.logLen → AFS.CanAdd fsxp L.disk.cur ams d name →
      L' = L ∧ Effect n fsxp A K L ams A K L ams') → Q (.error e) (ams', L'))
    (hQ : ∀ ams' L' i A' K', Logged n fsxp A K L ams A' K' L' ams' →
      files fsxp L'.disk.cur = files fsxp L.disk.cur → Q (.ok i) (ams', L')) :
    FuseProg.wp fsxp (.op (.mkdir d name)) Q C (ams, L) := by
  refine FuseProg.wp_call n hC ((inTree_iff h.tree h.root).2 ⟨hd, hKd⟩) ?_
  apply wp_rebind_of h (DIRTREE.atMost_mknod fsxp true d name ams)
  apply DIRTREE.wp_mknod hx h.tree hd hKd
  · refine fun hl => ⟨fun e _ => hfail e _ L fun _ _ => ⟨rfl, ?_⟩, fun v hv => nomatch hv⟩
    exact .idle .same (AFS.inv_noInode h.tree hl) (h.tree.inv.ialloc hx.toParts (fun _ _ => rfl) (some [])).2
  · exact fun hne hlack ms' m' e => ⟨fun e _ => hfail e ms' L fun _ hs =>
      absurd (hs.resolve_left hne) hlack, fun v hv => nomatch hv⟩
  · intro ms' m' i hi hinv hmv _ hfile
    refine ⟨fun e he => (nomatch he), fun v hv => ⟨?_, fun hlen L' hL => ?_⟩⟩
    · refine ⟨_, _, _, ⟨hinv, hmv, fun j => AFS.kind_update hi (by rw [hfile]; rfl)⟩, ?_⟩
      intro L' hlog hcur
      apply hQ ms' L' v _ _ hlog
      obtain ⟨hnone, hfiles⟩ := files_insert h.tree h.root hi hinv hmv
      rw [hcur, hfiles, if_pos rfl, ← hnone, Function.update_eq_self]
    · exact hfail _ ms' L' fun hlog => absurd hlen (Nat.not_lt.2 hlog)

/-- Making a socket, which is a file of another type. -/
theorem wp_mksock {name : Sname} {Q : Res ℕ → FsState → Prop}
    (hfail : ∀ e ams' L', (11 ≤ fsxp.log.logLen → AFS.CanAdd fsxp L.disk.cur ams d name →
      L' = L ∧ Effect n fsxp A K L ams A K L ams') → Q (.error e) (ams', L'))
    (hQ : ∀ ams' L' i A' K', Logged n fsxp A K L ams A' K' L' ams' →
      files fsxp L.disk.cur i = none → files fsxp L'.disk.cur =
        Function.update (files fsxp L.disk.cur) i
          (some ⟨[], INODE.iattrUpd INODE.iattr0 (.uType 1)⟩) → Q (.ok i) (ams', L')) :
    FuseProg.wp fsxp (.op (.mksock d name)) Q C (ams, L) := by
  refine FuseProg.wp_call n hC ((inTree_iff h.tree h.root).2 ⟨hd, hKd⟩) ?_
  apply wp_rebind_of (k := 11) h
  · apply (DIRTREE.atMost_mknod fsxp false d name ams).bind (k := 1)
    rintro ⟨ms', _ | i⟩
    · exact Txn.atMost_pure 1 _
    · exact (BFILE.atMost_updattr fsxp.inode i _ ms').bind (k := 0) fun _ => Txn.atMost_pure 0 _
  apply wp_bind
  apply DIRTREE.wp_mknod hx h.tree hd hKd
  · refine fun hl => wp_pure ⟨fun e _ => hfail e _ L fun _ _ => ⟨rfl, ?_⟩, fun v hv => nomatch hv⟩
    exact .idle .same (AFS.inv_noInode h.tree hl) (h.tree.inv.ialloc hx.toParts (fun _ _ => rfl) (some [])).2
  · exact fun hne hlack ms' m' e => wp_pure ⟨fun e _ => hfail e ms' L fun _ hs =>
      absurd (hs.resolve_left hne) hlack, fun v hv => nomatch hv⟩
  · intro ms₁ m₁ i hi hinv₁ hmv₁ _ hfile₁
    apply wp_bind
    apply DIRTREE.wp_updattr hx hinv₁ (Finset.mem_insert_self i A) (Function.update_self ..)
    intro ms' m' hinv hmv₂ hfile₂
    have hisub : {i} ⊆ DIRTREE.touched A K := Set.singleton_subset_iff.2 (.inr hi)
    have hmv := hmv₁.trans_self h.tree.inv (hmv₂.mono hisub)
    rw [hfile₁] at hfile₂
    apply wp_pure
    refine ⟨fun e he => (nomatch he), fun v hv => ⟨?_, fun hlen L' hL => ?_⟩⟩
    · obtain rfl : i = v := Except.ok.inj hv
      obtain ⟨hnone, hfiles⟩ := files_insert h.tree h.root hi hinv hmv
      refine ⟨_, _, _, ⟨hinv, hmv, fun j => AFS.kind_update hi (by rw [hfile₂]; rfl)⟩, ?_⟩
      intro L' hlog hcur
      apply hQ ms' L' i _ _ hlog hnone
      rw [hcur, hfiles, hfile₂, if_neg Bool.false_ne_true]
      rfl
    · exact hfail _ ms' L' fun hlog => absurd hlen (Nat.not_lt.2 hlog)

end

omit h hx hC [Platform] in
theorem idle_withICache {c : INODE.Cache}
    (hinv : DIRTREE.Inv fsxp {fsxp.rootInum} A K L.disk.cur { ams with msICache := c }) :
    Effect n fsxp A K L ams A K L { ams with msICache := c } :=
  .idle .same hinv (BFILE.Step.withICache fsxp ∅ L.disk.cur ams c).toMoves

variable (hf : files fsxp L.disk.cur i = some f)

include hf

theorem wp_fileGetSz {Q : BitVec 64 → FsState → Prop}
    (hQ : ∀ c, Effect n fsxp A K L ams A K L { ams with msICache := c } →
      Q (INODE.aBytes f.attr) ({ ams with msICache := c }, L)) :
    FuseProg.wp fsxp (.op (.fileGetSz i)) Q C (ams, L) := by
  obtain ⟨hi, hKi, rfl⟩ := mem_of_files h.tree h.root hf
  refine FuseProg.wp_call n hC ⟨false, (inTree_iff h.tree h.root).2 ⟨hi, hKi⟩⟩ ?_
  apply wp_bind
  apply AFS.wp_readonly h.txn trivial
  apply DIRTREE.wp_getattr hx h.tree hi
  exact fun c hinv => wp_pure (hQ _ (idle_withICache hinv))

theorem wp_readFblock {off : ℕ} (ho : off < f.data.length) {Q : Valu → FsState → Prop}
    (hQ : ∀ ams', Effect n fsxp A K L ams A K L ams' → Q (f.data.getD off 0) (ams', L)) :
    FuseProg.wp fsxp (.op (.readFblock i off)) Q C (ams, L) := by
  obtain ⟨hi, hKi, rfl⟩ := mem_of_files h.tree h.root hf
  have ho' := ho
  rw [BFILE.length_data] at ho'
  refine FuseProg.wp_call n hC ⟨(inTree_iff h.tree h.root).2 ⟨hi, hKi⟩, ho'⟩ ?_
  apply AFS.wp_readonly h.txn trivial
  apply DIRTREE.wp_read hx h.tree hi ho
  exact fun c hinv => hQ _ (idle_withICache hinv)

/-- Setting the number of blocks: one block more is possible if the file can grow, and all blocks can
be dropped if a transaction can hold everything behind the blocks of the files. -/
theorem wp_fileTruncate {sz : ℕ} {Q : Res Unit → FsState → Prop}
    (hfail : ∀ e L', Flushed L L' → (9 ≤ fsxp.log.logLen → sz = f.data.length + 1 →
      ¬ BFILE.CanGrow fsxp L.disk.cur ams i) → (sz = 0 → fsxp.log.logLen < n - fsxp.nblocks) →
      Q (.error e) (ams, L'))
    (hQ : ∀ ams' L', Logged n fsxp A K L ams A K L' ams' →
      Sets fsxp L.disk.cur i ⟨BFILE.resized f.data sz, f.attr⟩ L'.disk.cur →
      Q (.ok ()) (ams', L')) :
    FuseProg.wp fsxp (.op (.fileTruncate i sz)) Q C (ams, L) := by
  obtain ⟨hi, hKi, rfl⟩ := mem_of_files h.tree h.root hf
  rw [BFILE.length_data] at hfail
  refine FuseProg.wp_call n hC ((inTree_iff h.tree h.root).2 ⟨hi, hKi⟩) ?_
  apply wp_transact_of h
  apply DIRTREE.wp_truncate hx h.tree hi hKi
  · intro hlt hlack ms' m' e
    refine ⟨fun e _ => hfail e L .same (fun _ => hlack) fun hz => ?_, fun v hv => nomatch hv⟩
    rw [hz] at hlt
    exact absurd hlt (Nat.not_lt_zero _)
  · intro ms' m' hinv hmv hfile
    refine ⟨fun e he => (nomatch he), fun v _ => ⟨?_, fun t ht htr hlen L' hL => ?_⟩⟩
    · refine ⟨A, K, _, .of_kind hinv hmv, fun L' hlog hcur => hQ ms' L' hlog ?_⟩
      rw [hcur, ← hfile]
      exact sets_of_moves h.tree hinv h.root hi hKi hmv
    · apply hfail _ L' hL
      · intro hlog hsz
        have hlen' : (BFILE.blocks fsxp L.disk.cur i).length ≤ sz := by omega
        have hw := BFILE.length_writes_truncate hx h.tree.inv (h.tree.lt hi) hlen'
        have hfits := ht.length_le_writes h.txn
        rw [L.read_of_txn h.txn] at hfits
        have hle := hfits.trans hw
        omega
      · rintro rfl
        have hle : t.toList.length ≤ n - fsxp.nblocks := by
          apply Txn.length_le_of_bounds
          intro e he
          have hw := (ht.mem_writes h.txn).1 (Txn.mem_of_mem_toList he)
          exact ⟨BFILE.above_truncate_zero hx.toParts i ams _ e.1 hw, (htr e he).2⟩
        exact hlen.trans_le hle

theorem wp_fileSetSz (hlog : 0 < fsxp.log.logLen) {sz : BitVec 64} {Q : Res Unit → FsState → Prop}
    (hQ : ∀ ams' L', Logged n fsxp A K L ams A K L' ams' →
      Sets fsxp L.disk.cur i ⟨f.data, INODE.iattrUpd f.attr (.uBytes sz)⟩ L'.disk.cur →
      Q (.ok ()) (ams', L')) :
    FuseProg.wp fsxp (.op (.fileSetSz i sz)) Q C (ams, L) := by
  obtain ⟨hi, hKi, rfl⟩ := mem_of_files h.tree h.root hf
  refine FuseProg.wp_call n hC ((inTree_iff h.tree h.root).2 ⟨hi, hKi⟩) ?_
  apply AFS.wp_fileSetSz h.txn trivial hlog
  apply DIRTREE.wp_updattr hx h.tree hi hKi
  intro ms' m' hinv hmv hfile t ht hr
  refine ⟨trivial, fun L' hL => ?_⟩
  obtain ⟨hlog, hcur⟩ := logged_of_logs (.of_kind hinv hmv) ht hr hL
  apply hQ ms' L' hlog
  rw [hcur, ← hfile]
  exact sets_of_moves h.tree hinv h.root hi hKi hmv

theorem wp_updateFblock (hlog : 0 < fsxp.log.logLen) {off : ℕ} {v : Valu}
    (ho : off < f.data.length) {Q : Bool → FsState → Prop}
    (hQ : ∀ ams' L', Logged n fsxp A K L ams A K L' ams' →
      Sets fsxp L.disk.cur i ⟨f.data.set off v, f.attr⟩ L'.disk.cur →
      Q true (ams', L')) :
    FuseProg.wp fsxp (.op (.updateFblock i off v)) Q C (ams, L) := by
  obtain ⟨hi, hKi, rfl⟩ := mem_of_files h.tree h.root hf
  have ho' := ho
  rw [BFILE.length_data] at ho'
  refine FuseProg.wp_call n hC ⟨(inTree_iff h.tree h.root).2 ⟨hi, hKi⟩, ho'⟩ ?_
  apply AFS.wp_updateFblock h.txn trivial hlog
  apply DIRTREE.wp_write hx h.tree hi hKi ho
  intro ms' m' hinv hmv hfile t ht hr
  refine ⟨trivial, fun L' hL => ?_⟩
  obtain ⟨hlog, hcur⟩ := logged_of_logs (.of_kind hinv hmv) ht hr hL
  apply hQ ms' L' hlog
  rw [hcur, ← hfile]
  exact sets_of_moves h.tree hinv h.root hi hKi hmv

theorem wp_updateFblockD {off : ℕ} {v : Valu} (ho : off < f.data.length)
    {Q : Unit → FsState → Prop}
    (hQ : ∀ ams' a, a ∈ BFILE.blocks fsxp L.disk.cur i →
      Effect n fsxp A K L ams A K (L.dwrite a v) ams' →
      Sets fsxp L.disk.cur i ⟨f.data.set off v, f.attr⟩ (L.dwrite a v).disk.cur →
      Q () (ams', L.dwrite a v)) :
    FuseProg.wp fsxp (.op (.updateFblockD i off v)) Q C (ams, L) := by
  obtain ⟨hi, hKi, rfl⟩ := mem_of_files h.tree h.root hf
  have ho' := ho
  rw [BFILE.length_data] at ho'
  refine FuseProg.wp_call n hC ⟨(inTree_iff h.tree h.root).2 ⟨hi, hKi⟩, ho'⟩ ?_
  apply wp_bind
  apply AFS.wp_updateFblockD hx h.txn h.tree hi hKi ho' trivial
  intro a c ha hinv hmv hfile
  have hcur : (L.dwrite a v).disk.cur = Function.update L.disk.cur a v := by
    rw [LogSt.disk_dwrite]
    rfl
  have hmem : a ∈ BFILE.blocks fsxp L.disk.cur i := ha ▸ List.getElem_mem ho'
  rw [← hcur] at hinv hmv hfile
  refine ⟨trivial, wp_pure (hQ _ a hmem (.direct hi hKi hmem hinv hmv) ?_)⟩
  rw [← hfile]
  exact sets_of_moves h.tree hinv h.root hi hKi hmv

/-- Setting the size of a file.  If the call fails, it is rolled back; if it succeeds and the size asks
for another number of blocks than the file has, the caches are those of a truncation that has been
lost. -/
theorem wp_ftruncate (hlog : 0 < fsxp.log.logLen) {sz : ℕ} {Q : Res Unit → FsState → Prop}
    (hfail : ∀ e L', (sz + valulen - 1) / valulen ≠ f.data.length → Flushed L L' →
      Q (.error e) (ams, L'))
    (hlost : (sz + valulen - 1) / valulen ≠ f.data.length → ∀ s, Q (.ok ()) s)
    (hQ : ∀ ams' L', (sz + valulen - 1) / valulen = f.data.length →
      Logged n fsxp A K L ams A K L' ams' →
      Sets fsxp L.disk.cur i ⟨f.data, INODE.iattrUpd f.attr (.uBytes (addr2w sz))⟩ L'.disk.cur →
      Q (.ok ()) (ams', L')) :
    FuseProg.wp fsxp (.op (.ftruncate i sz)) Q C (ams, L) := by
  obtain ⟨hi, hKi, rfl⟩ := mem_of_files h.tree h.root hf
  rw [BFILE.length_data] at hfail hlost hQ
  have hv : FsOp.Valid fsxp L.disk.cur (.ftruncate i sz) := (inTree_iff h.tree h.root).2 ⟨hi, hKi⟩
  by_cases hsz : (sz + valulen - 1) / valulen = (BFILE.blocks fsxp L.disk.cur i).length
  · refine FuseProg.wp_call n hC hv ?_
    apply wp_mono (AFS.wp_ftruncate_same h hx hlog hi hKi rfl hsz) _ fun _ _ => trivial
    rintro ⟨ams', r⟩ L' ⟨rfl, heff, hmv, ⟨t, hL, -⟩, -, hfile⟩
    apply hQ ams' L' hsz ⟨heff, ⟨t, hL⟩, _, hmv⟩
    rw [← BFILE.length_data, BFILE.resized_length] at hfile
    rw [← hfile]
    exact sets_of_moves h.tree (heff.ok h).tree h.root hi hKi hmv
  · apply FuseProg.wp_of_apply hC hv
    rw [FuseProg.apply]
    generalize hr : LogProg.run fsxp.log (FsOp.exec fsxp (.ftruncate i sz) ams) L = x
    obtain ⟨⟨ams', e | v⟩, L'⟩ := x
    · obtain ⟨rfl, hL⟩ := AFS.of_run_ftruncate h.txn hr
      exact hfail e L' hsz hL
    · exact hlost hsz (ams', L')

end

end Fuse

end Fscq
