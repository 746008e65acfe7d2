import Fscq.AsyncFSFull

/-!
# Calls that keep their caches

Making a directory or a socket keeps the caches that the failed transaction ended with, and
`ftruncate` goes on with the caches of a truncation whose writes it drops.  These calls are harmless
when a new entry can fail only for the lack of an inode, and when `ftruncate` does not change the
number of blocks.  In every run of such calls the caches agree with the disk.
-/

namespace Fscq

open CrashProg

open BFILE (MemState)

open LogSt (Flushed)

namespace AFS

variable {α : Type} {n : ℕ} {fsxp : FsXparams} {xp : LogXparams} {A : Finset ℕ} {K : ℕ → Bool}
  {m : Mem} {L L' : LogSt} {ams ams' : MemState} {i d : ℕ} {b : Bool}

/-! ### A new entry -/

/-- That there is no free inode can be kept in the cache. -/
theorem inv_noInode {S : Multiset ℕ} (h : DIRTREE.Inv fsxp S A K m ams)
    (hl : IAlloc.freeList m fsxp ams.msIAllocC = []) :
    DIRTREE.Inv fsxp S A K m { ams with msIAllocC := some [] } := by
  refine ⟨⟨h.inv.icache, h.inv.len, h.inv.own⟩, ?_, ?_, h.dir, h.flag, h.cache, h.free, h.forest⟩
  · rw [← h.inodes, hl]
    rfl
  · rintro l ⟨⟩
    exact hl ▸ h.icoh.perm

/-- What a transaction may do whose caches are kept when it fails. -/
def Keeps (fsxp : FsXparams) (A : Finset ℕ) (K : ℕ → Bool) (m : Mem) (ams : MemState)
    (r : MemState × Res α) (m' : Mem) : Prop :=
  (∀ e, r.2 = .error e → DIRTREE.Inv fsxp {fsxp.rootInum} A K m r.1 ∧
    BFILE.Moves fsxp ∅ m ams m r.1) ∧
  ∀ v, r.2 = .ok v → ∃ A' K' S, Changes fsxp A K m ams m' r.1 A' K' S

/-- A new entry can fail only because there is no free inode. -/
def CanAdd (fsxp : FsXparams) (m : Mem) (ams : MemState) (d : ℕ) (name : Sname) : Prop :=
  IAlloc.freeList m fsxp ams.msIAllocC = [] ∨ CacheOneDir.CanLink fsxp m ams d name

section

variable [Platform] (h : Ok n fsxp A K L ams)

include h

/-- The call rolls back what it has done when it fails, if its transaction fits into the log. -/
theorem wp_rebind_keeps {k : ℕ} {p : MemState → TxnProg (MemState × Res α)}
    (hk : Txn.AtMost k (p ams)) (hlog : k ≤ xp.logLen)
    (hp : Txn.wp n (p ams) (Keeps fsxp A K L.disk.cur ams) L.disk.cur) :
    LogProg.wp n xp (rebind p ams) (fun r L' =>
      (∃ A' K', Effect n fsxp A K L ams A' K' L' r.1) ∧ ∀ e, r.2 = .error e → L' = L)
      (crashIn (Within n fsxp A K L ams)) L := by
  apply wp_rebind h.txn h.within
  apply Txn.wp_post hp
  rintro r m ⟨hfail, hch⟩
  constructor
  · intro e he
    obtain ⟨hinv, hmv⟩ := hfail e he
    exact ⟨⟨A, K, .idle .same hinv hmv⟩, fun _ _ => rfl⟩
  · intro v hv t ht hr
    obtain ⟨A', K', S, hch⟩ := hch v hv
    have heff : ∀ L', Flushed (L.push t) L' → Effect n fsxp A K L ams A' K' L' r.1 :=
      fun L' => Effect.logged_of_logs hch ht hr
    refine ⟨⟨A', K', _, _, heff _ .same, rfl, rfl⟩, ?_, ?_⟩
    · exact fun L' hL => ⟨⟨A', K', heff L' hL⟩, fun _ he => nomatch he⟩
    · exact fun hlen => absurd ((ht.length_le h.txn hk).trans hlog) (Nat.not_le.2 hlen)

variable (hx : fsxp.Ok n) {name : Sname} (hd : d ∈ A) (hK : K d = true)
  (hs : CanAdd fsxp L.disk.cur ams d name)

include hx hd hK hs

omit [Platform] in
theorem wp_mknod_keeps {Q : MemState × Res ℕ → Mem → Prop}
    (hQe : ∀ ms' e, DIRTREE.Inv fsxp {fsxp.rootInum} A K L.disk.cur ms' →
      BFILE.Moves fsxp ∅ L.disk.cur ams L.disk.cur ms' → Q (ms', .error e) L.disk.cur)
    (hQ : ∀ ms' m' i, i ∉ A →
      DIRTREE.Inv fsxp {fsxp.rootInum} (insert i A) (Function.update K i b) m' ms' →
      BFILE.Moves fsxp (DIRTREE.touched A K) L.disk.cur ams m' ms' →
      BFILE.file fsxp m' i = DIRTREE.bfile0 → Q (ms', .ok i) m') :
    Txn.wp n (DIRTREE.mknod fsxp b d name ams) Q L.disk.cur := by
  apply DIRTREE.wp_mknod hx h.tree hd hK
  · exact fun hl => hQe _ _ (inv_noInode h.tree hl)
      (h.tree.inv.ialloc hx.toParts (fun _ _ => rfl) (some [])).2
  · exact fun hne hlack => absurd (hs.resolve_left hne) hlack
  · exact fun ms' m' i hi hinv hmv _ hf => hQ ms' m' i hi hinv hmv hf

theorem wp_mkdir_keeps (hlog : 10 ≤ xp.logLen) :
    LogProg.wp n xp (mkdir fsxp d name ams) (fun r L' =>
      (∃ A' K', Effect n fsxp A K L ams A' K' L' r.1) ∧ ∀ e, r.2 = .error e → L' = L)
      (crashIn (Within n fsxp A K L ams)) L := by
  apply wp_rebind_keeps h (DIRTREE.atMost_mknod fsxp true d name ams) hlog
  apply wp_mknod_keeps h hx hd hK hs
  · exact fun ms' e hinv hmv => ⟨fun _ _ => ⟨hinv, hmv⟩, fun _ hv => nomatch hv⟩
  · intro ms' m' i hi hinv hmv hf
    refine ⟨fun _ he => (nomatch he), fun v _ => ⟨_, _, _, hinv, hmv, fun j => ?_⟩⟩
    exact kind_update hi (by rw [hf]; rfl)

theorem wp_mksock_keeps (hlog : 11 ≤ xp.logLen) :
    LogProg.wp n xp (mksock fsxp d name ams) (fun r L' =>
      (∃ A' K', Effect n fsxp A K L ams A' K' L' r.1) ∧ ∀ e, r.2 = .error e → L' = L)
      (crashIn (Within n fsxp A K L ams)) L := by
  apply wp_rebind_keeps h _ hlog
  · apply wp_bind
    apply wp_mknod_keeps h hx hd hK hs
    · exact fun ms' e hinv hmv => wp_pure ⟨fun _ _ => ⟨hinv, hmv⟩, fun _ hv => nomatch hv⟩
    · intro ms' m' i hi hinv hmv hf
      apply wp_bind
      apply DIRTREE.wp_updattr hx hinv (Finset.mem_insert_self i A) (Function.update_self ..)
      intro ms₂ m₂ hinv₂ hmv₂ hf₂
      have hisub : {i} ⊆ DIRTREE.touched A K := Set.singleton_subset_iff.2 (.inr hi)
      have hmv' := hmv.trans_self h.tree.inv (hmv₂.mono hisub)
      apply wp_pure
      refine ⟨fun _ he => (nomatch he), fun v _ => ⟨_, _, _, hinv₂, hmv', fun j => ?_⟩⟩
      apply kind_update hi
      rw [hf₂, hf]
      rfl
  · apply (DIRTREE.atMost_mknod fsxp false d name ams).bind (k := 1)
    rintro ⟨ms', _ | i⟩
    · exact Txn.atMost_pure 1 _
    · exact (BFILE.atMost_updattr fsxp.inode i _ ms').bind (k := 0) fun _ => Txn.atMost_pure 0 _

end

/-! ### Setting the length of a file -/

/-- Set the number of blocks and the size of a file. -/
def resize (fsxp : FsXparams) (inum nblocks sz : ℕ) (ams : MemState) :
    TxnProg (MemState × Res Unit) := do
  let (ams, r) ← DIRTREE.truncate fsxp inum nblocks ams
  match r with
  | .error e => pure (ams, .error e)
  | .ok _ => do
    let ams ← DIRTREE.updattr fsxp inum (.uBytes (addr2w sz)) ams
    pure (ams, .ok ())

theorem run_resize {inum nblocks sz : ℕ} {ams₁ : MemState} {m₁ m₂ : Mem}
    (h₁ : Txn.run (DIRTREE.truncate fsxp inum nblocks ams) m = ((ams₁, .ok ()), m₁))
    (h₂ : Txn.run (DIRTREE.updattr fsxp inum (.uBytes (addr2w sz)) ams₁) m₁ = (ams', m₂)) :
    Txn.run (resize fsxp inum nblocks sz ams) m = ((ams', .ok ()), m₂) := by
  rw [resize, Txn.run, CrashProg.run_bind]
  rw [Txn.run] at h₁
  rw [h₁]
  dsimp only
  rw [CrashProg.run_bind]
  rw [Txn.run] at h₂
  rw [h₂]
  rfl

section

variable [Platform]

/-- The call is the one transaction that it should be: it sets the number of blocks and the size. -/
structure Resized (fsxp : FsXparams) (inum nblocks sz : ℕ) (L : LogSt) (ams : MemState) (L' : LogSt)
    (ams' : MemState) : Prop where
  txn : ∃ t, Flushed (L.push t) L' ∧
    Txn.run (resize fsxp inum nblocks sz ams) L.disk.cur = ((ams', .ok ()), (L.push t).disk.cur)
  blocks : (BFILE.blocks fsxp L'.disk.cur inum).length = nblocks
  file : BFILE.file fsxp L'.disk.cur inum =
    ⟨BFILE.resized (BFILE.file fsxp L.disk.cur inum).data nblocks,
      INODE.iattrUpd (BFILE.file fsxp L.disk.cur inum).attr (.uBytes (addr2w sz))⟩

theorem wp_ftruncate_same (h : Ok n fsxp A K L ams) (hx : fsxp.Ok n) (hlog : 0 < xp.logLen)
    (hi : i ∈ A) (hK : K i = false) {sz nblocks : ℕ}
    (hlen : (BFILE.blocks fsxp L.disk.cur i).length = nblocks)
    (hsz : (sz + valulen - 1) / valulen = nblocks) :
    LogProg.wp n xp (ftruncate fsxp i sz ams) (fun r L' => r.2 = .ok () ∧
      Effect n fsxp A K L ams A K L' r.1 ∧ BFILE.Moves fsxp {i} L.disk.cur ams L'.disk.cur r.1 ∧
      Resized fsxp i nblocks sz L ams L' r.1)
      (crashIn (Within n fsxp A K L ams)) L := by
  have hw := h.within
  refine wp_bind (LogProg.wp_begin hw (wp_bind (LogProg.wp_lift (fun _ => hw) ?_)))
  rw [L.read_of_txn h.txn, hsz, ← hlen]
  apply Txn.wp_post (Txn.wp_run_eq (DIRTREE.wp_truncate_same hx h.tree hi
    (Q := fun r m => r.2 = .ok () ∧ m = L.disk.cur ∧ ∃ c, r.1 = { ams with msICache := c } ∧
      DIRTREE.Inv fsxp {fsxp.rootInum} A K L.disk.cur { ams with msICache := c })
    fun c hinv => ⟨rfl, rfl, c, rfl, hinv⟩))
  rintro ⟨ams₁, r₁⟩ m₁ ⟨hrun₁, hr₁, hm₁, c, hams₁, hinv₁⟩ t₁ ht₁
  dsimp only at hr₁ hams₁
  subst hr₁ hm₁ hams₁
  -- the transaction is the empty one of the start again, which sees the same disk
  have huse : LogProg.use L.txn = LogProg.abort := by
    rw [h.txn]
    rfl
  dsimp only
  rw [huse]
  refine wp_bind (LogProg.wp_abort hw (wp_bind ?_))
  rw [abort_txn h.txn]
  apply LogProg.wp_lift fun _ => hw
  rw [L.read_of_txn h.txn]
  have hp := Txn.wp_run_eq (DIRTREE.wp_updattr hx hinv₁ hi hK
    (Q := fun ms' m' => DIRTREE.Inv fsxp {fsxp.rootInum} A K m' ms' ∧
      BFILE.Moves fsxp {i} L.disk.cur { ams with msICache := c } m' ms' ∧
      BFILE.file fsxp m' i = ⟨(BFILE.file fsxp L.disk.cur i).data,
        INODE.iattrUpd (BFILE.file fsxp L.disk.cur i).attr (.uBytes (addr2w sz))⟩)
    fun _ _ hinv hmv hf => ⟨hinv, hmv, hf⟩)
  have hwr := Txn.writes_of_wp hp
  apply Txn.wp_post hp
  rintro ams₂ m₂ ⟨hrun₂, hinv₂, hmv₂, hf₂⟩ t ht
  have hmv : BFILE.Moves fsxp {i} L.disk.cur ams m₂ ams₂ :=
    (BFILE.Step.withICache fsxp {i} L.disk.cur ams c).toMoves.trans_self h.tree.inv hmv₂
  have hr : Txn.InRange n t := by
    apply ht.inRange h.txn
    rw [L.read_of_txn h.txn]
    exact hwr
  have heff : ∀ L', Flushed (L.push t) L' → Effect n fsxp A K L ams A K L' ams₂ :=
    fun L' => Effect.logged_of_logs (.of_kind hinv₂ hmv) ht hr
  have hfits := ht.length_le h.txn (BFILE.atMost_updattr fsxp.inode i _ { ams with msICache := c })
  apply wp_bind
  apply LogProg.wp_commit_fits hw ⟨A, K, _, _, heff _ .same, rfl, rfl⟩ (hfits.trans hlog)
  intro L' (hL' : Flushed (L.push t) L')
  have hcur : L'.disk.cur = m₂ := by
    rw [hL'.disk, disk_push_of_logs ht]
  have hres : BFILE.resized (BFILE.file fsxp L.disk.cur i).data
      (BFILE.blocks fsxp L.disk.cur i).length = (BFILE.file fsxp L.disk.cur i).data := by
    rw [BFILE.resized, BFILE.length_data, Nat.sub_self, ← BFILE.length_data, List.take_length]
    exact List.append_nil _
  refine wp_pure ⟨rfl, heff L' hL', hcur ▸ hmv, ⟨t, hL', ?_⟩, ?_, ?_⟩
  · rw [disk_push_of_logs ht]
    exact run_resize hrun₁ hrun₂
  · rw [hcur, ← BFILE.length_data, hf₂, BFILE.length_data]
  · rw [hcur, hres, hf₂]

/-! ### Runs -/

omit [Platform] in
/-- The call does no harm when it fails: a new directory or socket can fail only because there is no
free inode, and `ftruncate` succeeds only if the file has the blocks that it asks for. -/
def Call.Sound (fsxp : FsXparams) (m : Mem) (ams : MemState) : Call → Res Unit → Prop
  | .mksock dnum name, _ => CanAdd fsxp m ams dnum name
  | .mkdir dnum name, _ => CanAdd fsxp m ams dnum name
  | .ftruncate inum sz, r =>
    r = .ok () → (BFILE.blocks fsxp m inum).length = (sz + valulen - 1) / valulen
  | _, _ => True

/-- A call on the tree that does no harm when it fails. -/
def SoundCall (fsxp : FsXparams) (L : LogSt) (ams : MemState) (c : Call) (r : Res Unit) : Prop :=
  c.Valid fsxp L.disk.cur ∧ c.Sound fsxp L.disk.cur ams r

/-- The calls whose caches are those that their transaction ended with, whether it succeeded or
not. -/
def Call.Rebinds : Call → Prop
  | .mksock _ _ => True
  | .mkdir _ _ => True
  | .fileSetSz _ _ => True
  | _ => False

theorem wp_rebinds (h : Ok n fsxp A K L ams) (hx : fsxp.Ok n) (hlog : 11 ≤ xp.logLen) {c : Call}
    {r : Res Unit} (hc : c.Rebinds) (hs : SoundCall fsxp L ams c r) :
    LogProg.wp n xp (c.exec fsxp ams) (fun r L' =>
      (∃ A' K', Effect n fsxp A K L ams A' K' L' r.1) ∧ ∀ e, r.2 = .error e → L' = L)
      (crashIn (Within n fsxp A K L ams)) L := by
  have htree : ∀ {i b}, InTree fsxp L.disk.cur i b → i ∈ A ∧ K i = b := (inTree_iff h.tree h.root).1
  have herr : ∀ {r : Res ℕ} {e : Errno}, r.map (fun _ => ()) = .error e → r = .error e := by
    rintro (e' | v) e he
    · exact congrArg _ (Except.error.inj he)
    · cases he
  obtain ⟨hv, hs⟩ := hs
  cases c with
  | mksock dnum name =>
    obtain ⟨hd, hK⟩ := htree hv
    exact wp_seq (wp_mksock_keeps h hx hd hK hs hlog)
      fun r L' he => wp_pure ⟨he.1, fun e hr => he.2 e (herr hr)⟩
  | mkdir dnum name =>
    obtain ⟨hd, hK⟩ := htree hv
    exact wp_seq (wp_mkdir_keeps h hx hd hK hs (by omega))
      fun r L' he => wp_pure ⟨he.1, fun e hr => he.2 e (herr hr)⟩
  | fileSetSz inum sz =>
    obtain ⟨hi, hK⟩ := htree hv
    apply wp_fileSetSz h.txn h.within (by omega)
    apply DIRTREE.wp_updattr hx h.tree hi hK
    intro ms' m' hinv hmv _ t ht hr
    have heff : ∀ L', Flushed (L.push t) L' → Effect n fsxp A K L ams A K L' ms' :=
      fun L' => Effect.logged_of_logs (.of_kind hinv hmv) ht hr
    exact ⟨⟨A, K, _, _, heff _ .same, rfl, rfl⟩,
      fun L' hL => ⟨⟨A, K, heff L' hL⟩, fun _ he => nomatch he⟩⟩
  | _ => exact hc.elim

variable {g : Geometry}

/-- A sound call has an effect. -/
theorem effect_of_sound {c : Call} {r : MemState × Res Unit} (hok : Ok g.dataSize g.fsxp A K L ams)
    (hlog : 0 < g.fsxp.log.logLen)
    (hr : LogProg.run g.fsxp.log (c.exec g.fsxp ams) L = (r, L'))
    (hs : SoundCall g.fsxp L ams c r.2) :
    ∃ A' K', Effect g.dataSize g.fsxp A K L ams A' K' L' r.1 := by
  have hlen := g.le_logLen hlog
  by_cases hc : c.Clean r.2
  · exact effect_of_run hok hlog hr ⟨hs.1, hc⟩
  by_cases hb : c.Rebinds
  · have hwp := LogProg.wp_run
      (wp_rebinds hok g.ok (by omega) hb hs : LogProg.wp g.dataSize g.fsxp.log _ _ _ _)
    rw [hr] at hwp
    exact hwp.1
  cases c with
  | ftruncate inum sz =>
    obtain ⟨ams', _ | u⟩ := r
    · obtain ⟨rfl, hL⟩ := of_run_ftruncate hok.txn hr
      exact ⟨A, K, hok.refl hL⟩
    · obtain ⟨hi, hK⟩ := (inTree_iff hok.tree hok.root).1 hs.1
      have hwp := LogProg.wp_run
        (wp_ftruncate_same hok g.ok hlog hi hK (hs.2 rfl) rfl :
          LogProg.wp g.dataSize g.fsxp.log _ _ _ _)
      rw [Call.exec] at hr
      rw [hr] at hwp
      exact ⟨A, K, hwp.2.1⟩
  | mksock dnum name => exact absurd trivial hb
  | mkdir dnum name => exact absurd trivial hb
  | _ => exact absurd trivial hc

theorem reach_sound (h : Reach g (Call.exec g.fsxp) (SoundCall g.fsxp) L ams) :
    ∃ A K, Ok g.dataSize g.fsxp A K L ams := by
  refine h.ok fun A K L ams c hok hlog r L' hr hs => ?_
  obtain ⟨A', K', heff⟩ := effect_of_sound hok hlog hr hs
  exact ⟨A', K', heff.ok hok⟩

/-- A call that does no harm: one that rolls back what it has done when it fails, or one that cannot
fail in a way that matters. -/
def HarmlessCall (fsxp : FsXparams) (L : LogSt) (ams : MemState) (c : Call) (r : Res Unit) : Prop :=
  CleanCall fsxp L ams c r ∨ SoundCall fsxp L ams c r

omit [Platform] in
theorem HarmlessCall.valid {c : Call} {r : Res Unit} (h : HarmlessCall fsxp L ams c r) :
    c.Valid fsxp L.disk.cur := h.elim And.left And.left

theorem effect_of_harmless {c : Call} {r : MemState × Res Unit}
    (hok : Ok g.dataSize g.fsxp A K L ams) (hlog : 0 < g.fsxp.log.logLen)
    (hr : LogProg.run g.fsxp.log (c.exec g.fsxp ams) L = (r, L'))
    (hP : HarmlessCall g.fsxp L ams c r.2) :
    ∃ A' K', Effect g.dataSize g.fsxp A K L ams A' K' L' r.1 :=
  hP.elim (effect_of_run hok hlog hr) (effect_of_sound hok hlog hr)

theorem reach_harmless (h : Reach g (Call.exec g.fsxp) (HarmlessCall g.fsxp) L ams) :
    ∃ A K, Ok g.dataSize g.fsxp A K L ams := by
  refine h.ok fun A K L ams c hok hlog r L' hr hs => ?_
  obtain ⟨A', K', heff⟩ := effect_of_harmless hok hlog hr hs
  exact ⟨A', K', heff.ok hok⟩

/-- A call that fails is rolled back, and the caches agree with the disk if no call before it has done
harm. -/
theorem failed_call_rolled_back {P : LogSt → MemState → Call → Res Unit → Prop} {c : Call} {e : Errno}
    (h : Reach g (Call.exec g.fsxp) P L ams) (hc : c.IsTransaction)
    (hr : LogProg.run g.fsxp.log (c.exec g.fsxp ams) L = ((ams', .error e), L')) :
    RolledBack g.fsxp.log L ams L' ams' ∧
      ((∀ L ams c r, P L ams c r → HarmlessCall g.fsxp L ams c r) → Consistent g.fsxp L' ams') := by
  obtain ⟨rfl, hL⟩ := of_run_call hc h.txn hr
  refine ⟨⟨hL.txn.trans h.txn, hL.disk, rfl, fun p => hL.toSame.run _, crashes_flushed hL⟩, ?_⟩
  intro hP
  obtain ⟨A, K, hok⟩ := reach_harmless (h.mono hP)
  exact ((hok.refl hL).ok hok).consistent

/-- After a sound call, no transaction is active and the caches agree with the disk; if it has failed,
the disk has not changed. -/
theorem rebind_consistent {c : Call} {r : Res Unit}
    (h : Reach g (Call.exec g.fsxp) (SoundCall g.fsxp) L ams) (hc : c.Rebinds)
    (hs : SoundCall g.fsxp L ams c r)
    (hr : LogProg.run g.fsxp.log (c.exec g.fsxp ams) L = ((ams', r), L')) :
    L'.txn = ∅ ∧ Consistent g.fsxp L' ams' ∧ ∀ e, r = .error e → L'.disk = L.disk := by
  obtain ⟨A, K, hok⟩ := reach_sound h
  have hlen := g.le_logLen h.logLen_pos
  have hwp := LogProg.wp_run
    (wp_rebinds hok g.ok (by omega) hc hs : LogProg.wp g.dataSize g.fsxp.log _ _ _ _)
  rw [hr] at hwp
  obtain ⟨⟨A', K', heff⟩, hL⟩ := hwp
  have hok' := heff.ok hok
  exact ⟨hok'.txn, hok'.consistent, fun e he => congrArg LogSt.disk (hL e he)⟩

/-- `ftruncate` is one transaction, and the caches agree with the disk after it. -/
theorem ftruncate_resized {inum sz : ℕ}
    (h : Reach g (Call.exec g.fsxp) (SoundCall g.fsxp) L ams)
    (hi : InTree g.fsxp L.disk.cur inum false) (hsz : sz ≤ 4096)
    (hlen : (BFILE.blocks g.fsxp L.disk.cur inum).length = (sz + 4095) / 4096)
    (hr : LogProg.run g.fsxp.log (ftruncate g.fsxp inum sz ams) L = ((ams', .ok ()), L')) :
    Resized g.fsxp inum ((sz + 4095) / 4096) sz L ams L' ams' ∧ Consistent g.fsxp L' ams' := by
  obtain ⟨A, K, hok⟩ := reach_sound h
  obtain ⟨hi, hK⟩ := (inTree_iff hok.tree hok.root).1 hi
  have hdiv : (sz + valulen - 1) / valulen = (sz + 4095) / 4096 := by
    rw [valulen_is]
    omega
  have hwp := LogProg.wp_run (wp_ftruncate_same hok g.ok h.logLen_pos hi hK hlen hdiv :
    LogProg.wp g.dataSize g.fsxp.log _ _ _ _)
  rw [hr] at hwp
  exact ⟨hwp.2.2.2, (hwp.2.1.ok hok).consistent⟩

/-- A file that is short and has no dirty index blocks can get one more block. -/
theorem wp_fileTruncate_grow (h : Ok n fsxp A K L ams) (hx : fsxp.Ok n) (hlog : 9 ≤ xp.logLen)
    (hi : i ∈ A) (hK : K i = false) {sz : ℕ}
    (hsz : sz = (BFILE.blocks fsxp L.disk.cur i).length + 1)
    (hgrow : BFILE.CanGrow fsxp L.disk.cur ams i) :
    LogProg.wp n xp (fileTruncate fsxp i sz ams) (fun r L' => r.2 = .ok () ∧
      Ok n fsxp A K L' r.1 ∧
      BFILE.file fsxp L'.disk.cur i = ⟨BFILE.resized (BFILE.file fsxp L.disk.cur i).data sz,
        (BFILE.file fsxp L.disk.cur i).attr⟩ ∧
      ∀ j ∈ A, j ≠ i → BFILE.file fsxp L'.disk.cur j = BFILE.file fsxp L.disk.cur j)
      (crashIn (Within n fsxp A K L ams)) L := by
  apply wp_transact h.txn h.within
  apply DIRTREE.wp_truncate hx h.tree hi hK
  · exact fun _ hlack => absurd hgrow (hlack hsz)
  · intro ms' m' hinv hmv hf
    refine ⟨fun _ he => (nomatch he), fun v hv t ht hr => ?_⟩
    have heff : ∀ L', Flushed (L.push t) L' → Effect n fsxp A K L ams A K L' ms' :=
      fun L' => Effect.logged_of_logs (.of_kind hinv hmv) ht hr
    refine ⟨⟨_, _, _, _, heff _ .same, rfl, rfl⟩, fun _ L' hL => ?_, fun hlen => ?_⟩
    · have hcur : L'.disk.cur = m' := by
        rw [hL.disk, disk_push_of_logs ht]
      rw [hcur]
      exact ⟨rfl, (heff L' hL).ok h, hf, fun j hj hne => hmv.file h.tree.inv (h.tree.lt hj) hne⟩
    · have hle : (BFILE.blocks fsxp L.disk.cur i).length ≤ sz := by omega
      have hw := BFILE.length_writes_truncate hx h.tree.inv (h.tree.lt hi) hle
      have hfits := ht.length_le_writes h.txn
      rw [L.read_of_txn h.txn] at hfits
      have hle := hfits.trans hw
      omega

end

end AFS

namespace Sample

open AFS

local instance rebindPlatform : Platform := platform

/-- Where all inodes are in use, a directory cannot be made. -/
theorem rebind_consistent_full : ∃ L ams ams' L',
    Reach geometry (Call.exec geometry.fsxp) (SoundCall geometry.fsxp) L ams ∧
    SoundCall geometry.fsxp L ams (.mkdir 1 [97]) (.error .ENOSPCINODE) ∧
    LogProg.run geometry.fsxp.log ((Call.mkdir 1 [97]).exec geometry.fsxp ams) L =
      ((ams', .error .ENOSPCINODE), L') ∧
    L'.txn = ∅ ∧ Consistent geometry.fsxp L' ams' ∧ L'.disk = L.disk := by
  obtain ⟨ams₀, L₀, hmk⟩ := exists_new fun _ => 0
  obtain ⟨L, ams, hreach, hfull⟩ := exists_full entriesFit hmk (P := SoundCall geometry.fsxp)
    (fun k hk => fileName_valid (hk.trans_eq ninodes_geometry))
    (fun j k hj hk => fileName_ne hj (hk.trans_eq ninodes_geometry))
    (fun _ _ _ _ => ⟨.root, trivial⟩) (fun _ _ _ => ⟨trivial, trivial⟩)
  obtain ⟨A, K, hok⟩ := reach_sound hreach
  have hwp : LogProg.wp geometry.dataSize geometry.fsxp.log
      ((Call.mkdir 1 [97]).exec geometry.fsxp ams) (fun r _ => r.2 = .error .ENOSPCINODE)
      (crashIn fun _ _ => True) L := by
    apply wp_bind
    apply wp_rebind hok.txn trivial
    apply DIRTREE.wp_mknod geometry.ok hok.tree
      (hok.tree.forest.root_mem (Multiset.mem_singleton_self _)) hok.root
    · intro _
      refine ⟨fun e he => wp_pure ?_, fun v hv => nomatch hv⟩
      obtain rfl := Except.error.inj he
      rfl
    · exact fun hne => absurd hfull hne
    · intro ms' m' i hi hinv _ _ _
      obtain ⟨h0, hlt, -⟩ := hinv.mem_iff.1 (Finset.mem_insert_self i A)
      exact absurd (hok.tree.mem_iff.2 ⟨h0, hlt, hfull ▸ List.not_mem_nil⟩) hi
  obtain ⟨⟨ams', r⟩, L', hx, rfl⟩ := LogProg.exists_run hwp
  have hsound : SoundCall geometry.fsxp L ams (.mkdir 1 [97]) (.error .ENOSPCINODE) :=
    ⟨.root, .inl hfull⟩
  obtain ⟨htxn, hcons, hdisk⟩ := rebind_consistent hreach (c := .mkdir 1 [97]) trivial hsound hx
  exact ⟨L, ams, ams', L', hreach, hsound, hx, htxn, hcons, hdisk _ rfl⟩

/-- A name of 200 bytes. -/
def longName : Sname := List.replicate 200 97

theorem longName_invalid : SDIR.isValidSname longName = false := by
  rw [SDIR.isValidSname, longName, List.length_replicate, if_neg (by decide), Bool.and_false]

/-- A file with a name that is too long cannot be created; the inode that was allocated for it is still
on the free list. -/
theorem failed_create_rolled_back : ∃ L ams ams' L',
    Reach geometry (Call.exec geometry.fsxp) (HarmlessCall geometry.fsxp) L ams ∧
    LogProg.run geometry.fsxp.log ((Call.create 1 longName).exec geometry.fsxp ams) L =
      ((ams', .error .ENAMETOOLONG), L') ∧
    RolledBack geometry.fsxp.log L ams L' ams' ∧ Consistent geometry.fsxp L' ams' := by
  obtain ⟨ams, L, hmk⟩ := exists_new fun _ => 0
  have hnew := new_of_mkfs hmk
  obtain ⟨l, hlist⟩ := freeList_new hnew
  have hwp : LogProg.wp geometry.dataSize geometry.fsxp.log
      ((Call.create 1 longName).exec geometry.fsxp ams) (fun r _ => r.2 = .error .ENAMETOOLONG)
      (crashIn fun _ _ => True) L := by
    apply wp_bind
    apply wp_transact hnew.txn trivial
    apply DIRTREE.wp_mknod_invalid geometry.ok hnew.tree (Finset.mem_singleton_self _)
      (Function.update_self ..) longName_invalid hlist
    intro ms' m' _ _
    refine ⟨fun e he => wp_pure ?_, fun v hv => nomatch hv⟩
    obtain rfl := Except.error.inj he
    rfl
  obtain ⟨⟨ams', r⟩, L', hx, rfl⟩ := LogProg.exists_run hwp
  have hreach : Reach geometry (Call.exec geometry.fsxp) (HarmlessCall geometry.fsxp) L ams := .mkfs hmk
  obtain ⟨hback, hcons⟩ := failed_call_rolled_back hreach (c := .create 1 longName) trivial hx
  exact ⟨L, ams, ams', L', hreach, hx, hback, hcons fun _ _ _ _ => id⟩

/-- A directory with a name that is too long cannot be made, but the inode that was allocated for it
is not on the free list any more. -/
theorem exists_lost_inode : ∃ L ams ams',
    (∀ P, Reach geometry (Call.exec geometry.fsxp) P L ams) ∧ L.txn = ∅ ∧
    SDIR.dents (BFILE.file geometry.fsxp L.disk.cur 1) = [] ∧
    LogProg.run geometry.fsxp.log ((Call.mkdir 1 longName).exec geometry.fsxp ams) L =
      ((ams', .error .ENAMETOOLONG), L) ∧
    CacheOneDir.Ready geometry.fsxp 1 L.disk.cur ams' ∧
    ∀ L', L'.disk = L.disk → ¬ Consistent geometry.fsxp L' ams' := by
  obtain ⟨ams, L, hmk⟩ := exists_new fun _ => 0
  have hnew := new_of_mkfs hmk
  obtain ⟨l, hlist⟩ := freeList_new hnew
  have hwp : LogProg.wp geometry.dataSize geometry.fsxp.log
      ((Call.mkdir 1 longName).exec geometry.fsxp ams)
      (fun r L' => r.2 = .error .ENAMETOOLONG ∧ L' = L ∧ r.1.msIAllocC = some l ∧
        CacheOneDir.Ready geometry.fsxp 1 L.disk.cur r.1)
      (crashIn fun _ _ => True) L := by
    apply wp_bind
    apply wp_rebind hnew.txn trivial
    apply DIRTREE.wp_mknod_invalid geometry.ok hnew.tree (Finset.mem_singleton_self _)
      (Function.update_self ..) longName_invalid hlist
    intro ms' m' hms' hready
    refine ⟨fun e he => wp_pure ⟨?_, rfl, hms', hready⟩, fun v hv => nomatch hv⟩
    obtain rfl := Except.error.inj he
    rfl
  obtain ⟨⟨ams', r⟩, L', hx, rfl, rfl, hms, hready⟩ := LogProg.exists_run hwp
  have hroot : SDIR.dents (BFILE.file geometry.fsxp L'.disk.cur geometry.fsxp.rootInum) = [] := by
    rw [hnew.root]
    rfl
  refine ⟨L', ams, ams', fun _ => .mkfs hmk, hnew.txn, hroot, hx, hready, fun L'' hd hcons => ?_⟩
  -- the bitmap still has the inode 2 as free
  have hbit : 2 ∈ IAlloc.bmapFree L''.disk.cur geometry.fsxp := by
    rw [hd, ← hnew.tree.icoh.perm.mem_iff, hlist]
    exact List.mem_cons_self
  have hmem := (hcons.inodes _ hms).mem_iff.2 hbit
  have hnodup : (2 :: l).Nodup := by
    rw [← hlist, hnew.list]
    exact List.nodup_range'
  exact (List.nodup_cons.1 hnodup).1 hmem

theorem mkdir_loses_inode : ∃ L ams ams' L',
    Reach geometry (Call.exec geometry.fsxp) (SoundCall geometry.fsxp) L ams ∧
    (Call.mkdir 1 longName).Valid geometry.fsxp L.disk.cur ∧
    LogProg.run geometry.fsxp.log ((Call.mkdir 1 longName).exec geometry.fsxp ams) L =
      ((ams', .error .ENAMETOOLONG), L') ∧ ¬ Consistent geometry.fsxp L' ams' := by
  obtain ⟨L, ams, ams', hreach, -, -, hr, -, hcons⟩ := exists_lost_inode
  exact ⟨L, ams, ams', L, hreach _, .root, hr, hcons L rfl⟩

/-- A deletion that fails after that returns the free list that lacks the inode. -/
theorem failed_delete_inconsistent : ∃ L ams ams' L',
    Reach geometry (Call.exec geometry.fsxp)
      (fun L _ c _ => c.Valid geometry.fsxp L.disk.cur) L ams ∧
    (Call.delete 1 [97]).Valid geometry.fsxp L.disk.cur ∧
    LogProg.run geometry.fsxp.log ((Call.delete 1 [97]).exec geometry.fsxp ams) L =
      ((ams', .error .ENOENT), L') ∧ ¬ Consistent geometry.fsxp L' ams' := by
  obtain ⟨L, ams₀, ams, hreach, htxn, hroot, hr, hready, hcons⟩ := exists_lost_inode
  have hreach₁ : Reach geometry (Call.exec geometry.fsxp)
      (fun L _ c _ => c.Valid geometry.fsxp L.disk.cur) L ams := (hreach _).step hr .root
  have hwp : LogProg.wp geometry.dataSize geometry.fsxp.log
      ((Call.delete 1 [97]).exec geometry.fsxp ams) (fun r _ => r.2 = .error .ENOENT)
      (crashIn fun _ _ => True) L := by
    apply wp_transact htxn trivial
    apply wp_bind
    apply CacheOneDir.wp_lookup geometry.ok hready
    intro ms' r _ _ hres
    cases r with
    | some e =>
      have hmem := (hres e).1 rfl
      rw [hroot] at hmem
      exact absurd hmem List.not_mem_nil
    | none =>
      refine wp_pure ⟨fun e he => ?_, fun v hv => nomatch hv⟩
      obtain rfl := Except.error.inj he
      rfl
  obtain ⟨⟨ams', r⟩, L', hx, rfl⟩ := LogProg.exists_run hwp
  obtain ⟨rfl, hL⟩ := of_run_call (c := .delete 1 [97]) trivial htxn hx
  exact ⟨L, ams', ams', L', hreach₁, .root, hx, hcons L' hL.disk⟩

/-- The root directory has one entry, for a file. -/
structure OneFile (L : LogSt) (ams : MemState) (i : ℕ) (f : BFILE.BFile) : Prop where
  ok : ∃ K, Ok geometry.dataSize geometry.fsxp {i, geometry.fsxp.rootInum} K L ams ∧ K i = false
  ne : i ≠ geometry.fsxp.rootInum
  dents : SDIR.dents (BFILE.file geometry.fsxp L.disk.cur geometry.fsxp.rootInum) = [([97], i, false)]
  file : BFILE.file geometry.fsxp L.disk.cur i = f

theorem OneFile.inTree {L : LogSt} {ams : MemState} {i : ℕ} {f : BFILE.BFile}
    (h : OneFile L ams i f) : InTree geometry.fsxp L.disk.cur i false := by
  obtain ⟨K, hok, hK⟩ := h.ok
  exact (inTree_iff hok.tree hok.root).2 ⟨Finset.mem_insert_self i _, hK⟩

theorem OneFile.length_blocks {L : LogSt} {ams : MemState} {i : ℕ} {f : BFILE.BFile}
    (h : OneFile L ams i f) : (BFILE.blocks geometry.fsxp L.disk.cur i).length = f.data.length := by
  rw [← BFILE.length_data, h.file]

/-- A file is created in a new file system. -/
theorem exists_create : ∃ ams₀ L₀ ams i L,
    LogProg.run geometry.fsxp.log (mkfs geometry.fsxp) (.ofDisk fun _ => 0) = (.ok ams₀, L₀) ∧
    LogProg.run geometry.fsxp.log (create geometry.fsxp geometry.fsxp.rootInum [97] ams₀) L₀ =
      ((ams, .ok i), L) ∧
    OneFile L ams i DIRTREE.bfile0 ∧
    BFILE.freeOf geometry.fsxp L.disk.cur ams.msAllocC (!ams.msAlloc) ≠ 0 := by
  obtain ⟨ams, L, hmk⟩ := exists_new fun _ => 0
  have hnew := new_of_mkfs hmk
  have hlen := le_logLen_geometry
  have hin := four_le_ninodes
  have hfree := hnew.tree.freeList_ne_nil (by rw [Finset.card_singleton]; omega)
  have hcan := hnew.canLink (show SDIR.isValidSname [97] = true by decide)
  have hlog : 10 ≤ geometry.fsxp.log.logLen := by omega
  obtain ⟨ams', i, L', hrun, hi, hok, hp, hfile, hmv⟩ := exists_mknod (b := false) hnew.ok
    geometry.ok hlog (Finset.mem_singleton_self _) (Function.update_self ..) hfree hcan
  rw [hnew.root] at hp
  refine ⟨ams, L, ams', i, L', hmk, hrun, ⟨⟨_, hok, Function.update_self ..⟩,
    fun e => hi (Finset.mem_singleton.2 e), List.perm_singleton.1 hp, hfile⟩, ?_⟩
  obtain ⟨a, ha⟩ := Multiset.exists_mem_of_ne_zero (hnew.room (!ams.msAlloc))
  have hmem := hmv.free a ha
  rw [hmv.msAlloc]
  exact fun h0 => Multiset.notMem_zero a (h0 ▸ hmem)

/-- A file has been created in a new file system. -/
theorem exists_file : ∃ L ams i,
    Reach geometry (Call.exec geometry.fsxp) (SoundCall geometry.fsxp) L ams ∧
    OneFile L ams i DIRTREE.bfile0 ∧
    BFILE.freeOf geometry.fsxp L.disk.cur ams.msAllocC (!ams.msAlloc) ≠ 0 := by
  obtain ⟨ams₀, L₀, ams, i, L, hmk, hrun, hone, hfree⟩ := exists_create
  have hr : LogProg.run geometry.fsxp.log ((Call.create 1 [97]).exec geometry.fsxp ams₀) L₀ =
      ((ams, .ok ()), L) := run_create hrun
  exact ⟨L, ams, i, .step (.mkfs hmk) hr ⟨.root, trivial⟩, hone, hfree⟩

/-- A file with one block. -/
theorem exists_block : ∃ L ams i,
    Reach geometry (Call.exec geometry.fsxp) (SoundCall geometry.fsxp) L ams ∧
    OneFile L ams i ⟨[0], INODE.iattr0⟩ := by
  obtain ⟨L, ams, i, hreach, hone, hfree⟩ := exists_file
  obtain ⟨K, hok, hK⟩ := hone.ok
  -- the blocks that the other allocator has are used after a sync
  have hsync : LogProg.run geometry.fsxp.log (Call.treeSync.exec geometry.fsxp ams) L =
      (({ ams with msAlloc := !ams.msAlloc }, .ok ()), L.flushall) := rfl
  have hreach₁ := hreach.step hsync ⟨trivial, trivial⟩
  have hok₁ : Ok geometry.dataSize geometry.fsxp _ K L.flushall
      { ams with msAlloc := !ams.msAlloc } := Effect.flushed.ok hok
  have hblocks : (BFILE.blocks geometry.fsxp L.flushall.disk.cur i).length = 0 := by
    rw [L.disk_flushall]
    exact hone.length_blocks
  have hlen := le_logLen_geometry
  have hlog : 9 ≤ geometry.fsxp.log.logLen := by omega
  obtain ⟨⟨ams', r⟩, L', hx, rfl, hok', hfile', hother⟩ := LogProg.exists_run
    (wp_fileTruncate_grow hok₁ geometry.ok hlog (Finset.mem_insert_self i _) hK
      (by rw [hblocks] : 1 = _ + 1) (BFILE.canGrow_of_direct (by rw [hblocks]; decide) hfree))
  refine ⟨L', ams', i, hreach₁.step (c := .fileTruncate i 1) hx ⟨hone.inTree, trivial⟩,
    ⟨K, hok', hK⟩, hone.ne, ?_, ?_⟩
  · rw [hother _ (Finset.mem_insert_of_mem (Finset.mem_singleton_self _)) hone.ne.symm,
      L.disk_flushall, hone.dents]
  · rw [hfile', L.disk_flushall, hone.file]
    rfl

/-- There is room for a second entry in the block of the root directory. -/
theorem OneFile.canLink {L : LogSt} {ams : MemState} {i : ℕ} {f : BFILE.BFile}
    (h : OneFile L ams i f) :
    CacheOneDir.CanLink geometry.fsxp L.disk.cur ams geometry.fsxp.rootInum [98] := by
  have hents : (DIR.dents (BFILE.file geometry.fsxp L.disk.cur geometry.fsxp.rootInum)).length = 1 := by
    have hlen := congrArg List.length h.dents
    rwa [SDIR.dents, List.length_map] at hlen
  refine ⟨rfl, fun e he => ?_, DIR.hasRoom_of_length_lt ?_⟩
  · rw [h.dents] at he
    rw [List.mem_singleton.1 he]
    exact fun hn => absurd (List.cons.inj hn).1 (by decide)
  · have hle := List.length_filter_le DIR.isValid
      (DIR.slots (BFILE.file geometry.fsxp L.disk.cur geometry.fsxp.rootInum))
    rw [DIR.dents, DIR.entries, List.length_map] at hents ⊢
    rw [DIR.length_slots, itemsPerVal_dentSig] at hle ⊢
    omega

/-- A second file is created. -/
theorem OneFile.exists_second {L : LogSt} {ams : MemState} {i : ℕ} {f : BFILE.BFile}
    (h : OneFile L ams i f) : ∃ ams' j L',
    LogProg.run geometry.fsxp.log (create geometry.fsxp geometry.fsxp.rootInum [98] ams) L =
      ((ams', .ok j), L') ∧ InTree geometry.fsxp L'.disk.cur i false := by
  obtain ⟨K, hok, hK⟩ := h.ok
  have hlen := le_logLen_geometry
  have hi : i ∈ ({i, geometry.fsxp.rootInum} : Finset ℕ) := Finset.mem_insert_self i _
  have hcard : ({i, geometry.fsxp.rootInum} : Finset ℕ).card = 2 := Finset.card_pair h.ne
  have hin := four_le_ninodes
  have hlog : 10 ≤ geometry.fsxp.log.logLen := by omega
  obtain ⟨ams', j, L', hrun, hj, hok', -⟩ := exists_mknod (b := false) hok geometry.ok hlog
    (Finset.mem_insert_of_mem (Finset.mem_singleton_self _)) hok.root
    (hok.tree.freeList_ne_nil (by rw [hcard]; omega)) h.canLink
  have hij : i ≠ j := fun e => hj (e ▸ hi)
  refine ⟨ams', j, L', hrun, (inTree_iff hok'.tree hok'.root).2 ⟨Finset.mem_insert_of_mem hi, ?_⟩⟩
  rw [Function.update_of_ne hij, hK]

/-- A file with one block is given a size of 100 bytes. -/
theorem ftruncate_resized_block : ∃ L ams i ams' L',
    Reach geometry (Call.exec geometry.fsxp) (SoundCall geometry.fsxp) L ams ∧
    (BFILE.blocks geometry.fsxp L.disk.cur i).length = 1 ∧
    LogProg.run geometry.fsxp.log (ftruncate geometry.fsxp i 100 ams) L = ((ams', .ok ()), L') ∧
    Resized geometry.fsxp i 1 100 L ams L' ams' ∧ Consistent geometry.fsxp L' ams' := by
  obtain ⟨L, ams, i, hreach, hone⟩ := exists_block
  obtain ⟨K, hok, hK⟩ := hone.ok
  have hlen : (BFILE.blocks geometry.fsxp L.disk.cur i).length = 1 := hone.length_blocks
  have hsz : (100 + valulen - 1) / valulen = 1 := by
    rw [valulen_is]
  obtain ⟨⟨ams', r⟩, L', hx, rfl, -⟩ := LogProg.exists_run
    (wp_ftruncate_same hok geometry.ok hreach.logLen_pos (Finset.mem_insert_self i _) hK hlen hsz)
  refine ⟨L, ams, i, ams', L', hreach, hlen, hx, ?_⟩
  exact ftruncate_resized hreach hone.inTree (by decide) hlen hx

/-- A file with one block is given a size of 5000 bytes, but no second block. -/
theorem ftruncate_one_block : ∃ L ams i ams' L',
    Reach geometry (Call.exec geometry.fsxp) (SoundCall geometry.fsxp) L ams ∧
    InTree geometry.fsxp L.disk.cur i false ∧
    LogProg.run geometry.fsxp.log (ftruncate geometry.fsxp i 5000 ams) L = ((ams', .ok ()), L') ∧
    (BFILE.blocks geometry.fsxp L'.disk.cur i).length ≠ (5000 + 4095) / 4096 := by
  obtain ⟨L, ams, i, hreach, hone⟩ := exists_block
  obtain ⟨K, hok, hK⟩ := hone.ok
  have hlen : (BFILE.blocks geometry.fsxp L.disk.cur i).length = 1 := hone.length_blocks
  have hsz : (5000 + valulen - 1) / valulen = 1 := by
    rw [valulen_is]
  obtain ⟨⟨ams', r⟩, L', hx, rfl, -, -, hres⟩ := LogProg.exists_run
    (wp_ftruncate_same hok geometry.ok hreach.logLen_pos (Finset.mem_insert_self i _) hK hlen hsz)
  refine ⟨L, ams, i, ams', L', hreach, hone.inTree, hx, ?_⟩
  rw [hres.blocks]
  decide

end Sample

end Fscq
