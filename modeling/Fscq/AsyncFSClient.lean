import Fscq.Lib.ClientProg
import Fscq.AsyncFSLogged
import Fscq.AsyncFSMachine

/-!
# Programs that call the file system

Each call of the file system is a program over the log.  A client calls one after the other; if none of
its calls does harm, then a crash in the middle of the client leaves what one between two of its calls
leaves (`AFS.Client.wp_compile`), on the log and on the machine.
-/

namespace Fscq

open CrashProg

open BFILE (MemState)

namespace AFS

variable [Platform] {α : Type} {Op : Type → Type 1} {g : Geometry} {c : Call} {s s₀ s' : Moment}
  {P : Moment → Prop} {R : Call → Moment → Prop} {d : Mem}

/-! ### Between two calls -/

/-- The operations of a client: calls of the file system, whose answers may say more. -/
structure Client (fsxp : FsXparams) (Op : Type → Type 1) where
  exec : ∀ {α : Type}, Op α → MemState → LogProg (MemState × α)
  call : ∀ {α : Type}, Op α → Call
  answer : ∀ {α : Type}, Op α → α → Res Unit
  forgets : ∀ {α : Type} (o : Op α) (ams : MemState) (n : ℕ) (xp : LogXparams),
    Forgets (LogProg.sem n xp) (fun r : MemState × α => (r.1, answer o r.2)) (exec o ams)
      ((call o).exec fsxp ams)

/-- When the machine is rebooted after a crash. -/
def Moment.recovered (d : Mem) : Moment := ⟨{d}, .ofDisk d, BFILE.msEmpty⟩

/-- The machine may crash between two calls. -/
theorem Moment.Lives.recovered (h : s.Lives g) (hd : d ∈ s.log.crashes g.fsxp.log) :
    (Moment.recovered d).Lives g :=
  Life.crash h (c := .treeSync) (.inl ⟨trivial, trivial⟩)
    (.bindCrash (.bindCrash (.crash s.log trivial))) hd

namespace Client

variable (u : Client g.fsxp Op)

/-- The meaning of a client, if its calls have to do no harm and to satisfy `R`.  The machine may
crash before every call. -/
def sem (R : Call → Moment → Prop) : Sem Moment Op where
  step s o s' v := (LogProg.run g.fsxp.log (u.exec o s.ams) s.log).1.2 = v ∧
    s.after g (u.call o) = s'
  fail s o := ¬ (s.Harmless g (u.call o) ∧ R (u.call o) s)
  crash _ := True

variable {u}

theorem run_call (o : Op α) (s : Moment) :
    LogProg.run g.fsxp.log ((u.call o).exec g.fsxp s.ams) s.log =
      (((LogProg.run g.fsxp.log (u.exec o s.ams) s.log).1.1,
        u.answer o (LogProg.run g.fsxp.log (u.exec o s.ams) s.log).1.2),
        (LogProg.run g.fsxp.log (u.exec o s.ams) s.log).2) :=
  (u.forgets o s.ams g.dataSize g.fsxp.log).run_eq (f := LogProg.apply g.fsxp.log)
    (fun _ _ => rfl) (fun _ _ _ _ => id) s.log

theorem ams_after (o : Op α) (s : Moment) : (s.after g (u.call o)).ams =
    (LogProg.run g.fsxp.log (u.exec o s.ams) s.log).1.1 := by
  change (LogProg.run g.fsxp.log ((u.call o).exec g.fsxp s.ams) s.log).1.1 = _
  rw [run_call]

theorem log_after (o : Op α) (s : Moment) : (s.after g (u.call o)).log =
    (LogProg.run g.fsxp.log (u.exec o s.ams) s.log).2 := by
  change (LogProg.run g.fsxp.log ((u.call o).exec g.fsxp s.ams) s.log).2 = _
  rw [run_call]

/-- The programs of the calls do what the calls do. -/
theorem implements : Implements (LogProg.sem g.dataSize g.fsxp.log) (u.sem R) u.exec
    (fun s ams L => s.Lives g ∧ s.ams = ams ∧ s.log = L) (LogSt.crashes · g.fsxp.log)
    (fun s => s.log.crashes g.fsxp.log) where
  crash _ := trivial
  op := by
    rintro α o s _ _ ⟨hlife, rfl, rfl⟩ hf
    obtain ⟨hc, -⟩ := not_not.1 hf
    have hforget := u.forgets o s.ams g.dataSize g.fsxp.log s.log
    intro out e
    cases out with
    | failed =>
      obtain ⟨A, K, hok⟩ := hlife.ok
      exact wp_harmless hok hlife.sound.log hc _ (hforget _ e)
    | finished L' r =>
      have hrun : LogProg.run g.fsxp.log (u.exec o s.ams) s.log = (r, L') :=
        run_eq_of_exec (f := LogProg.apply g.fsxp.log) (fun _ _ _ _ => id) e
      refine ⟨s.after g (u.call o), ⟨by rw [hrun], rfl⟩, hlife.after hc, ?_, ?_⟩
      · rw [ams_after, hrun]
      · rw [log_after, hrun]
    | crashed M =>
      intro d hd
      rcases Moment.CrashesTo.mem ⟨M, hforget _ e, hd⟩ with hd | hd
      · exact .inl hd
      · exact .inr ⟨_, _, ⟨rfl, rfl⟩, hd⟩

theorem wp_op {o : Op α} {Q : α → Moment → Prop} (hP : P s) (hc : s.Harmless g (u.call o))
    (hR : R (u.call o) s)
    (hQ : Q (LogProg.run g.fsxp.log (u.exec o s.ams) s.log).1.2 (s.after g (u.call o))) :
    wp (u.sem R) (.op o) Q P s := by
  apply CrashProg.wp_op (not_not.2 ⟨hc, hR⟩) fun _ => hP
  rintro s' v ⟨rfl, rfl⟩
  exact hQ

theorem later_wp {p : CrashProg.Prog Op α} {Q : α → Moment → Prop} (h : wp (u.sem R) p Q P s)
    (hl : Later g R s₀ s) : wp (u.sem R) p (fun v s' => Q v s' ∧ Later g R s₀ s')
      (fun s' => P s' ∧ Later g R s₀ s') s := by
  refine CrashProg.wp.keeps (I := Later g R s₀) ?_ h hl
  rintro α o s _ v hl hf ⟨-, rfl⟩
  obtain ⟨hc, hR⟩ := not_not.1 hf
  exact hl.call hc hR

/-- A client that does no harm: it ends at a later moment, and what a crash in the middle of it leaves
is what one leaves at a moment between two of its calls. -/
theorem wp_compile {p : CrashProg.Prog Op α} {Q : α → Moment → Prop} (hs : s.Lives g)
    (h : wp (u.sem R) p Q P s) :
    LogProg.wp g.dataSize g.fsxp.log (compile u.exec p s.ams)
      (fun r L' => ∃ s', Later g R s s' ∧ s'.ams = r.1 ∧ s'.log = L' ∧ Q r.2 s')
      (fun M => ∀ d ∈ M.crashes g.fsxp.log, ∃ s', Later g R s s' ∧ (P s' ∨ ∃ v, Q v s') ∧
        d ∈ s'.log.crashes g.fsxp.log) s.log := by
  apply wp_mono (implements.wp_compile (later_wp h .refl) ⟨hs, rfl, rfl⟩)
  · rintro r L' ⟨s', ⟨-, hams, hlog⟩, hQ, hl⟩
    exact ⟨s', hl, hams, hlog, hQ⟩
  · intro M hM d hd
    obtain ⟨s', hs', hd⟩ := hM d hd
    rcases hs' with ⟨hP, hl⟩ | ⟨v, hQ, hl⟩
    · exact ⟨s', hl, .inl hP, hd⟩
    · exact ⟨s', hl, .inr ⟨v, hQ⟩, hd⟩

/-- A machine that executes a client that does no harm does not fail.  When the client returns, the
machine represents a later moment; when the machine crashes and is rebooted, replaying the log ends in
a disk that a crash between two of the calls can leave. -/
theorem on_disk {p : CrashProg.Prog Op α} {Q : α → Moment → Prop} {ms : LOG.MemState} {st : St} (k : ℕ)
    (hs : s.Lives g) (h : wp (u.sem R) p Q P s) (hQP : ∀ v s', Q v s' → P s')
    (hA : LOG.LState g.fsxp.maxBlock g.fsxp.log s.log ms st) :
    ¬ Exec diskSem st (LogProg.compile g.fsxp.log (compile u.exec p s.ams) ms) .failed ∧
    (∀ st' ms' r, Exec diskSem st (LogProg.compile g.fsxp.log (compile u.exec p s.ams) ms)
        (.finished st' (ms', r)) →
      ∃ s', Later g R s s' ∧ Q r.2 s' ∧ s'.ams = r.1 ∧
        LOG.LState g.fsxp.maxBlock g.fsxp.log s'.log ms' st') ∧
    ∀ st', Exec diskSem st (LogProg.compile g.fsxp.log (compile u.exec p s.ams) ms) (.crashed st') →
      ∀ st₀ out, Reboot st' st₀ →
        ExecRecover diskSem Reboot st₀ (LOG.recoverBoot k g.fsxp.log) (LOG.recoverBoot k g.fsxp.log)
          out →
        let Rec := fun ms' st'' => ∃ s' d, Later g R s s' ∧ P s' ∧ d ∈ s'.log.crashes g.fsxp.log ∧
          LOG.LState g.fsxp.maxBlock g.fsxp.log (.ofDisk d) ms' st''
        out.Sat Rec Rec := by
  have hdisk := LogProg.wp_compile g.layout hA (wp_compile hs h)
    (D := {d | ∃ s', Later g R s s' ∧ P s' ∧ d ∈ s'.log.crashes g.fsxp.log}) fun M hM d hd => by
      obtain ⟨s', hl, hP, hd⟩ := hM d hd
      exact ⟨s', hl, hP.elim id fun ⟨v, hQ⟩ => hQP v s' hQ, hd⟩
  refine ⟨fun e => hdisk _ e, ?_, ?_⟩
  · intro st' ms' r e
    obtain ⟨rfl, hA'⟩ := hdisk _ e
    obtain ⟨s', hl, hams, hlog, hQ⟩ := LogProg.wp_run (wp_compile hs h)
    exact ⟨s', hl, hQ, hams, hlog ▸ hA'⟩
  · intro st' e st₀ out hr erec
    apply LOG.sat_of_crash k g.layout (hdisk _ e) hr _ erec
    rintro d ⟨s', hl, hP, hd⟩ ms' st'' hA'
    exact ⟨s', d, hl, hP, hd, hA'⟩

end Client

end AFS

end Fscq
