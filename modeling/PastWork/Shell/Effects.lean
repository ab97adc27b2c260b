import PastWork.Shell.Control

/-!
# What a step can do

`Reaps` is all that `sigchld_handler` can do to a slot.  `Effect` says once what
a step does to the table: most steps only move the control, and only the
handler, `addjob` and the state write of `do_bgfg` change a slot.
-/

namespace PastWork
namespace Shell

/-- What a run of the handler can do to a slot. -/
inductive Reaps (job : Job) : Job → Prop
  | same : Reaps job job
  | stopped
      (hpid : 1 ≤ job.pid) :
      Reaps job { job with state := .ST }
  | cleared
      (hpid : 1 ≤ job.pid) :
      Reaps job clearjob

theorem Reaps.trans
    {job job' job'' : Job}
    (h : Reaps job job')
    (h' : Reaps job' job'') :
    Reaps job job'' := by
  cases h with
  | same => exact h'
  | stopped hpid =>
      cases h' with
      | same => exact .stopped hpid
      | stopped => exact .stopped hpid
      | cleared => exact .cleared hpid
  | cleared hpid =>
      cases h' with
      | same => exact .cleared hpid
      | stopped hzero => exact absurd hzero (by decide)
      | cleared => exact .cleared hpid

/-- A slot that has been reaped still has its pid or is free. -/
theorem Reaps.pid_eq
    {job job' : Job}
    (h : Reaps job job') :
    job'.pid = job.pid ∨ job'.pid = 0 := by
  cases h with
  | same => exact .inl rfl
  | stopped => exact .inl rfl
  | cleared => exact .inr rfl

/-- The handler puts no job in the foreground. -/
theorem Reaps.of_fg
    {job job' : Job}
    (h : Reaps job job')
    (hfg : job'.state = .FG) :
    job' = job := by
  cases h with
  | same => rfl
  | stopped => cases hfg
  | cleared => cases hfg

section Handler

variable {s : Tsh}

theorem setState_reaps
    {hand : Fin MAXJOBS}
    (hpid : 1 ≤ (s.jobs hand).pid)
    (k : Fin MAXJOBS) :
    Reaps (s.jobs k) ((s.setState hand .ST).jobs k) := by
  by_cases hk : k = hand
  · subst hk
    simpa [Tsh.setState] using Reaps.stopped hpid
  · simpa [Tsh.setState, hk] using Reaps.same

theorem delete_eq
    {cPid : Int} {hand : Fin MAXJOBS}
    (h : getjobpid cPid s.jobs = some hand) :
    (s.delete cPid).toJobs =
      { jobs := s.jobs.set hand clearjob
        nextjid := toInt32 (maxjid (s.jobs.set hand clearjob) + 1) } := by
  simp only [Tsh.delete, deletejob_eq, h]

theorem delete_reaps
    {cPid : Int} {hand : Fin MAXJOBS}
    (h : getjobpid cPid s.jobs = some hand)
    (k : Fin MAXJOBS) :
    Reaps (s.jobs k) ((s.delete cPid).jobs k) := by
  obtain ⟨hpid, hhand⟩ := getjobpid_spec h
  rw [delete_eq h]
  by_cases hk : k = hand
  · subst hk
    simpa using Reaps.cleared (hhand ▸ hpid)
  · simpa [hk] using Reaps.same

/-- The rule for the loop of the handler: a property of the job list that a
stop and a deletion keep is kept by every run. -/
theorem sigchldHandler_keeps
    {P : Jobs → Prop}
    (hstop : ∀ (s : Tsh) cPid hand, getjobpid cPid s.jobs = some hand →
      P s.toJobs → P (s.setState hand .ST).toJobs)
    (hdelete : ∀ (s : Tsh) cPid hand, getjobpid cPid s.jobs = some hand →
      P s.toJobs → P (s.delete cPid).toJobs)
    (children : List (Int × ChildStatus))
    (h : P s.toJobs) :
    P (sigchldHandler children s).1.toJobs := by
  induction children generalizing s with
  | nil =>
      exact h
  | cons child rest ih =>
      obtain ⟨cPid, Cstat⟩ := child
      unfold sigchldHandler
      cases hfind : getjobpid cPid s.jobs with
      | none => exact h
      | some hand =>
          cases Cstat with
          | stopped => exact ih (hstop s cPid hand hfind h)
          | signaled => exact ih (hdelete s cPid hand hfind h)
          | exited => exact ih (hdelete s cPid hand hfind h)

theorem sigchldHandler_reaps
    (children : List (Int × ChildStatus))
    (s : Tsh) (k : Fin MAXJOBS) :
    Reaps (s.jobs k) ((sigchldHandler children s).1.jobs k) := by
  refine sigchldHandler_keeps
    (P := fun l => Reaps (s.jobs k) (l.jobs k)) ?_ ?_ children .same
  · intro m cPid hand hfind h
    obtain ⟨hpid, hhand⟩ := getjobpid_spec hfind
    exact h.trans (setState_reaps (hhand ▸ hpid) k)
  · intro m cPid hand hfind h
    exact h.trans (delete_reaps hfind k)

end Handler

/-- The steps of the control that leave the table alone. -/
inductive Steers (jobs : Table) : Event → Control → Control → Prop
  | line (argv : List CString) (bg : Bool) (cmdline : CString) :
      Steers jobs (.line argv bg cmdline) .reading
        (.evaluating argv bg cmdline)
  | exit (e : Event) (c : Control) : Steers jobs e c .exited
  | builtin (argv : List CString) (bg : Bool) (cmdline : CString) :
      Steers jobs .proceed (.evaluating argv bg cmdline) .reading
  | bgfg (argv : List CString) (bg : Bool) (cmdline : CString) :
      Steers jobs .proceed (.evaluating argv bg cmdline) (.looking argv)
  | run (argv : List CString) (bg : Bool) (cmdline : CString) :
      Steers jobs .proceed (.evaluating argv bg cmdline)
        (.forking bg cmdline)
  | fork (bg : Bool) (cmdline : CString) {pid : Int}
      (hpid : 1 ≤ pid) :
      Steers jobs (.fork pid) (.forking bg cmdline)
        (.adding pid bg cmdline)
  | background (pid : Int) (cmdline : CString) :
      Steers jobs .proceed (.started pid true cmdline) .reading
  | foreground (pid : Int) (cmdline : CString) :
      Steers jobs .proceed (.started pid false cmdline) (.entering pid)
  | reject (argv : List CString) :
      Steers jobs .proceed (.looking argv) .reading
  | find (argv : List CString) (command : CString)
      (piddy : Fin MAXJOBS) :
      Steers jobs .proceed (.looking argv) (.found command piddy)
  | aim (command : CString) (piddy : Fin MAXJOBS) :
      Steers jobs .proceed (.found command piddy)
        (.killing command piddy (jobs piddy).pid)
  | resume (command : CString) (piddy : Fin MAXJOBS) (target : Int) :
      Steers jobs (.kill true) (.killing command piddy target)
        (.resumed command piddy)
  | announce (piddy : Fin MAXJOBS) :
      Steers jobs .proceed (.announcing piddy) .reading
  | wait (piddy : Fin MAXJOBS) :
      Steers jobs .proceed (.fronting piddy) (.entering (jobs piddy).pid)
  | block (pid : Int) :
      Steers jobs .proceed (.entering pid) (.testing pid)
  | suspend (pid : Int) :
      Steers jobs .proceed (.testing pid) (.suspended pid)
  | leave {pid : Int}
      (hpid : pid ≠ fgpid jobs) :
      Steers jobs .proceed (.testing pid) .reading
  | wake (ok : Bool) (c : Control) :
      Steers jobs (.forward ok) c c.woken

/-- What a step does. -/
inductive Effect (s : Tsh) : Event → Tsh → Prop
  | steer {e : Event} {s' : Tsh}
      (hjobs : s'.toJobs = s.toJobs)
      (hcontrol : Steers s.jobs e s.control s'.control) :
      Effect s e s'
  | handle (children : List (Int × ChildStatus)) {s' : Tsh}
      (hopen : s.control.unblocked = true)
      (hjobs : s'.toJobs = (sigchldHandler children s).1.toJobs)
      (hcontrol : s'.control = s.control.woken) :
      Effect s (.sigchld children) s'
  | record {pid : Int} {bg : Bool} {cmdline : CString} {s' : Tsh}
      (hadding : s.control = .adding pid bg cmdline)
      (hjobs : s'.toJobs =
        (addjob pid (if bg then .BG else .FG) cmdline s.toJobs).2)
      (hcontrol : s'.control = .started pid bg cmdline) :
      Effect s .proceed s'
  | background {command : CString} {piddy : Fin MAXJOBS} {s' : Tsh}
      (hresumed : s.control = .resumed command piddy)
      (hjobs : s'.toJobs = (s.setState piddy .BG).toJobs)
      (hcontrol : s'.control = .announcing piddy) :
      Effect s .proceed s'
  | foreground {command : CString} {piddy : Fin MAXJOBS} {s' : Tsh}
      (hresumed : s.control = .resumed command piddy)
      (hjobs : s'.toJobs = (s.setState piddy .FG).toJobs)
      (hcontrol : s'.control = .fronting piddy) :
      Effect s .proceed s'

section Inversion

variable {s s' : Tsh} {e : Event}

theorem record_toJobs
    (s : Tsh) (pid : Int) (bg : Bool) (cmdline : CString) :
    (s.record pid bg cmdline).toJobs =
      (addjob pid (if bg then .BG else .FG) cmdline s.toJobs).2 := by
  simp only [Tsh.record]
  generalize addjob pid (if bg then .BG else .FG) cmdline s.toJobs = added
  by_cases h : added.1 = true ∨ pid < 1
  · rw [if_pos h]
  · rw [if_neg h]
    rfl

theorem proceed_effect
    (h : s.proceed = some s') :
    Effect s .proceed s' := by
  unfold Tsh.proceed at h
  cases hc : s.control with
  | evaluating argv bg cmdline =>
      simp only [hc] at h
      cases h
      unfold Tsh.evaluate
      split
      · exact .steer rfl (hc ▸ .builtin _ bg cmdline)
      · split_ifs
        · exact .steer rfl (hc ▸ .builtin _ bg cmdline)
        · exact .steer rfl (.exit _ _)
        · exact .steer rfl (hc ▸ .builtin _ bg cmdline)
        · exact .steer rfl (hc ▸ .bgfg _ bg cmdline)
        · exact .steer rfl (hc ▸ .run _ bg cmdline)
  | adding pid bg cmdline =>
      simp only [hc] at h
      cases h
      exact .record hc (record_toJobs s pid bg cmdline) rfl
  | started pid bg cmdline =>
      simp only [hc] at h
      cases h
      cases bg with
      | true => exact .steer rfl (hc ▸ .background pid cmdline)
      | false => exact .steer rfl (hc ▸ .foreground pid cmdline)
  | looking argv =>
      simp only [hc] at h
      cases h
      unfold Tsh.look
      split
      · exact .steer rfl (hc ▸ .reject argv)
      · exact .steer rfl (hc ▸ .find argv _ _)
  | found command piddy =>
      simp only [hc] at h
      cases h
      exact .steer rfl (hc ▸ .aim command piddy)
  | resumed command piddy =>
      simp only [hc] at h
      cases h
      unfold Tsh.mark
      split
      · exact .background hc rfl rfl
      · exact .foreground hc rfl rfl
  | announcing piddy =>
      simp only [hc] at h
      cases h
      exact .steer rfl (hc ▸ .announce piddy)
  | fronting piddy =>
      simp only [hc] at h
      cases h
      exact .steer rfl (hc ▸ .wait piddy)
  | entering pid =>
      simp only [hc] at h
      cases h
      exact .steer rfl (hc ▸ .block pid)
  | testing pid =>
      simp only [hc] at h
      cases h
      unfold Tsh.test
      split
      next => exact .steer rfl (hc ▸ .suspend pid)
      next hpid => exact .steer rfl (hc ▸ .leave hpid)
  | reading | forking | killing | suspended | exited =>
      simp only [hc] at h
      cases h

/-- Every step has one of the effects. -/
theorem step_effect
    (h : step s e = some s') :
    Effect s e s' := by
  cases e with
  | line argv bg cmdline =>
      cases hc : s.control <;> simp only [step, hc] at h <;> cases h
      exact .steer rfl (hc ▸ .line argv bg cmdline)
  | eof =>
      cases hc : s.control <;> simp only [step, hc] at h <;> cases h
      exact .steer rfl (.exit _ _)
  | proceed =>
      exact proceed_effect h
  | fork pid =>
      cases hc : s.control <;> simp only [step, hc] at h <;> try cases h
      next bg cmdline =>
        split_ifs at h with hneg hzero
        · cases h
          exact .steer rfl (.exit _ _)
        · cases h
          exact .steer rfl (hc ▸ .fork bg cmdline (by omega))
  | kill ok =>
      cases hc : s.control <;> simp only [step, hc] at h <;> cases h
      cases ok with
      | true => exact .steer rfl (hc ▸ .resume _ _ _)
      | false => exact .steer rfl (.exit _ _)
  | sigchld children =>
      simp only [step] at h
      split at h
      next hopen =>
          cases h
          exact .handle children hopen rfl rfl
      next =>
          cases h
  | forward ok =>
      simp only [step] at h
      split at h
      · cases h
      · cases h
      · split_ifs at h
        · cases h
          exact .steer rfl (.exit _ _)
        · cases h
          exact .steer rfl (.wake _ _)

end Inversion

end Shell
end PastWork
