import PastWork.Shell.Forwarding
import PastWork.Shell.Resuming
import PastWork.Shell.Slots

/-!
# The job IDs that are printed

The shell prints a job as `[jid] (pid)` in four places.  A record beside the
shell keeps the job ID that `addjob` gave each pid and the pid of the job that
`do_bgfg` has found.  What is printed agrees with the record exactly as long as
the slot of the job has not been cleared before, which `sigchld_handler` itself
does to every job that a signal has ended.
-/

namespace PastWork
namespace Shell

open Steps

/-- What the lines about a job have to show. -/
structure Promises where
  /-- the job ID of the last job with this pid, if `addjob` has recorded it -/
  given : Int → Option Int
  /-- the pid of the job that `do_bgfg` has found last -/
  chosen : Int

/-- The record after the shell has proceeded from `s`. -/
def Promises.after (g : Promises) (s : Tsh) : Promises :=
  match s.control with
  | .adding pid bg cmdline =>
      { g with
        given := Function.update g.given pid
          (if (addjob pid (if bg then .BG else .FG) cmdline s.toJobs).1 then
            some s.nextjid
          else
            none) }
  | .looking argv =>
      match selectJob argv s.jobs with
      | .error _ => g
      | .ok piddy => { g with chosen := (s.jobs piddy).pid }
  | _ => g

/-- The shell with the record, which nothing reads. -/
structure Ledger extends World, Promises

namespace Ledger

def start : Ledger where
  toWorld := World.start
  given := fun _ => none
  chosen := 0

def step (l : Ledger) (h : Happening) : Option Ledger :=
  (World.step l.toWorld h).map (fun w =>
    { toWorld := w
      toPromises :=
        if h = .proceed then l.toPromises.after l.toTsh else l.toPromises })

/-- Without the record the runs are those of the shell. -/
theorem exec_toWorld
    (l : Ledger) (happenings : List Happening) :
    (exec step l happenings).map Ledger.toWorld =
      exec World.step l.toWorld happenings := by
  induction happenings generalizing l with
  | nil =>
      rfl
  | cons h happenings ih =>
      simp only [exec, step]
      cases World.step l.toWorld h with
      | none => rfl
      | some w => exact ih _

end Ledger

/-- The job ID and the pid in a line about a single job. -/
def Line.shows : Line → Option (Int × Int)
  | .job mippy pid _ => some (mippy, pid)
  | .stopped mippy pid => some (mippy, pid)
  | .terminated mippy pid => some (mippy, pid)
  | _ => none

namespace Ledger

/-- The pid of the job that the next lines are about. -/
def subject (l : Ledger) : Happening → Option Int
  | .proceed =>
      match l.control with
      | .started pid true _ => some pid
      | .announcing _ => some l.chosen
      | _ => none
  | .handle =>
      match l.frames with
      | .reaped cPid _ :: _ => some cPid
      | _ => none
  | _ => none

/-- The lines that are printed about a tracked job show its pid and the job ID
that `addjob` gave it. -/
def Honest (l : Ledger) (h : Happening) : Prop :=
  ∀ l', l.step h = some l' →
    ∀ line ∈ l'.out.drop l.out.length,
      ∀ mippy pid, line.shows = some (mippy, pid) →
        ∃ job, l.subject h = some job ∧
          ∀ jid, l.given job = some jid → mippy = jid ∧ pid = job

/-- No tracked job has been ended by a signal, and the job that is announced
still has its slot. -/
def Undisturbed (l : Ledger) (h : Happening) : Prop :=
  match h with
  | .handle =>
      ∀ cPid rest, l.frames = .reaped cPid .signaled :: rest →
        ∀ k, (l.jobs k).pid ≠ cPid
  | .proceed =>
      match l.control with
      | .started pid true _ => l.given pid = none ∨ ∃ k, (l.jobs k).pid = pid
      | .announcing piddy => (l.jobs piddy).pid ≠ 0
      | _ => True
  | _ => True

end Ledger

/-- The pointer of `do_bgfg`. -/
def Control.piddy : Control → Option (Fin MAXJOBS)
  | .found _ piddy | .killing _ piddy _ | .resumed _ piddy
  | .announcing piddy | .fronting piddy => some piddy
  | _ => none

/-- The slots in use have the IDs of the record, and the slot of `do_bgfg` is
that of the job it has found or has been cleared. -/
structure Kept (g : Promises) (s : Tsh) : Prop where
  slots : ∀ k, (s.jobs k).pid = 0 ∧ (s.jobs k).mippy = 0 ∨
    1 ≤ (s.jobs k).pid ∧ g.given (s.jobs k).pid = some (s.jobs k).mippy
  real : ∀ pid jid, g.given pid = some jid → 1 ≤ pid ∧ jid ≠ 0
  counted : Counted s.toJobs
  pointer : ∀ piddy, s.control.piddy = some piddy →
    ((s.jobs piddy).pid = g.chosen ∨ (s.jobs piddy).pid = 0) ∧
      (g.given g.chosen).isSome

section Keeping

variable {g : Promises} {s s' : Tsh}

theorem Kept.start :
    Kept Ledger.start.toPromises Tsh.start where
  slots := fun _ => .inl ⟨rfl, rfl⟩
  real := by
    intro pid jid h
    cases h
  counted := Settled.start.counted
  pointer := by
    intro piddy h
    cases h

/-- The slots may be reaped, and the pointer may go. -/
theorem Kept.of_reaps
    (h : Kept g s)
    (hcounted : Counted s'.toJobs)
    (hreaps : ∀ k, Reaps (s.jobs k) (s'.jobs k))
    (hpiddy : s'.control.piddy = s.control.piddy ∨
      s'.control.piddy = none) :
    Kept g s' := by
  refine ⟨?_, h.real, hcounted, ?_⟩
  · intro k
    have hslot := h.slots k
    have hk := hreaps k
    generalize s.jobs k = job at hslot hk
    generalize s'.jobs k = job' at hk
    cases hk with
    | same => exact hslot
    | stopped => exact hslot
    | cleared => exact .inl ⟨rfl, rfl⟩
  · intro piddy hpointer
    rcases hpiddy with hsame | hnone
    · obtain ⟨hpid, hchosen⟩ := h.pointer piddy (hsame ▸ hpointer)
      refine ⟨?_, hchosen⟩
      rcases (hreaps piddy).pid_eq with heq | hzero
      · rw [heq]
        exact hpid
      · exact .inr hzero
    · rw [hnone] at hpointer
      cases hpointer

theorem Kept.setState
    (h : Kept g s)
    (hand : Fin MAXJOBS) (state : JobState) :
    Kept g (s.setState hand state) := by
  have hsame : ∀ k, ((s.setState hand state).jobs k).pid = (s.jobs k).pid ∧
      ((s.setState hand state).jobs k).mippy = (s.jobs k).mippy := by
    intro k
    by_cases hk : k = hand <;> simp [Tsh.setState, hk]
  refine ⟨?_, h.real, h.counted.setState hand state, ?_⟩
  · intro k
    rw [(hsame k).1, (hsame k).2]
    exact h.slots k
  · intro piddy hpointer
    rw [(hsame piddy).1]
    exact h.pointer piddy hpointer

/-- The pointer and the slots do not depend on the rest of the state. -/
theorem Kept.of_same
    (h : Kept g s)
    (hjobs : s'.toJobs = s.toJobs)
    (hpiddy : s'.control.piddy = s.control.piddy ∨
      s'.control.piddy = none) :
    Kept g s' := by
  refine h.of_reaps (hjobs ▸ h.counted) ?_ hpiddy
  intro k
  rw [hjobs]
  exact .same

/-- What `addjob` does, with its result. -/
theorem addjob_result
    (pid : Int) (state : JobState) (cmdline : CString) (l : Jobs) :
    addjob pid state cmdline l = (false, l) ∨
      ∃ k, 1 ≤ pid ∧ (l.jobs k).pid = 0 ∧
        addjob pid state cmdline l =
          (true,
            { jobs := l.jobs.set k ⟨pid, l.nextjid, state, cmdline⟩
              nextjid := bump l.nextjid }) := by
  unfold addjob
  split
  next =>
      exact .inl rfl
  next hpid =>
      split
      next =>
          exact .inl rfl
      next k hk =>
          exact .inr ⟨k, by omega, by simpa using first_spec hk, rfl⟩

/-- The promises stay real when that of one pid is replaced. -/
theorem Kept.real_update
    {pid p : Int} {promise : Option Int} {jid : Int}
    (h : Kept g s)
    (hpromise : ∀ jid, promise = some jid → 1 ≤ pid ∧ jid ≠ 0)
    (hgiven : Function.update g.given pid promise p = some jid) :
    1 ≤ p ∧ jid ≠ 0 := by
  by_cases hp : p = pid
  · subst hp
    rw [Function.update_self] at hgiven
    exact hpromise jid hgiven
  · rw [Function.update_of_ne hp] at hgiven
    exact h.real p jid hgiven

/-- A job that is added gets a promise, and a job that is not loses it. -/
theorem Kept.record
    {pid : Int} {bg : Bool} {cmdline : CString}
    (h : Kept g s)
    (hadding : s.control = .adding pid bg cmdline)
    (hnew : ∀ k, (s.jobs k).pid ≠ pid)
    (hpiddy : s'.control.piddy = none)
    (hjobs : s'.toJobs =
      (addjob pid (if bg then .BG else .FG) cmdline s.toJobs).2) :
    Kept (g.after s) s' := by
  have hpointer : ∀ piddy, s'.control.piddy = some piddy →
      ((s'.jobs piddy).pid = (g.after s).chosen ∨ (s'.jobs piddy).pid = 0) ∧
        ((g.after s).given (g.after s).chosen).isSome := by
    intro piddy hsome
    rw [hpiddy] at hsome
    cases hsome
  have hafter : (g.after s).given = Function.update g.given pid
      (if (addjob pid (if bg then .BG else .FG) cmdline s.toJobs).1 then
        some s.nextjid
      else
        none) := by
    simp only [Promises.after, hadding]
  -- the promises of the other pids stay
  have hother : ∀ k, (s.jobs k).pid = 0 ∧ (s.jobs k).mippy = 0 ∨
      1 ≤ (s.jobs k).pid ∧
        (g.after s).given (s.jobs k).pid = some (s.jobs k).mippy := by
    intro k
    rw [hafter, Function.update_of_ne (hnew k)]
    exact h.slots k
  rcases addjob_result pid (if bg then .BG else .FG) cmdline s.toJobs with
    hsame | ⟨k, hpid, hk, hset⟩
  · rw [hsame] at hjobs hafter
    refine ⟨?_, ?_, hjobs ▸ h.counted, hpointer⟩
    · rw [hjobs]
      exact hother
    · intro p jid hgiven
      rw [hafter] at hgiven
      exact h.real_update (by simp) hgiven
  · have hnext : s.nextjid ≠ 0 := by
      have := h.counted.next
      omega
    rw [hset] at hjobs hafter
    dsimp only at hjobs hafter
    have hslots : s'.jobs = s.jobs.set k
        ⟨pid, s.nextjid, if bg then .BG else .FG, cmdline⟩ :=
      congrArg Jobs.jobs hjobs
    refine ⟨?_, ?_, ?_, hpointer⟩
    · rw [hslots]
      intro j
      by_cases hj : j = k
      · subst hj
        rw [set_same, hafter]
        exact .inr ⟨hpid, by simp⟩
      · rw [set_ne _ _ hj]
        exact hother j
    · intro p jid hgiven
      rw [hafter] at hgiven
      refine h.real_update ?_ hgiven
      rintro _ ⟨⟩
      exact ⟨hpid, hnext⟩
    · rw [hjobs]
      refine h.counted.added hk ?_ rfl
      show pid ≠ 0
      omega

/-- A slot in use has a pid, and so has one with a job ID. -/
theorem Kept.in_use
    {k : Fin MAXJOBS}
    (h : Kept g s)
    (huse : (s.jobs k).pid ≠ 0 ∨ (s.jobs k).mippy ≠ 0) :
    1 ≤ (s.jobs k).pid ∧
      g.given (s.jobs k).pid = some (s.jobs k).mippy := by
  rcases h.slots k with ⟨hpid, hmippy⟩ | hslot
  · rcases huse with hne | hne
    · exact absurd hpid hne
    · exact absurd hmippy hne
  · exact hslot

/-- The job that `do_bgfg` finds is the chosen one. -/
theorem Kept.look
    {argv : List CString}
    (h : Kept g s)
    (hlooking : s.control = .looking argv) :
    Kept (g.after s) (s.look argv) := by
  simp only [Promises.after, hlooking, Tsh.look]
  cases hselect : selectJob argv s.jobs with
  | error line =>
      exact h.of_same rfl (.inr rfl)
  | ok piddy =>
      obtain ⟨arg, _, _, hpos, hname⟩ := selectJob_spec hselect
      have huse : (s.jobs piddy).pid ≠ 0 ∨ (s.jobs piddy).mippy ≠ 0 := by
        unfold designation at hname
        split at hname <;> omega
      refine ⟨h.slots, h.real, h.counted, ?_⟩
      intro piddy' hpointer
      obtain rfl : piddy = piddy' := Option.some.inj hpointer
      exact ⟨.inl rfl, by simp [(h.in_use huse).2]⟩

theorem woken_piddy
    (c : Control) :
    c.woken.piddy = c.piddy := by
  cases c <;> rfl

/-- A step of the control keeps the pointer of `do_bgfg` or drops it. -/
theorem Steers.piddy
    {jobs : Table} {e : Event} {c c' : Control}
    (h : Steers jobs e c c')
    (hlooking : e = .proceed → ∀ argv, c ≠ .looking argv) :
    c'.piddy = c.piddy ∨ c'.piddy = none := by
  cases h with
  | find argv => exact absurd rfl (hlooking rfl argv)
  | aim => exact .inl rfl
  | resume => exact .inl rfl
  | wake ok c => exact .inl (woken_piddy c)
  | _ => exact .inr rfl

/-- A step of the shell that is no look-up and no addition. -/
theorem Kept.effect
    {e : Event}
    (h : Kept g s)
    (heffect : Effect s e s')
    (hlooking : e = .proceed → ∀ argv, s.control ≠ .looking argv)
    (hadding : e = .proceed → ∀ pid bg cmdline,
      s.control ≠ .adding pid bg cmdline) :
    Kept g s' := by
  cases heffect with
  | steer hjobs hcontrol =>
      exact h.of_same hjobs (hcontrol.piddy hlooking)
  | handle children hopen hjobs hcontrol =>
      refine h.of_reaps (hjobs ▸ h.counted.handler children) ?_ ?_
      · rw [hjobs]
        exact sigchldHandler_reaps children s
      · rw [hcontrol]
        exact .inl (woken_piddy s.control)
  | record hcontrol => exact absurd hcontrol (hadding rfl _ _ _)
  | @background command piddy _ hresumed hjobs hcontrol =>
      refine (h.setState piddy .BG).of_same hjobs (.inl ?_)
      simp [hcontrol, Tsh.setState, hresumed, Control.piddy]
  | @foreground command piddy _ hresumed hjobs hcontrol =>
      refine (h.setState piddy .FG).of_same hjobs (.inl ?_)
      simp [hcontrol, Tsh.setState, hresumed, Control.piddy]

end Keeping

namespace Ledger

/-- As long as the shell has not ended. -/
structure Sound (l : Ledger) : Prop where
  traced : World.Traced l.toWorld
  kept : Kept l.toPromises l.toTsh

variable {l l' : Ledger} {h : Happening}

theorem step_eq_some
    (hstep : l.step h = some l') :
    World.step l.toWorld h = some l'.toWorld ∧
      l'.toPromises =
        if h = .proceed then l.toPromises.after l.toTsh else l.toPromises := by
  obtain ⟨w, hw, rfl⟩ := Option.map_eq_some_iff.mp hstep
  exact ⟨hw, rfl⟩

/-- The shell proceeds by itself. -/
theorem Sound.proceed
    {w : World}
    (hl : Sound l)
    (hmain : l.main .proceed .quit = some w) :
    Kept (l.toPromises.after l.toTsh) w.toTsh := by
  obtain ⟨_, s, hs, rfl⟩ := World.main_eq_some hmain
  have hproceed : l.toTsh.proceed = some s := hs
  show Kept (l.toPromises.after l.toTsh) s
  by_cases hadding : ∃ pid bg cmdline, l.control = .adding pid bg cmdline
  · obtain ⟨pid, bg, cmdline, hadding⟩ := hadding
    obtain ⟨_, _, hnew⟩ := hl.traced.adding pid bg cmdline hadding
    simp only [Tsh.proceed, hadding] at hproceed
    cases hproceed
    exact hl.kept.record hadding hnew rfl
      (record_toJobs l.toTsh pid bg cmdline)
  · by_cases hlooking : ∃ argv, l.control = .looking argv
    · obtain ⟨argv, hlooking⟩ := hlooking
      simp only [Tsh.proceed, hlooking] at hproceed
      cases hproceed
      exact hl.kept.look hlooking
    · have hafter : l.toPromises.after l.toTsh = l.toPromises := by
        unfold Promises.after
        split
        next pid bg cmdline hc =>
            exact absurd ⟨pid, bg, cmdline, hc⟩ hadding
        next argv hc =>
            exact absurd ⟨argv, hc⟩ hlooking
        next =>
            rfl
      rw [hafter]
      apply hl.kept.effect (proceed_effect hproceed)
      · exact fun _ argv hc => hlooking ⟨argv, hc⟩
      · exact fun _ pid bg cmdline hc => hadding ⟨pid, bg, cmdline, hc⟩

/-- Another step of the shell itself. -/
theorem Sound.main
    {w : World} {e : Event} {reason : Exit}
    (hl : Sound l)
    (hmain : l.main e reason = some w)
    (he : e ≠ .proceed) :
    Kept l.toPromises w.toTsh := by
  obtain ⟨_, s, hs, rfl⟩ := World.main_eq_some hmain
  exact hl.kept.effect (step_effect hs)
    (fun hproceed => absurd hproceed he)
    (fun hproceed => absurd hproceed he)

theorem leave_piddy
    (w : World) (rest : List Frame) :
    (w.leave rest).control.piddy = w.control.piddy := by
  rcases World.leave_control w rest with hsame | hwoken
  · rw [hsame]
  · rw [hwoken, woken_piddy]

/-- A handler returns. -/
theorem Sound.leave
    (hl : Sound l)
    (rest : List Frame) :
    Kept l.toPromises (l.leave rest).toTsh :=
  hl.kept.of_same rfl (.inl (leave_piddy l.toWorld rest))

/-- The body of the loop of `sigchld_handler`. -/
theorem Sound.handle
    (hl : Sound l)
    (cPid : Int) (Cstat : ChildStatus) (rest : List Frame) :
    Kept l.toPromises (l.handle cPid Cstat rest).toTsh := by
  have hkept : Kept l.toPromises
      (sigchldHandler [(cPid, Cstat)] l.toTsh).1 := by
    refine hl.kept.of_reaps (hl.kept.counted.handler _)
      (sigchldHandler_reaps _ l.toTsh) (.inl ?_)
    rw [World.handler_control]
  unfold World.handle
  split
  · exact hkept.of_same rfl (.inl (leave_piddy _ rest))
  · exact hkept

/-- One step of the shell and its children. -/
theorem Sound.kept_step
    {w : World}
    (hl : Sound l)
    (hstep : World.step l.toWorld h = some w) :
    Kept
      (if h = .proceed then l.toPromises.after l.toTsh else l.toPromises)
      w.toTsh := by
  cases World.occurs_of_step hstep with
  | proceed hmain => exact hl.proceed hmain
  | line hmain => exact hl.main hmain (by simp)
  | eof hmain => exact hl.main hmain (by simp)
  | fork hfresh hmain =>
      have hkept := hl.main hmain (by simp)
      show Kept l.toPromises _
      split <;> exact hkept
  | kill hkilling hmain => exact hl.main hmain (by simp)
  | @waitpid child rest _ hframes hwait =>
      cases child with
      | none =>
          cases hwait
          exact hl.leave rest
      | some child =>
          simp only [World.wait] at hwait
          split at hwait
          · cases hwait
            exact hl.kept
          · cases hwait
  | handle hframes => exact hl.handle _ _ _
  | deliver hframes hpos =>
      show Kept l.toPromises _
      unfold World.send
      split
      · exact hl.leave _
      · exact hl.kept
  | nobody hframes hpos => exact hl.leave _
  | sigchld | key | sigquit | setpgid | descend => exact hl.kept

theorem Sound.step
    (hl : Sound l)
    (hstep : l.step h = some l')
    (hsurvives : l'.Survives) :
    Sound l' := by
  obtain ⟨hworld, hpromises⟩ := step_eq_some hstep
  have hsignals := hl.traced.signalsJob hworld hsurvives
  refine ⟨hl.traced.step hworld hsignals, ?_⟩
  rw [hpromises]
  exact hl.kept_step hworld

end Ledger

section Printing

variable {s s' : Tsh}

/-- What the shell prints about a job when it proceeds. -/
def Tsh.shown (s : Tsh) : Option (Int × Int) :=
  match s.control with
  | .started pid true _ => some (pid2jid pid s.jobs, pid)
  | .announcing piddy => some ((s.jobs piddy).mippy, (s.jobs piddy).pid)
  | _ => none

/-- What the handler prints about a job. -/
def Tsh.reported (s : Tsh) (cPid : Int) (Cstat : ChildStatus) :
    Option (Int × Int) :=
  match getjobpid cPid s.jobs, Cstat with
  | some hand, .stopped => some ((s.jobs hand).mippy, cPid)
  | some _, .signaled => some (0, cPid)
  | _, _ => none

theorem selectJob_shows
    {argv : List CString} {jobs : Table} {line : Line}
    (h : selectJob argv jobs = .error line) :
    line.shows = none := by
  unfold selectJob at h
  split at h
  next =>
      cases h
      rfl
  next =>
      split_ifs at h
      · split at h <;> cases h
        rfl
      · cases h
        rfl
      · split at h <;> cases h
        rfl
      · cases h
        rfl

/-- Of the lines that the shell prints when it proceeds, one at most is about a
job. -/
theorem proceed_prints
    (h : s.proceed = some s') :
    ∃ lines, s'.out = s.out ++ lines ∧
      lines.filterMap Line.shows = s.shown.toList := by
  unfold Tsh.proceed at h
  unfold Tsh.shown
  cases hc : s.control with
  | evaluating argv bg cmdline =>
      simp only [hc] at h
      cases h
      unfold Tsh.evaluate
      split
      · exact ⟨[], by simp [Tsh.goto], rfl⟩
      · split_ifs
        · exact ⟨_, rfl, rfl⟩
        all_goals exact ⟨[], by simp [Tsh.goto], rfl⟩
  | adding pid bg cmdline =>
      simp only [hc] at h
      cases h
      simp only [Tsh.record]
      generalize addjob pid (if bg then .BG else .FG) cmdline s.toJobs = added
      by_cases hadded : added.1 = true ∨ pid < 1
      · rw [if_pos hadded]
        exact ⟨[], by simp [Tsh.goto], rfl⟩
      · rw [if_neg hadded]
        exact ⟨[.tooMany], rfl, rfl⟩
  | started pid bg cmdline =>
      simp only [hc] at h
      cases h
      cases bg with
      | true => exact ⟨_, rfl, rfl⟩
      | false => exact ⟨[], by simp [Tsh.follow, Tsh.goto], rfl⟩
  | looking argv =>
      simp only [hc] at h
      cases h
      unfold Tsh.look
      split
      next line hline =>
          refine ⟨[line], rfl, ?_⟩
          simp [selectJob_shows hline]
      next =>
          exact ⟨[], by simp [Tsh.goto], rfl⟩
  | announcing piddy =>
      simp only [hc] at h
      cases h
      exact ⟨_, rfl, rfl⟩
  | resumed command piddy =>
      simp only [hc] at h
      cases h
      unfold Tsh.mark
      split <;> exact ⟨[], by simp [Tsh.goto, Tsh.setState], rfl⟩
  | testing pid =>
      simp only [hc] at h
      cases h
      unfold Tsh.test
      split <;> exact ⟨[], by simp [Tsh.goto], rfl⟩
  | found command piddy | fronting piddy | entering pid =>
      simp only [hc] at h
      cases h
      exact ⟨[], by simp [Tsh.goto], rfl⟩
  | reading | forking | killing | suspended | exited =>
      simp only [hc] at h
      cases h

theorem handler_prints
    (s : Tsh) (cPid : Int) (Cstat : ChildStatus) :
    ∃ lines, (sigchldHandler [(cPid, Cstat)] s).1.out = s.out ++ lines ∧
      lines.filterMap Line.shows = (s.reported cPid Cstat).toList := by
  unfold sigchldHandler Tsh.reported
  cases hfind : getjobpid cPid s.jobs with
  | none =>
      exact ⟨[.noChild cPid], rfl, rfl⟩
  | some hand =>
      cases Cstat with
      | stopped =>
          refine ⟨_, rfl, ?_⟩
          simp [Line.shows]
      | signaled =>
          refine ⟨_, rfl, ?_⟩
          simp [Line.shows, delete_eq hfind, clearjob]
      | exited =>
          exact ⟨[], by simp [sigchldHandler, Tsh.delete], rfl⟩

/-- The other steps of the shell print nothing. -/
theorem step_silent
    {e : Event}
    (h : step s e = some s')
    (hproceed : e ≠ .proceed)
    (hsigchld : ∀ children, e ≠ .sigchld children) :
    s'.out = s.out := by
  cases e with
  | proceed => exact absurd rfl hproceed
  | sigchld children => exact absurd rfl (hsigchld children)
  | line | eof | fork | kill | forward =>
      simp only [step] at h
      split at h <;> try cases h
      all_goals first | rfl | (split_ifs at h <;> cases h <;> rfl)

end Printing

section Agreement

variable {g : Promises} {s : Tsh}

/-- The second look-up finds the ID as long as the job has its slot. -/
theorem Kept.pid2jid_iff
    {pid : Int}
    (h : Kept g s) :
    (∀ jid, g.given pid = some jid → pid2jid pid s.jobs = jid) ↔
      g.given pid = none ∨ ∃ k, (s.jobs k).pid = pid := by
  constructor
  · intro hagree
    cases hgiven : g.given pid with
    | none => exact .inl rfl
    | some jid =>
        obtain ⟨hpos, hne⟩ := h.real pid jid hgiven
        have hjid := hagree jid hgiven
        refine .inr ?_
        unfold pid2jid at hjid
        rw [if_neg (by omega)] at hjid
        split at hjid
        next =>
            exact absurd hjid.symm hne
        next k hk =>
            exact ⟨k, by simpa using first_spec hk⟩
  · rintro (hnone | ⟨k, hk⟩) jid hgiven
    · rw [hnone] at hgiven
      cases hgiven
    · obtain ⟨hpos, _⟩ := h.real pid jid hgiven
      unfold pid2jid
      rw [if_neg (by omega)]
      split
      next hnone =>
          have := first_eq_none hnone k
          simp [hk] at this
      next j hj =>
          have hpid : (s.jobs j).pid = pid := by simpa using first_spec hj
          have hslot := (h.in_use (k := j) (.inl (by omega))).2
          rw [hpid, hgiven] at hslot
          exact (Option.some.inj hslot).symm

/-- The slot of the pointer shows the chosen job until it is cleared. -/
theorem Kept.pointer_iff
    {piddy : Fin MAXJOBS}
    (h : Kept g s)
    (hpiddy : s.control.piddy = some piddy) :
    (∀ jid, g.given g.chosen = some jid →
        (s.jobs piddy).mippy = jid ∧ (s.jobs piddy).pid = g.chosen) ↔
      (s.jobs piddy).pid ≠ 0 := by
  obtain ⟨hpid, hchosen⟩ := h.pointer piddy hpiddy
  obtain ⟨jid, hgiven⟩ := Option.isSome_iff_exists.mp hchosen
  constructor
  · intro hshown
    have hreal := h.real _ jid hgiven
    have hsame := (hshown jid hgiven).2
    omega
  · intro hne jid' hgiven'
    have hsame : (s.jobs piddy).pid = g.chosen := by
      rcases hpid with hsame | hzero
      · exact hsame
      · exact absurd hzero hne
    have hslot := (h.in_use (.inl hne)).2
    rw [hsame, hgiven'] at hslot
    exact ⟨(Option.some.inj hslot).symm, hsame⟩

end Agreement

namespace Ledger

variable {l l' : Ledger} {h : Happening}

/-- It is enough to look at what the lines show. -/
theorem honest_iff
    {lines : List Line} {shown : Option (Int × Int)}
    (hstep : l.step h = some l')
    (hout : l'.out = l.out ++ lines)
    (hshows : lines.filterMap Line.shows = shown.toList) :
    l.Honest h ↔
      ∀ mippy pid, shown = some (mippy, pid) →
        ∃ job, l.subject h = some job ∧
          ∀ jid, l.given job = some jid → mippy = jid ∧ pid = job := by
  have hnew : l'.out.drop l.out.length = lines := by
    rw [hout, List.drop_left]
  have hmem : ∀ r, shown = some r ↔ ∃ line ∈ lines, line.shows = some r := by
    intro r
    rw [← List.mem_filterMap, hshows, Option.mem_toList]
  constructor
  · intro hhonest mippy pid hshown
    obtain ⟨line, hline, hshow⟩ := (hmem _).mp hshown
    exact hhonest l' hstep line (hnew ▸ hline) mippy pid hshow
  · intro hall l'' hstep' line hline mippy pid hshow
    obtain rfl : l' = l'' := Option.some.inj (hstep.symm.trans hstep')
    rw [hnew] at hline
    exact hall mippy pid ((hmem _).mpr ⟨line, hline, hshow⟩)

/-- A step that prints nothing. -/
theorem honest_of_silent
    (hstep : l.step h = some l')
    (hout : l'.out = l.out) :
    l.Honest h := by
  have hnothing : l'.out = l.out ++ [] := by simpa using hout
  have hshows : [].filterMap Line.shows = Option.toList none := rfl
  rw [honest_iff hstep hnothing hshows]
  intro mippy pid hnone
  cases hnone

theorem Sound.honest_proceed
    (hl : Sound l)
    (hstep : l.step .proceed = some l') :
    l.Honest .proceed ↔ l.Undisturbed .proceed := by
  obtain ⟨hworld, _⟩ := step_eq_some hstep
  have hout : ∃ lines, l'.out = l.out ++ lines ∧
      lines.filterMap Line.shows = l.shown.toList := by
    generalize l'.toWorld = w at hworld
    cases World.occurs_of_step hworld with
    | proceed hmain =>
        obtain ⟨_, s, hs, rfl⟩ := World.main_eq_some hmain
        exact proceed_prints hs
  obtain ⟨lines, hout, hshows⟩ := hout
  rw [honest_iff hstep hout hshows]
  unfold Tsh.shown subject Undisturbed
  split
  next pid cmdline hc =>
      simp only [Option.some.injEq, Prod.mk.injEq]
      rw [← hl.kept.pid2jid_iff]
      constructor
      · intro hall jid hgiven
        obtain ⟨job, rfl, hjob⟩ := hall _ _ ⟨rfl, rfl⟩
        exact (hjob jid hgiven).1
      · rintro hall _ _ ⟨rfl, rfl⟩
        exact ⟨_, rfl, fun jid hgiven => ⟨hall jid hgiven, rfl⟩⟩
  next piddy hc =>
      have hpiddy : l.control.piddy = some piddy := by
        rw [hc]
        rfl
      simp only [Option.some.injEq, Prod.mk.injEq]
      rw [← hl.kept.pointer_iff hpiddy]
      constructor
      · intro hall
        obtain ⟨job, rfl, hjob⟩ := hall _ _ ⟨rfl, rfl⟩
        exact hjob
      · rintro hall _ _ ⟨rfl, rfl⟩
        exact ⟨_, rfl, hall⟩
  next =>
      refine iff_of_true ?_ ?_
      · intro mippy pid hnone
        cases hnone
      · split <;> simp_all

theorem handle_out
    (w : World) (cPid : Int) (Cstat : ChildStatus) (rest : List Frame) :
    (w.handle cPid Cstat rest).out =
      (sigchldHandler [(cPid, Cstat)] w.toTsh).1.out := by
  unfold World.handle
  split <;> rfl

/-- What the handler prints is right but for the job it has just deleted. -/
theorem Sound.honest_handle
    (hl : Sound l)
    (hstep : l.step .handle = some l') :
    l.Honest .handle ↔ l.Undisturbed .handle := by
  obtain ⟨hworld, _⟩ := step_eq_some hstep
  have hframe : ∃ cPid Cstat rest, l.frames = .reaped cPid Cstat :: rest ∧
      l'.out = (sigchldHandler [(cPid, Cstat)] l.toTsh).1.out := by
    generalize l'.toWorld = w at hworld
    cases World.occurs_of_step hworld with
    | handle hframes => exact ⟨_, _, _, hframes, handle_out _ _ _ _⟩
  obtain ⟨cPid, Cstat, rest, hframes, hlines⟩ := hframe
  obtain ⟨lines, hprints, hshows⟩ := handler_prints l.toTsh cPid Cstat
  rw [honest_iff hstep (hlines.trans hprints) hshows]
  unfold Tsh.reported subject Undisturbed
  simp only [hframes, List.cons.injEq, Frame.reaped.injEq]
  cases hfind : getjobpid cPid l.jobs with
  | none =>
      refine iff_of_true (by simp) ?_
      rintro _ _ ⟨⟨rfl, rfl⟩, _⟩
      have hheld : World.Held l.toWorld cPid :=
        ⟨.signaled, by simp, by simp [hframes]⟩
      exact World.getjobpid_eq_none hfind (hl.traced.held cPid hheld).1
  | some hand =>
      obtain ⟨hpos, hpid⟩ := getjobpid_spec hfind
      have hgiven := (hl.kept.in_use (k := hand) (.inl (by omega))).2
      rw [hpid] at hgiven
      cases Cstat with
      | stopped =>
          refine iff_of_true ?_ (by simp)
          rintro mippy pid hshown
          cases hshown
          refine ⟨cPid, rfl, ?_⟩
          intro jid hjid
          rw [hgiven] at hjid
          exact ⟨Option.some.inj hjid, rfl⟩
      | signaled =>
          refine iff_of_false ?_ ?_
          · intro hall
            obtain ⟨job, hjob, hshown⟩ := hall 0 cPid rfl
            cases hjob
            have hzero := (hshown _ hgiven).1
            exact (hl.kept.real _ _ hgiven).2 hzero.symm
          · intro hall
            exact hall cPid rest ⟨⟨rfl, rfl⟩, rfl⟩ hand hpid
      | exited =>
          exact iff_of_true (by simp) (by simp)

/-- The steps that print nothing about a job. -/
theorem silent
    (hstep : l.step h = some l')
    (hproceed : h ≠ .proceed)
    (hhandle : h ≠ .handle) :
    l'.out = l.out := by
  obtain ⟨hworld, _⟩ := step_eq_some hstep
  generalize l'.toWorld = w at hworld
  have hmain : ∀ {e reason w}, l.main e reason = some w → e ≠ .proceed →
      (∀ children, e ≠ .sigchld children) → w.out = l.out := by
    intro e reason w hmain he hchildren
    obtain ⟨_, s, hs, rfl⟩ := World.main_eq_some hmain
    exact step_silent hs he hchildren
  cases World.occurs_of_step hworld with
  | proceed => exact absurd rfl hproceed
  | handle => exact absurd rfl hhandle
  | line hstep' => exact hmain hstep' (by simp) (by simp)
  | eof hstep' => exact hmain hstep' (by simp) (by simp)
  | kill _ hstep' => exact hmain hstep' (by simp) (by simp)
  | fork _ hstep' =>
      have hout := hmain hstep' (by simp) (by simp)
      split <;> exact hout
  | @waitpid child rest _ hframes hwait =>
      cases child with
      | none =>
          cases hwait
          rfl
      | some child =>
          simp only [World.wait] at hwait
          split at hwait <;> cases hwait
          rfl
  | deliver =>
      unfold World.send
      split <;> rfl
  | nobody | sigchld | key | sigquit | setpgid | descend => rfl

/-- Under the invariant a step is honest exactly when it is undisturbed. -/
theorem Sound.honest_iff
    (hl : Sound l)
    (hstep : l.step h = some l') :
    l.Honest h ↔ l.Undisturbed h := by
  by_cases hproceed : h = .proceed
  · subst hproceed
    exact hl.honest_proceed hstep
  · by_cases hhandle : h = .handle
    · subst hhandle
      exact hl.honest_handle hstep
    · refine iff_of_true
        (honest_of_silent hstep (silent hstep hproceed hhandle)) ?_
      cases h with
      | proceed => exact absurd rfl hproceed
      | handle => exact absurd rfl hhandle
      | _ => trivial

theorem running
    (hstep : l.step h = some l') :
    l.ended = none := by
  obtain ⟨hworld, _⟩ := step_eq_some hstep
  unfold World.step at hworld
  split at hworld
  next hended => exact hended
  next => cases hworld

theorem Sound.start :
    Sound Ledger.start where
  traced := World.Traced.start
  kept := Kept.start

end Ledger

/-- All lines about tracked jobs show their job IDs exactly when no tracked job
is ended by a signal and the jobs that are announced still have their slots. -/
theorem announcements_honest
    (happenings : List Happening) :
    EachStep Ledger.step Ledger.start happenings Ledger.Honest ↔
      EachStep Ledger.step Ledger.start happenings Ledger.Undisturbed := by
  refine eachStep_congr (I := fun l => l.ended = none → l.Sound)
    (fun _ => Ledger.Sound.start) ?_ ?_
  · intro l h l' hl hstep hended
    refine (hl (Ledger.running hstep)).step hstep ?_
    simp [World.Survives, hended]
  · intro l h l' hl hstep
    exact (hl (Ledger.running hstep)).honest_iff hstep

/-- A background job with pid 5 is started and killed. -/
def killedJob : List Happening :=
  [.line ["myspin".toList] true "myspin &\n".toList, .proceed, .fork 5,
    .proceed, .proceed, .sigchld, .waitpid (some (5, .signaled)), .handle]

/-- The shell says `Job [0] (5) terminated by signal` of job 1. -/
theorem killedJob_misnamed :
    ¬ ∀ happenings,
      EachStep Ledger.step Ledger.start happenings Ledger.Honest := by
  intro hclaim
  have hlast : ∃ l l', exec Ledger.step Ledger.start killedJob.dropLast = some l ∧
      l.step .handle = some l' ∧ l.given 5 = some 1 ∧
      l.subject .handle = some 5 ∧
      .terminated 0 5 ∈ l'.out.drop l.out.length := by
    refine ⟨_, _, rfl, rfl, ?_, ?_, ?_⟩ <;> decide +kernel
  obtain ⟨l, l', hl, hstep, hgiven, hsubject, hline⟩ := hlast
  have hhonest := hclaim killedJob killedJob.dropLast .handle
    (List.prefix_refl _) l l' hl hstep
  obtain ⟨job, hjob, hshown⟩ := hhonest l' hstep _ hline 0 5 rfl
  obtain rfl := Option.some.inj (hsubject.symm.trans hjob)
  exact absurd (hshown 1 hgiven).1 (by decide)

end Shell
end PastWork
