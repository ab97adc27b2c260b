import PastWork.Shell.Waiting

/-!
# The diagram of the job states

The transitions that the shell documents for a job, with its beginning and its end.
A slot follows them, and keeps the pid, the job ID and the command line of its job,
exactly as long as `do_bgfg` writes no state to a slot that has been cleared and no
job is stopped in the background: the code has a transition from BG to ST, which is
not in the diagram.
-/

namespace PastWork
namespace Shell

open Steps

/-- What can happen to a slot: the four transitions of the diagram, the beginning and
the end of a job, and nothing. -/
inductive Arrow (job : Job) : Happening → Job → Prop
  | stays (h : Happening) : Arrow job h job
  /-- the slot is free, and a job begins -/
  | begins {pid mippy : Int} {state : JobState} {cmdline : CString}
      (hfree : job.state = .UNDEF)
      (hpid : 1 ≤ pid)
      (hstate : state = .FG ∨ state = .BG) :
      Arrow job .proceed ⟨pid, mippy, state, cmdline⟩
  /-- FG to ST, ctrl-z -/
  | stops
      (hjob : job.state = .FG) :
      Arrow job .handle { job with state := .ST }
  /-- ST to BG, the bg command -/
  | continues
      (hjob : job.state = .ST) :
      Arrow job .proceed { job with state := .BG }
  /-- ST to FG and BG to FG, the fg command -/
  | fronts
      (hjob : job.state = .ST ∨ job.state = .BG) :
      Arrow job .proceed { job with state := .FG }
  /-- the job has ended -/
  | ends
      (hjob : job.state ≠ .UNDEF) :
      Arrow job .handle clearjob

/-- A slot is free, or has a pid and a state. -/
def Job.Occupied (job : Job) : Prop :=
  job.pid = 0 ∧ job.state = .UNDEF ∨ 1 ≤ job.pid ∧ job.state ≠ .UNDEF

section Slots

variable {job job' : Job} {h : Happening}

theorem Arrow.occupied
    (harrow : Arrow job h job')
    (hjob : job.Occupied) :
    job'.Occupied := by
  cases harrow with
  | stays => exact hjob
  | begins _ hpid hstate =>
      refine .inr ⟨hpid, ?_⟩
      rcases hstate with rfl | rfl <;> simp
  | ends => exact .inl ⟨rfl, rfl⟩
  | stops hstate | continues hstate | fronts hstate =>
      rcases hjob with ⟨_, hundef⟩ | ⟨hpid, _⟩
      · rw [hundef] at hstate
        simp at hstate
      · exact .inr ⟨hpid, by simp⟩

/-- A state that is written to a free slot is on no arrow. -/
theorem not_arrow_of_free
    {state : JobState}
    (hpid : job.pid = 0)
    (hundef : job.state = .UNDEF)
    (hstate : state ≠ .UNDEF) :
    ¬ Arrow job .proceed { job with state := state } := by
  intro harrow
  generalize hjob' : ({ job with state := state } : Job) = job' at harrow
  cases harrow with
  | stays =>
      rw [← hjob'] at hundef
      exact hstate hundef
  | begins _ hpos =>
      have heq := congrArg Job.pid hjob'
      simp only [hpid] at heq
      omega
  | continues hstop | fronts hstop =>
      rw [hundef] at hstop
      simp at hstop

/-- A slot with a pid has a state. -/
theorem Job.Occupied.state_ne
    (hjob : job.Occupied)
    (hpid : job.pid ≠ 0) :
    job.state ≠ .UNDEF := by
  rcases hjob with ⟨hzero, _⟩ | ⟨_, hstate⟩
  · exact absurd hzero hpid
  · exact hstate

/-- There is no arrow from BG to ST. -/
theorem not_arrow_of_background
    (hstate : job.state = .BG) :
    ¬ Arrow job h { job with state := .ST } := by
  intro harrow
  generalize hjob' : ({ job with state := .ST } : Job) = job' at harrow
  have hstopped : job'.state = .ST := by
    rw [← hjob']
  cases harrow with
  | stays =>
      rw [hstate] at hstopped
      cases hstopped
  | stops hfg =>
      rw [hstate] at hfg
      cases hfg
  | begins _ _ hbegins =>
      rcases hbegins with rfl | rfl <;> cases hstopped
  | continues | fronts | ends => cases hstopped

end Slots

namespace World

/-- What a step does to the slot `k`. -/
inductive Slot (w : World) (k : Fin MAXJOBS) : Happening → Job → Prop
  | stays (h : Happening) : Slot w k h (w.jobs k)
  | stopped {cPid : Int} {rest : List Frame}
      (hframes : w.frames = .reaped cPid .stopped :: rest)
      (hfind : getjobpid cPid w.jobs = some k) :
      Slot w k .handle { w.jobs k with state := .ST }
  | cleared
      (hpid : 1 ≤ (w.jobs k).pid) :
      Slot w k .handle clearjob
  | added {pid mippy : Int} {state : JobState} {cmdline : CString}
      (hfree : (w.jobs k).pid = 0)
      (hpid : 1 ≤ pid)
      (hstate : state = .FG ∨ state = .BG) :
      Slot w k .proceed ⟨pid, mippy, state, cmdline⟩
  | marked {command : CString} {state : JobState}
      (hc : w.control = .resumed command k)
      (hstate : state = .FG ∨ state = .BG) :
      Slot w k .proceed { w.jobs k with state := state }

variable {w w' : World} {h : Happening}

section Slots

theorem slot_of_same
    (hjobs : w'.jobs = w.jobs)
    (k : Fin MAXJOBS) :
    Slot w k h (w'.jobs k) := by
  rw [hjobs]
  exact .stays h

/-- The shell itself adds a job, or writes a state to the slot of `do_bgfg`. -/
theorem main_slot
    {e : Event} {reason : Exit}
    (hmain : w.main e reason = some w')
    (hown : Own e)
    (hproceed : e = .proceed → h = .proceed)
    (k : Fin MAXJOBS) :
    Slot w k h (w'.jobs k) := by
  obtain ⟨_, s, hs, rfl⟩ := main_eq_some hmain
  cases step_effect hs with
  | steer hjobs => exact slot_of_same (congrArg Jobs.jobs hjobs) k
  | handle => exact hown.elim
  | @record pid bg cmdline _ hadding hjobs =>
      rw [hproceed rfl]
      rcases addjob_cases pid (if bg then .BG else .FG) cmdline w.toJobs with
        ⟨hsame, _⟩ | ⟨j, hpid, hfree, hset⟩
      · exact slot_of_same (congrArg Jobs.jobs (hjobs.trans hsame)) k
      · have hslots : s.jobs =
            w.jobs.set j ⟨pid, w.nextjid, if bg then .BG else .FG, cmdline⟩ :=
          congrArg Jobs.jobs (hjobs.trans hset)
        show Slot w k .proceed (s.jobs k)
        rw [hslots]
        by_cases hk : k = j
        · subst hk
          rw [set_same]
          exact .added hfree hpid (by cases bg <;> simp)
        · rw [set_ne _ _ hk]
          exact .stays _
  | @background command piddy _ hc hjobs | @foreground command piddy _ hc hjobs =>
      rw [hproceed rfl]
      have hslots := congrArg Jobs.jobs hjobs
      show Slot w k .proceed (s.jobs k)
      rw [hslots, Tsh.setState_jobs]
      by_cases hk : k = piddy
      · subst hk
        rw [set_same]
        exact .marked hc (by simp)
      · rw [set_ne _ _ hk]
        exact .stays _

/-- The handler writes to the slot of the child that it has been told of. -/
theorem handle_slot
    {cPid : Int} {Cstat : ChildStatus} {rest : List Frame}
    (hframes : w.frames = .reaped cPid Cstat :: rest)
    (k : Fin MAXJOBS) :
    Slot w k .handle ((sigchldHandler [(cPid, Cstat)] w.toTsh).1.jobs k) := by
  cases hfind : getjobpid cPid w.jobs with
  | none =>
      have hsame : (sigchldHandler [(cPid, Cstat)] w.toTsh).1.jobs = w.jobs := by
        simp [sigchldHandler, hfind, Tsh.print]
      rw [hsame]
      exact .stays _
  | some hand =>
      obtain ⟨hpos, hpid⟩ := getjobpid_spec hfind
      by_cases hended : Cstat = .stopped
      · subst hended
        have hset : (sigchldHandler [(cPid, .stopped)] w.toTsh).1.jobs =
            w.jobs.set hand { w.jobs hand with state := .ST } := by
          simp [sigchldHandler, hfind, Tsh.print]
        rw [hset]
        by_cases hk : k = hand
        · subst hk
          rw [set_same]
          exact .stopped hframes hfind
        · rw [set_ne _ _ hk]
          exact .stays _
      · rw [handler_delete hfind hended]
        by_cases hk : k = hand
        · subst hk
          rw [set_same]
          exact .cleared (hpid ▸ hpos)
        · rw [set_ne _ _ hk]
          exact .stays _

/-- Every step. -/
theorem step_slot
    (hstep : w.step h = some w')
    (k : Fin MAXJOBS) :
    Slot w k h (w'.jobs k) := by
  cases occurs_of_step hstep with
  | line hmain | eof hmain | kill _ hmain =>
      exact main_slot hmain trivial (by simp) k
  | proceed hmain => exact main_slot hmain trivial (fun _ => rfl) k
  | fork hfresh hmain =>
      obtain ⟨_, s, hs, rfl⟩ := main_eq_some hmain
      have hjobs : s.jobs = w.jobs := by
        cases hc : w.control <;> simp only [Shell.step, hc] at hs <;> try cases hs
        split_ifs at hs <;> cases hs <;> rfl
      split <;> exact slot_of_same hjobs k
  | @waitpid child rest _ hframes hwait =>
      cases child with
      | none =>
          cases hwait
          exact .stays _
      | some child =>
          simp only [World.wait] at hwait
          split at hwait
          · cases hwait
            exact .stays _
          · cases hwait
  | @handle cPid Cstat rest hframes =>
      have hslot := handle_slot hframes k
      unfold handle
      dsimp only
      split <;> exact hslot
  | deliver hframes hpos =>
      unfold send
      split <;> exact .stays _
  | nobody | sigchld | key | sigquit | setpgid | descend => exact .stays _

end Slots

/-- Every slot goes along an arrow. -/
def Follows (w : World) (h : Happening) : Prop :=
  ∀ w', w.step h = some w' → ∀ k, Arrow (w.jobs k) h (w'.jobs k)

/-- `do_bgfg` writes no state to a slot that has been cleared. -/
def MarksJob (w : World) (h : Happening) : Prop :=
  ∀ command piddy, h = .proceed → w.control = .resumed command piddy →
    (w.jobs piddy).pid ≠ 0

/-- No job is stopped in the background. -/
def StopsFront (w : World) (h : Happening) : Prop :=
  ∀ cPid rest k, h = .handle → w.frames = .reaped cPid .stopped :: rest →
    getjobpid cPid w.jobs = some k → (w.jobs k).state ≠ .BG

/-- The slots are free or occupied, and at most one is in the foreground. -/
structure Charted (w : World) : Prop where
  fronted : Fronted w.toTsh
  occupied : ∀ k, (w.jobs k).Occupied

section Steps

/-- `do_bgfg` writes to a job that is not in the foreground. -/
theorem Charted.resumable
    {piddy : Fin MAXJOBS} {command : CString}
    (hw : w.Charted)
    (hc : w.control = .resumed command piddy)
    (hpid : (w.jobs piddy).pid ≠ 0) :
    (w.jobs piddy).state = .ST ∨ (w.jobs piddy).state = .BG := by
  have hawaits := hw.fronted.awaits
  rw [hc] at hawaits
  have hno : NoFG w.jobs := hawaits
  have hfg := hno piddy
  rcases hw.occupied piddy with ⟨hzero, _⟩ | ⟨_, hundef⟩
  · exact absurd hzero hpid
  · cases hs : (w.jobs piddy).state with
    | UNDEF => exact absurd hs hundef
    | FG => exact absurd hs hfg
    | BG => exact .inr rfl
    | ST => exact .inl rfl

/-- As long as `do_bgfg` writes to jobs only and jobs are stopped in the foreground,
every slot follows the diagram. -/
theorem Charted.follows
    (hw : w.Charted)
    (hmarks : w.MarksJob h)
    (hstops : w.StopsFront h) :
    w.Follows h := by
  intro w' hstep k
  have hslot := step_slot hstep k
  generalize w'.jobs k = job at hslot
  cases hslot with
  | stays => exact .stays _
  | stopped hframes hfind =>
      obtain ⟨hpos, hpid⟩ := getjobpid_spec hfind
      have hfront := hstops _ _ k rfl hframes hfind
      have hused := (hw.occupied k).state_ne (by omega)
      cases hs : (w.jobs k).state with
      | UNDEF => exact absurd hs hused
      | BG => exact absurd hs hfront
      | FG => exact .stops hs
      | ST =>
          rw [← hs]
          exact .stays _
  | cleared hpid => exact .ends ((hw.occupied k).state_ne (by omega))
  | added hfree hpid hstate =>
      refine .begins ?_ hpid hstate
      rcases hw.occupied k with ⟨_, hundef⟩ | ⟨hpos, _⟩
      · exact hundef
      · omega
  | marked hc hstate =>
      have hjob := hw.resumable hc (hmarks _ k rfl hc)
      rcases hstate with rfl | rfl
      · exact .fronts hjob
      · rcases hjob with hst | hbg
        · exact .continues hst
        · rw [← hbg]
          exact .stays _

/-- A state that is written to a cleared slot does not follow the diagram. -/
theorem Charted.marksJob
    (hw : w.Charted)
    (hstep : w.step h = some w')
    (hfollows : w.Follows h) :
    w.MarksJob h := by
  rintro command piddy rfl hc hpid
  have hundef : (w.jobs piddy).state = .UNDEF := by
    rcases hw.occupied piddy with ⟨_, hundef⟩ | ⟨hpos, _⟩
    · exact hundef
    · omega
  have harrow := hfollows w' hstep piddy
  cases occurs_of_step hstep with
  | proceed hmain =>
      obtain ⟨_, s, hs, rfl⟩ := main_eq_some hmain
      have hmark : s = w.toTsh.mark command piddy := by
        simp only [Shell.step, Tsh.proceed, hc] at hs
        exact (Option.some_inj.mp hs).symm
      obtain ⟨state, hstate, hslot⟩ : ∃ state, state ≠ .UNDEF ∧
          s.jobs piddy = { w.jobs piddy with state := state } := by
        rw [hmark, Tsh.mark]
        split
        · exact ⟨.BG, by simp, by simp [Tsh.goto]⟩
        · exact ⟨.FG, by simp, by simp [Tsh.goto]⟩
      exact not_arrow_of_free hpid hundef hstate (hslot ▸ harrow)

/-- A job that is stopped in the background does not follow the diagram. -/
theorem stopsFront_of_follows
    (hstep : w.step h = some w')
    (hfollows : w.Follows h) :
    w.StopsFront h := by
  rintro cPid rest k rfl hframes hfind hstate
  have harrow := hfollows w' hstep k
  cases occurs_of_step hstep with
  | handle hframes' =>
      cases hframes.symm.trans hframes'
      have hslot : ((w.handle cPid .stopped rest).jobs k) =
          { w.jobs k with state := .ST } := by
        unfold handle
        rw [if_neg (by simp [hfind])]
        simp [sigchldHandler, hfind, Tsh.print]
      rw [hslot] at harrow
      exact not_arrow_of_background hstate harrow

end Steps

end World

/-- Whatever the command lines, the signals and the children, in any interleaving:
every slot goes along the arrows of the diagram in every step exactly when `do_bgfg`
never writes a state to a slot that has been cleared behind its pointer and no job is
ever stopped in the background, which is a way from BG to ST that the diagram lacks. -/
theorem jobs_follow_diagram
    (happenings : List Happening) :
    EachStep World.step World.start happenings World.Follows ↔
      EachStep World.step World.start happenings
        (fun w h => w.MarksJob h ∧ w.StopsFront h) := by
  have hno : NoFG World.start.jobs := fun k hk => by cases hk
  have hinit : Fronted World.start.toTsh := ⟨hno.one, hno⟩
  refine eachStep_iff (I := World.Charted) ⟨hinit, fun _ => .inl ⟨rfl, rfl⟩⟩ ?_ ?_
  · intro w h w' hw hstep hfollows
    exact ⟨World.step_fronted hw.fronted hstep,
      fun k => (hfollows w' hstep k).occupied (hw.occupied k)⟩
  · intro w h w' hw hstep
    exact ⟨fun hfollows => ⟨hw.marksJob hstep hfollows,
        World.stopsFront_of_follows hstep hfollows⟩,
      fun hcond => hw.follows hcond.1 hcond.2⟩

end Shell
end PastWork
