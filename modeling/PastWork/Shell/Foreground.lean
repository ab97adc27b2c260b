import PastWork.Shell.Effects

/-!
# The foreground job

There is never more than one job in the state FG, and none while the shell reads
its next command line.  Between these points `Awaits` says which slot can be in
the foreground: the one that `waitfg` is about to wait for.
-/

namespace PastWork
namespace Shell

open Steps

def NoFG (jobs : Table) : Prop :=
  ∀ k, (jobs k).state ≠ .FG

def OneFG (jobs : Table) : Prop :=
  ∀ k j, (jobs k).state = .FG → (jobs j).state = .FG → k = j

/-- Which jobs may be in the foreground at a control point. -/
def Awaits (jobs : Table) : Control → Prop
  | .started pid false _ | .entering pid | .testing pid | .suspended pid =>
      ∀ k, (jobs k).state = .FG → (jobs k).pid = pid
  | .fronting piddy => ∀ k, (jobs k).state = .FG → k = piddy
  | .exited => True
  | _ => NoFG jobs

section Table

variable {jobs jobs' : Table} {k : Fin MAXJOBS} {job : Job} {c : Control}

theorem NoFG.one
    (h : NoFG jobs) :
    OneFG jobs :=
  fun k _ hk => absurd hk (h k)

theorem NoFG.set
    (h : NoFG jobs)
    (hjob : job.state ≠ .FG) :
    NoFG (jobs.set k job) := by
  intro j
  by_cases hjk : j = k
  · subst hjk
    simpa using hjob
  · simpa [hjk] using h j

/-- A slot that is written while there is no foreground job is the only one. -/
theorem NoFG.set_only
    (h : NoFG jobs)
    {j : Fin MAXJOBS}
    (hj : ((jobs.set k job) j).state = .FG) :
    j = k := by
  by_contra hjk
  rw [set_ne jobs job hjk] at hj
  exact h j hj

theorem OneFG.of_kept
    (h : OneFG jobs)
    (hkept : ∀ k, (jobs' k).state = .FG → jobs' k = jobs k) :
    OneFG jobs' := by
  intro k j hk hj
  have heqk := hkept k hk
  have heqj := hkept j hj
  exact h k j (heqk ▸ hk) (heqj ▸ hj)

theorem Awaits.of_kept
    (h : Awaits jobs c)
    (hkept : ∀ k, (jobs' k).state = .FG → jobs' k = jobs k) :
    Awaits jobs' c := by
  have hno : NoFG jobs → NoFG jobs' := by
    intro hno k hk
    have heq := hkept k hk
    exact hno k (heq ▸ hk)
  have hpid : ∀ pid, (∀ k, (jobs k).state = .FG → (jobs k).pid = pid) →
      ∀ k, (jobs' k).state = .FG → (jobs' k).pid = pid := by
    intro pid hp k hk
    have heq := hkept k hk
    rw [heq] at hk ⊢
    exact hp k hk
  cases c with
  | started pid bg cmdline =>
      cases bg with
      | true => exact hno h
      | false => exact hpid pid h
  | entering pid | testing pid | suspended pid => exact hpid pid h
  | fronting piddy =>
      intro k hk
      have heq := hkept k hk
      exact h k (heq ▸ hk)
  | exited => trivial
  | _ => exact hno h

theorem Awaits.woken
    (h : Awaits jobs c) :
    Awaits jobs c.woken := by
  cases c <;> exact h

/-- `waitfg` returns only when no job is in the foreground. -/
theorem Awaits.leave
    {pid : Int}
    (h : Awaits jobs (.testing pid))
    (hpid : pid ≠ fgpid jobs) :
    NoFG jobs := by
  intro k hk
  obtain ⟨j, hj, hfg⟩ := fgpid_of_fg hk
  exact hpid ((h j hj).symm.trans hfg.symm)

theorem Awaits.steers
    {c' : Control} {e : Event}
    (h : Awaits jobs c)
    (hsteer : Steers jobs e c c') :
    Awaits jobs c' := by
  cases hsteer with
  | exit => trivial
  | leave hpid => exact h.leave hpid
  | wait piddy =>
      intro k hk
      rw [h k hk]
  | wake => exact h.woken
  | _ => exact h

end Table

/-- At most one job is in the foreground, and only while the shell waits. -/
structure Fronted (s : Tsh) : Prop where
  one : OneFG s.jobs
  awaits : Awaits s.jobs s.control

theorem Fronted.step
    {s s' : Tsh} {e : Event}
    (h : Fronted s)
    (hstep : Shell.step s e = some s') :
    Fronted s' := by
  obtain ⟨hone, hawaits⟩ := h
  cases step_effect hstep with
  | steer hjobs hcontrol =>
      constructor
      · rw [hjobs]
        exact hone
      · rw [hjobs]
        exact hawaits.steers hcontrol
  | handle children hopen hjobs hcontrol =>
      have hkept : ∀ k, (s'.jobs k).state = .FG → s'.jobs k = s.jobs k := by
        rw [hjobs]
        exact fun k hk => (sigchldHandler_reaps children s k).of_fg hk
      refine ⟨hone.of_kept hkept, ?_⟩
      rw [hcontrol]
      exact (hawaits.of_kept hkept).woken
  | @record pid bg cmdline _ hadding hjobs hcontrol =>
      rw [hadding] at hawaits
      have hno : NoFG s.jobs := hawaits
      have hadd := addjob_cases pid (if bg then .BG else .FG) cmdline s.toJobs
      rw [← hjobs] at hadd
      rcases hadd with ⟨hsame, _⟩ | ⟨k, _, _, hset⟩
      · refine ⟨hsame ▸ hone, ?_⟩
        rw [hcontrol, hsame]
        cases bg with
        | true => exact hno
        | false => exact fun k hk => absurd hk (hno k)
      · have hjobs' : s'.jobs = s.jobs.set k
            ⟨pid, s.nextjid, if bg then .BG else .FG, cmdline⟩ :=
          congrArg Jobs.jobs hset
        cases bg with
        | true =>
            have hno' : NoFG s'.jobs := by
              rw [hjobs']
              exact hno.set (by simp)
            exact ⟨hno'.one, hcontrol ▸ hno'⟩
        | false =>
            refine ⟨?_, ?_⟩
            · intro i j hi hj
              rw [hjobs'] at hi hj
              rw [hno.set_only hi, hno.set_only hj]
            · rw [hcontrol]
              intro j hj
              rw [hjobs'] at hj ⊢
              rw [hno.set_only hj, set_same]
  | @background command piddy _ hresumed hjobs hcontrol =>
      rw [hresumed] at hawaits
      have hno : NoFG s.jobs := hawaits
      have hno' : NoFG s'.jobs := by
        rw [hjobs]
        exact hno.set (by simp)
      exact ⟨hno'.one, hcontrol ▸ hno'⟩
  | @foreground command piddy _ hresumed hjobs hcontrol =>
      rw [hresumed] at hawaits
      have hno : NoFG s.jobs := hawaits
      have honly : ∀ j, (s'.jobs j).state = .FG → j = piddy := by
        rw [hjobs]
        exact fun j hj => hno.set_only hj
      refine ⟨fun i j hi hj => ?_, ?_⟩
      · rw [honly i hi, honly j hj]
      · rw [hcontrol]
        exact honly

/-- Whatever the command lines and wherever the handler runs, at most one job is
in the foreground, and none when the next line is read. -/
theorem foreground_exclusive
    (events : List Event) :
    Always step Tsh.start events (fun s =>
      OneFG s.jobs ∧ (s.control = .reading → NoFG s.jobs)) := by
  intro pre _ s hs
  have hinit : Fronted Tsh.start := by
    have hno : NoFG Tsh.start.jobs := fun k hk => by cases hk
    exact ⟨hno.one, hno⟩
  have h : Fronted s :=
    exec_invariant hinit (fun _ _ _ h hstep => h.step hstep) hs
  refine ⟨h.one, fun hreading => ?_⟩
  have hawaits := h.awaits
  rw [hreading] at hawaits
  exact hawaits

end Shell
end PastWork
