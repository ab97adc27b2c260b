import PastWork.Shell.Foreground
import PastWork.Shell.Forwarding

/-!
# Waiting for the foreground job

While the shell sleeps in `sigsuspend` and no handler runs, the job it waits for is
in the foreground, and a handler that is told about it takes it from there.  The
exception is a `fg` whose slot was cleared behind its pointer: then `waitfg` waits for
the pid 0, which no handler takes from the foreground.
-/

namespace PastWork
namespace Shell

open Steps

namespace World

variable {w w' : World} {h : Happening} {pid : Int} {Cstat : ChildStatus}

section Fronting

/-- The body of the loop of the handler takes jobs from the foreground only. -/
theorem handler_fronted
    {s : Tsh}
    (hs : Fronted s)
    (children : List (Int × ChildStatus))
    (hcontrol : (sigchldHandler children s).1.control = s.control) :
    Fronted (sigchldHandler children s).1 := by
  have hkept : ∀ k, ((sigchldHandler children s).1.jobs k).state = .FG →
      (sigchldHandler children s).1.jobs k = s.jobs k :=
    fun k hk => (sigchldHandler_reaps children s k).of_fg hk
  refine ⟨hs.one.of_kept hkept, ?_⟩
  rw [hcontrol]
  exact hs.awaits.of_kept hkept

theorem leave_fronted
    (hw : Fronted w.toTsh)
    (rest : List Frame) :
    Fronted (w.leave rest).toTsh := by
  refine ⟨hw.one, ?_⟩
  rcases leave_control w rest with hsame | hwoken
  · rw [hsame]
    exact hw.awaits
  · rw [hwoken]
    exact hw.awaits.woken

theorem handle_fronted
    (hw : Fronted w.toTsh)
    (cPid : Int) (Cstat : ChildStatus) (rest : List Frame) :
    Fronted (w.handle cPid Cstat rest).toTsh := by
  have hhandled := handler_fronted hw [(cPid, Cstat)]
    (handler_control w.toTsh cPid Cstat)
  unfold handle
  dsimp only
  split
  · exact leave_fronted (w := { w with toTsh := _ }) hhandled rest
  · exact hhandled

/-- A step of the shell itself. -/
theorem main_fronted
    {e : Event} {reason : Exit}
    (hw : Fronted w.toTsh)
    (hmain : w.main e reason = some w') :
    Fronted w'.toTsh := by
  obtain ⟨_, s, hs, rfl⟩ := main_eq_some hmain
  exact hw.step hs

/-- Whatever happens, at most one job is in the foreground. -/
theorem step_fronted
    (hw : Fronted w.toTsh)
    (hstep : w.step h = some w') :
    Fronted w'.toTsh := by
  cases occurs_of_step hstep with
  | line hmain | eof hmain | proceed hmain => exact main_fronted hw hmain
  | fork hfresh hmain =>
      have hm := main_fronted hw hmain
      split <;> exact hm
  | kill hkilling hmain => exact main_fronted hw hmain
  | @waitpid child rest _ hframes hwait =>
      cases child with
      | none =>
          cases hwait
          exact leave_fronted hw rest
      | some child =>
          simp only [World.wait] at hwait
          split at hwait
          · cases hwait
            exact hw
          · cases hwait
  | handle hframes => exact handle_fronted hw _ _ _
  | deliver hframes hpos =>
      unfold send
      split
      · exact leave_fronted hw _
      · exact hw
  | nobody hframes hpos => exact leave_fronted hw _
  | sigchld | key | sigquit | setpgid | descend => exact hw

end Fronting

section Sleeping

/-- The shell sleeps for the job that is in the foreground. -/
def Sleeps (w : World) : Prop :=
  ∀ pid, w.control = .suspended pid → w.frames = [] → pid = fgpid w.jobs

/-- `sigsuspend` comes right after the loop condition of `waitfg`. -/
theorem suspended_by_test
    {s s' : Tsh} {e : Event}
    (hstep : Shell.step s e = some s')
    (hown : Own e)
    (hcontrol : s'.control = .suspended pid) :
    pid = fgpid s'.jobs := by
  cases step_effect hstep with
  | steer hjobs hsteer =>
      generalize hc : s.control = c at hsteer
      generalize hc' : s'.control = c' at hsteer
      rw [hcontrol] at hc'
      cases hsteer with
      | suspend =>
          cases hc'
          have hproceed : s.proceed = some s' := hstep
          simp only [Tsh.proceed, hc, Tsh.test] at hproceed
          split at hproceed
          next hpid =>
              rw [hjobs]
              exact hpid
          next =>
              cases hproceed
              cases hcontrol
      | wake => exact hown.elim
      | _ => cases hc'
  | handle => exact hown.elim
  | record _ _ hc | background _ _ hc | foreground _ _ hc =>
      rw [hcontrol] at hc
      cases hc

theorem main_sleeps
    {e : Event} {reason : Exit}
    (hmain : w.main e reason = some w')
    (hown : Own e) :
    w'.Sleeps := by
  obtain ⟨_, s, hs, rfl⟩ := main_eq_some hmain
  intro pid hcontrol _
  exact suspended_by_test hs hown hcontrol

/-- The last handler that returns ends the sleep. -/
theorem leave_sleeps
    (w : World) (rest : List Frame) :
    (w.leave rest).Sleeps := by
  intro pid hcontrol hframes
  have hrest : rest = [] := hframes
  have hwoken : w.control.woken = .suspended pid := by
    simpa [leave, hrest] using hcontrol
  cases hc : w.control <;> simp [hc, Control.woken] at hwoken

/-- While a handler runs there is nothing to show. -/
theorem sleeps_of_frames
    (hframes : w.frames ≠ []) :
    w.Sleeps :=
  fun _ _ hnone => absurd hnone hframes

theorem step_sleeps
    (hw : w.Sleeps)
    (hstep : w.step h = some w') :
    w'.Sleeps := by
  cases occurs_of_step hstep with
  | line hmain | eof hmain | proceed hmain => exact main_sleeps hmain trivial
  | @fork pid m hfresh hmain =>
      obtain ⟨_, s, hs, rfl⟩ := main_eq_some hmain
      have hcontrol : ∀ pid, s.control ≠ .suspended pid := by
        intro pid' hsuspended
        cases hc : w.control <;> simp only [Shell.step, hc] at hs <;> try cases hs
        split_ifs at hs <;> cases hs <;> cases hsuspended
      intro pid' hsuspended _
      split at hsuspended <;> exact absurd hsuspended (hcontrol pid')
  | kill hkilling hmain => exact main_sleeps hmain trivial
  | sigchld | key => exact sleeps_of_frames (List.cons_ne_nil _ _)
  | @waitpid child rest _ hframes hwait =>
      cases child with
      | none =>
          cases hwait
          exact leave_sleeps w rest
      | some child =>
          simp only [World.wait] at hwait
          split at hwait
          · cases hwait
            exact sleeps_of_frames (List.cons_ne_nil _ _)
          · cases hwait
  | handle hframes =>
      unfold handle
      dsimp only
      split
      · exact leave_sleeps _ _
      · exact sleeps_of_frames (List.cons_ne_nil _ _)
  | deliver hframes hpos =>
      unfold send
      split
      · exact leave_sleeps w _
      · refine sleeps_of_frames ?_
        show w.frames ≠ []
        rw [hframes]
        exact List.cons_ne_nil _ _
  | nobody hframes hpos => exact leave_sleeps w _
  | sigquit | setpgid | descend => exact hw

end Sleeping

section Waking

variable {k : Fin MAXJOBS}

/-- The only foreground job is the one that `fgpid` returns. -/
theorem fgpid_eq
    {jobs : Table}
    (hone : OneFG jobs)
    (hk : (jobs k).state = .FG) :
    fgpid jobs = (jobs k).pid := by
  obtain ⟨j, hj, hfgpid⟩ := fgpid_of_fg hk
  rw [hfgpid, hone j k hj hk]

/-- Without a foreground job `fgpid` returns 0. -/
theorem fgpid_eq_zero
    {jobs : Table}
    (h : NoFG jobs) :
    fgpid jobs = 0 := by
  unfold fgpid
  split
  next => rfl
  next k hk => exact absurd (by simpa using first_spec hk) (h k)

/-- A handler that is told about the foreground job takes it from there. -/
theorem handler_noFG
    {s : Tsh} {Cstat : ChildStatus}
    (hone : OneFG s.jobs)
    (hk : (s.jobs k).state = .FG)
    (hpid : (s.jobs k).pid = pid)
    (hfind : getjobpid pid s.jobs = some k) :
    NoFG (sigchldHandler [(pid, Cstat)] s).1.jobs := by
  intro j hj
  have hsame := (sigchldHandler_reaps [(pid, Cstat)] s j).of_fg hj
  obtain rfl : j = k := hone j k (hsame ▸ hj) hk
  cases Cstat with
  | stopped => simp [sigchldHandler, hfind, Tsh.print] at hj
  | signaled | exited =>
      rw [handler_delete hfind (by simp), set_same] at hj
      cases hj

end Waking

section Hanging

/-- `waitfg` waits for the pid 0. -/
def Hangs (w : World) : Prop :=
  w.control = .suspended 0 ∨ w.control = .testing 0

/-- No job with a pid is in the foreground then. -/
theorem Hangs.fgpid_eq
    (hw : w.Hangs)
    (hfronted : Fronted w.toTsh) :
    fgpid w.jobs = 0 := by
  have hawaits := hfronted.awaits
  by_cases hno : NoFG w.jobs
  · exact fgpid_eq_zero hno
  · obtain ⟨k, hk⟩ := not_forall.mp hno
    obtain ⟨j, hj, heq⟩ := fgpid_of_fg (not_not.mp hk)
    rw [heq]
    rcases hw with hc | hc <;> rw [hc] at hawaits <;> exact hawaits j hj

theorem Hangs.leave
    (hw : w.Hangs)
    (rest : List Frame) :
    (w.leave rest).Hangs := by
  rcases leave_control w rest with hsame | hwoken
  · unfold Hangs
    rw [hsame]
    exact hw
  · unfold Hangs
    rw [hwoken]
    rcases hw with hc | hc <;> rw [hc] <;> exact .inr rfl

theorem Hangs.handle
    (hw : w.Hangs)
    (cPid : Int) (Cstat : ChildStatus) (rest : List Frame) :
    (w.handle cPid Cstat rest).Hangs := by
  have hhandled : Hangs
      { w with toTsh := (sigchldHandler [(cPid, Cstat)] w.toTsh).1 } := by
    unfold Hangs
    rw [handler_control]
    exact hw
  unfold World.handle
  dsimp only
  split
  · exact hhandled.leave rest
  · exact hhandled

/-- The shell itself can only test the loop condition of `waitfg`, which holds. -/
theorem Hangs.main
    {e : Event} {reason : Exit}
    (hw : w.Hangs)
    (hfronted : Fronted w.toTsh)
    (hmain : w.main e reason = some w')
    (hown : Own e) :
    w'.Hangs := by
  obtain ⟨_, s, hs, rfl⟩ := main_eq_some hmain
  have hfgpid := hw.fgpid_eq hfronted
  cases e with
  | fork pid | sigchld children | forward ok => exact hown.elim
  | line argv bg cmdline | eof | kill ok =>
      rcases hw with hc | hc <;> simp only [Shell.step, hc] at hs <;> cases hs
  | proceed =>
      rcases hw with hc | hc <;> simp only [Shell.step, Tsh.proceed, hc] at hs
      · cases hs
      · rw [Tsh.test, hfgpid, if_pos rfl] at hs
        cases hs
        exact .inl rfl

theorem Hangs.step
    (hw : w.Hangs)
    (hfronted : Fronted w.toTsh)
    (hstep : w.step h = some w') :
    w'.Hangs := by
  cases occurs_of_step hstep with
  | line hmain | eof hmain | proceed hmain => exact hw.main hfronted hmain trivial
  | fork hfresh hmain =>
      obtain ⟨_, s, hs, _⟩ := main_eq_some hmain
      rcases hw with hc | hc <;> simp only [Shell.step, hc] at hs <;> cases hs
  | kill hkilling hmain => exact hw.main hfronted hmain trivial
  | @waitpid child rest _ hframes hwait =>
      cases child with
      | none =>
          cases hwait
          exact hw.leave rest
      | some child =>
          simp only [World.wait] at hwait
          split at hwait
          · cases hwait
            exact hw
          · cases hwait
  | handle hframes => exact hw.handle _ _ _
  | deliver hframes hpos =>
      unfold send
      split
      · exact hw.leave _
      · exact hw
  | nobody hframes hpos => exact hw.leave _
  | sigchld | key | sigquit | setpgid | descend => exact hw

end Hanging

section Reached

variable {happenings : List Happening}

theorem running
    (hstep : w.step h = some w') :
    w.ended = none := by
  unfold World.step at hstep
  split at hstep
  next hended => exact hended
  next => cases hstep

/-- The job list and the children belong together until the shell ends. -/
theorem exec_traced
    (hw : exec World.step World.start happenings = some w)
    (hended : w.ended = none) :
    Traced w := by
  refine exec_invariant (I := fun w => w.ended = none → Traced w)
    (fun _ => Traced.start) ?_ hw hended
  intro w h w' htraced hstep hended
  have hnow := htraced (running hstep)
  exact hnow.step hstep (hnow.signalsJob hstep (by simp [Survives, hended]))

theorem exec_sleeps
    (hw : exec World.step World.start happenings = some w) :
    Fronted w.toTsh ∧ w.Sleeps := by
  have hno : NoFG World.start.jobs := fun k hk => by cases hk
  have hinit : Fronted World.start.toTsh := ⟨hno.one, hno⟩
  refine exec_invariant (I := fun w => Fronted w.toTsh ∧ w.Sleeps)
    ⟨hinit, by rintro pid ⟨⟩⟩ ?_ hw
  rintro w h w' ⟨hfronted, hsleeps⟩ hstep
  exact ⟨step_fronted hfronted hstep, step_sleeps hsleeps hstep⟩

end Reached

end World

end Shell
end PastWork
