import PastWork.Shell.Pending

/-!
# The way out of `waitfg`

A shell that sleeps in `waitfg` for a job that has changed is brought back by the signal
that is pending, in whatever order `waitpid` tells of the children, and after a bounded
number of steps.  Only a handler that returns early can leave the job behind; then the
shell falls asleep again, and nothing is on the way to it.
-/

namespace PastWork
namespace Shell

open Steps

namespace Kernel

variable {k k' : Kernel} {h : Happening} {pid : Int}

section Waking

/-- A step with which the shell goes on by itself. -/
inductive GoesOn (k : Kernel) : Happening → World → Prop
  | sigchld
      (hpending : k.pending = true) :
      GoesOn k .sigchld { k.toWorld with frames := .reaping :: k.frames }
  | told {cPid : Int} {Cstat : ChildStatus} {rest : List Frame} {children : List Int}
      (hframes : k.frames = .reaping :: rest)
      (hreport : (cPid, Cstat) ∈ k.reports) :
      GoesOn k (.waitpid (some (cPid, Cstat)))
        { k.toWorld with frames := .reaped cPid Cstat :: rest, children := children }
  | done {rest : List Frame}
      (hframes : k.frames = .reaping :: rest)
      (hreports : k.reports = []) :
      GoesOn k (.waitpid none) (k.toWorld.leave rest)
  | handle {cPid : Int} {Cstat : ChildStatus} {rest : List Frame}
      (hframes : k.frames = .reaped cPid Cstat :: rest) :
      GoesOn k .handle (k.toWorld.handle cPid Cstat rest)
  | proceed {s : Tsh}
      (hframes : k.frames = [])
      (hproceed : k.toTsh.proceed = some s) :
      GoesOn k .proceed
        { k.toWorld with
          toTsh := s
          ended := if s.control = .exited then some .quit else none }

theorem happen_of_goOn
    (hstep : k.goOn h = some k') :
    k.happen h = some k' := by
  unfold goOn at hstep
  split at hstep
  · exact hstep
  · cases hstep

theorem goOn_cases
    (hstep : k.goOn h = some k') :
    ∃ w, k.toWorld.step h = some w ∧ k.GoesOn h w ∧
      k' =
        { toWorld := w
          pending := k.pendingAfter h
          reports := k.reportsAfter h } := by
  unfold goOn at hstep
  split at hstep
  case isFalse => cases hstep
  case isTrue honward =>
    obtain ⟨hallows, w, hw, rfl⟩ := happen_cases hstep
    refine ⟨w, hw, ?_, rfl⟩
    cases World.occurs_of_step hw with
    | sigchld => exact .sigchld hallows
    | @waitpid child rest _ hframes hwait =>
        cases child with
        | none =>
            cases hwait
            exact .done hframes (by simpa [allows] using hallows)
        | some report =>
            simp only [World.wait] at hwait
            split at hwait
            · cases hwait
              exact .told hframes (by simpa [allows] using hallows)
            · cases hwait
    | handle hframes => exact .handle hframes
    | proceed hmain =>
        obtain ⟨hframes, s, hs, rfl⟩ := World.main_eq_some hmain
        exact .proceed hframes hs
    | line | eof | fork | kill | key | deliver | nobody | sigquit | setpgid | descend =>
        cases honward

/-- With no handler running and no signal pending, only the next statement of the
shell is left. -/
theorem GoesOn.of_quiet
    {w : World}
    (hgoes : k.GoesOn h w)
    (hframes : k.frames = [])
    (hpending : k.pending = false) :
    ∃ s, h = .proceed ∧ k.toTsh.proceed = some s ∧
      w =
        { k.toWorld with
          toTsh := s
          ended := if s.control = .exited then some .quit else none } := by
  cases hgoes with
  | sigchld htrue =>
      rw [hpending] at htrue
      cases htrue
  | told hframes' | done hframes' | handle hframes' =>
      rw [hframes] at hframes'
      cases hframes'
  | proceed _ hproceed => exact ⟨_, rfl, hproceed, rfl⟩

theorem goOn_ne_none
    {w : World}
    (honward : h.onward = true)
    (hallows : k.allows h = true)
    (hw : k.toWorld.step h = some w) :
    k.goOn h ≠ none := by
  simp [goOn, honward, happen, hallows, hw]

/-- The statement of `waitfg` that looks whether it may return. -/
theorem step_testing
    (hended : k.ended = none)
    (hcontrol : k.control = .testing pid)
    (hframes : k.frames = []) :
    k.toWorld.step .proceed =
      some
        { k.toWorld with
          toTsh := k.toTsh.test pid
          ended :=
            if (k.toTsh.test pid).control = .exited then some .quit else none } := by
  simp [World.step, hended, World.main, hframes, Shell.step, Tsh.proceed, hcontrol]

theorem Reports.ne_nil
    (hreport : k.Reports pid) :
    k.reports ≠ [] := by
  obtain ⟨Cstat, hmem⟩ := hreport
  exact List.ne_nil_of_mem hmem

/-- When `waitpid` tells of a child, it is this one, or the report about it stays. -/
theorem Reports.told
    (hreport : k.Reports pid)
    (cPid : Int)
    (Cstat : ChildStatus) :
    cPid = pid ∨ ∃ Cstat',
      (pid, Cstat') ∈ k.reportsAfter (.waitpid (some (cPid, Cstat))) := by
  by_cases hpid : cPid = pid
  · exact .inl hpid
  · obtain ⟨Cstat', hmem⟩ := hreport
    exact .inr ⟨Cstat', List.mem_filter.mpr
      ⟨hmem, by simpa using Ne.symm hpid⟩⟩

/-- How far the shell is on its way out of `waitfg`. -/
inductive Phase (k : Kernel) (pid : Int) : Prop
  | asleep
      (hcontrol : k.control = .suspended pid)
      (hframes : k.frames = [])
      (hpending : k.pending = true)
      (hreport : k.Reports pid)
  | reaping
      (hcontrol : k.control = .suspended pid)
      (hframes : k.frames = [.reaping])
      (hpending : k.pending = false)
      (htold : NoFG k.jobs ∨ k.Reports pid)
  | reaped {cPid : Int} {Cstat : ChildStatus}
      (hcontrol : k.control = .suspended pid)
      (hframes : k.frames = [.reaped cPid Cstat])
      (hpending : k.pending = false)
      (htold : NoFG k.jobs ∨ cPid = pid ∨ k.Reports pid)
  | testing
      (hcontrol : k.control = .testing pid)
      (hframes : k.frames = [])
      (hpending : k.pending = false)
      (hno : NoFG k.jobs)
  | reading
      (hcontrol : k.control = .reading)
      (hframes : k.frames = [])
      (hpending : k.pending = false)
      (hno : NoFG k.jobs)

/-- The most steps for a handler. -/
def weight : Frame → Nat
  | .reaping => 2
  | .reaped _ _ => 4
  | .forwarding _ _ => 0

/-- The most steps in `waitfg` before it sleeps or returns. -/
def controlWeight : Control → Nat
  | .testing _ => 1
  | _ => 0

/-- The most steps that are left. -/
def left (k : Kernel) : Nat :=
  3 * (k.reports.length + k.pending.toNat) + (k.frames.map weight).sum +
    controlWeight k.control

/-- The shell is in `waitfg`, or back at its prompt. -/
def Waits (k : Kernel) (pid : Int) : Prop :=
  k.control = .suspended pid ∨ k.control = .testing pid ∨ k.control = .reading

theorem Waits.leave
    (hk : k.Waits pid)
    (rest : List Frame) :
    Waits { k with toWorld := k.toWorld.leave rest } pid ∧
      controlWeight (k.toWorld.leave rest).control ≤ 1 := by
  have hcontrol : (k.toWorld.leave rest).control = .suspended pid ∨
      (k.toWorld.leave rest).control = .testing pid ∨
        (k.toWorld.leave rest).control = .reading := by
    rcases World.leave_control k.toWorld rest with hsame | hwoken
    · rw [hsame]
      exact hk
    · rw [hwoken]
      rcases hk with hc | hc | hc <;> simp [hc, Control.woken]
  refine ⟨hcontrol, ?_⟩
  rcases hcontrol with hc | hc | hc <;> simp [hc, controlWeight]

/-- A shell that sleeps in `waitfg` sleeps for the job in the foreground. -/
theorem foreground_of_suspended
    {s : Tsh}
    (hfronted : Fronted s)
    (hcontrol : s.control = .suspended pid) :
    ∀ j, (s.jobs j).state = .FG → (s.jobs j).pid = pid := by
  have hawaits := hfronted.awaits
  rw [hcontrol] at hawaits
  exact hawaits

/-- The job in the foreground is found by its pid. -/
theorem find_foreground
    {w : World}
    (htraced : World.Traced w)
    (hpos : 1 ≤ pid)
    (hawaits : ∀ j, (w.jobs j).state = .FG → (w.jobs j).pid = pid)
    (hfg : ¬ NoFG w.jobs) :
    ∃ j, (w.jobs j).state = .FG ∧ (w.jobs j).pid = pid ∧
      getjobpid pid w.jobs = some j := by
  obtain ⟨j, hj⟩ := not_forall.mp hfg
  have hj := not_not.mp hj
  have hpid := hawaits j hj
  refine ⟨j, hj, hpid, ?_⟩
  unfold getjobpid
  rw [if_neg (by omega)]
  refine first_eq_of_unique (by simpa using hpid) (fun i hi => ?_)
  have hi : (w.jobs i).pid = pid := by simpa using hi
  exact htraced.distinct i j (hi.trans hpid.symm) (by omega)

/-- Nothing is in the way of the shell out of `waitfg`. -/
structure Wakes (k : Kernel) (pid : Int) : Prop where
  reached : ∃ happenings, exec World.step World.start happenings = some k.toWorld
  ended : k.ended = none
  pos : 1 ≤ pid
  known : k.Known
  phase : k.Phase pid

/-- The body of the loop of the handler, when the shell sleeps for `pid`. -/
theorem Phase.handle
    {cPid : Int} {Cstat : ChildStatus}
    (htraced : World.Traced k.toWorld)
    (hfronted : Fronted k.toTsh)
    (hpos : 1 ≤ pid)
    (hcontrol : k.control = .suspended pid)
    (hframes : k.frames = [.reaped cPid Cstat])
    (hpending : k.pending = false)
    (htold : NoFG k.jobs ∨ cPid = pid ∨ k.Reports pid)
    (hminds : k.Minds pid .handle) :
    Phase { k with toWorld := k.toWorld.handle cPid Cstat [] } pid := by
  have hawaits := foreground_of_suspended hfronted hcontrol
  have hsame := World.handler_control k.toTsh cPid Cstat
  cases hfind : getjobpid cPid k.jobs with
  | none =>
      have hhandle : k.toWorld.handle cPid Cstat [] =
          World.leave
            { k.toWorld with toTsh := (sigchldHandler [(cPid, Cstat)] k.toTsh).1 }
            [] := by
        unfold World.handle
        rw [if_pos hfind]
      have hjobs : (sigchldHandler [(cPid, Cstat)] k.toTsh).1.jobs = k.jobs := by
        simp only [sigchldHandler, hfind]
        rfl
      have hno : NoFG k.jobs := by
        by_contra hfg
        rcases htold with hno | rfl | ⟨Cstat', hreport⟩
        · exact hfg hno
        · obtain ⟨j, _, _, hj⟩ := find_foreground htraced hpos hawaits hfg
          rw [hj] at hfind
          cases hfind
        · have hreturns : k.Returns .handle :=
            returns_iff.mpr ⟨rfl, cPid, Cstat, [], hframes, hfind⟩
          exact (hminds hreturns).elim hfg (fun hnone => hnone ⟨Cstat', hreport⟩)
      rw [hhandle]
      refine .testing ?_ rfl hpending (by rw [← hjobs] at hno; exact hno)
      show (sigchldHandler [(cPid, Cstat)] k.toTsh).1.control.woken = _
      rw [hsame, hcontrol]
      rfl
  | some hand =>
      have hhandle : k.toWorld.handle cPid Cstat [] =
          { k.toWorld with
            toTsh := (sigchldHandler [(cPid, Cstat)] k.toTsh).1
            frames := [.reaping] } := by
        unfold World.handle
        rw [if_neg (by simp [hfind])]
      rw [hhandle]
      refine .reaping (hsame.trans hcontrol) rfl hpending ?_
      rcases htold with hno | rfl | hreport
      · refine .inl (fun j hj => hno j ?_)
        have hkept := (sigchldHandler_reaps [(cPid, Cstat)] k.toTsh j).of_fg hj
        exact hkept ▸ hj
      · by_cases hno : NoFG k.jobs
        · refine .inl (fun j hj => hno j ?_)
          have hkept := (sigchldHandler_reaps [(cPid, Cstat)] k.toTsh j).of_fg hj
          exact hkept ▸ hj
        · obtain ⟨j, hj, hpid, hfound⟩ := find_foreground htraced hpos hawaits hno
          exact .inl (World.handler_noFG hfronted.one hj hpid hfound)
      · exact .inr hreport

/-- One step on the way out of `waitfg`. -/
theorem Wakes.step
    (hk : k.Wakes pid)
    (hstep : k.goOn h = some k')
    (hminds : k.Minds pid h) :
    k'.Wakes pid := by
  obtain ⟨w, hw, hgoes, rfl⟩ := goOn_cases hstep
  obtain ⟨happenings, hreached⟩ := hk.reached
  have htraced := World.exec_traced hreached hk.ended
  obtain ⟨hfronted, _⟩ := World.exec_sleeps hreached
  have hhappen : Kernel.step k (.happen h) = some
      { toWorld := w, pending := k.pendingAfter h, reports := k.reportsAfter h } :=
    happen_of_goOn hstep
  have hknown := hk.known.step hhappen
  have hrun : exec World.step World.start (happenings ++ [h]) = some w := by
    rw [exec_append, hreached, Option.bind_some, exec, hw]
    rfl
  suffices hnext : w.ended = none ∧
      Phase { toWorld := w, pending := k.pendingAfter h, reports := k.reportsAfter h }
        pid from
    ⟨⟨_, hrun⟩, hnext.1, hk.pos, hknown, hnext.2⟩
  cases hk.phase with
  | asleep hcontrol hframes hpending hreport =>
      cases hgoes with
      | sigchld =>
          exact ⟨hk.ended, .reaping hcontrol (by simp [hframes]) rfl (.inr hreport)⟩
      | proceed _ hproceed =>
          rw [Tsh.proceed, hcontrol] at hproceed
          cases hproceed
      | told hframes' | done hframes' | handle hframes' =>
          rw [hframes] at hframes'
          cases hframes'
  | reaping hcontrol hframes hpending htold =>
      cases hgoes with
      | sigchld htrue =>
          rw [hpending] at htrue
          cases htrue
      | @told cPid Cstat rest children hframes' hmem =>
          rw [hframes] at hframes'
          cases hframes'
          exact ⟨hk.ended, .reaped hcontrol rfl hpending
            (htold.imp_right (fun hreport => hreport.told cPid Cstat))⟩
      | done hframes' hnil =>
          rw [hframes] at hframes'
          cases hframes'
          have hno : NoFG k.jobs :=
            htold.resolve_right (fun hreport => hreport.ne_nil hnil)
          refine ⟨hk.ended, .testing ?_ rfl hpending hno⟩
          show k.control.woken = _
          rw [hcontrol]
          rfl
      | handle hframes' | proceed hframes' =>
          rw [hframes] at hframes'
          cases hframes'
  | @reaped cPid Cstat hcontrol hframes hpending htold =>
      cases hgoes with
      | sigchld htrue =>
          rw [hpending] at htrue
          cases htrue
      | told hframes' | done hframes' | proceed hframes' =>
          rw [hframes] at hframes'
          cases hframes'
      | handle hframes' =>
          rw [hframes] at hframes'
          cases hframes'
          refine ⟨?_, Phase.handle htraced hfronted hk.pos hcontrol hframes hpending
            htold hminds⟩
          unfold World.handle
          dsimp only
          split <;> exact hk.ended
  | testing hcontrol hframes hpending hno =>
      obtain ⟨s, rfl, hproceed, rfl⟩ := hgoes.of_quiet hframes hpending
      have htest : pid ≠ fgpid k.jobs := by
        rw [World.fgpid_eq_zero hno]
        have hpos := hk.pos
        omega
      simp only [Tsh.proceed, hcontrol, Tsh.test, if_neg htest] at hproceed
      cases hproceed
      exact ⟨rfl, .reading rfl hframes hpending hno⟩
  | reading hcontrol hframes hpending hno =>
      obtain ⟨s, rfl, hproceed, rfl⟩ := hgoes.of_quiet hframes hpending
      rw [Tsh.proceed, hcontrol] at hproceed
      cases hproceed

/-- The handler has returned early, and the shell goes back to sleep although its job
has changed. -/
structure Missed (k : Kernel) (pid : Int) : Prop where
  ended : k.ended = none
  control : k.control = .testing pid ∨ k.control = .suspended pid
  frames : k.frames = []
  pending : k.pending = false
  foreground : pid = fgpid k.jobs
  report : k.Reports pid

theorem Wakes.misses
    (hk : k.Wakes pid)
    (hstep : k.goOn h = some k')
    (hminds : ¬ k.Minds pid h) :
    k'.Missed pid := by
  obtain ⟨w, hw, hgoes, rfl⟩ := goOn_cases hstep
  obtain ⟨happenings, hreached⟩ := hk.reached
  have htraced := World.exec_traced hreached hk.ended
  obtain ⟨hfronted, _⟩ := World.exec_sleeps hreached
  simp only [Minds, Classical.not_imp, not_or, not_not, returns_iff] at hminds
  obtain ⟨⟨rfl, cPid, Cstat, rest, hframes, hfind⟩, hfg, hreport⟩ := hminds
  cases hgoes with
  | handle hframes' =>
      rw [hframes] at hframes'
      cases hframes'
      cases hk.phase with
      | asleep _ hnone | testing _ hnone | reading _ hnone =>
          rw [hframes] at hnone
          cases hnone
      | reaping _ hnone =>
          rw [hframes] at hnone
          cases hnone
      | reaped hcontrol hone hpending =>
          rw [hframes] at hone
          cases hone
          have hawaits := foreground_of_suspended hfronted hcontrol
          obtain ⟨j, hj, hpid, _⟩ := find_foreground htraced hk.pos hawaits hfg
          have hhandle : k.toWorld.handle cPid Cstat [] =
              World.leave
                { k.toWorld with toTsh := k.toTsh.print (.noChild cPid) } [] := by
            unfold World.handle
            rw [if_pos hfind]
            simp only [sigchldHandler, hfind]
          rw [hhandle]
          refine ⟨hk.ended, .inl ?_, rfl, hpending, ?_, hreport⟩
          · show k.control.woken = _
            rw [hcontrol]
            rfl
          · exact hpid.symm.trans (World.fgpid_eq hfronted.one hj).symm

theorem Missed.step
    (hk : k.Missed pid)
    (hstep : k.goOn h = some k') :
    k'.Missed pid := by
  obtain ⟨w, _, hgoes, rfl⟩ := goOn_cases hstep
  obtain ⟨s, rfl, hproceed, rfl⟩ := hgoes.of_quiet hk.frames hk.pending
  rcases hk.control with hcontrol | hcontrol
  · simp only [Tsh.proceed, hcontrol, Tsh.test, if_pos hk.foreground] at hproceed
    cases hproceed
    exact
      { hk with
        ended := rfl
        control := .inr rfl }
  · simp only [Tsh.proceed, hcontrol] at hproceed
    cases hproceed

/-- The body of the loop of the handler takes two steps from what is left. -/
theorem Waits.handle
    {cPid : Int} {Cstat : ChildStatus} {rest : List Frame}
    (hk : k.Waits pid)
    (hframes : k.frames = .reaped cPid Cstat :: rest) :
    Waits { k with toWorld := k.toWorld.handle cPid Cstat rest } pid ∧
      left { k with toWorld := k.toWorld.handle cPid Cstat rest } < k.left := by
  have hsame : (sigchldHandler [(cPid, Cstat)] k.toTsh).1.control = k.control :=
    World.handler_control k.toTsh cPid Cstat
  have hhandled : Waits
      { k with
        toWorld :=
          { k.toWorld with
            toTsh := (sigchldHandler [(cPid, Cstat)] k.toTsh).1 } } pid := by
    unfold Waits
    rw [hsame]
    exact hk
  obtain ⟨hleave, hone⟩ := hhandled.leave rest
  unfold World.handle
  dsimp only
  split
  · refine ⟨hleave, ?_⟩
    show 3 * (k.reports.length + k.pending.toNat) + (rest.map weight).sum +
      controlWeight (World.leave
        { k.toWorld with toTsh := (sigchldHandler [(cPid, Cstat)] k.toTsh).1 }
        rest).control < k.left
    rw [left, hframes, List.map_cons, List.sum_cons, weight]
    exact Nat.lt_of_le_of_lt (Nat.add_le_add_left hone _) (by omega)
  · refine ⟨hhandled, ?_⟩
    show 3 * (k.reports.length + k.pending.toNat) + (2 + (rest.map weight).sum) +
      controlWeight (sigchldHandler [(cPid, Cstat)] k.toTsh).1.control < k.left
    rw [left, hframes, List.map_cons, List.sum_cons, weight, hsame]
    omega

/-- What the shell does in `waitfg` comes to an end. -/
theorem Waits.step
    (hk : k.Waits pid)
    (hstep : k.goOn h = some k') :
    k'.Waits pid ∧ k'.left < k.left := by
  obtain ⟨w, _, hgoes, rfl⟩ := goOn_cases hstep
  cases hgoes with
  | sigchld hpending =>
      refine ⟨hk, ?_⟩
      show 3 * (k.reports.length + 0) + (2 + (k.frames.map weight).sum) +
        controlWeight k.control < k.left
      rw [left, hpending, Bool.toNat_true]
      omega
  | @told cPid Cstat rest children hframes hmem =>
      have hless : (k.reports.filter (fun other => other.1 ≠ cPid)).length <
          k.reports.length := by
        refine List.length_filter_lt_length_iff_exists.mpr ⟨_, hmem, ?_⟩
        simp
      refine ⟨hk, ?_⟩
      show 3 * ((k.reports.filter (fun other => other.1 ≠ cPid)).length +
        k.pending.toNat) + (4 + (rest.map weight).sum) + controlWeight k.control < k.left
      rw [left, hframes, List.map_cons, List.sum_cons, weight]
      omega
  | @done rest hframes hreports =>
      obtain ⟨hleave, hone⟩ := hk.leave rest
      refine ⟨hleave, ?_⟩
      show 3 * (k.reports.length + k.pending.toNat) + (rest.map weight).sum +
        controlWeight (k.toWorld.leave rest).control < k.left
      rw [left, hframes, List.map_cons, List.sum_cons, weight]
      omega
  | handle hframes => exact hk.handle hframes
  | @proceed s hframes hproceed =>
      rcases hk with hcontrol | hcontrol | hcontrol
      · simp only [Tsh.proceed, hcontrol] at hproceed
        cases hproceed
      · simp only [Tsh.proceed, hcontrol] at hproceed
        cases hproceed
        have hnext : (k.toTsh.test pid).control = .suspended pid ∨
            (k.toTsh.test pid).control = .reading := by
          unfold Tsh.test
          split
          · exact .inl rfl
          · exact .inr rfl
        have hzero : controlWeight (k.toTsh.test pid).control = 0 := by
          rcases hnext with hc | hc <;> rw [hc] <;> rfl
        refine ⟨hnext.imp_right .inr, ?_⟩
        show 3 * (k.reports.length + k.pending.toNat) + (k.frames.map weight).sum +
          controlWeight (k.toTsh.test pid).control < k.left
        rw [left, hzero, hcontrol, controlWeight]
        omega
      · simp only [Tsh.proceed, hcontrol] at hproceed
        cases hproceed

/-- A shell that cannot go on by itself is back at its prompt. -/
theorem Wakes.reading_of_stuck
    (hk : k.Wakes pid)
    (hstuck : ∀ h, k.goOn h = none) :
    k.control = .reading ∧ NoFG k.jobs := by
  cases hk.phase with
  | asleep hcontrol hframes hpending hreport =>
      have hstep : k.toWorld.step .sigchld =
          some { k.toWorld with frames := [.reaping] } := by
        simp [World.step, hk.ended, hcontrol, hframes, Control.unblocked]
      exact absurd (hstuck .sigchld) (goOn_ne_none rfl hpending hstep)
  | reaping hcontrol hframes hpending htold =>
      cases hreports : k.reports with
      | nil =>
          have hstep : k.toWorld.step (.waitpid none) =
              some (k.toWorld.leave []) := by
            simp [World.step, hk.ended, hframes, World.wait]
          exact absurd (hstuck _)
            (goOn_ne_none rfl (by simp [allows, hreports]) hstep)
      | cons report rest =>
          have hmem : report ∈ k.reports := by simp [hreports]
          have hchild := hk.known report hmem
          have hstep : k.toWorld.step (.waitpid (some report)) =
              some
                { k.toWorld with
                  frames := [.reaped report.1 report.2]
                  children :=
                    if report.2 = .stopped then k.children
                    else k.children.filter (fun pid => pid ≠ report.1) } := by
            simp [World.step, hk.ended, hframes, World.wait, hchild]
          exact absurd (hstuck _)
            (goOn_ne_none rfl (by simp [allows, hreports]) hstep)
  | @reaped cPid Cstat hcontrol hframes hpending htold =>
      have hstep : k.toWorld.step .handle =
          some (k.toWorld.handle cPid Cstat []) := by
        simp [World.step, hk.ended, hframes]
      exact absurd (hstuck _) (goOn_ne_none rfl rfl hstep)
  | testing hcontrol hframes hpending hno =>
      exact absurd (hstuck _)
        (goOn_ne_none rfl rfl (step_testing hk.ended hcontrol hframes))
  | reading hcontrol hframes hpending hno => exact ⟨hcontrol, hno⟩

/-- A shell that has missed the change sleeps on. -/
theorem Missed.suspended_of_stuck
    (hk : k.Missed pid)
    (hstuck : ∀ h, k.goOn h = none) :
    k.control = .suspended pid := by
  refine hk.control.resolve_left (fun hcontrol => ?_)
  exact goOn_ne_none rfl rfl (step_testing hk.ended hcontrol hk.frames) (hstuck _)

/-- Every way on from there ends, at the prompt or asleep again. -/
theorem Wakes.run
    {order : List Happening}
    (hk : k.Wakes pid)
    (hrun : exec goOn k order = some k') :
    (EachStep goOn k order (Minds pid) ∧ k'.Wakes pid) ∨
      (¬ EachStep goOn k order (Minds pid) ∧ k'.Missed pid) := by
  by_cases heach : EachStep goOn k order (Minds pid)
  · refine .inl ⟨heach, ?_⟩
    exact heach.invariant (I := fun k => k.Wakes pid) hk
      (fun _ _ _ hm hstep hminds => hm.step hstep hminds) order
      (List.prefix_refl order) k' hrun
  · refine .inr ⟨heach, ?_⟩
    exact (eachStep_or (I := fun k => k.Wakes pid) (B := fun k => k.Missed pid) hk
      (fun _ _ _ hm hstep hminds => hm.step hstep hminds)
      (fun _ _ _ hm hstep hminds => hm.misses hstep hminds)
      (fun _ _ _ hm hstep => hm.step hstep) hrun).resolve_left heach

/-- With no signal pending and no statement to go on with, the shell waits. -/
theorem goOn_eq_none
    (hframes : k.frames = [])
    (hpending : k.pending = false)
    (hproceed : k.toTsh.proceed = none)
    (h : Happening) :
    k.goOn h = none := by
  cases hstep : k.goOn h with
  | none => rfl
  | some k' =>
      exfalso
      obtain ⟨w, _, hgoes, _⟩ := goOn_cases hstep
      obtain ⟨s, _, hs, _⟩ := hgoes.of_quiet hframes hpending
      rw [hproceed] at hs
      cases hs

end Waking

end Kernel

/-- For every run, with one bit for SIGCHLD and `waitpid` in any order.  Whatever has
changed is under way to the shell all along exactly when the handler never returns at a
child in no slot while there is more to tell.  When the shell sleeps in `waitfg` for a
pid, this is the pid of the foreground job, which has not been waited for.  When this
job has changed and that is under way, every way in which the shell goes on ends: at
the prompt with no job in the foreground, or, when the handler returns early and leaves
the job behind, asleep again with no signal to come.  A shell that waits for the pid 0
stays in `waitfg` whatever happens. -/
theorem waitfg_wakes
    (turns : List Turn) :
    (Always Kernel.step Kernel.start turns Kernel.Told ↔
      EachStep Kernel.step Kernel.start turns Kernel.Heeds) ∧
    ∀ k pid, exec Kernel.step Kernel.start turns = some k → k.ended = none →
      k.control = .suspended pid → k.frames = [] →
        (pid ≠ 0 →
          (∃ j, (k.jobs j).state = .FG ∧ (k.jobs j).pid = pid) ∧ pid ∈ k.children ∧
          (k.Told → k.Reports pid → k.pending = true ∧
            ∀ order k', exec Kernel.goOn k order = some k' →
              order.length ≤ 3 * k.reports.length + 3 ∧
              ((∀ h, k'.goOn h = none) →
                (EachStep Kernel.goOn k order (Kernel.Minds pid) →
                  k'.control = .reading ∧ NoFG k'.jobs) ∧
                (¬ EachStep Kernel.goOn k order (Kernel.Minds pid) →
                  k'.control = .suspended pid ∧ k'.Reports pid ∧
                    k'.pending = false)))) ∧
        (pid = 0 → ∀ later k', exec Kernel.step k later = some k' →
          k'.toWorld.Hangs) := by
  refine ⟨Kernel.always_told turns, fun k pid hk hended hasleep hframes => ?_⟩
  obtain ⟨happenings, hreached⟩ := Kernel.exec_world hk
  obtain ⟨hfronted, _⟩ := World.exec_sleeps hreached
  refine ⟨fun hne => ?_, ?_⟩
  · obtain ⟨hfg, hchild⟩ := Kernel.asleep_foreground hk hended hasleep hframes hne
    refine ⟨hfg, hchild, fun htold hreport => ?_⟩
    have hpending : k.pending = true := by
      rcases htold with hpending | hany | hnil
      · exact hpending
      · rw [hframes] at hany
        cases hany
      · exact absurd hnil hreport.ne_nil
    have hwakes : k.Wakes pid :=
      { reached := ⟨happenings, hreached⟩
        ended := hended
        pos := (World.exec_traced hreached hended).positive pid hchild
        known := (Kernel.exec_kept hk).2
        phase := .asleep hasleep hframes hpending hreport }
    refine ⟨hpending, fun order k' hrun => ⟨?_, fun hstuck => ?_⟩⟩
    · have hspent : k'.left + order.length ≤ k.left :=
        (exec_spends (I := fun k => k.Waits pid) (.inl hasleep)
          (fun _ _ _ hm hstep => hm.step hstep) hrun).2
      have hleft : k.left = 3 * k.reports.length + 3 := by
        rw [Kernel.left, hframes, hpending, hasleep]
        rfl
      omega
    · rcases hwakes.run hrun with ⟨heach, hlast⟩ | ⟨hnot, hlast⟩
      · exact ⟨fun _ => hlast.reading_of_stuck hstuck, fun hno => absurd heach hno⟩
      · exact ⟨fun heach => absurd heach hnot, fun _ =>
          ⟨hlast.suspended_of_stuck hstuck, hlast.report, hlast.pending⟩⟩
  · rintro rfl later k' hlater
    have hkept : Fronted k'.toTsh ∧ k'.toWorld.Hangs := by
      refine exec_invariant (I := fun k => Fronted k.toTsh ∧ k.toWorld.Hangs)
        ⟨hfronted, .inl hasleep⟩ ?_ hlater
      rintro m turn m' ⟨hfronted, hhangs⟩ hstep
      cases turn with
      | happen h =>
          obtain ⟨_, w, hw, rfl⟩ := Kernel.happen_cases hstep
          exact ⟨World.step_fronted hfronted hw, hhangs.step hfronted hw⟩
      | change pid Cstat =>
          simp only [Kernel.step] at hstep
          split at hstep <;> cases hstep
          exact ⟨hfronted, hhangs⟩
      | resume pid =>
          simp only [Kernel.step] at hstep
          split at hstep <;> cases hstep
          exact ⟨hfronted, hhangs⟩
    exact hkept.2

/-- Steps of the shell and its children, with no child that changes. -/
def happenings (steps : List Happening) : List Turn :=
  steps.map .happen

/-- A job is started, and the shell waits for it or goes on. -/
def startJob (pid : Int) (bg : Bool) : List Happening :=
  [.line ["myspin".toList] bg "myspin\n".toList, .proceed, .fork pid, .setpgid pid,
    .proceed, .proceed] ++
    if bg then [] else [.proceed, .proceed]

/-- A background job and the foreground job end together. -/
def bothEnd : List Turn :=
  happenings (startJob 5 true ++ startJob 6 false) ++
    [.change 5 .exited, .change 6 .signaled]

/-- The handler is told about the background job first. -/
def fifthFirst : List Happening :=
  [.sigchld, .waitpid (some (5, .exited)), .handle, .waitpid (some (6, .signaled)),
    .handle, .waitpid none, .proceed]

/-- A background job ends after `fg` has found its slot. -/
def lateFg : List Turn :=
  happenings (startJob 5 true) ++
    happenings
      [.line ["fg".toList, "5".toList] false "fg 5\n".toList, .proceed, .proceed,
        .proceed, .kill, .proceed] ++
    .change 5 .exited ::
      happenings
        [.sigchld, .waitpid (some (5, .exited)), .handle, .waitpid none, .proceed,
          .proceed, .proceed]

/-- The child 17 finds no free slot.  Later the slot of the child 1 is free for the
foreground job 18, which ends together with the child 17. -/
def crowdedTable : List Turn :=
  happenings ((List.range 17).flatMap (fun n => startJob (n + 1) true)) ++
    .change 1 .exited ::
      happenings [.sigchld, .waitpid (some (1, .exited)), .handle, .waitpid none] ++
    happenings (startJob 18 false) ++
    [.change 17 .exited, .change 18 .exited]

/-- The handler is told about the child without a slot first. -/
def strayFirst : List Happening :=
  [.sigchld, .waitpid (some (17, .exited)), .handle, .proceed]

/-- The shell sleeps for `pid`, whose change is under way. -/
def Kernel.sleeps (pid : Int) (Cstat : ChildStatus) (k : Kernel) : Bool :=
  k.ended.isNone && k.control == .suspended pid && k.frames.isEmpty && k.pending &&
    k.reports.any (fun report => report == (pid, Cstat))

/-- The shell waits for the next command line, or for a signal. -/
def Kernel.rests (c : Control) (k : Kernel) : Bool :=
  k.control == c && k.frames.isEmpty && !k.pending && k.toTsh.proceed.isNone

theorem Kernel.sleeps_iff
    {pid : Int} {Cstat : ChildStatus} {k : Kernel} :
    k.sleeps pid Cstat = true ↔
      k.ended = none ∧ k.control = .suspended pid ∧ k.frames = [] ∧ k.pending = true ∧
        (pid, Cstat) ∈ k.reports := by
  simp [Kernel.sleeps, and_assoc]

theorem Kernel.rests_iff
    {c : Control} {k : Kernel} :
    k.rests c = true ↔
      k.control = c ∧ k.frames = [] ∧ k.pending = false ∧ k.toTsh.proceed = none := by
  simp [Kernel.rests, and_assoc]

/-- The shell comes back from the first, and not from the others. -/
theorem bothEnd_wakes_lateFg_hangs :
    (∃ k, exec Kernel.step Kernel.start bothEnd = some k ∧
      ∃ k', exec Kernel.goOn k fifthFirst = some k' ∧
        k'.control = .reading ∧ NoFG k'.jobs) ∧
      (∃ k, exec Kernel.step Kernel.start lateFg = some k ∧
        ∀ later k', exec Kernel.step k later = some k' → k'.toWorld.Hangs) ∧
      ∃ k, exec Kernel.step Kernel.start crowdedTable = some k ∧
        ∃ k', exec Kernel.goOn k strayFirst = some k' ∧
          k'.control = .suspended 18 ∧ k'.Reports 18 ∧ k'.pending = false := by
  have hwait : ∀ {turns : List Turn} {order : List Happening} {pid : Int}
      {Cstat : ChildStatus} {c : Control} {k k' : Kernel},
      exec Kernel.step Kernel.start turns = some k → k.sleeps pid Cstat = true →
        pid ≠ 0 → exec Kernel.goOn k order = some k' → k'.rests c = true →
          (EachStep Kernel.goOn k order (Kernel.Minds pid) →
            k'.control = .reading ∧ NoFG k'.jobs) ∧
          (¬ EachStep Kernel.goOn k order (Kernel.Minds pid) →
            k'.control = .suspended pid ∧ k'.Reports pid ∧ k'.pending = false) := by
    intro turns order pid Cstat c k k' hk hsleeps hne hrun hrests
    obtain ⟨hended, hasleep, hframes, hpending, hmem⟩ := Kernel.sleeps_iff.mp hsleeps
    obtain ⟨_, hidle, hnone, hproceed⟩ := Kernel.rests_iff.mp hrests
    obtain ⟨_, _, hways⟩ :=
      ((waitfg_wakes turns).2 k pid hk hended hasleep hframes).1 hne
    obtain ⟨_, hends⟩ := hways (.inl hpending) ⟨Cstat, hmem⟩
    exact (hends order k' hrun).2 (Kernel.goOn_eq_none hidle hnone hproceed)
  refine ⟨?_, ?_, ?_⟩
  · have hcheck : (exec Kernel.step Kernel.start bothEnd).any (fun k =>
        k.sleeps 6 .signaled &&
          decide (EachStep Kernel.goOn k fifthFirst (fun m h => ¬ m.Returns h)) &&
            (exec Kernel.goOn k fifthFirst).any (Kernel.rests .reading)) = true := by
      decide +kernel
    obtain ⟨k, hk, hcheck⟩ := (Option.any_eq_true _ _).mp hcheck
    simp only [Bool.and_eq_true, decide_eq_true_eq] at hcheck
    obtain ⟨⟨hsleeps, hnever⟩, hcheck⟩ := hcheck
    obtain ⟨k', hrun, hrests⟩ := (Option.any_eq_true _ _).mp hcheck
    have hminds : EachStep Kernel.goOn k fifthFirst (Kernel.Minds 6) :=
      fun pre h hpre m m' hm hstep hreturns =>
        absurd hreturns (hnever pre h hpre m m' hm hstep)
    exact ⟨k, hk, k', hrun, (hwait hk hsleeps (by decide) hrun hrests).1 hminds⟩
  · obtain ⟨k, hk, hended, hasleep, hframes⟩ :
        ∃ k, exec Kernel.step Kernel.start lateFg = some k ∧ k.ended = none ∧
          k.control = .suspended 0 ∧ k.frames = [] := by
      refine ⟨_, rfl, ?_, ?_, ?_⟩ <;> decide +kernel
    exact ⟨k, hk, ((waitfg_wakes lateFg).2 k 0 hk hended hasleep hframes).2 rfl⟩
  · have hcheck : (exec Kernel.step Kernel.start crowdedTable).any (fun k =>
        k.sleeps 18 .exited &&
          (exec Kernel.goOn k strayFirst).any (Kernel.rests (.suspended 18))) = true := by
      decide +kernel
    obtain ⟨k, hk, hcheck⟩ := (Option.any_eq_true _ _).mp hcheck
    obtain ⟨hsleeps, hcheck⟩ := Bool.and_eq_true_iff.mp hcheck
    obtain ⟨k', hrun, hrests⟩ := (Option.any_eq_true _ _).mp hcheck
    obtain ⟨hback, hmissed⟩ := hwait hk hsleeps (by decide) hrun hrests
    have hasleep : k'.control = .suspended 18 := (Kernel.rests_iff.mp hrests).1
    refine ⟨k, hk, k', hrun, hmissed (fun hminds => ?_)⟩
    -- a shell that is asleep is not at its prompt
    have hreading := (hback hminds).1
    rw [hasleep] at hreading
    cases hreading

end Shell
end PastWork
