import PastWork.Scheduler.Bursts
import PastWork.Scheduler.Replay

/-!
# Round Robin over short bursts

A dispatch under Round Robin gives a quantum of two cycles.  A process that never
draws a longer burst is never preempted, and Round Robin is then First Come First
Served.
-/

namespace PastWork
namespace Scheduler

namespace Process

variable {present : Nat} {q q' r : Process}

/-- No burst of the process is longer than a quantum. -/
def Short (q : Process) : Prop :=
  q.B ≤ 2 ∨ q.C ≤ 2

/-- While the process runs, its burst is over before its quantum. -/
structure Paced (q : Process) : Prop where
  short : q.Short
  running : q.condition = .running → (q.CPUBurst : Int) ≤ q.quantum

theorem Short.draw_le
    (h : q.Short)
    (hq : q.Budgeted)
    (number : Nat) :
    (Machine.draw number q).CPUBurst ≤ 2 := by
  have hrem := draw_le_remaining number q
  rw [hq.fits.remaining_eq hq.CPUTime_le] at hrem
  rcases h with hB | hC
  · have hmod := Nat.mod_lt number hq.fits.B_pos
    have hdraw : (1 + number % q.B) % 2 ^ 32 ≤ 2 := by
      rw [Nat.mod_eq_of_lt (by omega)]
      omega
    unfold Machine.draw assignBurst
    split
    next hmore =>
      exact hmore.le.trans hdraw
    next =>
      exact hdraw
  · omega

theorem Paced.of_moves
    (hmove : Moves .rr present q q')
    (hq : q.Budgeted)
    (h : q.Paced) :
    q'.Paced := by
  have hinput := hmove.input_eq
  have hshort : q'.Short := by
    unfold Short
    rw [hinput.2.1, hinput.2.2.1]
    exact h.short
  refine ⟨hshort, ?_⟩
  cases hmove with
  | terminate | block | preempt | release | arrive =>
      intro hrun
      cases hrun
  | keep hcond hleft hburst hquantum =>
      intro _
      have hle := h.running hcond
      rw [chargeBurst_eq]
      exact hle
  | launch number hcond hburst =>
      intro _
      have hle := h.short.draw_le hq number
      show ((Machine.draw number q).CPUBurst : Int) ≤ 2
      exact_mod_cast hle

theorem Paced.of_movesTo
    (hmoves : MovesTo .rr present q q')
    (hq : q.Budgeted)
    (h : q.Paced) :
    q'.Paced := by
  have hboth := hmoves.preserves (P := fun q => q.Budgeted ∧ q.Paced)
    (fun _ _ hmove hP => ⟨hP.1.of_moves hmove, hP.2.of_moves hmove hP.1⟩) ⟨hq, h⟩
  exact hboth.2

theorem Paced.countdown
    (h : q.Paced)
    (hq : q.Budgeted)
    (hlive : q.condition = .running → 0 < q.CPUBurst) :
    (q.countdown .rr).Paced := by
  obtain ⟨_, hB, hC, _⟩ := countdown_input_eq .rr q
  have hshort : (q.countdown .rr).Short := by
    unfold Short
    rw [hB, hC]
    exact h.short
  refine ⟨hshort, fun hrun => ?_⟩
  rw [countdown_condition] at hrun
  have hle := h.running hrun
  have hpos := hlive hrun
  have hsum := hq.running hrun
  have hfits := hq.fits.C_lt
  rw [countdown_of_running hrun]
  show ((decr q.CPUBurst : Nat) : Int) ≤ q.quantum - 1
  rw [decr_eq hpos (by omega)]
  omega

/-- Policies that set no quantum see no difference between quanta. -/
theorem Alike.of_base
    {d : Policy}
    (hd : d ≠ .rr)
    (h : { q with quantum := 0 } = { r with quantum := 0 }) :
    Alike d q r :=
  ⟨h, fun hrr => absurd hrr hd⟩

theorem countdown_base
    (d e : Policy) (q : Process) :
    { q.countdown d with quantum := 0 } =
      { q.countdown e with quantum := 0 } := by
  unfold countdown
  split <;> rfl

end Process

namespace Machine

variable {d : Policy} {file : RandomFile} {a b : Machine} {t i : Nat}

/-- One cycle of a process: changes before the timers, after which a running process
has some of its burst left. -/
theorem Sound.process
    (h : a.Sound t)
    (hb : a.datapoint d file = some b)
    (hi : i < a.countPrime) :
    ∃ q, Process.MovesTo d a.present (a.Prime i) q ∧
      (q.condition = .running → 0 < q.CPUBurst) ∧
      b.Prime i = q.countdown d := by
  obtain ⟨c, hc, rfl⟩ := Option.map_eq_some_iff.mp hb
  have hopen := prepare_opened (d := d) h.queued h.arrived h.present_eq
  have hdone := hopen.phase (executeR_phase hopen.queued h.launchable hc)
  have hlt : i < c.countPrime := hdone.count.symm ▸ hi
  refine ⟨c.Prime i, hdone.moves i hi, ?_, advance_Prime hlt⟩
  intro hrun
  exact h.executeR_lively hc i
    ((hdone.queued.selection_iff i).mpr ⟨hlt, hrun⟩)

/-- Every burst of the processes is over before its quantum. -/
def Paced (a : Machine) : Prop :=
  ∀ i < a.countPrime, (a.Prime i).Paced

theorem Paced.datapoint
    (h : a.Paced)
    (ha : a.Sound t)
    (hb : a.datapoint .rr file = some b) :
    b.Paced := by
  intro i hi
  rw [(ha.cycle hb).count] at hi
  obtain ⟨q, hmoves, hlive, hq⟩ := ha.process hb hi
  rw [hq]
  exact ((h i hi).of_movesTo hmoves (ha.budgeted i hi)).countdown
    ((ha.budgeted i hi).of_movesTo hmoves) hlive

/-- A process whose burst is over first is never preempted. -/
theorem Paced.proceedForward
    (h : a.Paced)
    (ha : a.Queued) :
    a.proceedForward .rr = a.proceedForward .fcfs := by
  unfold Machine.proceedForward
  cases hsel : a.selection with
  | none =>
      rfl
  | some p =>
      obtain ⟨hlt, hrun⟩ := (ha.selection_iff p).mp hsel
      have hle := (h p hlt).running hrun
      by_cases hburst : (a.Prime p).CPUBurst = 0
      · simp only [if_pos hburst]
        rfl
      · have hquantum : ¬ (a.Prime p).quantum ≤ 0 := by
          omega
        simp only [if_neg hburst, hquantum, and_false, if_false]
        rfl

theorem Paced.prepare
    (h : a.Paced)
    (ha : a.Queued) :
    a.prepare .rr = a.prepare .fcfs := by
  rw [Machine.prepare, Machine.prepare, h.proceedForward ha]

theorem Alike.prepare
    (h : Alike d a b)
    (ha : a.Queued) :
    Alike d (a.prepare d) (b.prepare d) :=
  (h.proceedForward ha).execxuteB.creation

/-- The dispatches of the two policies differ in the quantum alone. -/
theorem Alike.dispatch_rr
    (h : Alike .fcfs a b)
    (hlive : a.Launchable .rr) :
    a.dispatch .rr file = none ∧ b.dispatch .fcfs file = none ∨
      ∃ a' b', a.dispatch .rr file = some a' ∧
        b.dispatch .fcfs file = some b' ∧ Alike .fcfs a' b' := by
  have hchoose : b.choose .fcfs = a.choose .rr := by
    simp [choose, h.ready]
  unfold Machine.dispatch
  rw [← h.selection, hchoose, ← h.infinity]
  by_cases hfree : a.selection = none
  · rw [if_pos hfree, if_pos hfree]
    cases hp : a.choose .rr with
    | none =>
        exact .inr ⟨a, b, rfl, rfl, h⟩
    | some p =>
        cases hnumber : file a.infinity with
        | none =>
            exact .inl ⟨rfl, rfl⟩
        | some number =>
            refine .inr ⟨a.start .rr p number, b.start .fcfs p number, rfl, rfl, ?_⟩
            have hpos := hlive hfree p number hp
            have hburst := (h.process p).field
              (fun q => (draw number q).CPUBurst) (fun _ => rfl)
            have hpos' : 0 < (draw number (b.Prime p)).CPUBurst := by
              rw [← hburst]
              simpa using hpos
            rw [start_eq hpos, start_eq (.inl hpos')]
            refine
              { h with
                process := fun i => ?_
                ready := congrArg (·.erase p) h.ready
                infinity := congrArg (· + 1) h.infinity
                selection := rfl }
            have hbase := congrArg
              (fun q => { draw number q with
                condition := .running, operating := true, quantum := 0 })
              (h.process p).base
            by_cases hi : i = p
            · subst hi
              simp only [modify, update_same]
              exact .of_base (by simp) hbase
            · simp only [modify, update_ne _ _ hi]
              exact h.process i
  · rw [if_neg hfree, if_neg hfree]
    exact .inr ⟨a, b, rfl, rfl, h⟩

theorem Alike.advance_rr
    (h : Alike .fcfs a b) :
    Alike .fcfs (a.advance .rr) (b.advance .fcfs) := by
  have hfcfs := h.advance
  have hblocked : (a.advance .rr).totalTimeNumber =
      (a.advance .fcfs).totalTimeNumber := by
    show (a.toGlobals.countdown .rr).totalTimeNumber =
      (a.toGlobals.countdown .fcfs).totalTimeNumber
    rw [countdown_totalTimeNumber, countdown_totalTimeNumber]
  refine
    { hfcfs with
      process := fun i => .of_base (by simp) ?_
      totalTimeNumber := hblocked.trans hfcfs.totalTimeNumber }
  rw [← (hfcfs.process i).base]
  simp only [Machine.advance, Machine.countdown, Globals.countdown]
  split
  · exact Process.countdown_base .rr .fcfs (a.Prime i)
  · rfl

/-- A cycle of Round Robin over short bursts is one of First Come First Served. -/
theorem Paced.datapoint_rr
    (hpaced : a.Paced)
    (ha : a.Diligent t)
    (h : Alike .fcfs a b) :
    a.datapoint .rr file = none ∧ b.datapoint .fcfs file = none ∨
      ∃ a' b', a.datapoint .rr file = some a' ∧
        b.datapoint .fcfs file = some b' ∧ Alike .fcfs a' b' := by
  have hprepare := h.prepare ha.sound.queued
  rw [← hpaced.prepare ha.sound.queued] at hprepare
  rw [datapoint_eq_dispatch (by simp), datapoint_eq_dispatch (by simp)]
  have hdispatch : (a.prepare .rr).dispatch .rr file = none ∧
        (b.prepare .fcfs).dispatch .fcfs file = none ∨
      ∃ c c', (a.prepare .rr).dispatch .rr file = some c ∧
        (b.prepare .fcfs).dispatch .fcfs file = some c' ∧ Alike .fcfs c c' :=
    hprepare.dispatch_rr (ha.launchable (by simp))
  rcases hdispatch with ⟨hnone, hnone'⟩ | ⟨c, c', hc, hc', halike⟩
  · rw [hnone, hnone']
    exact .inl ⟨rfl, rfl⟩
  · rw [hc, hc']
    exact .inr ⟨_, _, rfl, rfl, halike.advance_rr⟩

theorem Initial.paced
    {W : Workload}
    (hshort : ∀ job ∈ W.jobs, job.B ≤ 2 ∨ job.C ≤ 2)
    (h : a.Initial file W) :
    a.Paced := by
  intro i hi
  obtain ⟨hlt, _, _, _, _, hproc⟩ := h.process hi
  have hjob := hshort _ (List.getElem_mem hlt)
  rw [hproc]
  refine ⟨?_, fun hrun => by cases hrun⟩
  exact hjob.imp UInt32.le_iff_toNat_le.mp UInt32.le_iff_toNat_le.mp

end Machine

section Runs

open Machine (Alike)

variable {file : RandomFile} {W : Workload} {s s' : State}

/-- A loop of Round Robin over short bursts ends, runs out of numbers or does not end
as the one of First Come First Served, with the same outcome. -/
theorem Represents.simulate_rr
    {a b : Machine} {t : Nat}
    (hs : Represents s a)
    (hs' : Represents s' b)
    (ha : a.Diligent t)
    (hb : b.Diligent t)
    (hpaced : a.Paced)
    (halike : Alike .fcfs a b)
    (fuel : Nat) :
    (simulate .rr file fuel s).map State.outcome =
      (simulate .fcfs file fuel s').map State.outcome := by
  have houtcome := halike.outcome hs hs'
  have hcond : (s.completion ≠ s.countPrime) = (s'.completion ≠ s'.countPrime) := by
    rw [hs.completion, hs.countPrime, hs'.completion, hs'.countPrime,
      halike.completion, halike.countPrime]
  induction fuel generalizing s s' a b t with
  | zero =>
      simp only [simulate, whileLoop, hcond]
      split
      · rfl
      · exact congrArg Except.ok houtcome
  | succ fuel ih =>
      simp only [simulate, whileLoop, hcond]
      split
      next =>
        have hsim : Simulates (Scheduler.datapoint .rr file s)
            (a.datapoint .rr file) := hs.cycle (by simp) ha.sound.orderly
        have hsim' : Simulates (Scheduler.datapoint .fcfs file s')
            (b.datapoint .fcfs file) := hs'.cycle (by simp) hb.sound.orderly
        have hcycle : a.datapoint .rr file = none ∧ b.datapoint .fcfs file = none ∨
            ∃ a' b', a.datapoint .rr file = some a' ∧
              b.datapoint .fcfs file = some b' ∧ Alike .fcfs a' b' :=
          hpaced.datapoint_rr ha halike
        rcases hcycle with ⟨hnone, hnone'⟩ | ⟨a', b', ha', hb', halike'⟩
        · rw [hnone] at hsim
          rw [hnone'] at hsim'
          rw [show Scheduler.datapoint .rr file s = _ from hsim,
            show Scheduler.datapoint .fcfs file s' = _ from hsim',
            Result.error_bind, Result.error_bind]
        · rw [ha'] at hsim
          rw [hb'] at hsim'
          obtain ⟨r, hr, hrep⟩ := hsim
          obtain ⟨r', hr', hrep'⟩ := hsim'
          rw [hr, hr']
          refine ih hrep hrep' (ha.datapoint (by simp) ha')
            (hb.datapoint (by simp) hb') (hpaced.datapoint ha.sound ha') halike'
            (halike'.outcome hrep hrep') ?_
          rw [hrep.completion, hrep.countPrime, hrep'.completion, hrep'.countPrime,
            halike'.completion, halike'.countPrime]
      next =>
        exact congrArg Except.ok houtcome

/-- Two runs from the start, one of each policy. -/
theorem Machine.Initial.simulate_rr
    {a b : Machine}
    (hC : ∀ job ∈ W.jobs, 1 ≤ job.C)
    (hshort : ∀ job ∈ W.jobs, job.B ≤ 2 ∨ job.C ≤ 2)
    (ha : a.Initial file W)
    (hb : b.Initial file W)
    (hs : Represents s a)
    (hs' : Represents s' b)
    (fuel : Nat) :
    (simulate .rr file fuel s).map State.outcome =
      (simulate .fcfs file fuel s').map State.outcome :=
  hs.simulate_rr hs' (ha.diligent hC) (hb.diligent hC) (ha.paced hshort)
    (ha.alike hb) fuel

/-- The outcomes of the two passes of a policy. -/
def Passes.outcomes (passes : Passes) : Outcome × Outcome :=
  (passes.first.outcome, passes.second.outcome)

/-- When every process needs CPU time, and has bursts of at most two cycles or at most
two cycles of CPU time, Round Robin reports what First Come First Served reports,
whatever has been run before either of them. -/
theorem roundRobin_eq_fcfs
    (hC : ∀ job ∈ W.jobs, 1 ≤ job.C)
    (hshort : ∀ job ∈ W.jobs, job.B ≤ 2 ∨ job.C ≤ 2)
    (h : Left file W s)
    (h' : Left file W s')
    (fuel : Nat) :
    (listoutputs .rr file fuel s).map Passes.outcomes =
      (listoutputs .fcfs file fuel s').map Passes.outcomes := by
  obtain ⟨a, hrep, ha⟩ := h.started.initial_cleared
  obtain ⟨b, hrep', hb⟩ := h'.started.initial_cleared
  rcases Result.of_map_eq (ha.simulate_rr hC hshort hb hrep hrep' fuel) with
    ⟨e, hfirst, hfirst'⟩ | ⟨first, first', hfirst, hfirst', houtcome⟩
  · simp only [listoutputs, hfirst, hfirst', Result.error_bind]
  · have hcleared : Holds W (openRandom { s with terminateAlg := fun _ => none }) :=
      { h.holds with }
    have hcleared' : Holds W (openRandom { s' with terminateAlg := fun _ => none }) :=
      { h'.holds with }
    have hheld := simulate_stable _ _ hcleared hfirst
    have hheld' := simulate_stable _ _ hcleared' hfirst'
    obtain ⟨s₁, hs₁⟩ := hheld.extra_returns h.started.lines
    obtain ⟨s₁', hs₁'⟩ := hheld'.extra_returns h.started.lines
    obtain ⟨hheld₁, hstarted⟩ := hheld.extra hs₁
    obtain ⟨hheld₁', hstarted'⟩ := hheld'.extra hs₁'
    obtain ⟨c, hrepc, hc⟩ := hstarted.initial
    obtain ⟨c', hrepc', hc'⟩ := hstarted'.initial
    rcases Result.of_map_eq (hc.simulate_rr hC hshort hc' hrepc hrepc' fuel) with
      ⟨e, hsecond, hsecond'⟩ | ⟨second, second', hsecond, hsecond', houtcome₂⟩
    · simp only [listoutputs, hfirst, hfirst', hs₁, hs₁', hsecond, hsecond',
        Result.ok_bind, Result.error_bind]
    · have hopened : Holds W (openRandom s₁) := { hheld₁ with }
      have hopened' : Holds W (openRandom s₁') := { hheld₁' with }
      obtain ⟨final, hfinal⟩ :=
        (simulate_stable _ _ hopened hsecond).extra_returns h.started.lines
      obtain ⟨final', hfinal'⟩ :=
        (simulate_stable _ _ hopened' hsecond').extra_returns h.started.lines
      simp only [listoutputs, hfirst, hfirst', hs₁, hs₁', hsecond, hsecond',
        hfinal, hfinal', Result.ok_bind]
      exact congrArg Except.ok (Prod.ext houtcome houtcome₂)

/-- Two processes with bursts of at most two cycles. -/
def shortJobs : Workload where
  jobs := [⟨0, 2, 7, 1⟩, ⟨1, 5, 2, 1⟩]
  fits := by decide

theorem shortJobs_paced :
    ∃ s, load steadyFile shortJobs = .ok s ∧
      (listoutputs .rr steadyFile 40 s).map Passes.outcomes =
        (listoutputs .fcfs steadyFile 40 s).map Passes.outcomes := by
  obtain ⟨s, hload⟩ : ∃ s, load steadyFile shortJobs = .ok s := ⟨_, rfl⟩
  exact ⟨s, hload, roundRobin_eq_fcfs (by decide) (by decide) (load_left hload)
    (load_left hload) 40⟩

end Runs

end Scheduler
end PastWork
