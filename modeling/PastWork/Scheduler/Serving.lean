import PastWork.Scheduler.Termination

/-!
# No idling, and first come first served

At the end of a cycle the CPU is idle only while no process is ready.  Under
FCFS a log of a run says which processes enter and leave the ready queue: what
has entered and not been dispatched is the queue.
-/

namespace PastWork
namespace Scheduler

open Links

/-- The processes that were in a condition and have become ready, in index
order. -/
def turned (c : Condition) (s s' : State) : List Nat :=
  (List.range s.countPrime).filter
    (fun i => (s.Prime i).condition = c ∧ (s'.Prime i).condition = .ready)

/-- A run with the processes that have entered the ready queue, and those that
have been dispatched, both in order. -/
structure Log where
  state : State
  entered : List Nat
  dispatched : List Nat

/-- One cycle, which unblocks processes before it creates others. -/
def observe
    (datastream : Policy) (file : RandomFile) (log : Log) : Result Log := do
  let s₁ ← proceedForward datastream log.state
  let s₂ ← execxuteB s₁
  let s₃ ← if s₂.totalPrime ≠ s₂.countPrime then creation s₂ else .ok s₂
  let s₄ ← executeR datastream file s₃
  let s₅ := countdown datastream s₄
  .ok
    { state := { s₅ with present := incr s₅.present }
      entered := log.entered ++
        (turned .blocked s₁ s₂ ++ turned .unstarted s₂ s₃)
      dispatched := log.dispatched ++
        if s₃.selection = none then s₄.selection.toList else [] }

/-- The log does not change the run. -/
theorem observe_state
    (d : Policy) (file : RandomFile) (log : Log) :
    (observe d file log).map Log.state = datapoint d file log.state := by
  unfold observe datapoint
  cases proceedForward d log.state with
  | error e => rfl
  | ok s₁ =>
      simp only [Result.ok_bind]
      cases execxuteB s₁ with
      | error e => rfl
      | ok s₂ =>
          simp only [Result.ok_bind]
          split
          · cases creation s₂ with
            | error e => rfl
            | ok s₃ =>
                simp only [Result.ok_bind]
                cases executeR d file s₃ <;> rfl
          · cases executeR d file s₂ <;> rfl

theorem observe_eq
    {d : Policy} {file : RandomFile} {log : Log} {s₁ s₂ s₃ s₄ : State}
    (hs₁ : proceedForward d log.state = .ok s₁)
    (hs₂ : execxuteB s₁ = .ok s₂)
    (hs₃ : (if s₂.totalPrime ≠ s₂.countPrime then creation s₂
      else .ok s₂) = .ok s₃)
    (hs₄ : executeR d file s₃ = .ok s₄) :
    observe d file log = .ok
      { state :=
          { countdown d s₄ with present := incr (countdown d s₄).present }
        entered := log.entered ++
          (turned .blocked s₁ s₂ ++ turned .unstarted s₂ s₃)
        dispatched := log.dispatched ++
          if s₃.selection = none then s₄.selection.toList else [] } := by
  unfold observe
  simp only [hs₁, hs₂, Result.ok_bind]
  by_cases hmissing : s₂.totalPrime ≠ s₂.countPrime
  · rw [if_pos hmissing] at hs₃ ⊢
    simp only [hs₃, hs₄, Result.ok_bind]
  · rw [if_neg hmissing] at hs₃ ⊢
    obtain rfl := Except.ok.inj hs₃
    simp only [hs₄, Result.ok_bind]

namespace Machine

variable {a b : Machine} {t : Nat} {file : RandomFile}

/-- What enters the ready queue in a cycle under FCFS. -/
def entering (a : Machine) : List Nat :=
  (a.proceedForward .fcfs).firstExpired.toList ++
    if (a.proceedForward .fcfs).execxuteB.totalPrime ≠
        (a.proceedForward .fcfs).execxuteB.countPrime then
      (a.proceedForward .fcfs).execxuteB.arrivals
    else
      []

/-- Under FCFS no process is preempted. -/
theorem prepare_fcfs_ready
    (a : Machine) :
    (a.prepare .fcfs).ready = a.ready ++ a.entering := by
  have hforward : (a.proceedForward .fcfs).ready = a.ready := by
    unfold proceedForward
    split
    · rfl
    · split_ifs <;> first | rfl | simp_all
  have hexecute : (a.proceedForward .fcfs).execxuteB.ready =
      (a.proceedForward .fcfs).ready ++
        (a.proceedForward .fcfs).firstExpired.toList := by
    unfold execxuteB
    split
    next hnone => simp [hnone]
    next p hp =>
        simp [hp, release]
  unfold prepare entering creation
  split
  · rw [← List.append_assoc, ← hforward, ← hexecute]
    rfl
  · rw [hexecute, hforward, List.append_nil]

/-- The front of the queue is dispatched when the CPU is free. -/
theorem dispatch_fcfs
    (hlive : a.Launchable .fcfs)
    (hb : a.dispatch .fcfs file = some b) :
    a.ready =
      (if a.selection = none then b.selection.toList else []) ++ b.ready := by
  cases dispatch_cases hb with
  | busy hbusy => rw [if_neg hbusy, List.nil_append]
  | idle hfree => simp [hfree]
  | @start p number hfree hchoose =>
      rw [if_pos hfree, start_eq (hlive hfree p number hchoose)]
      have hhead : a.ready.head? = some p := by
        simpa [choose] using hchoose
      obtain ⟨rest, hready⟩ := List.head?_eq_some_iff.mp hhead
      simp [hready]

/-- The processes that turn ready among those of the array. -/
theorem range_filter_singleton
    {n p : Nat} {f : Nat → Bool}
    (hp : p < n)
    (hf : ∀ i < n, (f i = true ↔ i = p)) :
    (List.range n).filter f = [p] := by
  rw [List.filter_congr (q := fun i => i == p)]
  · rw [List.filter_beq, List.count_eq_one_of_mem List.nodup_range
      (List.mem_range.mpr hp)]
    rfl
  · intro i hi
    rw [Bool.eq_iff_iff, hf i (List.mem_range.mp hi), beq_iff_eq]

/-- One process at most is unblocked in a cycle. -/
theorem Queued.unblocked
    (h : a.Queued) :
    (List.range a.countPrime).filter (fun i =>
        (a.Prime i).condition = .blocked ∧
          (a.execxuteB.Prime i).condition = .ready) =
      a.firstExpired.toList := by
  unfold execxuteB
  cases hfirst : a.firstExpired with
  | none =>
      rw [Option.toList_none, List.filter_eq_nil_iff]
      intro i _
      simp only [decide_eq_true_eq]
      rintro ⟨hblocked, hready⟩
      rw [hblocked] at hready
      cases hready
  | some p =>
      obtain ⟨hmem, _⟩ := firstExpired_spec hfirst
      obtain ⟨hlt, hblocked⟩ := (h.block_iff p).mp hmem
      apply range_filter_singleton hlt
      intro i _
      by_cases hip : i = p
      · subst hip
        simp [Machine.release, modify, hblocked]
      · have hsame : (a.release p).Prime i = a.Prime i := by
          simp [Machine.release, modify, hip]
        simp only [hsame, decide_eq_true_eq, hip, iff_false]
        rintro ⟨hblocked, hready⟩
        rw [hblocked] at hready
        cases hready

/-- The unstarted processes that turn ready are the arrivals. -/
theorem turned_arrivals
    (hfresh : a.totalPrime ≠ a.countPrime →
      ∀ i ∈ a.arrivals, (a.Prime i).condition = .unstarted) :
    (List.range a.countPrime).filter (fun i =>
        (a.Prime i).condition = .unstarted ∧
          (a.creation.Prime i).condition = .ready) =
      if a.totalPrime ≠ a.countPrime then a.arrivals else [] := by
  unfold creation
  split
  next hmissing =>
      apply List.filter_congr
      intro i hi
      have hlt := List.mem_range.mp hi
      rw [Bool.eq_iff_iff, decide_eq_true_eq, decide_eq_true_eq]
      by_cases hmem : i ∈ a.arrivals
      · have hcond := hfresh hmissing i hmem
        simp [arrive, hmem, hcond, (mem_arrivals.mp hmem).2]
      · have hA : (a.Prime i).A ≠ a.present := fun hA =>
          hmem (mem_arrivals.mpr ⟨hlt, hA⟩)
        simp only [arrive, if_neg hmem, hA, iff_false]
        rintro ⟨hunstarted, hready⟩
        rw [hunstarted] at hready
        cases hready
  next =>
      rw [List.filter_eq_nil_iff]
      intro i _
      simp only [decide_eq_true_eq]
      rintro ⟨hunstarted, hready⟩
      rw [hunstarted] at hready
      cases hready

end Machine

section Runs

variable {file : RandomFile} {W : Workload} {s₀ : State}

/-- A log agrees with a machine: what has entered the ready queue has been
dispatched or is in it. -/
structure Logged (t : Nat) (log : Log) (a : Machine) : Prop where
  rep : Represents log.state a
  diligent : a.Diligent t
  fifo : log.entered = log.dispatched ++ a.ready

theorem Represents.turned_eq
    {s s' : State} {a b : Machine} {c : Condition}
    (h : Represents s a)
    (h' : Represents s' b) :
    turned c s s' =
      (List.range a.countPrime).filter (fun i =>
        (a.Prime i).condition = c ∧ (b.Prime i).condition = .ready) := by
  unfold turned
  simp only [h.countPrime, h.field Process.condition (fun _ => rfl),
    h'.field Process.condition (fun _ => rfl)]

theorem Logged.observe
    {t : Nat} {log : Log} {a : Machine}
    (h : Logged t log a)
    (hfile : file.Endless) :
    ∃ log' b, Scheduler.observe .fcfs file log = .ok log' ∧
      Logged (t + 1) log' b := by
  have hd : Policy.fcfs ≠ .block := by decide
  have hsound := h.diligent.sound
  have hq₁ := (Machine.proceedForward_phase (d := .fcfs) hsound.queued).queued
  have hopen := Machine.prepare_opened (d := .fcfs) hsound.queued
    hsound.arrived hsound.present_eq
  have hlive := h.diligent.launchable hd
  obtain ⟨s₁, s₂, s₃, hs₁, h₁, hs₂, h₂, hs₃, h₃⟩ :=
    h.rep.stages (d := .fcfs) hsound.queued hsound.arrived hsound.present_eq
  obtain ⟨s', hs', _, hexec⟩ := h.rep.parts file hd hsound.orderly
  have hprep : prepare .fcfs log.state = .ok s₃ := by
    simp only [prepare, hs₁, hs₂, Result.ok_bind]
    exact hs₃
  obtain rfl : s₃ = s' := Except.ok.inj (hprep.symm.trans hs')
  obtain ⟨e, he⟩ : ∃ e, (a.prepare .fcfs).dispatch .fcfs file = some e := by
    obtain ⟨b, hb⟩ := Machine.datapoint_isSome (d := .fcfs) hfile a
    rw [Machine.datapoint_eq_dispatch hd] at hb
    obtain ⟨e, he, _⟩ := Option.map_eq_some_iff.mp hb
    exact ⟨e, he⟩
  rw [he] at hexec
  obtain ⟨s₄, hs₄, h₄⟩ := hexec
  refine ⟨_, e.advance .fcfs, observe_eq hs₁ hs₂ hs₃ hs₄, ?_⟩
  have hb : a.datapoint .fcfs file = some (e.advance .fcfs) := by
    rw [Machine.datapoint_eq_dispatch hd, he]
    rfl
  refine ⟨h₄.plain advance_plain, h.diligent.datapoint hd hb, ?_⟩
  have hphase := (Machine.proceedForward_phase (d := .fcfs)
    hsound.queued).trans (Machine.execxuteB_phase hq₁)
  have hfresh := (hphase.arrived t hsound.arrived).arrivals_unstarted
    (hphase.present.trans hsound.present_eq)
  have hready : turned .blocked s₁ s₂ ++ turned .unstarted s₂ s₃ =
      a.entering := by
    unfold Machine.entering
    rw [h₁.turned_eq h₂, h₂.turned_eq h₃, hq₁.unblocked]
    congr 1
    exact Machine.turned_arrivals hfresh
  have hserved := Machine.dispatch_fcfs hlive he
  rw [Machine.prepare_fcfs_ready, ← h₃.selection, ← h₄.selection] at hserved
  show log.entered ++ _ = (log.dispatched ++ _) ++ e.ready
  rw [hready, h.fifo, List.append_assoc, List.append_assoc, hserved]

/-- A run is the run of its log. -/
theorem Represents.logged
    {a : Machine}
    (h : Represents s₀ a)
    (hfile : file.Endless)
    (hdiligent : a.Diligent 0)
    (hready : a.ready = [])
    (t : Nat) :
    ∃ log b, iterate (Scheduler.observe .fcfs file) t ⟨s₀, [], []⟩ =
        .ok log ∧
      Scheduler.ticks .fcfs file t s₀ = .ok log.state ∧
      Logged t log b := by
  induction t with
  | zero =>
      exact ⟨⟨s₀, [], []⟩, a, rfl, rfl, h, hdiligent, by simp [hready]⟩
  | succ t ih =>
      obtain ⟨log, b, hlog, hstate, hlogged⟩ := ih
      obtain ⟨log', b', hstep, hlogged'⟩ := hlogged.observe hfile
      refine ⟨log', b', ?_, ?_, hlogged'⟩
      · rw [iterate_succ_of_ok hlog, hstep]
      · rw [ticks_eq_bind, hstate, Result.ok_bind, ← observe_state, hstep]
        rfl

/-- The CPU idles only while no process is ready, and FCFS dispatches in the
order of entry into the ready queue. -/
theorem ticks_workConserving
    {file : RandomFile} {W : Workload} {s₀ : State} {t : Nat}
    (hfile : file.Endless)
    (hjobs : ∀ job ∈ W.jobs, 1 ≤ job.B ∧ 1 ≤ job.C)
    (hstart : Started file W s₀) :
    (∀ d, d ≠ .block → ∃ s, ticks d file t s₀ = .ok s ∧
      (s.selection = none →
        ∀ i < s.countPrime, (s.Prime i).condition ≠ .ready)) ∧
    ∃ log ready,
      iterate (observe .fcfs file) t ⟨s₀, [], []⟩ = .ok log ∧
      ticks .fcfs file t s₀ = .ok log.state ∧
      Linked (fun i => (log.state.Prime i).freshPrime)
        log.state.Afront log.state.Aback ready ∧
      log.entered = log.dispatched ++ ready := by
  obtain ⟨a, hrep, hinit⟩ := hstart.initial
  have hC : ∀ job ∈ W.jobs, 1 ≤ job.C := fun job hjob => (hjobs job hjob).2
  have hdiligent := hinit.diligent hC
  constructor
  · intro d hd
    obtain ⟨s, b, hs, hb, hsb⟩ :=
      hrep.ticks_ok hd hfile hinit.orderly t
    have hlast : b.Diligent t :=
      Machine.ticks_invariant hdiligent
        (fun _ _ _ hc hstep => hc.datapoint hd hstep) hb
    refine ⟨s, hs, ?_⟩
    intro hidle i hi hcond
    rw [hsb.selection] at hidle
    rw [hsb.countPrime] at hi
    rw [hsb.field Process.condition (fun _ => rfl)] at hcond
    have hmem := hlast.sound.complete i hi hcond
    rw [hlast.busy hidle, hlast.pause] at hmem
    cases hmem
  · obtain ⟨log, b, hlog, hstate, hlogged⟩ := hrep.logged hfile hdiligent hinit.ready t
    exact ⟨log, b.ready, hlog, hstate, hlogged.rep.threaded.readyLinks,
      hlogged.fifo⟩

theorem twoJobs_workConserving :
    ∃ s₀ log ready, Started steadyFile twoJobs s₀ ∧
      iterate (observe .fcfs steadyFile) 5 ⟨s₀, [], []⟩ = .ok log ∧
      log.entered = log.dispatched ++ ready := by
  obtain ⟨s₀, hstart⟩ := twoJobs_started
  obtain ⟨_, log, ready, hlog, _, _, hfifo⟩ :=
    ticks_workConserving (t := 5) steadyFile_endless (by decide) hstart
  exact ⟨s₀, log, ready, hstart, hlog, hfifo⟩

end Runs

end Scheduler
end PastWork
