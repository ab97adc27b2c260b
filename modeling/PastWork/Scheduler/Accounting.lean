import PastWork.Scheduler.Agreement

/-!
# Time is conserved

Every cycle between the arrival of a process and its end is counted exactly
once, as CPU time, as I/O time or as waiting time.
-/

namespace PastWork
namespace Scheduler

namespace Process

variable {d : Policy} {t : Nat} {q q' : Process}

/-- The time counted by the three counters of a process. -/
def counted (q : Process) : Nat :=
  q.CPUTime + q.Btime + q.currentWaitingTime

/-- The counters of a process account for all the time up to cycle `t`. -/
structure Accounted (t : Nat) (q : Process) : Prop where
  unstarted : q.condition = .unstarted → q.counted = 0
  active : q.condition ≠ .unstarted → q.condition ≠ .terminated →
    q.A + q.counted = t
  terminated : q.condition = .terminated →
    q.finishingTime = (q.A + q.counted : Nat) ∧ q.A + q.counted < t + 1

theorem chargeBurst_counted
    (q : Process) :
    q.chargeBurst.counted = q.counted := by
  rw [chargeBurst_eq]
  rfl

/-- Before the timers of cycle `t`, no change of a process loses time. -/
theorem Accounted.of_moves
    (ht : t < 2 ^ 31)
    (hmove : Moves d t q q')
    (h : q.Accounted t) :
    q'.Accounted t := by
  have hcharge := chargeBurst_counted q
  cases hmove with
  | terminate hcond hdone =>
      have hsum := h.active (by simp [hcond]) (by simp [hcond])
      refine ⟨by simp, by simp, fun _ => ⟨?_, ?_⟩⟩
      · show toInt32 t = ((q.chargeBurst.A + q.chargeBurst.counted : Nat) : Int)
        rw [hcharge, chargeBurst_eq, toInt32, if_pos ht]
        exact congrArg Nat.cast hsum.symm
      · show q.chargeBurst.A + q.chargeBurst.counted < t + 1
        rw [hcharge, chargeBurst_eq]
        show q.A + q.counted < t + 1
        omega
  | block hcond _ _ | preempt hcond _ _ _ _ | keep hcond _ _ _ =>
      have hsum := h.active (by simp [hcond]) (by simp [hcond])
      refine ⟨by simp, fun _ _ => ?_, by simp⟩
      show q.chargeBurst.A + q.chargeBurst.counted = t
      rw [hcharge, chargeBurst_eq]
      exact hsum
  | release hcond hexpired =>
      have hsum := h.active (by simp [hcond]) (by simp [hcond])
      exact ⟨by simp, fun _ _ => hsum, by simp⟩
  | arrive hcond hA =>
      have hzero := h.unstarted hcond
      refine ⟨by simp, fun _ _ => ?_, by simp⟩
      show q.A + q.counted = t
      omega
  | launch number hcond hburst =>
      have hsum := h.active (by simp [hcond]) (by simp [hcond])
      exact ⟨by simp [Machine.launch], fun _ _ => hsum,
        by simp [Machine.launch]⟩

/-- The timers add the cycle to exactly one counter of an active process. -/
theorem Accounted.countdown
    (ht : t + 1 < 2 ^ 32)
    (h : q.Accounted t) :
    (q.countdown d).Accounted (t + 1) := by
  have hA := (countdown_input_eq d q).1
  cases hc : q.condition with
  | unstarted =>
      have hsame : q.countdown d = q := by
        simp only [Process.countdown, hc]
      rw [hsame]
      exact ⟨h.unstarted, by simp [hc], by simp [hc]⟩
  | terminated =>
      have hsame : q.countdown d = q := by
        simp only [Process.countdown, hc]
      obtain ⟨hfinish, hlt⟩ := h.terminated hc
      rw [hsame]
      exact ⟨by simp [hc], by simp [hc], fun _ => ⟨hfinish, by omega⟩⟩
  | ready | running | blocked =>
      have hsum := h.active (by simp [hc]) (by simp [hc])
      have hstep : (q.countdown d).counted = q.counted + 1 := by
        simp only [counted] at hsum
        simp only [Process.countdown, hc, counted, incr]
        omega
      refine ⟨by simp [hc], fun _ _ => ?_, by simp [hc]⟩
      rw [hA, hstep]
      omega

end Process

namespace Machine

variable {d : Policy} {file : RandomFile} {a b : Machine} {t : Nat}

/-- All processes are accounted for. -/
def Accounted (t : Nat) (a : Machine) : Prop :=
  ∀ i < a.countPrime, (a.Prime i).Accounted t

theorem Initial.accounted
    {W : Workload}
    (h : a.Initial file W) :
    a.Accounted 0 := by
  intro i hi
  have hcond := h.unstarted hi
  obtain ⟨_, _, _, _, _, hproc⟩ := h.process hi
  refine ⟨fun _ => ?_, fun hne => absurd hcond hne, ?_⟩
  · rw [hproc]
    rfl
  · intro hc
    rw [hcond] at hc
    cases hc

theorem Sound.accounted
    (h : a.Sound t)
    (ht : t < 2 ^ 31)
    (hacc : a.Accounted t)
    (hb : a.datapoint d file = some b) :
    b.Accounted (t + 1) := by
  have hcycle := h.cycle hb
  have hpresent : a.present = t := by
    rw [h.present_eq]
    exact Nat.mod_eq_of_lt (by omega)
  intro i hi
  rw [hcycle.count] at hi
  obtain ⟨q, hmoves, hq⟩ := hcycle.process i hi
  rw [hpresent] at hmoves
  rw [hq]
  apply Process.Accounted.countdown (by omega)
  exact hmoves.preserves (fun _ _ => Process.Accounted.of_moves ht)
    (hacc i hi)

/-- After fewer than 2^31 cycles every process is accounted for. -/
theorem Sound.ticks_accounted
    (h : a.Sound 0)
    (hacc : a.Accounted 0)
    (ht : t < 2 ^ 31)
    (hb : a.ticks d file t = some b) :
    b.Accounted t := by
  have key : t < 2 ^ 31 → b.Sound t ∧ b.Accounted t := by
    refine ticks_invariant
      (I := fun t b => t < 2 ^ 31 → b.Sound t ∧ b.Accounted t)
      (fun _ => ⟨h, hacc⟩) ?_ hb
    intro t b c ih hstep hlt
    obtain ⟨hsound, hb⟩ := ih (by omega)
    exact ⟨hsound.datapoint hstep, hsound.accounted (by omega) hb hstep⟩
  exact (key ht).2

/-- When `completion` has reached `countPrime`, every process is
terminated. -/
theorem Queued.all_terminated
    (h : a.Queued)
    (hdone : a.completion = a.countPrime)
    {i : Nat} (hi : i < a.countPrime) :
    (a.Prime i).condition = .terminated := by
  by_contra hne
  have hlt := tally_lt hi hne
  rw [← h.completion_eq, hdone] at hlt
  exact lt_irrefl _ hlt

end Machine

/-- The times of one process at the end of cycle `t`. -/
structure Process.TimeConserved (t : Nat) (q : Process) : Prop where
  active : q.condition ≠ .unstarted → q.condition ≠ .terminated →
    q.CPUTime + q.Btime + q.currentWaitingTime = t - q.A ∧
      q.A ≤ t ∧ q.CPUTime ≤ q.C
  terminated : q.condition = .terminated →
    q.finishingTime - q.A = q.C + q.Btime + q.currentWaitingTime ∧
      q.CPUTime = q.C

/-- What `printProcessSpecifics` prints for a terminated process adds up. -/
def Specifics.AddsUp (line : Specifics) : Prop :=
  line.turnaroundTime =
    line.input.2.2.1 + line.ioTime + line.waitingTime

theorem Process.Accounted.timeConserved
    {q : Process} {t : Nat}
    (h : q.Accounted t)
    (hbudget : q.Budgeted) :
    q.TimeConserved t where
  active := fun hstarted hactive => by
    have hsum := h.active hstarted hactive
    simp only [Process.counted] at hsum
    refine ⟨by omega, by omega, ?_⟩
    cases hc : q.condition with
    | unstarted => exact absurd hc hstarted
    | terminated => exact absurd hc hactive
    | ready => exact (hbudget.ready hc).le
    | blocked => exact (hbudget.blocked hc).le
    | running =>
        have := hbudget.running hc
        omega
  terminated := fun hc => by
    obtain ⟨hfinish, _⟩ := h.terminated hc
    have hcpu := hbudget.terminated hc
    simp only [Process.counted, Nat.cast_add] at hfinish
    refine ⟨?_, hcpu⟩
    rw [hfinish, hcpu]
    omega

theorem Process.Accounted.addsUp
    {q : Process} {t : Nat}
    (h : q.Accounted t)
    (hbudget : q.Budgeted)
    (hc : q.condition = .terminated)
    (ht : t < 2 ^ 31) :
    q.specifics.AddsUp := by
  obtain ⟨hfinish, hlt⟩ := h.terminated hc
  have hcpu := hbudget.terminated hc
  simp only [Process.counted] at hfinish hlt
  have hmod : (q.finishingTime % 2 ^ 32).toNat =
      q.A + (q.CPUTime + q.Btime + q.currentWaitingTime) := by
    rw [hfinish]
    omega
  have hsub : sub32 (q.finishingTime % 2 ^ 32).toNat q.A =
      q.CPUTime + q.Btime + q.currentWaitingTime := by
    rw [hmod, sub32_eq (by omega) (by omega)]
    omega
  simp only [Specifics.AddsUp, Process.specifics]
  rw [hsub, toInt32, if_pos (by omega), hcpu]
  push_cast
  rfl

/-- Time is conserved at the end of every cycle, and the report printed at the
end of a run adds up. -/
theorem ticks_timeConserved
    {d : Policy} {file : RandomFile} {W : Workload} {s₀ : State} {t : Nat}
    (hd : d ≠ .block)
    (hfile : file.Endless)
    (hjobs : ∀ job ∈ W.jobs, 1 ≤ job.B ∧ 1 ≤ job.C)
    (hstart : Started file W s₀)
    (ht : t < 2 ^ 31) :
    ∃ s, ticks d file t s₀ = .ok s ∧ s.present = t ∧
      (∀ i < s.countPrime, (s.Prime i).TimeConserved s.present) ∧
      (s.completion = s.countPrime →
        ∀ line ∈ printProcessSpecifics s, line.AddsUp) := by
  obtain ⟨a, hrep, hinit⟩ := hstart.initial
  have hsound := hinit.sound (fun job hjob => (hjobs job hjob).2)
  obtain ⟨s, b, hs, hb, hsb⟩ := hrep.ticks_ok hd hfile hinit.orderly t
  have hsound_b := hsound.ticks hb
  have hacc := hsound.ticks_accounted hinit.accounted ht hb
  have hpresent : s.present = t := by
    rw [hsb.present, hsound_b.present_eq]
    exact Nat.mod_eq_of_lt (by omega)
  refine ⟨s, hs, hpresent, ?_, ?_⟩
  · intro i hi
    rw [hsb.countPrime] at hi
    rw [hpresent, hsb.field (Process.TimeConserved t)
      (fun q => propext ⟨fun h => ⟨h.active, h.terminated⟩,
        fun h => ⟨h.active, h.terminated⟩⟩)]
    exact (hacc i hi).timeConserved (hsound_b.budgeted i hi)
  · intro hdone line hline
    rw [hsb.completion, hsb.countPrime] at hdone
    obtain ⟨i, hi, rfl⟩ := List.mem_map.mp hline
    rw [List.mem_range, hsb.countPrime] at hi
    rw [hsb.field Process.specifics (fun _ => rfl)]
    exact (hacc i hi).addsUp (hsound_b.budgeted i hi)
      (hsound_b.queued.all_terminated hdone hi) ht

theorem twoJobs_timeConserved :
    ∃ s₀ s, Started steadyFile twoJobs s₀ ∧
      ticks .sjf steadyFile 4 s₀ = .ok s ∧
      ∀ i < s.countPrime, (s.Prime i).TimeConserved s.present := by
  obtain ⟨s₀, hstart⟩ := twoJobs_started
  obtain ⟨s, hs, _, hconserved, _⟩ :=
    ticks_timeConserved (d := .sjf) (t := 4) (by decide) steadyFile_endless
      (by decide) hstart (by norm_num)
  exact ⟨s₀, s, hstart, hs, hconserved⟩

end Scheduler
end PastWork
