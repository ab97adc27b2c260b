import Mathlib.Algebra.Order.BigOperators.Group.Finset
import Mathlib.Algebra.Order.Field.Rat
import Mathlib.Order.Bounds.Basic
import PastWork.Scheduler.Archive
import PastWork.Scheduler.Termination

/-!
# The report at the end of a run

`present` is one more than the last finishing time, and `printSummaryData`
divides by the difference.  In each cycle but the last at most one process runs,
and the cycle counts as blocked at most once; in the last cycle the last process
ends, so that nothing runs and nothing is blocked.
-/

namespace PastWork
namespace Scheduler

/-- A quotient.  The source computes it on `double`s. -/
structure Fraction where
  dividend : Nat
  divisor : Nat
deriving DecidableEq

def Fraction.value (q : Fraction) : ℚ :=
  q.dividend / q.divisor

/-- What `printSummaryData` prints; `throughput` is printed times a hundred. -/
structure Summary where
  finishingTime : Int
  CPUUtilisation : Fraction
  IOUtilisation : Fraction
  throughput : Fraction
  averageTurnaroundTime : Fraction
  averageWaitingTime : Fraction
deriving DecidableEq

def Summary.quotients (r : Summary) : List Fraction :=
  [r.CPUUtilisation, r.IOUtilisation, r.throughput,
    r.averageTurnaroundTime, r.averageWaitingTime]

/-- The loop of `printSummaryData` over one field. -/
def Globals.total (g : Globals) (field : Process → Nat) : Nat :=
  ∑ i ∈ Finset.range g.countPrime, field (g.Prime i)

def printSummaryData (s : State) : Summary :=
  let finalFinishingTime := sub32 s.present 1
  { finishingTime := toInt32 (sub32 s.present 1)
    CPUUtilisation :=
      { dividend := s.total Process.CPUTime
        divisor := finalFinishingTime }
    IOUtilisation :=
      { dividend := s.totalTimeNumber
        divisor := finalFinishingTime }
    throughput :=
      { dividend := s.countPrime
        divisor := finalFinishingTime }
    averageTurnaroundTime :=
      { dividend := s.total (fun p =>
          sub32 (p.finishingTime % 2 ^ 32).toNat p.A)
        divisor := s.countPrime }
    averageWaitingTime :=
      { dividend := s.total Process.currentWaitingTime
        divisor := s.countPrime } }

/-- Some process is blocked. -/
def Globals.SomeBlocked (g : Globals) : Prop :=
  ∃ i < g.countPrime, (g.Prime i).condition = .blocked

instance (g : Globals) : Decidable g.SomeBlocked := by
  unfold Globals.SomeBlocked
  infer_instance

/-- `terminateAlg` holds each process once as it is now, in the order of the
finishing times. -/
def Archived (s : State) : Prop :=
  ∃ order : List Nat, order.Perm (List.range s.countPrime) ∧
    (∀ k < s.countPrime, ∃ i, order[k]? = some i ∧
      s.terminateAlg k = some (s.Prime i)) ∧
    order.Pairwise (fun i j =>
      (s.Prime i).finishingTime < (s.Prime j).finishingTime)

/-- What the simulation leaves when it ends after `T` cycles. -/
structure Reported (run : Nat → State) (T : Nat) (s : State) : Prop where
  archived : Archived s
  latest : IsGreatest
    {time | ∃ i < s.countPrime, (s.Prime i).finishingTime = time}
    ((s.present - 1 : Nat) : Int)
  positive : 1 ≤ s.present - 1
  cpu : s.total Process.CPUTime ≤ s.present - 1
  blocked : s.totalTimeNumber =
    (List.range T).countP (fun k => (run (k + 1)).SomeBlocked)
  io : s.totalTimeNumber ≤ s.present - 1
  divisors : ∀ q ∈ (printSummaryData s).quotients, q.divisor ≠ 0
  CPUUtilisation :
    0 ≤ (printSummaryData s).CPUUtilisation.value ∧
      (printSummaryData s).CPUUtilisation.value ≤ 1
  IOUtilisation :
    0 ≤ (printSummaryData s).IOUtilisation.value ∧
      (printSummaryData s).IOUtilisation.value ≤ 1

theorem Fraction.value_mem
    {q : Fraction}
    (h : q.dividend ≤ q.divisor) :
    0 ≤ q.value ∧ q.value ≤ 1 := by
  have hle : (q.dividend : ℚ) ≤ q.divisor := by exact_mod_cast h
  exact ⟨by unfold value; positivity,
    div_le_one_of_le₀ hle (Nat.cast_nonneg _)⟩

namespace Machine

variable {d : Policy} {file : RandomFile} {a b : Machine} {t : Nat}

/-- The running process alone gets CPU time. -/
theorem Sound.total_CPUTime
    (h : a.Sound t)
    (hb : a.datapoint d file = some b) :
    b.total Process.CPUTime =
      a.total Process.CPUTime + if b.selection = none then 0 else 1 := by
  have hcount := (h.cycle hb).count
  unfold Globals.total
  rw [hcount]
  cases hsel : b.selection with
  | none =>
      simp only [if_true, Nat.add_zero]
      apply Finset.sum_congr rfl
      intro i hi
      exact h.waiting_CPUTime hb (Finset.mem_range.mp hi) (by simp [hsel])
  | some p =>
      obtain ⟨hp, hcpu, _⟩ := h.running_CPUTime hb hsel
      have hmem : p ∈ Finset.range a.countPrime := Finset.mem_range.mpr hp
      rw [← Finset.add_sum_erase _ _ hmem, ← Finset.add_sum_erase _ _ hmem,
        hcpu]
      have hothers :
          ∑ i ∈ (Finset.range a.countPrime).erase p, (b.Prime i).CPUTime =
            ∑ i ∈ (Finset.range a.countPrime).erase p,
              (a.Prime i).CPUTime := by
        apply Finset.sum_congr rfl
        intro i hi
        obtain ⟨hip, hi⟩ := Finset.mem_erase.mp hi
        apply h.waiting_CPUTime hb (Finset.mem_range.mp hi)
        rw [hsel]
        simpa using Ne.symm hip
      rw [hothers]
      simp only [reduceCtorEq, if_false]
      omega

theorem Initial.total_CPUTime
    {W : Workload}
    (h : a.Initial file W) :
    a.total Process.CPUTime = 0 := by
  apply Finset.sum_eq_zero
  intro i hi
  obtain ⟨_, _, _, _, _, hproc⟩ := h.process (Finset.mem_range.mp hi)
  rw [hproc]
  rfl

theorem proceedForward_totalTimeNumber :
    (a.proceedForward d).totalTimeNumber = a.totalTimeNumber := by
  unfold proceedForward
  split
  next => rfl
  next p _ =>
    split_ifs <;> rfl

/-- The timers count a cycle that leaves some process blocked. -/
theorem datapoint_totalTimeNumber
    (hd : d ≠ .block)
    (hb : a.datapoint d file = some b) :
    b.totalTimeNumber =
      if b.SomeBlocked then incr a.totalTimeNumber
      else a.totalTimeNumber := by
  rw [datapoint_eq_dispatch hd] at hb
  obtain ⟨c, hc, rfl⟩ := Option.map_eq_some_iff.mp hb
  have hkept : c.totalTimeNumber = a.totalTimeNumber := by
    rw [(dispatch_kept hc).2.2, prepare_kept.2.2,
      proceedForward_totalTimeNumber]
  have hany : (List.range c.countPrime).any (fun i =>
      ((c.advance d).Prime i).condition = .blocked) = true ↔
        (c.advance d).SomeBlocked := by
    simp [Globals.SomeBlocked, advance, countdown, Globals.countdown]
  rw [← hkept]
  show (if (List.range c.countPrime).any (fun i =>
    ((c.advance d).Prime i).condition = .blocked) then _ else _) = _
  by_cases hblocked : (c.advance d).SomeBlocked
  · rw [if_pos hblocked, if_pos (hany.mpr hblocked)]
  · rw [if_neg hblocked, if_neg (fun hc => hblocked (hany.mp hc))]

end Machine

section Runs

variable {d : Policy} {file : RandomFile} {s s' : State} {a : Machine}
variable {run : Nat → State} {t : Nat}

theorem Represents.total
    (h : Represents s a)
    (field : Process → Nat)
    (hfield : ∀ q, field q.unlink = field q) :
    s.total field = a.total field := by
  unfold Globals.total
  rw [h.countPrime]
  exact Finset.sum_congr rfl (fun i _ => h.field field hfield i)

theorem Represents.someBlocked
    (h : Represents s a) :
    s.SomeBlocked ↔ a.SomeBlocked := by
  have hcond : ∀ i, (s.Prime i).condition = (a.Prime i).condition :=
    h.field Process.condition (fun _ => rfl)
  unfold Globals.SomeBlocked
  simp only [h.countPrime, hcond]

theorem Represents.totalTimeNumber
    (h : Represents s a) :
    s.totalTimeNumber = a.totalTimeNumber :=
  h.global Globals.totalTimeNumber (fun _ => rfl)

/-- A cycle that has been made is one of the machine. -/
theorem Represents.cycle_ok
    (hd : d ≠ .block)
    (h : Represents s a)
    (hsound : a.Sound t)
    (hs' : Scheduler.datapoint d file s = .ok s') :
    ∃ b, a.datapoint d file = some b ∧ Represents s' b := by
  have hsim : Simulates (Scheduler.datapoint d file s) (a.datapoint d file) :=
    h.cycle hd hsound.orderly
  rw [hs'] at hsim
  exact hsim.of_ok

/-- What has been counted and filed after `t` cycles. -/
structure Tallied
    (run : Nat → State) (t : Nat) (a : Machine) (order : List Nat) :
    Prop where
  represents : Represents (run t) a
  sound : a.Sound t
  accounted : a.Accounted t
  bare : Bare (run t)
  filed : a.Filed t order
  cpu : a.total Process.CPUTime ≤ t
  blocked : (run t).totalTimeNumber =
    (List.range t).countP (fun k => (run (k + 1)).SomeBlocked)

theorem Tallied.totalTimeNumber_le
    {order : List Nat}
    (h : Tallied run t a order) :
    (run t).totalTimeNumber ≤ t := by
  rw [h.blocked]
  exact List.countP_le_length.trans_eq List.length_range

theorem Tallied.start
    {W : Workload}
    (hC : ∀ job ∈ W.jobs, 1 ≤ job.C)
    (hstart : Started file W (run 0)) :
    ∃ a, Tallied run 0 a [] ∧ a.countPrime = W.jobs.length := by
  obtain ⟨a, hrep, hinit⟩ := hstart.initial
  have hcompletion : a.completion = 0 := hinit.pristine.completion
  have hnumber : (run 0).totalTimeNumber = 0 := by
    rw [hrep.totalTimeNumber, hinit.pristine.totalTimeNumber]
  refine ⟨a, ?_, hinit.pristine.countPrime⟩
  exact
    { represents := hrep
      sound := hinit.sound hC
      accounted := hinit.accounted
      bare := fun k hk => by
        rw [hrep.completion, hcompletion] at hk
        omega
      filed :=
        { nodup := List.nodup_nil
          length_eq := hcompletion.symm
          terminated := by simp
          entry := by simp
          sorted := List.Pairwise.nil
          before := by simp }
      cpu := hinit.total_CPUTime.le
      blocked := hnumber }

/-- A cycle adds at most one to each count, and files what ends in it. -/
theorem Tallied.step
    {order : List Nat}
    (h : Tallied run t a order)
    (hd : d ≠ .block)
    (ht : t < 2 ^ 31)
    (hrun : datapoint d file (run t) = .ok (run (t + 1))) :
    ∃ b order', Tallied run (t + 1) b order' ∧
      a.datapoint d file = some b ∧
      (b.completion ≠ a.completion →
        ∃ i ∈ order', (b.Prime i).finishingTime = t) := by
  obtain ⟨b, hb, hrep⟩ := h.represents.cycle_ok hd h.sound hrun
  obtain ⟨order', hfiled, hlast⟩ := h.filed.datapoint h.sound hd ht hb
  have hcpu := h.sound.total_CPUTime hb
  have hnumber := h.totalTimeNumber_le
  refine ⟨b, order', ?_, hb, hlast⟩
  exact
    { represents := hrep
      sound := h.sound.datapoint hb
      accounted := h.sound.accounted ht h.accounted hb
      bare := datapoint_bare hd h.represents h.sound.queued h.bare hrun
      filed := hfiled
      cpu := by
        have := h.cpu
        rw [hcpu]
        split <;> omega
      blocked := by
        rw [List.range_succ, List.countP_append, ← h.blocked,
          hrep.totalTimeNumber, Machine.datapoint_totalTimeNumber hd hb,
          ← h.represents.totalTimeNumber, incr_eq (by omega)]
        simp only [List.countP_singleton, hrep.someBlocked]
        split <;> simp_all }

theorem Tallied.of_run
    {W : Workload}
    (hd : d ≠ .block)
    (hC : ∀ job ∈ W.jobs, 1 ≤ job.C)
    (hstart : Started file W s)
    (ht : t ≤ 2 ^ 31)
    (hrun : ∀ k ≤ t, ticks d file k s = .ok (run k)) :
    ∃ a order, Tallied run t a order ∧
      a.countPrime = W.jobs.length := by
  induction t with
  | zero =>
      have hzero : s = run 0 := Except.ok.inj (hrun 0 le_rfl)
      obtain ⟨a, ha, hcount⟩ := Tallied.start hC (hzero ▸ hstart)
      exact ⟨a, [], ha, hcount⟩
  | succ t ih =>
      obtain ⟨a, order, ha, hcount⟩ :=
        ih (by omega) (fun k hk => hrun k (by omega))
      have hstep : datapoint d file (run t) = .ok (run (t + 1)) := by
        rw [← iterate_succ_of_ok (hrun t (Nat.le_succ t))]
        exact hrun (t + 1) le_rfl
      obtain ⟨b, order', hb, hdata, _⟩ := ha.step hd (by omega) hstep
      exact ⟨b, order', hb, (ha.sound.cycle hdata).count.trans hcount⟩

/-- At the end the order is one of all processes. -/
theorem Tallied.perm
    {order : List Nat}
    (h : Tallied run t a order)
    (hdone : a.completion = a.countPrime) :
    order.Perm (List.range a.countPrime) := by
  have hsub : order.Subperm (List.range a.countPrime) := by
    apply List.subperm_of_subset h.filed.nodup
    intro i hi
    exact List.mem_range.mpr (h.filed.terminated i hi).1
  apply hsub.perm_of_length_le
  rw [List.length_range, h.filed.length_eq, hdone]

theorem Tallied.archived
    {order : List Nat}
    (h : Tallied run t a order)
    (hdone : a.completion = a.countPrime) :
    Archived (run t) := by
  have hrep := h.represents
  refine ⟨order, ?_, ?_, ?_⟩
  · rw [hrep.countPrime]
    exact h.perm hdone
  · intro k hk
    have hlt : k < order.length := by
      rw [h.filed.length_eq, hdone, ← hrep.countPrime]
      exact hk
    have hi := List.getElem?_eq_getElem hlt
    generalize order[k] = i at hi
    refine ⟨i, hi, ?_⟩
    have hentry := h.filed.entry k i hi
    have hcond := (h.filed.terminated i (List.mem_of_getElem? hi)).2
    have hunlinked : ((run t).terminateAlg k).map Process.unlink =
        a.terminateAlg k :=
      congrFun (congrArg Globals.terminateAlg hrep.globals) k
    rw [hentry] at hunlinked
    obtain ⟨q, hq, hqi⟩ := Option.map_eq_some_iff.mp hunlinked
    have hcompletion : k < (run t).completion := by
      rw [hrep.completion, ← h.filed.length_eq]
      exact hlt
    have hbare := h.bare k hcompletion q hq
    have hsame : (run t |>.Prime i).unlink = a.Prime i :=
      congrFun (congrArg Globals.Prime hrep.globals) i
    have hlinks := hrep.unlink_eq h.sound.queued (p := i)
      (by simp [hcond]) (by simp [hcond])
    rw [hq, ← hbare, hqi, ← hsame, hlinks]
  · refine h.filed.sorted.imp ?_
    intro i j hlt
    rwa [hrep.field Process.finishingTime (fun _ => rfl),
      hrep.field Process.finishingTime (fun _ => rfl)]

/-- At the end nothing runs and nothing is blocked. -/
theorem Tallied.idle
    {order : List Nat}
    (h : Tallied run t a order)
    (hdone : a.completion = a.countPrime) :
    a.selection = none ∧ ¬ a.SomeBlocked := by
  have hall : ∀ i < a.countPrime, (a.Prime i).condition = .terminated :=
    fun i hi => h.sound.queued.all_terminated hdone hi
  constructor
  · apply Option.eq_none_iff_forall_ne_some.mpr
    intro p hp
    obtain ⟨hlt, hrunning⟩ := (h.sound.queued.selection_iff p).mp hp
    rw [hall p hlt] at hrunning
    cases hrunning
  · rintro ⟨p, hlt, hblocked⟩
    rw [hall p hlt] at hblocked
    cases hblocked

/-- A process that has ended used some CPU time before. -/
theorem Tallied.one_le_finishingTime
    {order : List Nat} {i : Nat}
    (h : Tallied run t a order)
    (hi : i ∈ order) :
    1 ≤ (a.Prime i).finishingTime := by
  obtain ⟨hlt, hcond⟩ := h.filed.terminated i hi
  have hsum := ((h.accounted i hlt).terminated hcond).1
  have hbudget := h.sound.budgeted i hlt
  have hC := hbudget.C_pos
  have hcpu := hbudget.terminated hcond
  rw [Process.counted] at hsum
  omega

/-- The process that ended in the last cycle has the greatest finishing time. -/
theorem Tallied.latest
    {order : List Nat} {i : Nat}
    (h : Tallied run (t + 1) a order)
    (hdone : a.completion = a.countPrime)
    (hi : i ∈ order)
    (hfinish : (a.Prime i).finishingTime = t) :
    IsGreatest
      {time | ∃ i < (run (t + 1)).countPrime,
        ((run (t + 1)).Prime i).finishingTime = time}
      (t : Int) := by
  have hrep := h.represents
  have hsame : ∀ j, ((run (t + 1)).Prime j).finishingTime =
      (a.Prime j).finishingTime :=
    hrep.field Process.finishingTime (fun _ => rfl)
  constructor
  · refine ⟨i, ?_, (hsame i).trans hfinish⟩
    rw [hrep.countPrime]
    exact (h.filed.terminated i hi).1
  · rintro time ⟨j, hj, rfl⟩
    rw [hrep.countPrime] at hj
    have hmem : j ∈ order :=
      (h.perm hdone).mem_iff.mpr (List.mem_range.mpr hj)
    have hbefore := h.filed.before j hmem
    rw [hsame j]
    omega

/-- The report divides by the number of processes and by the last finishing
time. -/
theorem printSummaryData_divisor_ne
    {q : Fraction}
    (hcount : s.countPrime ≠ 0)
    (htime : sub32 s.present 1 ≠ 0)
    (hq : q ∈ (printSummaryData s).quotients) :
    q.divisor ≠ 0 := by
  simp only [Summary.quotients, printSummaryData, List.mem_cons,
    List.not_mem_nil, or_false] at hq
  rcases hq with rfl | rfl | rfl | rfl | rfl
  · exact htime
  · exact htime
  · exact htime
  · exact hcount
  · exact hcount

/-- The run ends with the cycle from `t` on. -/
theorem Tallied.reported
    {order : List Nat}
    (h : Tallied run t a order)
    (hd : d ≠ .block)
    (ht : t + 1 < 2 ^ 31)
    (hrun : datapoint d file (run t) = .ok (run (t + 1)))
    (hmore : (run t).completion ≠ (run t).countPrime)
    (hdone : (run (t + 1)).completion = (run (t + 1)).countPrime) :
    Reported run (t + 1) (run (t + 1)) := by
  obtain ⟨b, order', hb, hdata, hlast⟩ := h.step hd (by omega) hrun
  have hrep := hb.represents
  rw [h.represents.completion, h.represents.countPrime] at hmore
  rw [hrep.completion, hrep.countPrime] at hdone
  have hcount := (h.sound.cycle hdata).count
  obtain ⟨i, hi, hfinish⟩ := hlast (by rw [hdone, hcount]; exact hmore.symm)
  obtain ⟨hfree, hnone⟩ := hb.idle hdone
  have hpos : 1 ≤ t := by
    have hone := hb.one_le_finishingTime hi
    omega
  have hpresent : (run (t + 1)).present = t + 1 := by
    rw [hrep.present, hb.sound.present_eq]
    exact Nat.mod_eq_of_lt (by omega)
  have hfinal : sub32 (run (t + 1)).present 1 = t := by
    rw [hpresent, sub32_eq (by omega) (by omega)]
    omega
  have hcpu : (run (t + 1)).total Process.CPUTime ≤ t := by
    rw [hrep.total Process.CPUTime (fun _ => rfl),
      h.sound.total_CPUTime hdata, if_pos hfree]
    exact h.cpu
  have hio : (run (t + 1)).totalTimeNumber ≤ t := by
    rw [hrep.totalTimeNumber, Machine.datapoint_totalTimeNumber hd hdata,
      if_neg hnone, ← h.represents.totalTimeNumber]
    exact h.totalTimeNumber_le
  have hsome : (run (t + 1)).countPrime ≠ 0 := by
    have hlt := (hb.filed.terminated i hi).1
    rw [hrep.countPrime]
    omega
  refine ⟨hb.archived hdone, ?_, ?_, ?_, hb.blocked, ?_, ?_, ?_, ?_⟩
  · rw [hpresent, Nat.add_sub_cancel]
    exact hb.latest hdone hi hfinish
  · omega
  · rw [hpresent]
    exact hcpu
  · rw [hpresent]
    exact hio
  · intro q hq
    exact printSummaryData_divisor_ne hsome (by omega) hq
  · apply Fraction.value_mem
    exact hcpu.trans_eq hfinal.symm
  · apply Fraction.value_mem
    exact hio.trans_eq hfinal.symm

/-- Without pausing, a run never writes beyond the array. -/
theorem simulate_inBounds
    {W : Workload}
    (hd : d ≠ .block)
    (hstart : Started file W s)
    (fuel : Nat) :
    simulate d file fuel s ≠ .error .outOfBounds := by
  intro herror
  obtain ⟨a, hrep, hinit⟩ := hstart.initial
  rcases whileLoop_eq_error herror with hend | ⟨k, hk⟩
  · cases hend
  · have hsim : Simulates (ticks d file k s) (a.ticks d file k) :=
      hrep.ticks hd hinit.orderly k
    have hk : ticks d file k s = .error .outOfBounds := hk
    rw [hk] at hsim
    cases hsim.of_error

/-- When the simulation ends, all that the report rests on is in order. -/
theorem simulate_reported
    {W : Workload}
    (hd : d ≠ .block)
    (hjobs : ∀ job ∈ W.jobs, 1 ≤ job.B ∧ 1 ≤ job.C)
    (hne : W.jobs ≠ [])
    (hstart : Started file W s) :
    (∀ fuel, simulate d file fuel s ≠ .error .outOfBounds) ∧
    ∀ fuel < 2 ^ 31, ∀ s', simulate d file fuel s = .ok s' →
      ∃ (T : Nat) (run : Nat → State),
        (∀ t ≤ T, ticks d file t s = .ok (run t)) ∧ run T = s' ∧
          Reported run T s' := by
  have hC : ∀ job ∈ W.jobs, 1 ≤ job.C := fun job hjob => (hjobs job hjob).2
  refine ⟨simulate_inBounds hd hstart, ?_⟩
  intro fuel hfuel s' hs'
  obtain ⟨T, run, hle, hrun, rfl, hstop, hgo⟩ := whileLoop_rounds hs'
  refine ⟨T, run, hrun, rfl, ?_⟩
  have hdone : (run T).completion = (run T).countPrime := by
    simpa using hstop
  cases T with
  | zero =>
      exfalso
      have hzero : s = run 0 := Except.ok.inj (hrun 0 le_rfl)
      obtain ⟨a, hrep, hinit⟩ := hstart.initial
      rw [← hzero, hrep.completion, hrep.countPrime,
        hinit.pristine.completion, hinit.pristine.countPrime] at hdone
      exact hne (List.length_eq_zero_iff.mp hdone.symm)
  | succ t =>
      obtain ⟨a, order, ha, _⟩ :=
        Tallied.of_run hd hC hstart (t := t) (by omega)
          (fun k hk => hrun k (by omega))
      have hstep : datapoint d file (run t) = .ok (run (t + 1)) := by
        rw [← iterate_succ_of_ok (hrun t (by omega))]
        exact hrun (t + 1) le_rfl
      have hmore : (run t).completion ≠ (run t).countPrime := by
        simpa using hgo t (by omega)
      exact ha.reported hd (by omega) hstep hmore hdone

theorem twoJobs_reported :
    ∃ s s' T run, Started steadyFile twoJobs s ∧
      simulate .sjf steadyFile 12 s = .ok s' ∧
      ticks .sjf steadyFile T s = .ok (run T) ∧ Reported run T s' := by
  obtain ⟨s₀, hstart, s', hs', _⟩ :=
    exists_loaded steadyFile twoJobs
      (P := fun s => (simulate .sjf steadyFile 12 s).Returns (fun _ => True))
      (by decide +kernel)
  obtain ⟨T, run, hrun, _, hreported⟩ :=
    (simulate_reported (by decide) (by decide) (by decide)
      hstart).2 12 (by decide) s' hs'
  exact ⟨s₀, s', T, run, hstart, hs', hrun T le_rfl, hreported⟩

end Runs

end Scheduler
end PastWork
