import PastWork.Scheduler.Phases

/-!
# A whole cycle

A cycle is the parts before the dispatch, the dispatch and the timers.
`Sound t` is the invariant at the end of cycle `t`: the queues agree with the
conditions, the processes with `A < t` have arrived, and every process keeps
within its CPU time.  `Orderly t` is the part of it that every workload keeps.  A
process that needs no CPU time gets no burst, and FCFS and RR then take it off the
ready queue without running it.
-/

namespace PastWork
namespace Scheduler

namespace Process

/-- The ranges of the unsigned fields, and a burst bound that can be drawn. -/
structure Fits (q : Process) : Prop where
  B_pos : 0 < q.B
  B_lt : q.B < 2 ^ 32
  C_lt : q.C < 2 ^ 32
  M_lt : q.M < 2 ^ 32
  CPUTime_lt : q.CPUTime < 2 ^ 32
  BurstTime_lt : q.BurstTime < 2 ^ 32

/-- A process has never run longer than its CPU time, and the burst of the
running process fits into the rest. -/
structure Budgeted (q : Process) : Prop where
  fits : q.Fits
  C_pos : 0 < q.C
  unstarted : q.condition = .unstarted → q.CPUTime = 0
  ready : q.condition = .ready → q.CPUTime < q.C
  blocked : q.condition = .blocked → q.CPUTime < q.C
  running : q.condition = .running → q.CPUTime + q.CPUBurst ≤ q.C
  terminated : q.condition = .terminated → q.CPUTime = q.C

variable {d : Policy} {present : Nat} {q q' : Process}

theorem Fits.chargeBurst
    (h : q.Fits) :
    q.chargeBurst.Fits := by
  obtain ⟨hB, hB', hC, hM, hcpu, hburst⟩ := h
  rw [chargeBurst_eq]
  refine ⟨hB, hB', hC, hM, hcpu, ?_⟩
  show (if q.operating then (1 + q.M * q.CPUBurst) % 2 ^ 32
    else q.BurstTime) < 2 ^ 32
  split
  · exact Nat.mod_lt _ (by norm_num)
  · exact hburst

theorem Fits.of_moves
    (hmove : Moves d present q q')
    (h : q.Fits) :
    q'.Fits := by
  have hcharge := h.chargeBurst
  cases hmove with
  | terminate | block | preempt | keep =>
      exact ⟨hcharge.1, hcharge.2, hcharge.3, hcharge.4, hcharge.5,
        hcharge.6⟩
  | release | arrive =>
      exact ⟨h.1, h.2, h.3, h.4, h.5, h.6⟩
  | launch number hcond hburst =>
      exact ⟨h.1, h.2, h.3, h.4, h.5, h.6⟩

theorem Fits.countdown
    (h : q.Fits) :
    (q.countdown d).Fits := by
  obtain ⟨hB, hB', hC, hM, hcpu, hburst⟩ := h
  unfold Process.countdown
  split
  · exact ⟨hB, hB', hC, hM, hcpu, hburst⟩
  · exact ⟨hB, hB', hC, hM, hcpu, Nat.mod_lt _ (by norm_num)⟩
  · exact ⟨hB, hB', hC, hM, Nat.mod_lt _ (by norm_num), hburst⟩
  · exact ⟨hB, hB', hC, hM, hcpu, hburst⟩
  · exact ⟨hB, hB', hC, hM, hcpu, hburst⟩

theorem Fits.remaining_eq
    (h : q.Fits)
    (hle : q.CPUTime ≤ q.C) :
    q.remaining = q.C - q.CPUTime :=
  sub32_eq hle h.C_lt

/-- A dispatch draws a positive burst for a process that has time left. -/
theorem Fits.draw_pos
    (h : q.Fits)
    (hleft : q.C ≠ q.CPUTime)
    (number : Nat) :
    0 < (Machine.draw number q).CPUBurst := by
  have hrem : 0 < q.remaining :=
    (sub32_pos_iff h.C_lt h.CPUTime_lt).mpr hleft
  have hmod := Nat.mod_lt number h.B_pos
  have hlt := h.B_lt
  have hdraw : 0 < (1 + number % q.B) % 2 ^ 32 := by
    rw [Nat.mod_eq_of_lt (by omega)]
    omega
  simp only [Machine.draw, assignBurst]
  split
  · exact hrem
  · exact hdraw

theorem draw_le_remaining
    (number : Nat) (q : Process) :
    (Machine.draw number q).CPUBurst ≤ q.remaining := by
  simp only [Machine.draw, assignBurst]
  split <;> omega

theorem Budgeted.of_moves
    (hmove : Moves d present q q')
    (h : q.Budgeted) :
    q'.Budgeted := by
  have hfits := h.fits.of_moves hmove
  have hC := h.C_pos
  cases hmove with
  | terminate hcond hdone =>
      constructor <;> simp_all [chargeBurst_eq]
  | block hcond hleft hburst =>
      have hrun := h.running hcond
      have hlt : q.CPUTime < q.C := by omega
      constructor <;> simp_all [chargeBurst_eq]
  | preempt hcond hleft hburst hrr hquantum =>
      have hrun := h.running hcond
      have hlt : q.CPUTime < q.C := by omega
      constructor <;> simp_all [chargeBurst_eq]
  | keep hcond hleft hburst hquantum =>
      have hrun := h.running hcond
      constructor <;> simp_all [chargeBurst_eq]
  | release hcond hexpired =>
      have hlt := h.blocked hcond
      constructor <;> simp_all
  | arrive hcond hA =>
      have hzero := h.unstarted hcond
      constructor <;> simp_all
  | launch number hcond hburst =>
      have hlt := h.ready hcond
      have hrem := h.fits.remaining_eq hlt.le
      have hle := draw_le_remaining number q
      have hsum :
          q.CPUTime + (Machine.draw number q).CPUBurst ≤ q.C := by
        omega
      refine ⟨hfits, hC, ?_, ?_, ?_, fun _ => hsum, ?_⟩ <;>
        simp [Machine.launch]

theorem Budgeted.of_movesTo
    (hmoves : MovesTo d present q q')
    (h : q.Budgeted) :
    q'.Budgeted :=
  hmoves.preserves (fun _ _ => Budgeted.of_moves) h

theorem Budgeted.countdown
    (h : q.Budgeted)
    (hrun : q.condition = .running → 0 < q.CPUBurst) :
    (q.countdown d).Budgeted := by
  have hfits := h.fits.countdown (d := d)
  have hcond := countdown_condition d q
  obtain ⟨hA, hB, hC, hM⟩ := countdown_input_eq d q
  cases hc : q.condition with
  | running =>
      have hsum := h.running hc
      have hpos := hrun hc
      have hClt := h.fits.C_lt
      have hstep : q.countdown d =
          { q with
            CPUTime := incr q.CPUTime
            CPUBurst := decr q.CPUBurst
            quantum := if d = .rr then q.quantum - 1 else q.quantum } := by
        simp only [Process.countdown, hc]
      have hcpu : (q.countdown d).CPUTime = q.CPUTime + 1 := by
        rw [hstep]
        exact incr_eq (by omega)
      have hburst : (q.countdown d).CPUBurst = q.CPUBurst - 1 := by
        rw [hstep]
        exact decr_eq hpos (by omega)
      rw [hc] at hcond
      refine ⟨hfits, hC ▸ h.C_pos, ?_, ?_, ?_, ?_, ?_⟩ <;>
        intro hc' <;> rw [hcond] at hc' <;> cases hc'
      rw [hcpu, hburst, hC]
      omega
  | unstarted | ready | blocked | terminated =>
      have hcpu : (q.countdown d).CPUTime = q.CPUTime := by
        simp only [Process.countdown, hc]
      refine ⟨hfits, hC ▸ h.C_pos, ?_, ?_, ?_, ?_, ?_⟩ <;>
        intro hc' <;> rw [hcond, hc] at hc' <;> cases hc'
      rw [hcpu]
      first
        | exact h.unstarted hc
        | (rw [hC]; exact h.ready hc)
        | (rw [hC]; exact h.blocked hc)
        | (rw [hC]; exact h.terminated hc)

end Process

namespace Machine

open Process (Moves MovesTo)

variable {d : Policy} {a : Machine} {t : Nat}

theorem mem_arrivals
    {i : Nat} :
    i ∈ a.arrivals ↔
      i < a.countPrime ∧ (a.Prime i).A = a.present := by
  simp [arrivals]

theorem arrivals_nodup :
    a.arrivals.Nodup :=
  List.nodup_range.filter _

/-- Processes counted up to `t` and at `t` are those counted up to `t + 1`. -/
theorem countP_lt_succ
    (f : Nat → Nat) (t : Nat) (l : List Nat) :
    l.countP (fun i => f i < t + 1) =
      l.countP (fun i => f i < t) + (l.filter (fun i => f i = t)).length := by
  induction l with
  | nil =>
      rfl
  | cons i l ih =>
      simp only [List.countP_cons, List.filter_cons, ih]
      by_cases hlt : f i < t
      · have h₁ : f i < t + 1 := by omega
        have h₂ : ¬ f i = t := by omega
        simp [hlt, h₁, h₂]
        omega
      · by_cases heq : f i = t
        · simp [heq]
          omega
        · have h₁ : ¬ f i < t + 1 := by omega
          simp [hlt, heq, h₁]

/-- The parts of cycle `t` from the arrivals on. -/
structure Opened (d : Policy) (t : Nat) (a b : Machine) : Prop where
  queued : b.Queued
  count : b.countPrime = a.countPrime
  present : b.present = a.present
  moves : ∀ i < a.countPrime, MovesTo d a.present (a.Prime i) (b.Prime i)
  arrived : b.Arrived (t + 1)
  complete : a.Complete → b.Complete

theorem Opened.phase
    {b c : Machine}
    (h : Opened d t a b)
    (hphase : Phase d b c) :
    Opened d t a c where
  queued := hphase.queued
  count := hphase.count.trans h.count
  present := hphase.present.trans h.present
  moves := fun i hi => by
    have hmoves := hphase.moves i (h.count ▸ hi)
    rw [h.present] at hmoves
    exact (h.moves i hi).trans hmoves
  arrived := hphase.arrived _ h.arrived
  complete := fun hcomplete => hphase.complete (h.complete hcomplete)

theorem Opened.of_phase
    {b c : Machine}
    (hphase : Phase d a b)
    (h : Opened d t b c) :
    Opened d t a c where
  queued := h.queued
  count := h.count.trans hphase.count
  present := h.present.trans hphase.present
  moves := fun i hi => by
    have hmoves := h.moves i (hphase.count ▸ hi)
    rw [hphase.present] at hmoves
    exact (hphase.moves i hi).trans hmoves
  arrived := h.arrived
  complete := fun hcomplete => h.complete (hphase.complete hcomplete)

/-- While processes are missing, `present` has not wrapped. -/
theorem present_eq_of_missing
    (ht : a.Arrived t)
    (hpresent : a.present = t % 2 ^ 32)
    (hmissing : a.totalPrime ≠ a.countPrime) :
    a.present = t := by
  obtain ⟨i, hi, hle⟩ : ∃ i < a.countPrime, t ≤ (a.Prime i).A := by
    by_contra hnone
    push Not at hnone
    apply hmissing
    rw [ht.total_eq]
    have hall : (List.range a.countPrime).countP
        (fun i => (a.Prime i).A < t) = (List.range a.countPrime).length := by
      rw [List.countP_eq_length]
      intro i hi
      simpa using hnone i (List.mem_range.mp hi)
    simpa using hall
  have hA := ht.A_lt i hi
  rw [hpresent]
  exact Nat.mod_eq_of_lt (by omega)

/-- The processes that arrive are unstarted. -/
theorem Arrived.arrivals_unstarted
    (ht : a.Arrived t)
    (hpresent : a.present = t % 2 ^ 32)
    (hmissing : a.totalPrime ≠ a.countPrime) :
    ∀ i ∈ a.arrivals, (a.Prime i).condition = .unstarted := by
  intro i hi
  obtain ⟨hlt, hA⟩ := mem_arrivals.mp hi
  have hp := present_eq_of_missing ht hpresent hmissing
  exact (ht.unstarted_iff i hlt).mpr (by omega)

theorem mem_arrive_waiting
    {i : Nat} :
    i ∈ a.arrive.ready ++ a.arrive.pause ↔
      i ∈ a.ready ++ a.pause ∨ i ∈ a.arrivals := by
  show i ∈ (a.ready ++ a.arrivals) ++ a.pause ↔ _
  simp only [List.mem_append]
  tauto

theorem arrive_complete
    (h : a.Complete) :
    a.arrive.Complete := by
  intro i hlt hcond
  rw [mem_arrive_waiting]
  by_cases hi : i ∈ a.arrivals
  · exact .inr hi
  · exact .inl (h i hlt (by simpa [arrive, hi] using hcond))

theorem arrive_queued
    (h : a.Queued)
    (hfresh : ∀ i ∈ a.arrivals, (a.Prime i).condition = .unstarted) :
    a.arrive.Queued := by
  have hcond : ∀ i c, c ≠ .ready → c ≠ .unstarted →
      ((a.arrive.Prime i).condition = c ↔ (a.Prime i).condition = c) := by
    intro i c hc hc'
    by_cases hi : i ∈ a.arrivals
    · simp [arrive, hi, hfresh i hi, hc.symm, hc'.symm]
    · simp [arrive, hi]
  refine ⟨h.fits, ?_, ?_, h.block_nodup, ?_, ?_, ?_, ?_⟩
  · intro i hi
    simp only [arrive]
    split <;> exact h.ids i hi
  · show ((a.ready ++ a.arrivals) ++ a.pause).Nodup
    have hnew : ∀ i ∈ a.arrivals, i ∉ a.ready ++ a.pause := by
      intro i hi hmem
      have := (h.waiting_spec i hmem).2
      rw [hfresh i hi] at this
      cases this
    have hperm : ((a.ready ++ a.arrivals) ++ a.pause).Perm
        ((a.ready ++ a.pause) ++ a.arrivals) := by
      simp only [List.append_assoc]
      exact List.perm_append_comm.append_left a.ready
    rw [hperm.nodup_iff, List.nodup_append]
    refine ⟨h.waiting_nodup, arrivals_nodup, ?_⟩
    rintro i hi j hj rfl
    exact hnew i hj hi
  · intro i hmem
    rw [mem_arrive_waiting] at hmem
    by_cases hi : i ∈ a.arrivals
    · exact ⟨(mem_arrivals.mp hi).1, by simp [arrive, hi]⟩
    · obtain ⟨hlt, hready⟩ := h.waiting_spec i (hmem.resolve_right hi)
      exact ⟨hlt, by simpa [arrive, hi] using hready⟩
  · intro i
    rw [hcond i _ (by simp) (by simp)]
    exact h.block_iff i
  · intro i
    rw [hcond i _ (by simp) (by simp)]
    exact h.selection_iff i
  · have htally : a.arrive.tally .terminated = a.tally .terminated :=
      tally_congr rfl (fun i _ => hcond i _ (by simp) (by simp))
    rw [htally]
    exact h.completion_eq

theorem arrive_arrived
    (h : a.Queued)
    (ht : a.Arrived t)
    (hpresent : a.present = t) :
    a.arrive.Arrived (t + 1) := by
  have hA : ∀ i, (a.arrive.Prime i).A = (a.Prime i).A := by
    intro i
    simp only [arrive]
    split <;> rfl
  refine ⟨?_, ?_, ?_⟩
  · intro i hi
    rw [hA]
    exact ht.A_lt i hi
  · intro i hi
    have hiff := ht.unstarted_iff i hi
    rw [hA]
    by_cases hmem : i ∈ a.arrivals
    · have hAi := (mem_arrivals.mp hmem).2
      simp only [arrive, hmem, if_true]
      constructor
      · intro hc
        cases hc
      · omega
    · have hne : (a.Prime i).A ≠ t := fun heq =>
        hmem (mem_arrivals.mpr ⟨hi, heq.trans hpresent.symm⟩)
      simp only [arrive, hmem, if_false, hiff]
      omega
  · have hfits := h.fits
    have hsum := countP_lt_succ (fun i => (a.Prime i).A) t
      (List.range a.countPrime)
    have hle := List.countP_le_length
      (p := fun i => decide ((a.Prime i).A < t + 1))
      (l := List.range a.countPrime)
    rw [List.length_range] at hle
    show (a.totalPrime + a.arrivals.length) % 2 ^ 32 = _
    simp only [hA]
    rw [ht.total_eq, arrivals, hpresent, ← hsum]
    exact Nat.mod_eq_of_lt (by omega)

theorem creation_opened
    (h : a.Queued)
    (ht : a.Arrived t)
    (hpresent : a.present = t % 2 ^ 32) :
    Opened d t a a.creation := by
  unfold creation
  split
  next hmissing =>
    have hp := present_eq_of_missing ht hpresent hmissing
    have hfresh : ∀ i ∈ a.arrivals,
        (a.Prime i).condition = .unstarted := by
      intro i hi
      obtain ⟨hlt, hAi⟩ := mem_arrivals.mp hi
      exact (ht.unstarted_iff i hlt).mpr (by omega)
    exact
      { queued := arrive_queued h hfresh
        count := rfl
        present := rfl
        moves := fun i _ => by
          simp only [arrive]
          split
          next hi =>
            exact .single
              (Moves.arrive _ (hfresh i hi) (mem_arrivals.mp hi).2)
          next => exact .refl
        arrived := arrive_arrived h ht hp
        complete := arrive_complete }
  next hall =>
    push Not at hall
    have hlt : ∀ i < a.countPrime, (a.Prime i).A < t := by
      have heq : (List.range a.countPrime).countP
          (fun i => (a.Prime i).A < t) =
            (List.range a.countPrime).length := by
        rw [← ht.total_eq, hall, List.length_range]
      rw [List.countP_eq_length] at heq
      intro i hi
      simpa using heq i (List.mem_range.mpr hi)
    exact
      { queued := h
        count := rfl
        present := rfl
        moves := fun _ _ => .refl
        complete := id
        arrived :=
          { A_lt := ht.A_lt
            unstarted_iff := fun i hi => by
              rw [ht.unstarted_iff i hi]
              have := hlt i hi
              omega
            total_eq := by
              rw [ht.total_eq]
              apply List.countP_congr
              intro i hi
              have := hlt i (List.mem_range.mp hi)
              simp only [decide_eq_true_eq]
              omega } }

theorem prepare_opened
    (h : a.Queued)
    (ht : a.Arrived t)
    (hpresent : a.present = t % 2 ^ 32) :
    Opened d t a (a.prepare d) := by
  have h₁ := proceedForward_phase (d := d) h
  have h₂ := h₁.trans (execxuteB_phase h₁.queued)
  exact Opened.of_phase h₂
    (creation_opened h₂.queued (h₂.arrived t ht)
      (h₂.present.trans hpresent))

/-- The running process has some of its burst left. -/
def Lively (a : Machine) : Prop :=
  ∀ p, a.selection = some p → 0 < (a.Prime p).CPUBurst

theorem proceedForward_lively :
    (a.proceedForward d).Lively := by
  intro p hp
  unfold proceedForward at hp ⊢
  split at hp
  next hsel =>
    rw [hsel] at hp
    cases hp
  next s hsel =>
    split_ifs at hp with hdone hburst hpreempt
    · cases hp
    · cases hp
    · cases hp
    · have hps : s = p := by
        have : (a.keepRunning s).selection = a.selection := rfl
        rw [this, hsel] at hp
        exact Option.some.inj hp
      subst hps
      simp only [hdone, hburst, hpreempt, if_false]
      simpa [keepRunning, modify, Process.chargeBurst_eq] using
        Nat.pos_of_ne_zero hburst

theorem Lively.execxuteB
    (h : a.Lively) :
    a.execxuteB.Lively := by
  intro p hp
  unfold Machine.execxuteB at hp ⊢
  split
  next hfirst =>
    rw [hfirst] at hp
    exact h p hp
  next i hfirst =>
    rw [hfirst] at hp
    have := h p hp
    by_cases hpi : p = i
    · subst hpi
      simpa [Machine.release, modify] using this
    · simpa [Machine.release, modify, hpi] using this

theorem Lively.creation
    (h : a.Lively) :
    a.creation.Lively := by
  intro p hp
  unfold Machine.creation at hp ⊢
  split
  next hmissing =>
    rw [if_pos hmissing] at hp
    have := h p hp
    simp only [arrive]
    split <;> exact this
  next hall =>
    rw [if_neg hall] at hp
    exact h p hp

theorem prepare_lively :
    (a.prepare d).Lively :=
  proceedForward_lively.execxuteB.creation

theorem pauseOthers_frame :
    (a.pauseOthers d).Prime = a.Prime ∧
      (a.pauseOthers d).selection = a.selection := by
  unfold pauseOthers
  split <;> exact ⟨rfl, rfl⟩

theorem resumePaused_frame :
    (a.resumePaused d).Prime = a.Prime ∧
      (a.resumePaused d).selection = a.selection := by
  unfold resumePaused
  split
  next => exact ⟨rfl, rfl⟩
  next => split <;> exact ⟨rfl, rfl⟩

theorem pauseReady_frame :
    (a.pauseReady d).Prime = a.Prime ∧
      (a.pauseReady d).selection = a.selection := by
  unfold pauseReady
  split <;> exact ⟨rfl, rfl⟩

theorem Lively.dispatch
    {file : RandomFile} {b : Machine}
    (h : a.Lively)
    (hbudget : ∀ p ∈ a.ready, ∀ number,
      0 < (draw number (a.Prime p)).CPUBurst)
    (hb : a.dispatch d file = some b) :
    b.Lively := by
  cases dispatch_cases hb with
  | busy | idle => exact h
  | @start p number _ hchoose =>
      have hpos := hbudget p (choose_mem hchoose) number
      intro i hi
      rw [start_eq (.inl hpos)] at hi ⊢
      obtain rfl : p = i := Option.some.inj hi
      simpa [modify, launch] using hpos

/-- The invariant at the end of cycle `t`. -/
structure Sound (t : Nat) (a : Machine) : Prop where
  queued : a.Queued
  arrived : a.Arrived t
  present_eq : a.present = t % 2 ^ 32
  complete : a.Complete
  budgeted : ∀ i < a.countPrime, (a.Prime i).Budgeted

/-- What one cycle does, seen from one process: changes along `Moves`, and then
its timers. -/
structure Cycle (d : Policy) (t : Nat) (a b : Machine) : Prop where
  queued : b.Queued
  count : b.countPrime = a.countPrime
  present : b.present = (t + 1) % 2 ^ 32
  arrived : b.Arrived (t + 1)
  process : ∀ i < a.countPrime, ∃ q,
    MovesTo d a.present (a.Prime i) q ∧ b.Prime i = q.countdown d
  complete : a.Complete → b.Complete

theorem advance_Prime
    {i : Nat} (hi : i < a.countPrime) :
    (a.advance d).Prime i = (a.Prime i).countdown d := by
  simp [advance, countdown, Globals.countdown, hi]

theorem advance_condition
    (i : Nat) :
    ((a.advance d).Prime i).condition = (a.Prime i).condition := by
  simp only [advance, countdown, Globals.countdown]
  split <;> simp

theorem advance_queued
    (h : a.Queued) :
    (a.advance d).Queued where
  fits := h.fits
  ids := fun i (hi : i < a.countPrime) => by
    rw [advance_Prime hi, Process.countdown_processID]
    exact h.ids i hi
  waiting_nodup := h.waiting_nodup
  block_nodup := h.block_nodup
  waiting_spec := fun i => by
    rw [advance_condition]
    exact h.waiting_spec i
  block_iff := fun i => by
    rw [advance_condition]
    exact h.block_iff i
  selection_iff := fun i => by
    rw [advance_condition]
    exact h.selection_iff i
  completion_eq := by
    have htally : (a.advance d).tally .terminated = a.tally .terminated :=
      tally_congr rfl (fun i _ => by rw [advance_condition])
    rw [htally]
    exact h.completion_eq

theorem advance_complete
    (h : a.Complete) :
    (a.advance d).Complete := by
  intro i hi hcond
  rw [advance_condition] at hcond
  exact h i hi hcond

theorem advance_arrived
    (h : a.Arrived t) :
    (a.advance d).Arrived t :=
  h.congr rfl rfl
    (fun i hi => by
      rw [advance_Prime hi]
      exact (Process.countdown_input_eq d _).1)
    (fun i _ => by rw [advance_condition])

theorem advance_present
    (h : a.present = t % 2 ^ 32) :
    (a.advance d).present = (t + 1) % 2 ^ 32 := by
  show incr a.present = _
  rw [h]
  simp only [incr]
  omega

/-- A cycle whose dispatch starts the process it takes. -/
theorem datapoint_cycle
    {file : RandomFile} {b : Machine}
    (h : a.Queued)
    (ht : a.Arrived t)
    (hpresent : a.present = t % 2 ^ 32)
    (hlive :
      (((a.prepare d).pauseOthers d).resumePaused d).Launchable d)
    (hb : a.datapoint d file = some b) :
    Cycle d t a b := by
  obtain ⟨c, hc, rfl⟩ := Option.map_eq_some_iff.mp hb
  have hopen := prepare_opened (d := d) h ht hpresent
  have hdone := hopen.phase (executeR_phase hopen.queued hlive hc)
  have hprime : ∀ i < a.countPrime,
      (c.advance d).Prime i = (c.Prime i).countdown d :=
    fun i hi => advance_Prime (hdone.count.symm ▸ hi)
  exact
    { queued := advance_queued hdone.queued
      count := hdone.count
      present := advance_present (hdone.present.trans hpresent)
      arrived := advance_arrived hdone.arrived
      process := fun i hi => ⟨c.Prime i, hdone.moves i hi, hprime i hi⟩
      complete := fun hcomplete => advance_complete (hdone.complete hcomplete) }

/-- The invariant for processes that may need no CPU time: such a process can get
lost when it is dispatched. -/
structure Orderly (t : Nat) (a : Machine) : Prop where
  queued : a.Queued
  arrived : a.Arrived t
  present_eq : a.present = t % 2 ^ 32
  fits : ∀ i < a.countPrime, (a.Prime i).Fits

theorem Sound.orderly
    (h : a.Sound t) :
    a.Orderly t where
  queued := h.queued
  arrived := h.arrived
  present_eq := h.present_eq
  fits := fun i hi => (h.budgeted i hi).fits

/-- Before the dispatch the ranges still hold. -/
theorem Orderly.prepared
    (h : a.Orderly t) :
    Opened d t a (((a.prepare d).pauseOthers d).resumePaused d) ∧
    ∀ i < (((a.prepare d).pauseOthers d).resumePaused d).countPrime,
      ((((a.prepare d).pauseOthers d).resumePaused d).Prime i).Fits := by
  have hopen := prepare_opened (d := d) h.queued h.arrived h.present_eq
  have h₁ := pauseOthers_phase (d := d) hopen.queued
  have h₂ := h₁.trans (resumePaused_phase (d := d) h₁.queued)
  have hdone := hopen.phase h₂
  refine ⟨hdone, fun i hi => ?_⟩
  rw [hdone.count] at hi
  exact (hdone.moves i hi).preserves (fun _ _ => Process.Fits.of_moves)
    (h.fits i hi)

/-- Whatever is dispatched, a cycle keeps the invariant. -/
theorem Orderly.datapoint
    {file : RandomFile} {b : Machine}
    (h : a.Orderly t)
    (hb : a.datapoint d file = some b) :
    b.Orderly (t + 1) := by
  obtain ⟨c, hc, rfl⟩ := Option.map_eq_some_iff.mp hb
  obtain ⟨e, he, rfl⟩ := Option.map_eq_some_iff.mp hc
  obtain ⟨hopen, hfits⟩ := h.prepared (d := d)
  have hq := dispatch_queued hopen.queued he
  have hrest := pauseReady_phase (d := d) hq
  have hpresent : e.present =
      (((a.prepare d).pauseOthers d).resumePaused d).present := by
    cases dispatch_cases he with
    | busy | idle => rfl
    | start => exact (start_frame d _ _ _).2.1
  refine ⟨advance_queued hrest.queued, advance_arrived (hrest.arrived _
    (hopen.arrived.dispatch hopen.queued he)), advance_present ?_, ?_⟩
  · rw [hrest.present, hpresent, hopen.present]
    exact h.present_eq
  · intro i hi
    have hi' : i < (e.pauseReady d).countPrime := hi
    rw [advance_Prime hi', pauseReady_frame.1]
    apply Process.Fits.countdown
    cases dispatch_cases he with
    | busy | idle => exact hfits i (hrest.count ▸ hi')
    | @start p number =>
        rw [hrest.count, (start_frame d p number _).1] at hi'
        have hsame := hfits i hi'
        rcases start_Prime d p number i
          (((a.prepare d).pauseOthers d).resumePaused d) with
          heq | ⟨rfl, heq | heq⟩
        all_goals
          rw [heq]
          exact ⟨hsame.1, hsame.2, hsame.3, hsame.4, hsame.5, hsame.6⟩

/-- Ready processes within their CPU time can be dispatched. -/
theorem draw_pos_of_ready
    (h : a.Queued)
    (hbudget : ∀ i < a.countPrime, (a.Prime i).Budgeted)
    {p : Nat} (hp : p ∈ a.ready) (number : Nat) :
    0 < (draw number (a.Prime p)).CPUBurst := by
  obtain ⟨hlt, hcond⟩ :=
    h.waiting_spec p (List.mem_append_left _ hp)
  have hleft := (hbudget p hlt).ready hcond
  exact (hbudget p hlt).fits.draw_pos (by omega) number

/-- Before the dispatch of a sound machine every process is within its CPU
time, and any ready process can be dispatched. -/
theorem Sound.prepared
    (h : a.Sound t) :
    (∀ i < a.countPrime,
      ((a.prepare d).Prime i).Budgeted) ∧
    ∀ p ∈ (((a.prepare d).pauseOthers d).resumePaused d).ready,
      ∀ number, 0 < (draw number
        ((((a.prepare d).pauseOthers d).resumePaused d).Prime p)).CPUBurst := by
  have hopen := prepare_opened (d := d) h.queued h.arrived h.present_eq
  have hbudget : ∀ i < a.countPrime, ((a.prepare d).Prime i).Budgeted :=
    fun i hi => (h.budgeted i hi).of_movesTo (hopen.moves i hi)
  refine ⟨hbudget, ?_⟩
  have h₁ := pauseOthers_phase (d := d) hopen.queued
  have h₂ := h₁.trans (resumePaused_phase (d := d) h₁.queued)
  intro p hp number
  apply draw_pos_of_ready h₂.queued ?_ hp
  intro i hi
  rw [resumePaused_frame.1, pauseOthers_frame.1]
  rw [h₂.count, hopen.count] at hi
  exact hbudget i hi

theorem Sound.launchable
    (h : a.Sound t) :
    (((a.prepare d).pauseOthers d).resumePaused d).Launchable d :=
  fun _ p number hp => .inl (h.prepared.2 p (choose_mem hp) number)

/-- After the dispatch the running process has some of its burst left. -/
theorem Sound.executeR_lively
    {file : RandomFile} {b : Machine}
    (h : a.Sound t)
    (hb : (a.prepare d).executeR d file = some b) :
    b.Lively := by
  obtain ⟨c, hc, rfl⟩ := Option.map_eq_some_iff.mp hb
  have hlively :
      (((a.prepare d).pauseOthers d).resumePaused d).Lively := by
    intro p hp
    rw [resumePaused_frame.2, pauseOthers_frame.2] at hp
    rw [resumePaused_frame.1, pauseOthers_frame.1]
    exact prepare_lively p hp
  have hcl := hlively.dispatch h.prepared.2 hc
  intro p hp
  rw [pauseReady_frame.2] at hp
  rw [pauseReady_frame.1]
  exact hcl p hp

theorem Sound.cycle
    {file : RandomFile} {b : Machine}
    (h : a.Sound t)
    (hb : a.datapoint d file = some b) :
    Cycle d t a b :=
  datapoint_cycle h.queued h.arrived h.present_eq h.launchable hb

/-- A cycle keeps the invariant. -/
theorem Sound.datapoint
    {file : RandomFile} {b : Machine}
    (h : a.Sound t)
    (hb : a.datapoint d file = some b) :
    b.Sound (t + 1) := by
  have hcycle := h.cycle hb
  refine ⟨hcycle.queued, hcycle.arrived, hcycle.present,
    hcycle.complete h.complete, ?_⟩
  obtain ⟨c, hc, rfl⟩ := Option.map_eq_some_iff.mp hb
  have hopen := prepare_opened (d := d) h.queued h.arrived h.present_eq
  have hphase := executeR_phase hopen.queued h.launchable hc
  intro i hi
  have hic : i < c.countPrime := hi
  have hia : i < a.countPrime := by
    rw [hcycle.count] at hi
    exact hi
  have hbudget : (c.Prime i).Budgeted :=
    (h.budgeted i hia).of_movesTo ((hopen.phase hphase).moves i hia)
  rw [advance_Prime hic]
  apply hbudget.countdown
  intro hrun
  exact h.executeR_lively hc i
    ((hphase.queued.selection_iff i).mpr ⟨hic, hrun⟩)

end Machine
end Scheduler
end PastWork
