import PastWork.Scheduler.Accounting

/-!
# Every run ends

The CPU idles only while no process is ready, so a cycle either gives CPU time
to a process, or ends an idle period later by one cycle: the timer of the first
blocked process, or the time until the next arrival, goes down.
-/

namespace PastWork
namespace Scheduler

/-- The CPU time that the processes still need. -/
def Globals.workLeft (g : Globals) : Nat :=
  ((List.range g.countPrime).map
    (fun i => (g.Prime i).C - (g.Prime i).CPUTime)).sum

namespace Process

variable {d : Policy} {present : Nat} {q q' : Process}

theorem Moves.CPUTime_eq
    (h : Moves d present q q') :
    q'.CPUTime = q.CPUTime := by
  cases h <;>
    simp [chargeBurst_eq, Machine.launch, Machine.draw, assignBurst]

theorem MovesTo.CPUTime_eq
    (h : MovesTo d present q q') :
    q'.CPUTime = q.CPUTime := by
  refine MovesTo.preserves (P := fun p => p.CPUTime = q.CPUTime) ?_ h rfl
  intro p p' hmove hp
  rw [hmove.CPUTime_eq]
  exact hp

theorem Budgeted.CPUTime_le
    (h : q.Budgeted) :
    q.CPUTime ≤ q.C := by
  cases hc : q.condition with
  | unstarted => rw [h.unstarted hc]; exact Nat.zero_le _
  | ready => exact (h.ready hc).le
  | blocked => exact (h.blocked hc).le
  | terminated => exact (h.terminated hc).le
  | running =>
      have := h.running hc
      omega

theorem countdown_CPUTime
    (d : Policy) (q : Process) :
    (q.countdown d).CPUTime =
      if q.condition = .running then incr q.CPUTime else q.CPUTime := by
  unfold countdown
  split <;> simp_all

end Process

namespace Machine

variable {d : Policy} {file : RandomFile} {a b : Machine} {t : Nat}

/-- What is left of the current idle period: the timer of the first blocked
process, or the time to the end of the clock. -/
def idleLeft (a : Machine) : Nat :=
  match a.block.head? with
  | some f => (a.Prime f).BurstTime
  | none => 2 ^ 32 - a.present

/-- The variant of a run. -/
def variant (a : Machine) : Nat × Nat × Nat :=
  (a.workLeft, if a.selection = none then 0 else 1, a.idleLeft)

abbrev Lower : Nat × Nat × Nat → Nat × Nat × Nat → Prop :=
  Prod.Lex (· < ·) (Prod.Lex (· < ·) (· < ·))

theorem lower_wf :
    WellFounded Lower :=
  WellFounded.prod_lex Nat.lt_wfRel.wf
    (WellFounded.prod_lex Nat.lt_wfRel.wf Nat.lt_wfRel.wf)

/-- A sound machine whose CPU idles only while no process is ready. -/
structure Diligent (t : Nat) (a : Machine) : Prop where
  sound : a.Sound t
  pause : a.pause = []
  busy : a.selection = none → a.ready = []

theorem Initial.diligent
    {W : Workload}
    (h : a.Initial file W)
    (hC : ∀ job ∈ W.jobs, 1 ≤ job.C) :
    a.Diligent 0 where
  sound := h.sound hC
  pause := h.pause
  busy := fun _ => h.ready

/-- After a dispatch that has started no process, there was none to start. -/
theorem dispatch_idle
    (hlive : a.Launchable d)
    (hb : a.dispatch d file = some b)
    (hidle : b.selection = none) :
    b = a ∧ a.selection = none ∧ a.ready = [] := by
  cases dispatch_cases hb with
  | busy hbusy => exact absurd hidle hbusy
  | idle hfree hnone =>
      refine ⟨rfl, hfree, ?_⟩
      unfold choose at hnone
      split at hnone
      · exact List.argmin_eq_none.mp hnone
      · exact List.head?_eq_none_iff.mp hnone
  | @start p number hfree hchoose =>
      rw [start_eq (hlive hfree p number hchoose)] at hidle
      cases hidle

theorem Diligent.launchable
    (h : a.Diligent t)
    (hd : d ≠ .block) :
    (a.prepare d).Launchable d := by
  have hlive := h.sound.launchable (d := d)
  have hothers : (a.prepare d).pauseOthers d = a.prepare d :=
    if_neg (fun hc => hd hc.2.2.2)
  have hresume : (a.prepare d).resumePaused d = a.prepare d := by
    unfold resumePaused
    split
    · rfl
    · exact if_neg (fun hc => hd hc.1)
  rwa [hothers, hresume] at hlive

theorem Diligent.datapoint
    (h : a.Diligent t)
    (hd : d ≠ .block)
    (hb : a.datapoint d file = some b) :
    b.Diligent (t + 1) where
  sound := h.sound.datapoint hb
  pause := (datapoint_pause hd hb).trans h.pause
  busy := fun hidle => by
    rw [datapoint_eq_dispatch hd] at hb
    obtain ⟨e, he, rfl⟩ := Option.map_eq_some_iff.mp hb
    obtain ⟨rfl, _, hready⟩ := dispatch_idle (h.launchable hd) he hidle
    exact hready

/-- The running process has used one cycle of its CPU time. -/
theorem Sound.running_CPUTime
    {p : Nat}
    (h : a.Sound t)
    (hb : a.datapoint d file = some b)
    (hp : b.selection = some p) :
    p < a.countPrime ∧ (b.Prime p).CPUTime = (a.Prime p).CPUTime + 1 ∧
      (b.Prime p).CPUTime ≤ (a.Prime p).C := by
  have hcycle := h.cycle hb
  have hsound := h.datapoint hb
  obtain ⟨hlt, hcond⟩ := (hsound.queued.selection_iff p).mp hp
  rw [hcycle.count] at hlt
  obtain ⟨c, hc, rfl⟩ := Option.map_eq_some_iff.mp hb
  have hopen := prepare_opened (d := d) h.queued h.arrived h.present_eq
  have hdone := hopen.phase (executeR_phase hopen.queued h.launchable hc)
  have hmoves := hdone.moves p hlt
  have hbudget := (h.budgeted p hlt).of_movesTo hmoves
  rw [advance_condition] at hcond
  have hpos := h.executeR_lively hc p hp
  have hrun := hbudget.running hcond
  have hClt := hbudget.fits.C_lt
  have hC := hmoves.input_eq.2.2.1
  have hcpu := hmoves.CPUTime_eq
  have hstep : ((c.advance d).Prime p).CPUTime = incr (c.Prime p).CPUTime := by
    rw [advance_Prime (hdone.count.symm ▸ hlt), Process.countdown_CPUTime,
      if_pos hcond]
  rw [hstep, incr_eq (by omega)]
  exact ⟨hlt, by omega, by omega⟩

/-- A process that does not run keeps its CPU time. -/
theorem Sound.waiting_CPUTime
    {i : Nat}
    (h : a.Sound t)
    (hb : a.datapoint d file = some b)
    (hi : i < a.countPrime)
    (hne : b.selection ≠ some i) :
    (b.Prime i).CPUTime = (a.Prime i).CPUTime := by
  have hcycle := h.cycle hb
  have hsound := h.datapoint hb
  obtain ⟨q, hmoves, hq⟩ := hcycle.process i hi
  have hcond : q.condition ≠ .running := by
    intro hrun
    apply hne
    rw [hsound.queued.selection_iff, hcycle.count]
    refine ⟨hi, ?_⟩
    rw [hq, Process.countdown_condition]
    exact hrun
  rw [hq, Process.countdown_CPUTime, if_neg hcond, hmoves.CPUTime_eq]

theorem Cycle.C_eq
    {i : Nat}
    (h : Cycle d t a b)
    (hi : i < a.countPrime) :
    (b.Prime i).C = (a.Prime i).C := by
  obtain ⟨q, hmoves, hq⟩ := h.process i hi
  rw [hq, (Process.countdown_input_eq d q).2.2.1, hmoves.input_eq.2.2.1]

/-- A cycle with a running process lowers the work that is left. -/
theorem Sound.workLeft_lt
    {p : Nat}
    (h : a.Sound t)
    (hb : a.datapoint d file = some b)
    (hp : b.selection = some p) :
    b.workLeft < a.workLeft := by
  have hcycle := h.cycle hb
  obtain ⟨hlt, hcpu, hle⟩ := h.running_CPUTime hb hp
  unfold Globals.workLeft
  rw [hcycle.count]
  apply List.sum_lt_sum
  · intro i hi
    have hi := List.mem_range.mp hi
    rw [hcycle.C_eq hi]
    by_cases hip : i = p
    · subst hip
      omega
    · rw [h.waiting_CPUTime hb hi (by rw [hp]; simpa using Ne.symm hip)]
  · refine ⟨p, List.mem_range.mpr hlt, ?_⟩
    rw [hcycle.C_eq hlt]
    omega

theorem Sound.workLeft_eq
    (h : a.Sound t)
    (hb : a.datapoint d file = some b)
    (hidle : b.selection = none) :
    b.workLeft = a.workLeft := by
  have hcycle := h.cycle hb
  unfold Globals.workLeft
  rw [hcycle.count]
  congr 1
  apply List.map_congr_left
  intro i hi
  have hi := List.mem_range.mp hi
  rw [hcycle.C_eq hi, h.waiting_CPUTime hb hi (by simp [hidle])]

/-- In an idle cycle nothing is released and nothing arrives. -/
theorem idle_prepare
    (hfree : a.selection = none)
    (hready : (a.prepare d).ready = []) :
    a.firstExpired = none ∧
      (a.totalPrime ≠ a.countPrime → a.arrivals = []) ∧
      (a.prepare d).Prime = a.Prime ∧ (a.prepare d).block = a.block := by
  have hforward : a.proceedForward d = a := by
    simp only [proceedForward, hfree]
  rw [prepare, hforward] at hready ⊢
  cases hfirst : a.firstExpired with
  | some p =>
      exfalso
      have hexecute : a.execxuteB = a.release p := by
        simp only [execxuteB, hfirst]
      rw [hexecute, creation] at hready
      split at hready <;> simp [arrive, Machine.release] at hready
  | none =>
      have hexecute : a.execxuteB = a := by
        simp only [execxuteB, hfirst]
      rw [hexecute, creation] at hready ⊢
      by_cases hmissing : a.totalPrime ≠ a.countPrime
      · rw [if_pos hmissing] at hready ⊢
        have harrivals : a.arrivals = [] :=
          (List.append_eq_nil_iff.mp hready).2
        refine ⟨rfl, fun _ => harrivals, ?_, rfl⟩
        funext i
        simp [arrive, harrivals]
      · rw [if_neg hmissing]
        exact ⟨rfl, fun hm => absurd hm hmissing, rfl, rfl⟩

/-- While not all processes are terminated and none is ready, running or
blocked, some process has yet to arrive. -/
theorem Diligent.exists_unstarted
    (h : a.Diligent t)
    (hmore : a.completion ≠ a.countPrime)
    (hfree : a.selection = none)
    (hblock : a.block = []) :
    ∃ i < a.countPrime, t ≤ (a.Prime i).A := by
  by_contra hnone
  push Not at hnone
  apply hmore
  have hq := h.sound.queued
  have hall : ∀ i < a.countPrime, (a.Prime i).condition = .terminated := by
    intro i hi
    cases hc : (a.Prime i).condition with
    | terminated => rfl
    | unstarted =>
        have := (h.sound.arrived.unstarted_iff i hi).mp hc
        have := hnone i hi
        omega
    | ready =>
        have hmem := h.sound.complete i hi hc
        rw [h.busy hfree, h.pause] at hmem
        simp at hmem
    | running =>
        have hsel := (hq.selection_iff i).mpr ⟨hi, hc⟩
        rw [hfree] at hsel
        cases hsel
    | blocked =>
        have hmem := (hq.block_iff i).mpr ⟨hi, hc⟩
        rw [hblock] at hmem
        simp at hmem
  rw [hq.completion_eq, tally, Finset.filter_true_of_mem]
  · exact Finset.card_range _
  · intro i hi
    exact hall i (Finset.mem_range.mp hi)

/-- An idle cycle brings the end of the idle period closer. -/
theorem Diligent.idleLeft_lt
    (h : a.Diligent t)
    (hd : d ≠ .block)
    (hb : a.datapoint d file = some b)
    (hmore : a.completion ≠ a.countPrime)
    (hfree : a.selection = none)
    (hidle : b.selection = none) :
    b.idleLeft < a.idleLeft := by
  rw [datapoint_eq_dispatch hd] at hb
  obtain ⟨e, he, rfl⟩ := Option.map_eq_some_iff.mp hb
  obtain ⟨rfl, _, hready⟩ := dispatch_idle (h.launchable hd) he hidle
  obtain ⟨hexpired, harrivals, hprime, hblock⟩ := idle_prepare hfree hready
  have hopen := prepare_opened (d := d) h.sound.queued h.sound.arrived
    h.sound.present_eq
  have hcount := hopen.count
  have hblock' : ((a.prepare d).advance d).block = a.block := hblock
  have hpresent : ((a.prepare d).advance d).present = incr a.present :=
    congrArg incr hopen.present
  unfold idleLeft
  rw [hblock', hpresent]
  cases hb : a.block with
  | cons f rest =>
      -- the timer of the first blocked process has not run out
      have hmem : f ∈ a.block := by simp [hb]
      obtain ⟨hlt, hcond⟩ := (h.sound.queued.block_iff f).mp hmem
      have hburst : ¬ toInt32 (a.Prime f).BurstTime ≤ 0 := by
        simpa [Process.expired] using List.find?_eq_none.mp hexpired f hmem
      have hBlt := (h.sound.budgeted f hlt).fits.BurstTime_lt
      have hpos : 0 < (a.Prime f).BurstTime := by
        by_contra hzero
        have : (a.Prime f).BurstTime = 0 := by omega
        simp [this, toInt32] at hburst
      simp only [List.head?_cons]
      rw [advance_Prime (hcount.symm ▸ hlt), hprime]
      simp only [Process.countdown, hcond]
      rw [decr_eq hpos hBlt]
      omega
  | nil =>
      -- some process has yet to arrive, so the clock has not wrapped
      obtain ⟨i, hi, hle⟩ := h.exists_unstarted hmore hfree hb
      have hA := h.sound.arrived.A_lt i hi
      have hp : a.present = t := by
        rw [h.sound.present_eq]
        exact Nat.mod_eq_of_lt (by omega)
      have hmissing : a.totalPrime ≠ a.countPrime := by
        rw [h.sound.arrived.total_eq]
        intro heq
        have hall := List.countP_eq_length.mp
          (heq.trans (List.length_range (n := a.countPrime)).symm) i
          (List.mem_range.mpr hi)
        simp only [decide_eq_true_eq] at hall
        omega
      have hne : (a.Prime i).A ≠ t := by
        intro heq
        have hmem := mem_arrivals.mpr ⟨hi, heq.trans hp.symm⟩
        rw [harrivals hmissing] at hmem
        simp at hmem
      simp only [List.head?_nil]
      rw [hp, incr_eq (by omega)]
      omega

/-- Every cycle lowers the variant. -/
theorem Diligent.variant_lower
    (h : a.Diligent t)
    (hd : d ≠ .block)
    (hb : a.datapoint d file = some b)
    (hmore : a.completion ≠ a.countPrime) :
    Lower b.variant a.variant := by
  cases hsel : b.selection with
  | some p =>
      exact .left _ _ (h.sound.workLeft_lt hb hsel)
  | none =>
      unfold variant
      rw [h.sound.workLeft_eq hb hsel]
      apply Prod.Lex.right
      by_cases hfree : a.selection = none
      · rw [hfree, hsel]
        exact .right _ (h.idleLeft_lt hd hb hmore hfree hsel)
      · rw [if_pos hsel, if_neg hfree]
        exact .left _ _ (by norm_num)

end Machine

section Loop

variable {d : Policy} {file : RandomFile} {s : State}

/-- The variant of a run, read from a state. -/
def State.variant (s : State) : Nat × Nat × Nat :=
  (s.workLeft, if s.selection = none then 0 else 1,
    match s.Blockfront with
    | some f => (s.Prime f).BurstTime
    | none => 2 ^ 32 - s.present)

theorem Represents.variant
    {a : Machine}
    (h : Represents s a) :
    s.variant = a.variant := by
  have hwork : s.workLeft = a.workLeft :=
    h.global Globals.workLeft (fun _ => rfl)
  have hburst : ∀ i, (s.Prime i).BurstTime = (a.Prime i).BurstTime :=
    h.field Process.BurstTime (fun _ => rfl)
  unfold State.variant Machine.variant Machine.idleLeft
  rw [hwork, h.selection, h.threaded.blockLinks.front_eq, h.present]
  cases a.block.head? with
  | none => rfl
  | some f => simp only [hburst]

/-- The loop of `listoutputs` returns, unless it runs out of random
numbers. -/
theorem Represents.simulate_returns
    {a : Machine} {t : Nat}
    (hd : d ≠ .block)
    (h : Represents s a)
    (hdiligent : a.Diligent t)
    (hlong : ∀ fuel, simulate d file fuel s ≠ .error .endOfFile) :
    ∃ n s' t' b, simulate d file n s = .ok s' ∧ Represents s' b ∧
      b.Diligent t' ∧ b.countPrime = a.countPrime ∧
      b.completion = b.countPrime := by
  obtain ⟨n, s', hloop, ⟨t', b, hrep, hdil, hcount, _⟩, hdone⟩ :=
    whileLoop_total (f := Scheduler.datapoint d file)
      (c := fun s => s.completion ≠ s.countPrime)
      Machine.lower_wf
      (I := fun s => ∃ t b, Represents s b ∧ b.Diligent t ∧
        b.countPrime = a.countPrime ∧
        ∀ fuel, simulate d file fuel s ≠ .error .endOfFile)
      State.variant
      (by
        rintro s ⟨t, b, hrep, hdil, hcount, hlong⟩ hcond
        have hround : ∀ fuel, simulate d file (fuel + 1) s =
            Scheduler.datapoint d file s >>= simulate d file fuel := by
          intro fuel
          simp only [simulate, whileLoop, hcond, if_true]
        have hmore : b.completion ≠ b.countPrime := by
          simpa [hrep.completion, hrep.countPrime] using hcond
        have hsim : Simulates (Scheduler.datapoint d file s)
            (b.datapoint d file) := hrep.cycle hd hdil.sound.orderly
        cases hc : b.datapoint d file with
        | none =>
            rw [hc] at hsim
            exfalso
            apply hlong 1
            rw [hround, show Scheduler.datapoint d file s = _ from hsim]
            rfl
        | some c =>
            rw [hc] at hsim
            obtain ⟨s', hs', hrep'⟩ := hsim
            refine ⟨s', hs', ⟨t + 1, c, hrep', hdil.datapoint hd hc,
              (hdil.sound.cycle hc).count.trans hcount, ?_⟩, ?_⟩
            · intro fuel hend
              apply hlong (fuel + 1)
              rw [hround, hs']
              exact hend
            · rw [hrep'.variant, hrep.variant]
              exact hdil.variant_lower hd hc hmore)
      ⟨t, a, h, hdiligent, rfl, hlong⟩
  refine ⟨n, s', t', b, hloop, hrep, hdil, hcount, ?_⟩
  simpa [hrep.completion, hrep.countPrime] using hdone

/-- An endless file is long enough for every run. -/
theorem Represents.simulate_endless
    {a : Machine} {t : Nat}
    (hd : d ≠ .block)
    (hfile : file.Endless)
    (h : Represents s a)
    (hdiligent : a.Diligent t)
    (fuel : Nat) :
    simulate d file fuel s ≠ .error .endOfFile := by
  induction fuel generalizing s a t with
  | zero =>
      rw [simulate, whileLoop]
      split <;> simp
  | succ fuel ih =>
      rw [simulate, whileLoop]
      split
      · obtain ⟨c, hc⟩ := Machine.datapoint_isSome (d := d) hfile a
        have hsim : Simulates (Scheduler.datapoint d file s)
            (a.datapoint d file) := h.cycle hd hdiligent.sound.orderly
        rw [hc] at hsim
        obtain ⟨s', hs', hrep'⟩ := hsim
        rw [hs']
        exact ih hrep' (hdiligent.datapoint hd hc)
      · simp

/-- The loop of `listoutputs` ends, from the start of a run, with every process
terminated. -/
theorem simulate_terminates
    {W : Workload}
    (hd : d ≠ .block)
    (hfile : file.Endless)
    (hjobs : ∀ job ∈ W.jobs, 1 ≤ job.B ∧ 1 ≤ job.C)
    (hstart : Started file W s) :
    ∃ n, ∀ fuel, n ≤ fuel → ∃ s',
      simulate d file fuel s = .ok s' ∧
      s'.countPrime = W.jobs.length ∧
      ∀ i < s'.countPrime, (s'.Prime i).condition = .terminated := by
  obtain ⟨a, hrep, hinit⟩ := hstart.initial
  have hdiligent := hinit.diligent (fun job hjob => (hjobs job hjob).2)
  obtain ⟨n, s', t, b, hloop, hrep', hdil', hcount, hdone⟩ :=
    hrep.simulate_returns hd hdiligent
      (hrep.simulate_endless hd hfile hdiligent)
  refine ⟨n, fun fuel hfuel => ⟨s', whileLoop_mono hfuel hloop, ?_, ?_⟩⟩
  · rw [hrep'.countPrime, hcount, hinit.pristine.countPrime]
  · intro i hi
    rw [hrep'.countPrime] at hi
    rw [hrep'.field Process.condition (fun _ => rfl)]
    exact hdil'.sound.queued.all_terminated hdone hi

theorem twoJobs_terminates :
    ∃ s, Started steadyFile twoJobs s ∧ ∃ n, ∀ fuel, n ≤ fuel → ∃ s',
      simulate .fcfs steadyFile fuel s = .ok s' ∧
      s'.countPrime = twoJobs.jobs.length ∧
      ∀ i < s'.countPrime, (s'.Prime i).condition = .terminated := by
  obtain ⟨s, hstart⟩ := twoJobs_started
  exact ⟨s, hstart, simulate_terminates (by decide) steadyFile_endless
    (by decide) hstart⟩

end Loop

end Scheduler
end PastWork
