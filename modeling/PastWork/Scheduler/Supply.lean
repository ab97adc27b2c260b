import PastWork.Scheduler.Bursts
import PastWork.Scheduler.Replay
import PastWork.Scheduler.Summary

/-!
# The random numbers of a run

A dispatch reads one line of the file, and the process that it starts gets CPU time
in the same cycle.  So a run has never read more lines than the processes have had
cycles, and a file with as many lines as all processes together need is long enough,
whatever the policy and the arrivals.
-/

namespace PastWork
namespace Scheduler

/-- The CPU time that all processes need. -/
def Workload.work (W : Workload) : Nat :=
  (W.jobs.map (fun job => job.C.toNat)).sum

/-- The file has at least `n` lines. -/
def RandomFile.Holds (file : RandomFile) (n : Nat) : Prop :=
  ∀ line < n, ∃ number, file line = some number

theorem sum_getElem
    {α : Type} (f : α → Nat) (l : List α) :
    ∑ i ∈ Finset.range l.length, ((l[i]?).map f).getD 0 = (l.map f).sum := by
  induction l with
  | nil =>
      rfl
  | cons a l ih =>
      rw [List.length_cons, Finset.sum_range_succ', List.map_cons, List.sum_cons,
        Nat.add_comm, ← ih]
      rfl

namespace Machine

variable {d : Policy} {file : RandomFile} {a b : Machine} {t n : Nat}

/-- No more lines have been read than cycles of the CPU have been given, and the
processes of the array need `n` of them. -/
structure Thrifty (n : Nat) (a : Machine) : Prop where
  read : a.infinity ≤ a.total Process.CPUTime
  need : a.total Process.C = n

theorem prepare_infinity :
    (a.prepare d).infinity = a.infinity := by
  have hforward : (a.proceedForward d).infinity = a.infinity := by
    unfold proceedForward
    split
    · rfl
    · split_ifs <;> rfl
  have hexecute : ∀ c : Machine, c.execxuteB.infinity = c.infinity := by
    intro c
    unfold execxuteB
    split <;> rfl
  have hcreation : ∀ c : Machine, c.creation.infinity = c.infinity := by
    intro c
    unfold creation
    split <;> rfl
  rw [prepare, hcreation, hexecute, hforward]

/-- A dispatch that reads a line starts a process. -/
theorem dispatch_infinity
    (hlive : a.Launchable d)
    (hb : a.dispatch d file = some b) :
    b.infinity = a.infinity ∨
      b.infinity = a.infinity + 1 ∧ b.selection ≠ none := by
  cases dispatch_cases hb with
  | busy | idle => exact .inl rfl
  | @start p number hfree hchoose =>
      rw [start_eq (hlive hfree p number hchoose)]
      exact .inr ⟨rfl, by simp⟩

/-- A cycle keeps the bound on the lines that have been read. -/
theorem Thrifty.datapoint
    (h : a.Thrifty n)
    (hd : d ≠ .block)
    (ha : a.Diligent t)
    (hb : a.datapoint d file = some b) :
    b.Thrifty n := by
  have hcycle := ha.sound.cycle hb
  have hcpu := ha.sound.total_CPUTime hb
  have hread := h.read
  refine ⟨?_, ?_⟩
  · rw [datapoint_eq_dispatch hd] at hb
    obtain ⟨c, hc, rfl⟩ := Option.map_eq_some_iff.mp hb
    have hlines := dispatch_infinity (ha.launchable hd) hc
    rw [prepare_infinity] at hlines
    change c.infinity ≤ _
    rw [hcpu]
    rcases hlines with hsame | ⟨hmore, hrunning⟩
    · omega
    · have hselection : (c.advance d).selection ≠ none := hrunning
      rw [if_neg hselection]
      omega
  · rw [← h.need]
    unfold Globals.total
    rw [hcycle.count]
    exact Finset.sum_congr rfl fun i hi =>
      hcycle.C_eq (Finset.mem_range.mp hi)

/-- A process that can be dispatched still needs CPU time. -/
theorem Thrifty.infinity_lt
    {p : Nat}
    (h : a.Thrifty n)
    (ha : a.Sound t)
    (hp : p ∈ (a.prepare d).ready) :
    a.infinity < n := by
  have hopen := prepare_opened (d := d) ha.queued ha.arrived ha.present_eq
  obtain ⟨hlt, hcond⟩ :=
    hopen.queued.waiting_spec p (List.mem_append_left _ hp)
  rw [hopen.count] at hlt
  have hmoves := hopen.moves p hlt
  have hleft := ((ha.budgeted p hlt).of_movesTo hmoves).ready hcond
  rw [hmoves.CPUTime_eq, hmoves.input_eq.2.2.1] at hleft
  have hstrict : a.total Process.CPUTime < a.total Process.C := by
    refine Finset.sum_lt_sum (fun i hi => ?_) ⟨p, Finset.mem_range.mpr hlt, hleft⟩
    exact (ha.budgeted i (Finset.mem_range.mp hi)).CPUTime_le
  exact h.need ▸ lt_of_le_of_lt h.read hstrict

/-- A file with a line for every cycle that is needed has one for each dispatch. -/
theorem Thrifty.datapoint_isSome
    (h : a.Thrifty n)
    (hd : d ≠ .block)
    (ha : a.Sound t)
    (hfile : file.Holds n) :
    ∃ b, a.datapoint d file = some b := by
  have hdispatch : ∃ c, (a.prepare d).dispatch d file = some c := by
    unfold dispatch
    split
    · split
      · exact ⟨_, rfl⟩
      · next p hchoose =>
          obtain ⟨number, hnumber⟩ :=
            hfile _ (h.infinity_lt ha (choose_mem hchoose))
          rw [prepare_infinity, hnumber]
          exact ⟨_, rfl⟩
    · exact ⟨_, rfl⟩
  obtain ⟨c, hc⟩ := hdispatch
  exact ⟨c.advance d, by rw [datapoint_eq_dispatch hd, hc]; rfl⟩

theorem Initial.thrifty
    {W : Workload}
    (h : a.Initial file W) :
    a.Thrifty W.work where
  read := by
    rw [h.pristine.infinity]
    exact Nat.zero_le _
  need := by
    have hC : ∀ i ∈ Finset.range a.countPrime,
        (a.Prime i).C = ((W.jobs[i]?).map (fun job => job.C.toNat)).getD 0 := by
      intro i hi
      obtain ⟨hlt, _, _, _, _, hproc⟩ := h.process (Finset.mem_range.mp hi)
      rw [hproc, List.getElem?_eq_getElem hlt]
      rfl
    rw [Globals.total, Finset.sum_congr rfl hC, h.pristine.countPrime]
    exact sum_getElem (fun job => job.C.toNat) W.jobs

/-- With bursts of one cycle, each cycle of the CPU has had a line of its own. -/
structure Exact (file : RandomFile) (a : Machine) : Prop where
  unit : ∀ i < a.countPrime, (a.Prime i).B = 1
  spent : ∀ p, a.selection = some p → (a.Prime p).CPUBurst = 0
  read : a.infinity = a.total Process.CPUTime
  lines : file.Holds a.infinity

/-- A process whose burst is over leaves the CPU. -/
theorem prepare_selection_none
    (hspent : ∀ p, a.selection = some p → (a.Prime p).CPUBurst = 0) :
    (a.prepare d).selection = none := by
  have hforward : (a.proceedForward d).selection = none := by
    unfold proceedForward
    split
    next hfree => exact hfree
    next p hp =>
      rw [if_pos (hspent p hp)]
      split_ifs <;> rfl
  have hexecute : ∀ c : Machine, c.execxuteB.selection = c.selection := by
    intro c
    unfold execxuteB
    split <;> rfl
  have hcreation : ∀ c : Machine, c.creation.selection = c.selection := by
    intro c
    unfold creation
    split <;> rfl
  rw [prepare, hcreation, hexecute, hforward]

/-- A drawn burst of a process with `B = 1` is one cycle. -/
theorem draw_unit
    {q : Process} {number : Nat}
    (hB : q.B = 1)
    (hpos : 0 < (draw number q).CPUBurst) :
    (draw number q).CPUBurst = 1 := by
  have hle : (draw number q).CPUBurst ≤ 1 := by
    unfold draw Process.assignBurst
    rw [hB, Nat.mod_one]
    split
    next hmore =>
      exact hmore.le
    next =>
      exact le_rfl
  omega

/-- On a free CPU a dispatch has no process to start, or reads a line and starts a
process for one cycle. -/
theorem dispatch_unit
    (hfree : a.selection = none)
    (hB : ∀ p ∈ a.ready, (a.Prime p).B = 1)
    (hburst : ∀ p ∈ a.ready, ∀ number, 0 < (draw number (a.Prime p)).CPUBurst)
    (hb : a.dispatch d file = some b) :
    b.selection = none ∧ b.infinity = a.infinity ∨
      ∃ p number, file a.infinity = some number ∧
        b.selection = some p ∧ (b.Prime p).CPUBurst = 1 ∧
        b.infinity = a.infinity + 1 := by
  cases dispatch_cases hb with
  | busy hbusy => exact absurd hfree hbusy
  | idle => exact .inl ⟨hfree, rfl⟩
  | @start p number _ hchoose hnumber =>
      have hp := choose_mem hchoose
      have hpos := hburst p hp number
      rw [start_eq (.inl hpos)]
      refine .inr ⟨p, number, hnumber, rfl, ?_, rfl⟩
      have hone := draw_unit (hB p hp) hpos
      simpa [modify, launch] using hone

/-- A cycle over bursts of one cycle reads a line exactly when the CPU works. -/
theorem Exact.datapoint
    (h : a.Exact file)
    (hd : d ≠ .block)
    (ha : a.Diligent t)
    (hb : a.datapoint d file = some b) :
    b.Exact file := by
  have hcycle := ha.sound.cycle hb
  have hsound := ha.sound.datapoint hb
  have hcpu := ha.sound.total_CPUTime hb
  have hopen := prepare_opened (d := d) ha.sound.queued ha.sound.arrived
    ha.sound.present_eq
  have hbudget := ha.sound.prepared (d := d).1
  have hunit : ∀ p ∈ (a.prepare d).ready, ((a.prepare d).Prime p).B = 1 := by
    intro p hp
    obtain ⟨hlt, _⟩ :=
      hopen.queued.waiting_spec p (List.mem_append_left _ hp)
    rw [hopen.count] at hlt
    rw [(hopen.moves p hlt).input_eq.2.1]
    exact h.unit p hlt
  have hburst : ∀ p ∈ (a.prepare d).ready, ∀ number,
      0 < (draw number ((a.prepare d).Prime p)).CPUBurst := by
    intro p hp number
    exact draw_pos_of_ready hopen.queued
      (fun i hi => hbudget i (hopen.count ▸ hi)) hp number
  have hB : ∀ i < b.countPrime, (b.Prime i).B = 1 := by
    intro i hi
    rw [hcycle.count] at hi
    obtain ⟨q, hmoves, hq⟩ := hcycle.process i hi
    rw [hq, (Process.countdown_input_eq d q).2.1, hmoves.input_eq.2.1]
    exact h.unit i hi
  rw [datapoint_eq_dispatch hd] at hb
  obtain ⟨c, hc, rfl⟩ := Option.map_eq_some_iff.mp hb
  have hselection : (c.advance d).selection = c.selection := rfl
  have hinfinity : (c.advance d).infinity = c.infinity := rfl
  have hdispatch := dispatch_unit (prepare_selection_none h.spent) hunit hburst hc
  rw [prepare_infinity] at hdispatch
  rcases hdispatch with ⟨hnone, hsame⟩ | ⟨p, number, hnumber, hp, hone, hmore⟩
  · refine ⟨hB, ?_, ?_, ?_⟩
    · intro p hp
      rw [hselection, hnone] at hp
      cases hp
    · rw [hinfinity, hsame, hcpu, if_pos (hselection.trans hnone)]
      exact h.read
    · rw [hinfinity, hsame]
      exact h.lines
  · refine ⟨hB, ?_, ?_, ?_⟩
    · intro i hi
      rw [hselection, hp] at hi
      obtain rfl : p = i := Option.some.inj hi
      obtain ⟨hlt, hrun⟩ := (hsound.queued.selection_iff p).mp hp
      rw [advance_condition] at hrun
      have hc : p < c.countPrime := hlt
      rw [advance_Prime hc, Process.countdown_of_running hrun]
      show decr (c.Prime p).CPUBurst = 0
      rw [hone]
      rfl
    · rw [hinfinity, hmore, hcpu, if_neg (by simp [hselection, hp]), h.read]
    · intro line hline
      rw [hinfinity, hmore] at hline
      rcases Nat.lt_succ_iff_lt_or_eq.mp hline with hlt | rfl
      · exact h.lines line hlt
      · exact ⟨number, hnumber⟩

theorem Initial.exact
    {W : Workload}
    (hB : ∀ job ∈ W.jobs, job.B = 1)
    (h : a.Initial file W) :
    a.Exact file where
  unit := by
    intro i hi
    obtain ⟨hlt, _, _, _, _, hproc⟩ := h.process hi
    rw [hproc]
    exact congrArg UInt32.toNat (hB _ (List.getElem_mem hlt))
  spent := by
    intro p hp
    rw [h.pristine.selection] at hp
    cases hp
  read := by
    rw [h.pristine.infinity, h.total_CPUTime]
  lines := by
    intro line hline
    rw [h.pristine.infinity] at hline
    exact absurd hline (Nat.not_lt_zero line)

end Machine

section Runs

variable {d : Policy} {file : RandomFile} {W : Workload} {s : State}

/-- A file with a line for every cycle that is needed is long enough. -/
theorem Represents.simulate_supplied
    {a : Machine} {n t : Nat}
    (hd : d ≠ .block)
    (hfile : file.Holds n)
    (h : Represents s a)
    (ha : a.Diligent t)
    (hthrifty : a.Thrifty n)
    (fuel : Nat) :
    simulate d file fuel s ≠ .error .endOfFile := by
  induction fuel generalizing s a t with
  | zero =>
      rw [simulate, whileLoop]
      split <;> simp
  | succ fuel ih =>
      rw [simulate, whileLoop]
      split
      · obtain ⟨c, hc⟩ := hthrifty.datapoint_isSome hd ha.sound hfile
        have hsim : Simulates (Scheduler.datapoint d file s)
            (a.datapoint d file) := h.cycle hd ha.sound.orderly
        rw [hc] at hsim
        obtain ⟨s', hs', hrep'⟩ := hsim
        rw [hs']
        exact ih hrep' (ha.datapoint hd hc) (hthrifty.datapoint hd ha hc)
      · simp

theorem Workload.length_le_work
    (W : Workload)
    (hC : ∀ job ∈ W.jobs, 1 ≤ job.C) :
    W.jobs.length ≤ W.work := by
  have hpos : ∀ c ∈ W.jobs.map (fun job => job.C.toNat), 1 ≤ c := by
    intro c hc
    obtain ⟨job, hjob, rfl⟩ := List.mem_map.mp hc
    exact UInt32.le_iff_toNat_le.mp (hC job hjob)
  have hsum := List.length_le_sum_of_one_le _ hpos
  rwa [List.length_map] at hsum

/-- The processes can be read when the file has a line for each of them. -/
theorem load_returns
    (hB : ∀ job ∈ W.jobs, 1 ≤ job.B)
    (hfile : file.Holds W.jobs.length) :
    ∃ s, load file W = .ok s := by
  have hsteps : ∀ rest jobs s, jobs ++ rest = W.jobs → Loaded file jobs s →
      ∃ s', rest.foldlM (loadStep file) s = .ok s' := by
    intro rest
    induction rest with
    | nil =>
        intro jobs s _ _
        exact ⟨s, rfl⟩
    | cons job rest ih =>
        intro jobs s hjobs hloaded
        have hlength := congrArg List.length hjobs
        rw [List.length_append, List.length_cons] at hlength
        have hfits := W.fits
        obtain ⟨number, hnumber⟩ := hfile jobs.length (by omega)
        have hpos : 0 < job.B.toNat :=
          UInt32.le_iff_toNat_le.mp (hB job (hjobs ▸ by simp))
        obtain ⟨s₁, hs₁⟩ : ∃ s₁, loadStep file s job = .ok s₁ := by
          obtain ⟨m, rfl, _⟩ := hloaded
          have hinfinity : (loadedState jobs m).infinity = jobs.length := rfl
          unfold loadStep
          rw [ranomize_eq hpos, hinfinity, hnumber]
          exact ⟨_, rfl⟩
        have hnext := hloaded.step (by omega) hs₁
        obtain ⟨s', hs'⟩ := ih (jobs ++ [job]) s₁ (by simpa using hjobs) hnext
        exact ⟨s', by rw [List.foldlM_cons, hs₁]; exact hs'⟩
  exact hsteps W.jobs [] boot rfl loaded_boot

/-- At every moment of a run at most as many lines have been read as cycles of the
CPU have been given, and never more than the processes need together. -/
theorem Started.read_le
    {t : Nat} {s' : State}
    (hd : d ≠ .block)
    (hC : ∀ job ∈ W.jobs, 1 ≤ job.C)
    (hstart : Started file W s)
    (hrun : ticks d file t s = .ok s') :
    s'.infinity ≤ s'.total Process.CPUTime ∧
      s'.total Process.CPUTime ≤ W.work := by
  obtain ⟨a, hrep, hinit⟩ := hstart.initial
  obtain ⟨b, hb, hrep'⟩ := hrep.ran hd hinit.orderly hrun
  obtain ⟨hdiligent, hthrifty⟩ := Machine.ticks_invariant
    (I := fun t c => c.Diligent t ∧ c.Thrifty W.work)
    ⟨hinit.diligent hC, hinit.thrifty⟩
    (fun _ _ _ hc hstep =>
      ⟨hc.1.datapoint hd hstep, hc.2.datapoint hd hc.1 hstep⟩) hb
  have hread : s'.infinity = b.infinity := hrep'.infinity
  rw [hread, hrep'.total Process.CPUTime (fun _ => rfl), ← hthrifty.need]
  refine ⟨hthrifty.read, Finset.sum_le_sum fun i hi => ?_⟩
  exact (hdiligent.sound.budgeted i (Finset.mem_range.mp hi)).CPUTime_le

/-- A run over bursts of one cycle that ends has read a line for every cycle of
the CPU. -/
theorem Represents.holds_of_returns
    {a : Machine} {s' : State} {fuel : Nat}
    (hd : d ≠ .block)
    (hjobs : ∀ job ∈ W.jobs, job.B = 1 ∧ 1 ≤ job.C)
    (hrep : Represents s a)
    (hinit : a.Initial file W)
    (hs' : simulate d file fuel s = .ok s') :
    file.Holds W.work := by
  have hC : ∀ job ∈ W.jobs, 1 ≤ job.C := fun job hjob => (hjobs job hjob).2
  obtain ⟨T, run, _, hrun, rfl, hstop, _⟩ := whileLoop_rounds hs'
  have hdone : (run T).completion = (run T).countPrime := by
    simpa using hstop
  obtain ⟨b, hb, hrep'⟩ := hrep.ran hd hinit.orderly (hrun T le_rfl)
  obtain ⟨hdiligent, hthrifty, hexact⟩ := Machine.ticks_invariant
    (I := fun t c => c.Diligent t ∧ c.Thrifty W.work ∧ c.Exact file)
    ⟨hinit.diligent hC, hinit.thrifty,
      hinit.exact (fun job hjob => (hjobs job hjob).1)⟩
    (fun _ _ _ hc hstep =>
      ⟨hc.1.datapoint hd hstep, hc.2.1.datapoint hd hc.1 hstep,
        hc.2.2.datapoint hd hc.1 hstep⟩) hb
  rw [hrep'.completion, hrep'.countPrime] at hdone
  have hused : b.total Process.CPUTime = b.total Process.C := by
    refine Finset.sum_congr rfl fun i hi => ?_
    have hi' := Finset.mem_range.mp hi
    have hterminated := hdiligent.sound.queued.all_terminated hdone hi'
    exact (hdiligent.sound.budgeted i hi').terminated hterminated
  have hread := hexact.lines
  rwa [hexact.read, hused, hthrifty.need] at hread

/-- The same for a policy of the whole program. -/
theorem Left.holds_of_returns
    {policies : List Policy} {s' : State} {fuel : Nat}
    (h : Left file W s)
    (hd : d ≠ .block)
    (hmem : d ∈ policies)
    (hjobs : ∀ job ∈ W.jobs, job.B = 1 ∧ 1 ≤ job.C)
    (hs' : listAll file fuel policies s = .ok s') :
    file.Holds W.work := by
  induction policies generalizing s with
  | nil =>
      cases hmem
  | cons e rest ih =>
      obtain ⟨passes, hpasses, hrest⟩ := Result.bind_eq_ok hs'
      rcases List.mem_cons.mp hmem with rfl | hlater
      · obtain ⟨first, hfirst, _⟩ := Result.bind_eq_ok hpasses
        obtain ⟨a, hrep, hinit⟩ := h.started.initial_cleared
        exact hrep.holds_of_returns hd hjobs hinit hfirst
      · exact ih (listoutputs_left h hpasses) hlater hrest

/-- A file with a line for every cycle of CPU time is long enough for the whole
program, under any policies that do not pause; over bursts of one cycle no shorter
one is. -/
theorem policies_supplied
    (hjobs : ∀ job ∈ W.jobs, 1 ≤ job.B ∧ 1 ≤ job.C) :
    (file.Holds W.work →
      ∃ s₀, load file W = .ok s₀ ∧
        ∀ policies : List Policy, (∀ d ∈ policies, d ≠ .block) →
          ∃ n, ∀ fuel, n ≤ fuel →
            ∃ s', listAll file fuel policies s₀ = .ok s') ∧
    ((∀ job ∈ W.jobs, job.B = 1) →
      ∀ s₀, load file W = .ok s₀ →
        ∀ policies fuel s', (∃ d ∈ policies, d ≠ .block) →
          listAll file fuel policies s₀ = .ok s' → file.Holds W.work) := by
  have hC : ∀ job ∈ W.jobs, 1 ≤ job.C := fun job hjob => (hjobs job hjob).2
  refine ⟨fun hfile => ?_, fun hunit s₀ hload policies fuel s' hsome hs' => ?_⟩
  · have hfirst : file.Holds W.jobs.length := fun line hline =>
      hfile line (lt_of_lt_of_le hline (W.length_le_work hC))
    obtain ⟨s₀, hload⟩ := load_returns (fun job hjob => (hjobs job hjob).1) hfirst
    refine ⟨s₀, hload, fun policies hpolicies => ?_⟩
    obtain ⟨a, hrep, hinit⟩ := load_initial hload
    refine listAll_returns hC hload policies (fun d hd => ?_) (load_left hload)
    exact ⟨hpolicies d hd, hrep.simulate_supplied (hpolicies d hd) hfile
      (hinit.diligent hC) hinit.thrifty⟩
  · obtain ⟨d, hmem, hd⟩ := hsome
    exact (load_left hload).holds_of_returns hd hmem
      (fun job hjob => ⟨hunit job hjob, hC job hjob⟩) hs'

/-- A file of four lines. -/
def shortFile : RandomFile :=
  fun line => if line < 4 then some line else none

theorem twoJobs_supplied :
    ∃ s₀, load shortFile twoJobs = .ok s₀ ∧
      ∃ n, ∀ fuel, n ≤ fuel →
        ∃ s', listAll shortFile fuel [.sjf, .rr, .fcfs] s₀ = .ok s' := by
  have hfile : shortFile.Holds twoJobs.work := by
    intro line hline
    exact ⟨line, if_pos hline⟩
  obtain ⟨s₀, hload, hruns⟩ :=
    (policies_supplied (W := twoJobs) (by decide)).1 hfile
  exact ⟨s₀, hload, hruns [.sjf, .rr, .fcfs] (by decide)⟩

end Runs

end Scheduler
end PastWork
