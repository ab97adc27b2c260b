import PastWork.Scheduler.Termination

/-!
# Round Robin is fair

`Turn` says what a cycle of Round Robin does: the running process goes on while
its quantum lasts, or else the front of the ready queue is dispatched, and
whatever becomes ready is appended behind.  The number of cycles until a process
is dispatched is bounded by its place in the queue and the quantum that is left.
-/

namespace PastWork
namespace Scheduler

open Links

/-- In the cycle that begins in `s` the process is taken from the ready queue. -/
def Dispatched
    (d : Policy) (file : RandomFile) (s : State) (p : Nat) : Prop :=
  ∃ s₁ s₂, prepare d s = .ok s₁ ∧ s₁.selection = none ∧
    executeR d file s₁ = .ok s₂ ∧ s₂.selection = some p

namespace Machine

/-- The machine dispatches a process in this cycle. -/
def Dispatches (d : Policy) (file : RandomFile) (a : Machine) (p : Nat) : Prop :=
  (a.prepare d).selection = none ∧
    ∃ e, (a.prepare d).dispatch d file = some e ∧ e.selection = some p

/-- What a cycle of Round Robin does to the running process and the queue. -/
inductive Turn (file : RandomFile) (a b : Machine) : Prop
  | keep (p : Nat) (more : List Nat)
      (hbefore : a.selection = some p)
      (hquantum : 0 < (a.Prime p).quantum)
      (hafter : b.selection = some p)
      (hleft : (b.Prime p).quantum = (a.Prime p).quantum - 1)
      (hready : b.ready = a.ready ++ more) :
      Turn file a b
  | serve (p : Nat) (more : List Nat)
      (hserved : a.Dispatches .rr file p)
      (hafter : b.selection = some p)
      (hleft : (b.Prime p).quantum = 1)
      (hready : p :: b.ready = a.ready ++ more) :
      Turn file a b
  | idle
      (hbefore : a.ready = [])
      (hafter : b.selection = none) :
      Turn file a b

section Turns

variable {file : RandomFile} {a b : Machine} {t p : Nat}

/-- Processes are only appended to the queue before the dispatch. -/
theorem prepare_appends
    (d : Policy) (a : Machine) :
    ∃ more, (a.prepare d).ready = a.ready ++ more := by
  have hforward : ∃ more, (a.proceedForward d).ready = a.ready ++ more := by
    unfold proceedForward
    split
    · exact ⟨[], (List.append_nil _).symm⟩
    next p hp =>
        split_ifs
        · exact ⟨[], (List.append_nil _).symm⟩
        · exact ⟨[], (List.append_nil _).symm⟩
        · exact ⟨[p], rfl⟩
        · exact ⟨[], (List.append_nil _).symm⟩
  have hexecute : ∀ c : Machine, ∃ more, c.execxuteB.ready = c.ready ++ more := by
    intro c
    unfold execxuteB
    split
    · exact ⟨[], (List.append_nil _).symm⟩
    · exact ⟨_, rfl⟩
  have hcreation : ∀ c : Machine, ∃ more, c.creation.ready = c.ready ++ more := by
    intro c
    unfold creation
    split
    · exact ⟨_, rfl⟩
    · exact ⟨[], (List.append_nil _).symm⟩
  obtain ⟨l₁, h₁⟩ := hforward
  obtain ⟨l₂, h₂⟩ := hexecute (a.proceedForward d)
  obtain ⟨l₃, h₃⟩ := hcreation (a.proceedForward d).execxuteB
  refine ⟨l₁ ++ (l₂ ++ l₃), ?_⟩
  rw [prepare, h₃, h₂, h₁]
  simp only [List.append_assoc]

theorem execxuteB_running
    (a : Machine) (i : Nat) :
    a.execxuteB.selection = a.selection ∧
      (a.execxuteB.Prime i).quantum = (a.Prime i).quantum := by
  unfold execxuteB
  split
  · exact ⟨rfl, rfl⟩
  · exact ⟨rfl, update_field Process.quantum _ _ _ (fun _ => rfl)⟩

theorem creation_running
    (a : Machine) (i : Nat) :
    a.creation.selection = a.selection ∧
      (a.creation.Prime i).quantum = (a.Prime i).quantum := by
  unfold creation
  split
  · refine ⟨rfl, ?_⟩
    simp only [arrive]
    split <;> rfl
  · exact ⟨rfl, rfl⟩

/-- A process that runs on has some of its quantum left. -/
theorem prepare_running
    (hp : (a.prepare .rr).selection = some p) :
    a.selection = some p ∧ 0 < (a.Prime p).quantum ∧
      ((a.prepare .rr).Prime p).quantum = (a.Prime p).quantum := by
  have hexecute := execxuteB_running (a.proceedForward .rr) p
  have hcreation := creation_running (a.proceedForward .rr).execxuteB p
  rw [prepare, hcreation.1, hexecute.1] at hp
  rw [prepare, hcreation.2, hexecute.2]
  clear hexecute hcreation
  unfold proceedForward at hp ⊢
  cases hsel : a.selection with
  | none =>
      simp only [hsel] at hp
      cases hp
  | some q =>
      simp only [hsel] at hp ⊢
      split_ifs at hp ⊢ with hdone hburst hquantum
      · cases hp
      · cases hp
      · cases hp
      · have hq : a.selection = some p := hp
        obtain rfl : q = p := Option.some.inj (hsel.symm.trans hq)
        refine ⟨rfl, ?_, ?_⟩
        · by_contra hle
          exact hquantum ⟨trivial, not_lt.mp hle⟩
        · simp [keepRunning, modify, Process.chargeBurst_eq]

/-- The timers use one unit of the quantum of the running process. -/
theorem advance_quantum
    (h : a.Queued)
    (hp : a.selection = some p) :
    ((a.advance .rr).Prime p).quantum = (a.Prime p).quantum - 1 := by
  obtain ⟨hlt, hcond⟩ := (h.selection_iff p).mp hp
  rw [advance_Prime hlt]
  simp [Process.countdown, hcond]

/-- What one cycle does. -/
theorem Diligent.turn
    (h : a.Diligent t)
    (hb : a.datapoint .rr file = some b) :
    Turn file a b := by
  have hd : Policy.rr ≠ .block := by decide
  have hlive := h.launchable hd
  have hopen := prepare_opened (d := .rr) h.sound.queued h.sound.arrived
    h.sound.present_eq
  rw [datapoint_eq_dispatch hd] at hb
  obtain ⟨e, he, rfl⟩ := Option.map_eq_some_iff.mp hb
  have hphase := dispatch_phase hopen.queued hlive he
  obtain ⟨more, hmore⟩ := prepare_appends .rr a
  cases hsel : (a.prepare .rr).selection with
  | some p =>
      obtain ⟨hbefore, hquantum, hsame⟩ := prepare_running hsel
      have hnone : ¬ (a.prepare .rr).selection = none := by simp [hsel]
      rw [dispatch, if_neg hnone] at he
      obtain rfl := Option.some.inj he
      refine .keep p more hbefore hquantum hsel ?_ hmore
      rw [advance_quantum hopen.queued hsel, hsame]
  | none =>
      have hhead : (a.prepare .rr).choose .rr = (a.ready ++ more).head? := by
        rw [choose, if_neg (by decide), hmore]
      cases hchoose : (a.prepare .rr).choose .rr with
      | none =>
          rw [hhead] at hchoose
          have hempty := List.head?_eq_none_iff.mp hchoose
          rw [dispatch, if_pos hsel, hhead, hchoose] at he
          obtain rfl := Option.some.inj he
          exact .idle (List.append_eq_nil_iff.mp hempty).1 hsel
      | some p =>
          have hserved := he
          rw [dispatch, if_pos hsel, hchoose] at he
          obtain ⟨number, _, rfl⟩ := Option.map_eq_some_iff.mp he
          have hstart := start_eq (hlive hsel p number hchoose)
          have hselected : ((a.prepare .rr).start .rr p number).selection =
              some p := by
            rw [hstart]
          obtain ⟨rest, hrest⟩ :=
            List.head?_eq_some_iff.mp (hhead.symm.trans hchoose)
          refine .serve p more ⟨hsel, _, hserved, hselected⟩ hselected ?_ ?_
          · rw [advance_quantum hphase.queued hselected, hstart]
            simp [modify, launch]
          · show p :: ((a.prepare .rr).start .rr p number).ready = _
            rw [hstart, hmore, hrest]
            simp

end Turns

section Waiting

variable {file : RandomFile} {t : Nat} {run : Nat → Machine}

/-- A run of Round Robin in which the running process never has more than one
cycle of its quantum left. -/
structure Rotates (file : RandomFile) (t : Nat) (run : Nat → Machine) :
    Prop where
  cycle : ∀ n, (run n).datapoint .rr file = some (run (n + 1))
  diligent : ∀ n, (run n).Diligent (t + n)
  quantum : ∀ n p, (run n).selection = some p → ((run n).Prime p).quantum ≤ 1

/-- The cycles until the process at place `k` is dispatched, at most: two for
each one before it, and one or two for the running process `p`. -/
def turnsLeft (a : Machine) (p k : Nat) : Nat :=
  2 * k + if 0 < (a.Prime p).quantum then 2 else 1

/-- The bound falls in every cycle in which the process is not dispatched. -/
theorem Rotates.served
    (h : Rotates file t run)
    {q : Nat} (m : Nat) :
    ∀ n k p, (run n).selection = some p → (run n).ready[k]? = some q →
      (run n).turnsLeft p k ≤ m →
      ∃ j < m, (run (n + j)).Dispatches .rr file q := by
  induction m with
  | zero =>
      intro n k p _ _ hm
      unfold turnsLeft at hm
      split at hm <;> omega
  | succ m ih =>
      intro n k p hp hq hm
      -- what the rest of the run makes of a later cycle
      have hlater : (∃ j < m, (run (n + 1 + j)).Dispatches .rr file q) →
          ∃ j < m + 1, (run (n + j)).Dispatches .rr file q := by
        rintro ⟨j, hj, hserved⟩
        refine ⟨j + 1, by omega, ?_⟩
        rwa [show n + (j + 1) = n + 1 + j by omega]
      cases (h.diligent n).turn (h.cycle n) with
      | keep p' more hbefore hquantum hafter hleft hready =>
          obtain rfl : p = p' := Option.some.inj (hp.symm.trans hbefore)
          have hone := h.quantum n p hp
          apply hlater
          refine ih (n + 1) k p hafter ?_ ?_
          · rw [hready, List.getElem?_append_left
              (List.getElem?_eq_some_iff.mp hq).1, hq]
          · unfold turnsLeft at hm ⊢
            rw [if_pos hquantum] at hm
            rw [if_neg (by omega)]
            omega
      | serve p' more hserved hafter hleft hready =>
          have hplace : (p' :: (run (n + 1)).ready)[k]? = some q := by
            rw [hready, List.getElem?_append_left
              (List.getElem?_eq_some_iff.mp hq).1, hq]
          cases k with
          | zero =>
              obtain rfl : p' = q := by simpa using hplace
              exact ⟨0, by omega, hserved⟩
          | succ k =>
              apply hlater
              refine ih (n + 1) k p' hafter (by simpa using hplace) ?_
              unfold turnsLeft at hm ⊢
              rw [hleft, if_pos (by decide)]
              split at hm <;> omega
      | idle hbefore hafter =>
          rw [hbefore] at hq
          cases hq

/-- A process that is running at three ends of cycles in a row has been
dispatched in one of the last two. -/
theorem Rotates.rotates
    (h : Rotates file t run)
    {n p : Nat}
    (h₀ : (run n).selection = some p)
    (h₁ : (run (n + 1)).selection = some p)
    (h₂ : (run (n + 2)).selection = some p) :
    (run n).Dispatches .rr file p ∨ (run (n + 1)).Dispatches .rr file p := by
  have hone := h.quantum n p h₀
  cases (h.diligent n).turn (h.cycle n) with
  | keep p' more hbefore hquantum hafter hleft hready =>
      obtain rfl : p = p' := Option.some.inj (h₀.symm.trans hbefore)
      cases (h.diligent (n + 1)).turn (h.cycle (n + 1)) with
      | keep p' more hbefore' hquantum' =>
          obtain rfl : p = p' := Option.some.inj (h₁.symm.trans hbefore')
          omega
      | serve p' more hserved hafter' =>
          obtain rfl : p = p' := Option.some.inj (h₂.symm.trans hafter')
          exact .inr hserved
      | idle _ hafter' =>
          rw [h₂] at hafter'
          cases hafter'
  | serve p' more hserved hafter =>
      obtain rfl : p = p' := Option.some.inj (h₁.symm.trans hafter)
      exact .inl hserved
  | idle _ hafter =>
      rw [h₁] at hafter
      cases hafter

/-- The running process has at most one unit of its quantum left. -/
theorem Diligent.quantum_le
    {a b : Machine}
    (h : a.Diligent t)
    (hb : a.datapoint .rr file = some b)
    (hquantum : ∀ p, a.selection = some p → (a.Prime p).quantum ≤ 1) :
    ∀ p, b.selection = some p → (b.Prime p).quantum ≤ 1 := by
  intro p hp
  cases h.turn hb with
  | keep p' more hbefore _ hafter hleft =>
      obtain rfl : p = p' := Option.some.inj (hp.symm.trans hafter)
      have := hquantum p hbefore
      omega
  | serve p' more _ hafter hleft =>
      obtain rfl : p = p' := Option.some.inj (hp.symm.trans hafter)
      omega
  | idle _ hafter =>
      rw [hp] at hafter
      cases hafter

end Waiting

end Machine

section Runs

variable {file : RandomFile} {W : Workload} {s s₀ : State} {t : Nat}

/-- What the machine dispatches is dispatched. -/
theorem Represents.dispatched
    {a : Machine} {p : Nat}
    (h : Represents s a)
    (hsound : a.Sound t)
    (hserved : a.Dispatches .rr file p) :
    Dispatched .rr file s p := by
  obtain ⟨hfree, e, he, hp⟩ := hserved
  obtain ⟨s₁, hs₁, h₁, hexec⟩ :=
    h.parts (d := .rr) file (by decide) hsound.orderly
  rw [he] at hexec
  obtain ⟨s₂, hs₂, h₂⟩ := hexec
  exact ⟨s₁, s₂, hs₁, h₁.selection.trans hfree, hs₂, h₂.selection.trans hp⟩

/-- A run of the simulator is a rotating run of the machine. -/
theorem Started.rotates
    (hfile : file.Endless)
    (hC : ∀ job ∈ W.jobs, 1 ≤ job.C)
    (hstart : Started file W s₀) :
    ∃ (run : Nat → State) (m : Nat → Machine),
      (∀ n, ticks .rr file n s₀ = .ok (run n)) ∧
      (∀ n, Represents (run n) (m n)) ∧ Machine.Rotates file 0 m := by
  have hd : Policy.rr ≠ .block := by decide
  obtain ⟨a, hrep, hinit⟩ := hstart.initial
  have hdiligent := hinit.diligent hC
  choose run m hrun hm hreps using hrep.ticks_ok hd hfile hdiligent.sound.orderly
  have hlast : ∀ n, (m n).Diligent n := fun n =>
    Machine.ticks_invariant hdiligent
      (fun _ _ _ hc hstep => hc.datapoint hd hstep) (hm n)
  have hcycle : ∀ n, (m n).datapoint .rr file = some (m (n + 1)) := by
    intro n
    obtain ⟨c, hc, hnext⟩ := Machine.ticks_succ (hm (n + 1))
    rw [hm n] at hc
    rwa [← Option.some.inj hc] at hnext
  refine ⟨run, m, hrun, hreps, hcycle, ?_, ?_⟩
  · intro n
    rw [Nat.zero_add]
    exact hlast n
  · intro n
    induction n with
    | zero =>
        intro p hp
        obtain rfl : a = m 0 := Option.some.inj (hm 0)
        rw [hinit.pristine.selection] at hp
        cases hp
    | succ n ih =>
        exact (hlast n).quantum_le (hcycle n) ih

/-- No process keeps the CPU for more than two cycles without a dispatch, and
the process at place `k` of the ready queue is dispatched within the next
`2 * (k + 1)` cycles. -/
theorem rr_fair
    (hfile : file.Endless)
    (hjobs : ∀ job ∈ W.jobs, 1 ≤ job.B ∧ 1 ≤ job.C)
    (hstart : Started file W s₀) :
    ∃ run : Nat → State, (∀ n, ticks .rr file n s₀ = .ok (run n)) ∧
      (∀ n p, (run n).selection = some p →
        (run (n + 1)).selection = some p →
        (run (n + 2)).selection = some p →
          Dispatched .rr file (run n) p ∨
            Dispatched .rr file (run (n + 1)) p) ∧
      ∀ n ready k p,
        Linked (fun i => ((run n).Prime i).freshPrime)
          (run n).Afront (run n).Aback ready →
        ready[k]? = some p →
          ∃ j < 2 * (k + 1), Dispatched .rr file (run (n + j)) p := by
  obtain ⟨run, m, hrun, hreps, hrotates⟩ :=
    hstart.rotates hfile (fun job hjob => (hjobs job hjob).2)
  have hserved : ∀ n p, (m n).Dispatches .rr file p →
      Dispatched .rr file (run n) p := fun n p h =>
    (hreps n).dispatched (hrotates.diligent n).sound h
  refine ⟨run, hrun, ?_, ?_⟩
  · intro n p h₀ h₁ h₂
    rw [(hreps _).selection] at h₀ h₁ h₂
    exact (hrotates.rotates h₀ h₁ h₂).imp (hserved n p) (hserved (n + 1) p)
  · intro n ready k p hlinked hk
    obtain rfl : ready = (m n).ready :=
      hlinked.chain.unique (hreps n).threaded.readyLinks.chain
    cases hsel : (m n).selection with
    | none =>
        rw [(hrotates.diligent n).busy hsel] at hk
        cases hk
    | some c =>
        obtain ⟨j, hj, hdispatch⟩ :=
          hrotates.served (2 * (k + 1)) n k c hsel hk (by
            unfold Machine.turnsLeft
            split <;> omega)
        exact ⟨j, hj, hserved _ _ hdispatch⟩

theorem twoJobs_fair :
    ∃ (s₀ : State) (run : Nat → State), Started steadyFile twoJobs s₀ ∧
      (∀ n, ticks .rr steadyFile n s₀ = .ok (run n)) ∧
      ∀ n p, (run n).selection = some p →
        (run (n + 1)).selection = some p →
        (run (n + 2)).selection = some p →
          Dispatched .rr steadyFile (run n) p ∨
            Dispatched .rr steadyFile (run (n + 1)) p := by
  obtain ⟨s₀, hstart⟩ := twoJobs_started
  obtain ⟨run, hrun, hkeeps, _⟩ :=
    rr_fair steadyFile_endless (by decide) hstart
  exact ⟨s₀, run, hstart, hrun, hkeeps⟩

end Runs

end Scheduler
end PastWork
