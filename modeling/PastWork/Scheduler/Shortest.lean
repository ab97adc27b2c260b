import Mathlib.Data.List.MinMax
import PastWork.Scheduler.Run

/-!
# Shortest job first

The dispatch under SJF takes the first of the ready processes with the least
time left, wherever it stands in the queue, and leaves the others in their
order.  A process that needs no CPU time is started as well; it runs until its CPU
time has wrapped around.
-/

namespace PastWork
namespace Scheduler

open Links

/-- The time a process still needs. -/
def State.left (s : State) (i : Nat) : Nat :=
  (s.Prime i).C - (s.Prime i).CPUTime

/-- The process `p` has been dispatched from its place in the ready queue:
those before it need more time, and those behind it not less. -/
structure ShortestTaken
    (s s' : State) (p : Nat) (pre post : List Nat) : Prop where
  before : Linked (fun i => (s.Prime i).freshPrime)
    s.Afront s.Aback (pre ++ p :: post)
  after : Linked (fun i => (s'.Prime i).freshPrime)
    s'.Afront s'.Aback (pre ++ post)
  placement_eq : s'.placement = (pre ++ post).length
  selection : s'.selection = some p
  running : (s'.Prime p).condition = .running
  longer : ∀ i ∈ pre, s.left p < s.left i
  least : ∀ i ∈ post, s.left p ≤ s.left i

/-- The element that `argmin` takes parts the list. -/
theorem argmin_split
    {f : Nat → Nat} {l : List Nat} {p : Nat}
    (h : l.argmin f = some p) :
    ∃ pre post, l = pre ++ p :: post ∧ p ∉ pre ∧
      (∀ i ∈ pre, f p < f i) ∧ ∀ i ∈ post, f p ≤ f i := by
  have hmin : ∀ i ∈ l, f p ≤ f i := fun i hi =>
    List.le_of_mem_argmin hi h
  obtain ⟨pre, post, hl, hnot⟩ :=
    List.eq_append_cons_of_mem (List.argmin_mem h)
  refine ⟨pre, post, hl, hnot, ?_, ?_⟩
  · intro i hi
    have hmem : i ∈ l := by
      rw [hl]
      exact List.mem_append_left _ hi
    by_contra hle
    -- the first of the least elements does not stand behind another one
    have hidx := List.index_of_argmin h hmem (not_lt.mp hle)
    rw [hl, List.idxOf_append_of_notMem hnot, List.idxOf_cons_self,
      List.idxOf_append_of_mem hi] at hidx
    have hlt := List.idxOf_lt_length_of_mem hi
    omega
  · intro i hi
    apply hmin
    rw [hl]
    exact List.mem_append_right _ (List.mem_cons_of_mem _ hi)

/-- The CPU time of a process under SJF: while it waits it has some left, unless it
needs none, and one that needs none runs until its CPU time has wrapped around. -/
structure Process.Spends (q : Process) : Prop where
  waiting : q.condition ≠ .running → q.condition ≠ .terminated →
    q.CPUTime < q.C ∨ q.C = 0 ∧ q.CPUTime = 0
  running : q.condition = .running →
    q.CPUTime + q.CPUBurst ≤ q.C ∨
      q.C = 0 ∧ (q.CPUTime + q.CPUBurst) % 2 ^ 32 = 0

section Spending

variable {file : RandomFile} {present t : Nat} {q q' : Process} {a b : Machine}

theorem Process.Spends.of_moves
    (hmove : Process.Moves .sjf present q q')
    (hfits : q.Fits)
    (h : q.Spends) :
    q'.Spends := by
  have hcpu := hfits.CPUTime_lt
  cases hmove with
  | terminate hcond hdone =>
      exact ⟨fun _ hactive => absurd rfl hactive, fun hrun => by cases hrun⟩
  | block hcond hleft hburst =>
      have hrun := h.running hcond
      refine ⟨fun _ _ => ?_, fun hrun => by cases hrun⟩
      rw [Process.chargeBurst_eq]
      show q.CPUTime < q.C ∨ q.C = 0 ∧ q.CPUTime = 0
      omega
  | preempt hcond hleft hburst hrr =>
      cases hrr
  | keep hcond hleft hburst hquantum =>
      have hrun := h.running hcond
      rw [Process.chargeBurst_eq]
      exact ⟨fun hnot => absurd rfl hnot, fun _ => hrun⟩
  | release hcond hexpired =>
      exact ⟨fun _ _ => h.waiting (by simp [hcond]) (by simp [hcond]),
        fun hrun => by cases hrun⟩
  | arrive hcond hA =>
      exact ⟨fun _ _ => h.waiting (by simp [hcond]) (by simp [hcond]),
        fun hrun => by cases hrun⟩
  | launch number hcond hburst =>
      have hleft := h.waiting (by simp [hcond]) (by simp [hcond])
      have hremaining := hfits.remaining_eq (by omega)
      have hle := Process.draw_le_remaining number q
      refine ⟨fun hnot => absurd rfl hnot, fun _ => .inl ?_⟩
      show q.CPUTime + (Machine.draw number q).CPUBurst ≤ q.C
      omega

theorem Process.Spends.countdown
    (h : q.Spends)
    (hlive : q.condition = .running → 0 < q.CPUBurst ∨ q.C = 0)
    (hfits : q.Fits) :
    (q.countdown .sjf).Spends := by
  have hcond := Process.countdown_condition .sjf q
  obtain ⟨_, _, hC, _⟩ := Process.countdown_input_eq .sjf q
  have hClt := hfits.C_lt
  cases hc : q.condition with
  | running =>
      have hsum := h.running hc
      have hpos := hlive hc
      have hstep : (q.countdown .sjf).CPUTime = incr q.CPUTime ∧
          (q.countdown .sjf).CPUBurst = decr q.CPUBurst := by
        simp only [Process.countdown, hc, and_self]
      refine ⟨fun hnot => absurd (hcond.trans hc) hnot, fun _ => ?_⟩
      rw [hstep.1, hstep.2, hC, incr, decr]
      omega
  | unstarted | ready | blocked | terminated =>
      have hcpu : (q.countdown .sjf).CPUTime = q.CPUTime := by
        simp only [Process.countdown, hc]
      rw [hc] at hcond
      refine ⟨fun hnot hactive => ?_, fun hrun => by rw [hcond] at hrun; cases hrun⟩
      rw [hcond] at hnot hactive
      rw [hcpu, hC]
      exact h.waiting (hc ▸ hnot) (hc ▸ hactive)

/-- A process that SJF dispatches has a burst, unless it needs no CPU time. -/
theorem Machine.dispatch_burst
    {p : Nat}
    (hq : a.Queued)
    (hlively : a.Lively)
    (hspends : ∀ i < a.countPrime,
      (a.Prime i).Fits ∧ (a.Prime i).Spends)
    (hb : a.dispatch .sjf file = some b)
    (hp : b.selection = some p) :
    0 < (b.Prime p).CPUBurst ∨ (b.Prime p).C = 0 := by
  cases Machine.dispatch_cases hb with
  | busy | idle => exact .inl (hlively p hp)
  | @start i number _ hchoose =>
      rw [Machine.start_eq (.inr rfl)] at hp ⊢
      obtain rfl : i = p := Option.some.inj hp
      obtain ⟨hlt, hcond⟩ :=
        hq.waiting_spec i (List.mem_append_left _ (Machine.choose_mem hchoose))
      obtain ⟨hfits, hspent⟩ := hspends i hlt
      rcases hspent.waiting (by simp [hcond]) (by simp [hcond]) with
        hleft | ⟨hzero, _⟩
      · refine .inl ?_
        simpa [Machine.modify, Machine.launch] using
          hfits.draw_pos (by omega) number
      · refine .inr ?_
        simpa [Machine.modify, Machine.launch, Machine.draw,
          Process.assignBurst] using hzero

theorem Machine.Orderly.prepared_spends
    (h : a.Orderly t)
    (hspends : ∀ i < a.countPrime, (a.Prime i).Spends) :
    ∀ i < (a.prepare .sjf).countPrime,
      ((a.prepare .sjf).Prime i).Fits ∧ ((a.prepare .sjf).Prime i).Spends := by
  have hopen := Machine.prepare_opened (d := .sjf) h.queued h.arrived h.present_eq
  intro i hi
  rw [hopen.count] at hi
  exact (hopen.moves i hi).preserves (P := fun q => q.Fits ∧ q.Spends)
    (fun _ _ hmove hq => ⟨hq.1.of_moves hmove, hq.2.of_moves hmove hq.1⟩)
    ⟨h.fits i hi, hspends i hi⟩

theorem Machine.Orderly.spends
    (h : a.Orderly t)
    (hspends : ∀ i < a.countPrime, (a.Prime i).Spends)
    (hb : a.datapoint .sjf file = some b) :
    ∀ i < b.countPrime, (b.Prime i).Spends := by
  rw [Machine.datapoint_eq_dispatch (by decide)] at hb
  obtain ⟨e, he, rfl⟩ := Option.map_eq_some_iff.mp hb
  have hopen := Machine.prepare_opened (d := .sjf) h.queued h.arrived h.present_eq
  have hprepared := h.prepared_spends hspends
  have hphase := Machine.dispatch_phase hopen.queued
    (fun _ _ _ _ => .inr rfl) he
  intro i hi
  have hlt : i < e.countPrime := hi
  have hmoved : (e.Prime i).Fits ∧ (e.Prime i).Spends :=
    (hphase.moves i (hphase.count ▸ hlt)).preserves
      (P := fun q => q.Fits ∧ q.Spends)
      (fun _ _ hmove hq => ⟨hq.1.of_moves hmove, hq.2.of_moves hmove hq.1⟩)
      (hprepared i (hphase.count ▸ hlt))
  rw [Machine.advance_Prime hlt]
  refine hmoved.2.countdown (fun hrun => ?_) hmoved.1
  exact Machine.dispatch_burst hopen.queued Machine.prepare_lively hprepared he
    ((hphase.queued.selection_iff i).mpr ⟨hlt, hrun⟩)

/-- In a run under SJF all processes spend their CPU time like this. -/
theorem Machine.Initial.spends
    {W : Workload}
    (h : a.Initial file W)
    (hb : a.ticks .sjf file t = some b) :
    ∀ i < b.countPrime, (b.Prime i).Spends := by
  refine (Machine.ticks_invariant
    (I := fun t c => c.Orderly t ∧ ∀ i < c.countPrime, (c.Prime i).Spends)
    ⟨h.orderly, fun i hi => ?_⟩ ?_ hb).2
  · obtain ⟨_, _, _, _, _, hproc⟩ := h.process hi
    rw [hproc]
    refine ⟨fun _ _ => ?_, fun hrun => by cases hrun⟩
    show 0 < _ ∨ _ = 0 ∧ 0 = 0
    omega
  · rintro t c e ⟨horderly, hspends⟩ hstep
    exact ⟨horderly.datapoint hstep, horderly.spends hspends hstep⟩

end Spending

section Dispatch

variable {file : RandomFile} {s s' : State} {a b : Machine} {p : Nat}

/-- What the dispatch makes of the machine. -/
theorem Machine.dispatch_shortest
    (hfree : a.selection = none)
    (hp : a.choose .sjf = some p)
    (hb : a.dispatch .sjf file = some b) :
    b.selection = some p ∧ b.ready = a.ready.erase p ∧
      (b.Prime p).condition = .running := by
  cases Machine.dispatch_cases hb with
  | busy hbusy => exact absurd hfree hbusy
  | idle _ hnone =>
      rw [hp] at hnone
      cases hnone
  | start _ hchoose =>
      obtain rfl := Option.some.inj (hp.symm.trans hchoose)
      rw [Machine.start_eq (.inr rfl)]
      refine ⟨rfl, rfl, ?_⟩
      simp [Machine.modify, Machine.launch]

/-- The chosen process is the first with the least time left. -/
theorem Represents.shortestTaken
    (h : Represents s a)
    (h' : Represents s' b)
    (hq : a.Queued)
    (hspends : ∀ i < a.countPrime,
      (a.Prime i).Fits ∧ (a.Prime i).Spends)
    (hfree : a.selection = none)
    (hp : a.choose .sjf = some p)
    (hb : a.dispatch .sjf file = some b) :
    ∃ pre post, ShortestTaken s s' p pre post := by
  have hargmin : a.ready.argmin (fun i => (a.Prime i).remaining) = some p := by
    simpa [Machine.choose] using hp
  have hleft : ∀ i ∈ a.ready, (a.Prime i).remaining = s.left i := by
    intro i hi
    obtain ⟨hlt, hcond⟩ := hq.ready_spec hi
    obtain ⟨hfits, hspent⟩ := hspends i hlt
    have hleft := hspent.waiting (by simp [hcond]) (by simp [hcond])
    rw [State.left, h.field Process.C (fun _ => rfl),
      h.field Process.CPUTime (fun _ => rfl)]
    exact hfits.remaining_eq (by omega)
  obtain ⟨pre, post, hready, hnot, hpre, hpost⟩ := argmin_split hargmin
  obtain ⟨hselection, herase, hrunning⟩ :=
    Machine.dispatch_shortest hfree hp hb
  have hrest : b.ready = pre ++ post := by
    rw [herase, hready, List.erase_append_right _ hnot, List.erase_cons_head]
  have hmem : p ∈ a.ready := Machine.choose_mem hp
  refine ⟨pre, post, ?_⟩
  exact
    { before := hready ▸ h.threaded.readyLinks
      after := hrest ▸ h'.threaded.readyLinks
      placement_eq := by rw [h'.threaded.placement_eq, hrest]
      selection := h'.selection.trans hselection
      running := by
        rw [h'.field Process.condition (fun _ => rfl)]
        exact hrunning
      longer := fun i hi => by
        have hi' : i ∈ a.ready := by
          rw [hready]
          exact List.mem_append_left _ hi
        rw [← hleft p hmem, ← hleft i hi']
        exact hpre i hi
      least := fun i hi => by
        have hi' : i ∈ a.ready := by
          rw [hready]
          exact List.mem_append_right _ (List.mem_cons_of_mem _ hi)
        rw [← hleft p hmem, ← hleft i hi']
        exact hpost i hi }

end Dispatch

/-- In every state that SJF reaches, the dispatch takes the first of the ready
processes with the least time left.  It reads a line of the random file, so there
has to be one. -/
theorem executeR_shortest
    {file : RandomFile} {W : Workload} {s₀ s s₁ : State} {t : Nat}
    (hstart : Started file W s₀)
    (hrun : ticks .sjf file t s₀ = .ok s)
    (hprepare : prepare .sjf s = .ok s₁)
    (hready : s₁.placement ≠ 0)
    (hfree : s₁.selection = none)
    (hnumber : (file s₁.infinity).isSome) :
    ∃ s₂ p pre post, executeR .sjf file s₁ = .ok s₂ ∧
      ShortestTaken s₁ s₂ p pre post := by
  have hd : Policy.sjf ≠ .block := by decide
  obtain ⟨_, a, hinit, ha, hrep, horderly⟩ := hstart.reached hd hrun
  obtain ⟨s', hs', h₁, hsim⟩ := hrep.parts file hd horderly
  obtain rfl : s' = s₁ := Except.ok.inj (hs'.symm.trans hprepare)
  have hopen := Machine.prepare_opened (d := .sjf) horderly.queued
    horderly.arrived horderly.present_eq
  have hspends := horderly.prepared_spends (hinit.spends ha)
  have hfree' : (a.prepare .sjf).selection = none :=
    h₁.selection.symm.trans hfree
  have hne : (a.prepare .sjf).ready ≠ [] := h₁.placement_ne_zero.mp hready
  obtain ⟨p, hp⟩ : ∃ p, (a.prepare .sjf).choose .sjf = some p := by
    apply Option.ne_none_iff_exists'.mp
    intro hnone
    apply hne
    simpa [Machine.choose] using hnone
  obtain ⟨number, hline⟩ := Option.isSome_iff_exists.mp hnumber
  rw [h₁.infinity] at hline
  obtain ⟨b, hb⟩ : ∃ b, (a.prepare .sjf).dispatch .sjf file = some b := by
    unfold Machine.dispatch
    rw [if_pos hfree', hp]
    simp only [hline, Option.map_some]
    exact ⟨_, rfl⟩
  rw [hb] at hsim
  obtain ⟨s₂, hs₂, h₂⟩ := hsim
  obtain ⟨pre, post, htaken⟩ :=
    h₁.shortestTaken h₂ hopen.queued hspends hfree' hp hb
  exact ⟨s₂, p, pre, post, hs₂, htaken⟩

/-- Two processes that arrive at once, the shorter one behind. -/
def longFirst : Workload where
  jobs := [⟨0, 1, 3, 1⟩, ⟨0, 1, 1, 1⟩]
  fits := by decide

theorem longFirst_shortest :
    ∃ s₀ s₁ s₂ p pre post, Started steadyFile longFirst s₀ ∧
      prepare .sjf s₀ = .ok s₁ ∧
      executeR .sjf steadyFile s₁ = .ok s₂ ∧
      ShortestTaken s₁ s₂ p pre post := by
  obtain ⟨s₀, hstart, s₁, hs₁, hready, hfree⟩ :=
    exists_loaded steadyFile longFirst
      (P := fun s => (prepare .sjf s).Returns
        (fun s => s.placement ≠ 0 ∧ s.selection = none))
      (by decide +kernel)
  obtain ⟨s₂, p, pre, post, hs₂, htaken⟩ :=
    executeR_shortest (t := 0) hstart rfl hs₁ hready hfree
      (steadyFile_endless _)
  exact ⟨s₀, s₁, s₂, p, pre, post, hstart, hs₁, hs₂, htaken⟩

end Scheduler
end PastWork
