import PastWork.Scheduler.Invariant

/-!
# The parts of a cycle

Each part of a cycle before the timers is a `Phase`.  Arrivals are counted by
the number `t` of cycles since the start of the run, of which `present` is the
remainder modulo 2^32: a process is unstarted exactly while `t ≤ A`.
-/

namespace PastWork
namespace Scheduler

namespace Process

variable {d : Policy} {present : Nat} {q q' : Process}

/-- The input of a process never changes. -/
theorem Moves.input_eq
    (h : Moves d present q q') :
    q'.A = q.A ∧ q'.B = q.B ∧ q'.C = q.C ∧ q'.M = q.M := by
  cases h <;>
    simp [chargeBurst_eq, Machine.launch, Machine.draw, assignBurst]

/-- A process that has been moved is started. -/
theorem Moves.started
    (h : Moves d present q q') :
    q'.condition ≠ .unstarted := by
  cases h <;> simp [Machine.launch]

theorem MovesTo.input_eq
    (h : MovesTo d present q q') :
    q'.A = q.A ∧ q'.B = q.B ∧ q'.C = q.C ∧ q'.M = q.M := by
  refine MovesTo.preserves
    (P := fun p => p.A = q.A ∧ p.B = q.B ∧ p.C = q.C ∧ p.M = q.M)
    ?_ h ⟨rfl, rfl, rfl, rfl⟩
  intro p p' hmove hp
  obtain ⟨hA, hB, hC, hM⟩ := hmove.input_eq
  rw [hA, hB, hC, hM]
  exact hp

theorem countdown_input_eq
    (d : Policy) (q : Process) :
    (q.countdown d).A = q.A ∧ (q.countdown d).B = q.B ∧
      (q.countdown d).C = q.C ∧ (q.countdown d).M = q.M := by
  unfold countdown
  split <;> simp

end Process

namespace Machine

open Process (Moves MovesTo)

/-- Arrivals up to cycle `t`. -/
structure Arrived (t : Nat) (a : Machine) : Prop where
  A_lt : ∀ i < a.countPrime, (a.Prime i).A < 2 ^ 32
  unstarted_iff : ∀ i < a.countPrime,
    (a.Prime i).condition = .unstarted ↔ t ≤ (a.Prime i).A
  total_eq : a.totalPrime =
    (List.range a.countPrime).countP (fun i => (a.Prime i).A < t)

/-- One part of a cycle in which no process arrives. -/
structure Phase (d : Policy) (a b : Machine) : Prop where
  queued : b.Queued
  count : b.countPrime = a.countPrime
  present : b.present = a.present
  moves : ∀ i < a.countPrime, MovesTo d a.present (a.Prime i) (b.Prime i)
  arrived : ∀ t, a.Arrived t → b.Arrived t
  complete : a.Complete → b.Complete

theorem Phase.refl
    {d : Policy} {a : Machine}
    (h : a.Queued) :
    Phase d a a where
  queued := h
  count := rfl
  present := rfl
  moves := fun _ _ => .refl
  arrived := fun _ h => h
  complete := fun h => h

theorem Phase.trans
    {d : Policy} {a b c : Machine}
    (h₁ : Phase d a b)
    (h₂ : Phase d b c) :
    Phase d a c where
  queued := h₂.queued
  count := h₂.count.trans h₁.count
  present := h₂.present.trans h₁.present
  moves := fun i hi => by
    have hmoves := h₂.moves i (h₁.count ▸ hi)
    rw [h₁.present] at hmoves
    exact (h₁.moves i hi).trans hmoves
  arrived := fun t h => h₂.arrived t (h₁.arrived t h)
  complete := fun h => h₂.complete (h₁.complete h)

/-- Arrivals stay as they are when inputs and unstarted processes do. -/
theorem Arrived.congr
    {a b : Machine} {t : Nat}
    (h : a.Arrived t)
    (hcount : b.countPrime = a.countPrime)
    (htotal : b.totalPrime = a.totalPrime)
    (hA : ∀ i < a.countPrime, (b.Prime i).A = (a.Prime i).A)
    (hcond : ∀ i < a.countPrime,
      (b.Prime i).condition = .unstarted ↔
        (a.Prime i).condition = .unstarted) :
    b.Arrived t where
  A_lt := fun i hi => by
    rw [hcount] at hi
    rw [hA i hi]
    exact h.A_lt i hi
  unstarted_iff := fun i hi => by
    rw [hcount] at hi
    rw [hcond i hi, hA i hi]
    exact h.unstarted_iff i hi
  total_eq := by
    rw [htotal, h.total_eq, hcount]
    apply List.countP_congr
    intro i hi
    rw [hA i (List.mem_range.mp hi)]

/-- A started process that is moved to the place of its new condition. -/
theorem Phase.of_moved
    {d : Policy} {a b : Machine} {p : Nat} {c : Condition}
    (h : a.Queued)
    (hm : Moved p c a b)
    (hpresent : b.present = a.present)
    (htotal : b.totalPrime = a.totalPrime)
    (hstarted : (a.Prime p).condition ≠ .unstarted)
    (hmove : Moves d a.present (a.Prime p) (b.Prime p)) :
    Phase d a b where
  queued := h.moved hm
  count := hm.count
  present := hpresent
  moves := fun i _ => by
    by_cases hip : i = p
    · subst i
      exact .single hmove
    · rw [hm.same i hip]
  arrived := fun t ht => by
    apply ht.congr hm.count htotal
    · intro i _
      by_cases hip : i = p
      · subst i
        exact hmove.input_eq.1
      · rw [hm.same i hip]
    · intro i _
      by_cases hip : i = p
      · subst i
        simp [hstarted, hmove.started]
      · rw [hm.same i hip]
  complete := fun hcomplete => hcomplete.moved hm

section Parts

variable {d : Policy} {a : Machine}

theorem proceedForward_phase
    (h : a.Queued) :
    Phase d a (a.proceedForward d) := by
  cases hsel : a.selection with
  | none =>
      simp only [proceedForward, hsel]
      exact Phase.refl h
  | some p =>
      obtain ⟨_, hcond⟩ := (h.selection_iff p).mp hsel
      have hstarted : (a.Prime p).condition ≠ .unstarted := by
        simp [hcond]
      simp only [proceedForward, hsel]
      split_ifs with hdone hburst hpreempt
      · apply Phase.of_moved h (h.terminate d hsel) rfl rfl hstarted
        simpa [Machine.terminate, modify] using
          Moves.terminate _ hcond hdone
      · apply Phase.of_moved h (h.blockRunning hsel) rfl rfl hstarted
        simpa [Machine.blockRunning, modify] using
          Moves.block _ hcond hdone hburst
      · apply Phase.of_moved h (h.preempt hsel) rfl rfl hstarted
        simpa [Machine.preempt, modify] using
          Moves.preempt _ hcond hdone hburst hpreempt.1 hpreempt.2
      · apply Phase.of_moved h (h.keepRunning hsel) rfl rfl hstarted
        have hquantum : d = .rr → 0 < (a.Prime p).quantum := fun hrr =>
          not_le.mp (fun hle => hpreempt ⟨hrr, hle⟩)
        simpa [Machine.keepRunning, modify] using
          Moves.keep _ hcond hdone hburst hquantum

theorem firstExpired_spec
    {p : Nat}
    (hp : a.firstExpired = some p) :
    p ∈ a.block ∧ (a.Prime p).expired = true :=
  ⟨List.mem_of_find?_eq_some hp, by simpa using List.find?_some hp⟩

theorem execxuteB_phase
    (h : a.Queued) :
    Phase d a a.execxuteB := by
  cases hfirst : a.firstExpired with
  | none =>
      simp only [execxuteB, hfirst]
      exact Phase.refl h
  | some p =>
      obtain ⟨hmem, hexpired⟩ := firstExpired_spec hfirst
      obtain ⟨_, hcond⟩ := (h.block_iff p).mp hmem
      simp only [execxuteB, hfirst]
      apply Phase.of_moved h (h.release hmem) rfl rfl (by simp [hcond])
      simpa [Machine.release, modify] using
        Moves.release _ hcond hexpired

/-- A rearrangement of the waiting queues moves no process. -/
theorem Phase.of_permute
    {b : Machine}
    (h : a.Queued)
    (hprime : b.Prime = a.Prime)
    (hcount : b.countPrime = a.countPrime)
    (hselection : b.selection = a.selection)
    (hcompletion : b.completion = a.completion)
    (hblock : b.block = a.block)
    (hperm : (b.ready ++ b.pause).Perm (a.ready ++ a.pause))
    (hpresent : b.present = a.present)
    (htotal : b.totalPrime = a.totalPrime) :
    Phase d a b where
  queued :=
    h.permute hprime hcount hselection hcompletion hblock hperm
  count := hcount
  present := hpresent
  moves := fun i _ => by rw [hprime]
  arrived := fun t ht =>
    ht.congr hcount htotal (by simp [hprime]) (by simp [hprime])
  complete := fun hcomplete i hi hcond => by
    rw [hprime] at hcond
    exact hperm.mem_iff.mpr (hcomplete i (hcount ▸ hi) hcond)

theorem pauseHalf_phase
    (h : a.Queued) :
    Phase d a a.pauseHalf := by
  refine Phase.of_permute h rfl rfl rfl rfl rfl ?_ rfl rfl
  show (a.ready.drop _ ++ (a.pause ++ a.ready.take _)).Perm _
  refine List.perm_append_comm.trans ?_
  rw [List.append_assoc, List.take_append_drop]
  exact List.perm_append_comm

theorem pauseOthers_phase
    (h : a.Queued) :
    Phase d a (a.pauseOthers d) := by
  unfold pauseOthers
  split
  · exact pauseHalf_phase h
  · exact Phase.refl h

theorem resumePaused_phase
    (h : a.Queued) :
    Phase d a (a.resumePaused d) := by
  unfold resumePaused
  split
  next => exact Phase.refl h
  next p rest hpause =>
    split
    · refine Phase.of_permute h rfl rfl rfl rfl rfl ?_ rfl rfl
      show ((a.ready ++ [p]) ++ rest).Perm (a.ready ++ a.pause)
      simp [hpause]
    · exact Phase.refl h

theorem pauseReady_phase
    (h : a.Queued) :
    Phase d a (a.pauseReady d) := by
  unfold pauseReady
  split
  · exact pauseHalf_phase h
  · exact Phase.refl h

theorem choose_mem
    {p : Nat}
    (hp : a.choose d = some p) :
    p ∈ a.ready := by
  unfold choose at hp
  split at hp
  · exact List.argmin_mem hp
  · exact List.mem_of_mem_head? hp

/-- The process that a dispatch would take gets a positive burst. -/
def Launchable (d : Policy) (a : Machine) : Prop :=
  a.selection = none → ∀ p number, a.choose d = some p →
    0 < (draw number (a.Prime p)).CPUBurst ∨ d = .sjf

/-- What a dispatch does, with or without a burst. -/
inductive DispatchStep (d : Policy) (file : RandomFile) (a : Machine) :
    Machine → Prop
  | busy
      (hbusy : a.selection ≠ none) :
      DispatchStep d file a a
  | idle
      (hfree : a.selection = none)
      (hnone : a.choose d = none) :
      DispatchStep d file a a
  | start {p number : Nat}
      (hfree : a.selection = none)
      (hchoose : a.choose d = some p)
      (hnumber : file a.infinity = some number) :
      DispatchStep d file a (a.start d p number)

theorem dispatch_cases
    {file : RandomFile} {b : Machine}
    (hb : a.dispatch d file = some b) :
    a.DispatchStep d file b := by
  unfold dispatch at hb
  split at hb
  next hfree =>
    split at hb
    next hnone =>
      cases hb
      exact .idle hfree hnone
    next p hchoose =>
      obtain ⟨number, hnumber, rfl⟩ := Option.map_eq_some_iff.mp hb
      exact .start hfree hchoose hnumber
  next hbusy =>
    cases hb
    exact .busy hbusy

theorem dispatch_phase
    {file : RandomFile} {b : Machine}
    (h : a.Queued)
    (hlive : a.Launchable d)
    (hb : a.dispatch d file = some b) :
    Phase d a b := by
  cases dispatch_cases hb with
  | busy | idle => exact Phase.refl h
  | @start p number hfree hchoose =>
      have hmem := choose_mem hchoose
      have hburst := hlive hfree p number hchoose
      obtain ⟨_, hcond⟩ :=
        h.waiting_spec p (List.mem_append_left _ hmem)
      have hmoved := h.start hmem hfree hburst
      apply Phase.of_moved h hmoved
      · rw [start_eq hburst]
        rfl
      · rw [start_eq hburst]
        rfl
      · simp [hcond]
      · rw [start_eq hburst]
        simpa [modify] using Moves.launch _ number hcond hburst

theorem start_frame
    (d : Policy) (p number : Nat) (a : Machine) :
    (a.start d p number).countPrime = a.countPrime ∧
      (a.start d p number).present = a.present ∧
      (a.start d p number).totalPrime = a.totalPrime := by
  unfold start
  dsimp only
  split <;> exact ⟨rfl, rfl, rfl⟩

theorem start_Prime
    (d : Policy) (p number i : Nat) (a : Machine) :
    (a.start d p number).Prime i = a.Prime i ∨
      i = p ∧ ((a.start d p number).Prime i = draw number (a.Prime i) ∨
        (a.start d p number).Prime i = launch d (draw number (a.Prime i))) := by
  by_cases hip : i = p
  · subst i
    refine .inr ⟨rfl, ?_⟩
    unfold start
    dsimp only
    split
    · exact .inr (by simp [modify])
    · exact .inl (by simp [modify])
  · refine .inl ?_
    unfold start
    dsimp only
    split <;> simp [modify, hip]

/-- With or without a burst, a dispatch keeps the queues. -/
theorem dispatch_queued
    {file : RandomFile} {b : Machine}
    (h : a.Queued)
    (hb : a.dispatch d file = some b) :
    b.Queued := by
  cases dispatch_cases hb with
  | busy | idle => exact h
  | @start p number hfree hchoose =>
      by_cases hburst : 0 < (draw number (a.Prime p)).CPUBurst ∨ d = .sjf
      · exact h.moved (h.start (choose_mem hchoose) hfree hburst)
      · exact h.lose hburst

/-- A dispatch starts no process that has not arrived. -/
theorem Arrived.dispatch
    {file : RandomFile} {b : Machine} {t : Nat}
    (h : a.Queued)
    (ht : a.Arrived t)
    (hb : a.dispatch d file = some b) :
    b.Arrived t := by
  cases dispatch_cases hb with
  | busy | idle => exact ht
  | @start p number _ hchoose =>
      obtain ⟨hcount, _, htotal⟩ := start_frame d p number a
      obtain ⟨_, hready⟩ :=
        h.waiting_spec p (List.mem_append_left _ (choose_mem hchoose))
      refine ht.congr hcount htotal ?_ ?_
      · intro i _
        rcases start_Prime d p number i a with heq | ⟨rfl, heq | heq⟩
        · rw [heq]
        · rw [heq]
          rfl
        · rw [heq]
          rfl
      · intro i _
        rcases start_Prime d p number i a with heq | ⟨rfl, heq | heq⟩
        · rw [heq]
        · rw [heq]
          rfl
        · rw [heq, hready]
          simp [launch]

theorem executeR_phase
    {file : RandomFile} {b : Machine}
    (h : a.Queued)
    (hlive : ((a.pauseOthers d).resumePaused d).Launchable d)
    (hb : a.executeR d file = some b) :
    Phase d a b := by
  obtain ⟨c, hc, rfl⟩ := Option.map_eq_some_iff.mp hb
  have h₁ := pauseOthers_phase (d := d) h
  have h₂ := resumePaused_phase (d := d) h₁.queued
  have h₃ := dispatch_phase h₂.queued hlive hc
  exact ((h₁.trans h₂).trans h₃).trans (pauseReady_phase h₃.queued)

end Parts

end Machine
end Scheduler
end PastWork
