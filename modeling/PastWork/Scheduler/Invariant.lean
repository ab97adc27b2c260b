import PastWork.Scheduler.Machine
import Mathlib.Data.Finset.Card
import Mathlib.Logic.Relation

/-!
# What a cycle does to the queues and to one process

`Process.Moves` lists everything the parts of a cycle before the timers can do
to a single process.  `Machine.Queued` ties the queues, the running process
and the counter of finished processes to the conditions.  Every part of a
cycle is shown once to be a `Phase`: it keeps `Queued` and moves each process
along `Moves`.  Facts about whole runs are then derived from these two.
-/

namespace PastWork
namespace Scheduler

namespace Process

theorem chargeBurst_eq
    (q : Process) :
    q.chargeBurst =
      { q with
        operating := false
        BurstTime :=
          if q.operating then (1 + q.M * q.CPUBurst) % 2 ^ 32
          else q.BurstTime } := by
  obtain ⟨⟩ := q
  unfold chargeBurst
  split <;> simp_all

/-- One change that the routines before `countdown` can make to a process. -/
inductive Moves (d : Policy) (present : Nat) : Process → Process → Prop
  | terminate (q : Process)
      (hcond : q.condition = .running)
      (hdone : q.C = q.CPUTime) :
      Moves d present q
        { q.chargeBurst with
          condition := .terminated
          finishingTime := toInt32 present }
  | block (q : Process)
      (hcond : q.condition = .running)
      (hleft : q.C ≠ q.CPUTime)
      (hburst : q.CPUBurst = 0) :
      Moves d present q { q.chargeBurst with condition := .blocked }
  | preempt (q : Process)
      (hcond : q.condition = .running)
      (hleft : q.C ≠ q.CPUTime)
      (hburst : q.CPUBurst ≠ 0)
      (hrr : d = .rr)
      (hquantum : q.quantum ≤ 0) :
      Moves d present q { q.chargeBurst with condition := .ready }
  | keep (q : Process)
      (hcond : q.condition = .running)
      (hleft : q.C ≠ q.CPUTime)
      (hburst : q.CPUBurst ≠ 0)
      (hquantum : d = .rr → 0 < q.quantum) :
      Moves d present q { q.chargeBurst with condition := .running }
  | release (q : Process)
      (hcond : q.condition = .blocked)
      (hexpired : q.expired = true) :
      Moves d present q { q with condition := .ready }
  | arrive (q : Process)
      (hcond : q.condition = .unstarted)
      (hA : q.A = present) :
      Moves d present q { q with condition := .ready }
  | launch (q : Process) (number : Nat)
      (hcond : q.condition = .ready)
      (hburst : 0 < (Machine.draw number q).CPUBurst ∨ d = .sjf) :
      Moves d present q (Machine.launch d (Machine.draw number q))

/-- All the changes of one cycle before `countdown`. -/
abbrev MovesTo (d : Policy) (present : Nat) : Process → Process → Prop :=
  Relation.ReflTransGen (Moves d present)

/-- A property that no single change destroys holds after all of them. -/
theorem MovesTo.preserves
    {d : Policy} {present : Nat} {q q' : Process}
    {P : Process → Prop}
    (hclosed : ∀ q q', Moves d present q q' → P q → P q')
    (h : MovesTo d present q q')
    (hP : P q) :
    P q' := by
  induction h with
  | refl => exact hP
  | tail _ hmove ih => exact hclosed _ _ hmove ih

@[simp] theorem countdown_condition
    (d : Policy) (q : Process) :
    (q.countdown d).condition = q.condition := by
  unfold countdown
  split <;> simp_all

@[simp] theorem countdown_processID
    (d : Policy) (q : Process) :
    (q.countdown d).processID = q.processID := by
  unfold countdown
  split <;> rfl

end Process

namespace Machine

/-- The number of processes in a condition. -/
def tally (c : Condition) (a : Machine) : Nat :=
  ((Finset.range a.countPrime).filter
    (fun i => (a.Prime i).condition = c)).card

/-- The queues, the running process and `completion` agree with the
conditions of the processes.  A ready process may be in no queue. -/
structure Queued (a : Machine) : Prop where
  fits : a.countPrime < 2 ^ 32
  ids : ∀ i < a.countPrime, (a.Prime i).processID = i
  waiting_nodup : (a.ready ++ a.pause).Nodup
  block_nodup : a.block.Nodup
  waiting_spec : ∀ i, i ∈ a.ready ++ a.pause →
    i < a.countPrime ∧ (a.Prime i).condition = .ready
  block_iff : ∀ i, i ∈ a.block ↔
    i < a.countPrime ∧ (a.Prime i).condition = .blocked
  selection_iff : ∀ i, a.selection = some i ↔
    i < a.countPrime ∧ (a.Prime i).condition = .running
  completion_eq : a.completion = a.tally .terminated

/-- Every ready process is in one of the waiting queues. -/
def Complete (a : Machine) : Prop :=
  ∀ i < a.countPrime, (a.Prime i).condition = .ready → i ∈ a.ready ++ a.pause

theorem Queued.waiting_iff
    {a : Machine}
    (h : a.Queued)
    (hcomplete : a.Complete)
    (i : Nat) :
    i ∈ a.ready ++ a.pause ↔
      i < a.countPrime ∧ (a.Prime i).condition = .ready :=
  ⟨h.waiting_spec i, fun hi => hcomplete i hi.1 hi.2⟩

/-- `b` is `a` with the process `p` in the condition `c` and in the place that
belongs to it. -/
structure Moved (p : Nat) (c : Condition) (a b : Machine) : Prop where
  count : b.countPrime = a.countPrime
  pos : p < a.countPrime
  old : (a.Prime p).condition ≠ .terminated
  same : ∀ i, i ≠ p → b.Prime i = a.Prime i
  condition : (b.Prime p).condition = c
  processID : (b.Prime p).processID = (a.Prime p).processID
  waiting_nodup : (b.ready ++ b.pause).Nodup
  block_nodup : b.block.Nodup
  waiting : ∀ i, i ∈ b.ready ++ b.pause ↔
    if i = p then c = .ready else i ∈ a.ready ++ a.pause
  block : ∀ i, i ∈ b.block ↔
    if i = p then c = .blocked else i ∈ a.block
  selection : ∀ i, b.selection = some i ↔
    if i = p then c = .running else a.selection = some i
  completion : b.completion =
    if c = .terminated then incr a.completion else a.completion

theorem tally_congr
    {a b : Machine} {c : Condition}
    (hcount : b.countPrime = a.countPrime)
    (h : ∀ i < a.countPrime,
      (b.Prime i).condition = c ↔ (a.Prime i).condition = c) :
    b.tally c = a.tally c := by
  unfold tally
  rw [hcount]
  congr 1
  apply Finset.filter_congr
  intro i hi
  exact h i (Finset.mem_range.mp hi)

/-- While some process is not in a condition, not all of them are. -/
theorem tally_lt
    {a : Machine} {p : Nat} {c : Condition}
    (hp : p < a.countPrime)
    (hc : (a.Prime p).condition ≠ c) :
    a.tally c < a.countPrime := by
  have hss : (Finset.range a.countPrime).filter
      (fun i => (a.Prime i).condition = c) ⊂
        Finset.range a.countPrime := by
    rw [Finset.filter_ssubset]
    exact ⟨p, Finset.mem_range.mpr hp, hc⟩
  simpa [tally] using Finset.card_lt_card hss

theorem Moved.tally_eq
    {a b : Machine} {p : Nat} {c : Condition}
    (h : Moved p c a b) :
    b.tally .terminated =
      if c = .terminated then a.tally .terminated + 1
      else a.tally .terminated := by
  unfold tally
  rw [h.count]
  split
  next hc =>
      subst hc
      have hnot : p ∉ (Finset.range a.countPrime).filter
          (fun i => (a.Prime i).condition = .terminated) := by
        simp [h.old]
      rw [← Finset.card_insert_of_notMem hnot]
      congr 1
      ext i
      by_cases hip : i = p
      · subst i
        simp [h.condition, h.pos]
      · simp [h.same i hip, hip]
  next hc =>
      congr 1
      apply Finset.filter_congr
      intro i _
      by_cases hip : i = p
      · subst i
        simp [h.condition, hc, h.old]
      · simp [h.same i hip]

/-- Moving one process to the place of its new condition keeps `Queued`. -/
theorem Queued.moved
    {a b : Machine} {p : Nat} {c : Condition}
    (h : a.Queued)
    (hm : Moved p c a b) :
    b.Queued := by
  have hlt := tally_lt hm.pos hm.old
  have hfits := h.fits
  refine ⟨?_, ?_, hm.waiting_nodup, hm.block_nodup, ?_, ?_, ?_, ?_⟩
  · rw [hm.count]
    exact h.fits
  · intro i hi
    rw [hm.count] at hi
    by_cases hip : i = p
    · subst i
      rw [hm.processID]
      exact h.ids p hi
    · rw [hm.same i hip]
      exact h.ids i hi
  · intro i
    rw [hm.waiting, hm.count]
    by_cases hip : i = p
    · subst i
      simp [hm.condition, hm.pos]
    · simp only [hip, if_false, hm.same i hip]
      exact h.waiting_spec i
  · intro i
    rw [hm.block, hm.count]
    by_cases hip : i = p
    · subst i
      simp [hm.condition, hm.pos]
    · simp only [hip, if_false, hm.same i hip]
      exact h.block_iff i
  · intro i
    rw [hm.selection, hm.count]
    by_cases hip : i = p
    · subst i
      simp [hm.condition, hm.pos]
    · simp only [hip, if_false, hm.same i hip]
      exact h.selection_iff i
  · rw [hm.completion, hm.tally_eq, h.completion_eq]
    split
    · exact incr_eq (by omega)
    · rfl

theorem Complete.moved
    {a b : Machine} {p : Nat} {c : Condition}
    (h : a.Complete)
    (hm : Moved p c a b) :
    b.Complete := by
  intro i hi hcond
  rw [hm.waiting]
  by_cases hip : i = p
  · subst i
    rw [if_pos rfl, ← hm.condition, hcond]
  · rw [hm.count] at hi
    rw [hm.same i hip] at hcond
    rw [if_neg hip]
    exact h i hi hcond

section Moves

variable {a : Machine} {p : Nat}

theorem Queued.terminate
    (h : a.Queued) (d : Policy)
    (hp : a.selection = some p) :
    Moved p .terminated a (a.terminate d p) := by
  obtain ⟨hlt, hcond⟩ := (h.selection_iff p).mp hp
  have hw := h.waiting_spec p
  have hb := h.block_iff p
  exact
    { count := rfl
      pos := hlt
      old := by simp [hcond]
      same := fun i hi => by simp [Machine.terminate, modify, hi]
      condition := by simp [Machine.terminate, modify]
      processID := by
        simp [Machine.terminate, modify, Process.chargeBurst_eq]
      waiting_nodup := h.waiting_nodup
      block_nodup := h.block_nodup
      waiting := fun i => by
        simp only [Machine.terminate, modify]
        grind
      block := fun i => by
        simp only [Machine.terminate, modify]
        grind
      selection := fun i => by
        simp only [Machine.terminate, modify]
        grind
      completion := rfl }

theorem Queued.blockRunning
    (h : a.Queued)
    (hp : a.selection = some p) :
    Moved p .blocked a (a.blockRunning p) := by
  obtain ⟨hlt, hcond⟩ := (h.selection_iff p).mp hp
  have hw := h.waiting_spec p
  have hb := h.block_iff p
  have hbn := h.block_nodup
  exact
    { count := rfl
      pos := hlt
      old := by simp [hcond]
      same := fun i hi => by simp [Machine.blockRunning, modify, hi]
      condition := by simp [Machine.blockRunning, modify]
      processID := by
        simp [Machine.blockRunning, modify, Process.chargeBurst_eq]
      waiting_nodup := h.waiting_nodup
      block_nodup := by
        show (a.block ++ [p]).Nodup
        simp only [List.nodup_append]
        grind
      waiting := fun i => by
        simp only [Machine.blockRunning, modify]
        grind
      block := fun i => by
        simp only [Machine.blockRunning, modify]
        grind
      selection := fun i => by
        simp only [Machine.blockRunning, modify]
        grind
      completion := rfl }

theorem Queued.preempt
    (h : a.Queued)
    (hp : a.selection = some p) :
    Moved p .ready a (a.preempt p) := by
  obtain ⟨hlt, hcond⟩ := (h.selection_iff p).mp hp
  have hw := h.waiting_spec p
  have hb := h.block_iff p
  have hwn := h.waiting_nodup
  exact
    { count := rfl
      pos := hlt
      old := by simp [hcond]
      same := fun i hi => by simp [Machine.preempt, modify, hi]
      condition := by simp [Machine.preempt, modify]
      processID := by
        simp [Machine.preempt, modify, Process.chargeBurst_eq]
      waiting_nodup := by
        show ((a.ready ++ [p]) ++ a.pause).Nodup
        simp only [List.nodup_append] at hwn ⊢
        grind
      block_nodup := h.block_nodup
      waiting := fun i => by
        simp only [Machine.preempt, modify]
        grind
      block := fun i => by
        simp only [Machine.preempt, modify]
        grind
      selection := fun i => by
        simp only [Machine.preempt, modify]
        grind
      completion := rfl }

theorem Queued.keepRunning
    (h : a.Queued)
    (hp : a.selection = some p) :
    Moved p .running a (a.keepRunning p) := by
  obtain ⟨hlt, hcond⟩ := (h.selection_iff p).mp hp
  have hw := h.waiting_spec p
  have hb := h.block_iff p
  exact
    { count := rfl
      pos := hlt
      old := by simp [hcond]
      same := fun i hi => by simp [Machine.keepRunning, modify, hi]
      condition := by simp [Machine.keepRunning, modify]
      processID := by
        simp [Machine.keepRunning, modify, Process.chargeBurst_eq]
      waiting_nodup := h.waiting_nodup
      block_nodup := h.block_nodup
      waiting := fun i => by
        simp only [Machine.keepRunning, modify]
        grind
      block := fun i => by
        simp only [Machine.keepRunning, modify]
        grind
      selection := fun i => by
        simp only [Machine.keepRunning, modify]
        grind
      completion := rfl }

theorem Queued.release
    (h : a.Queued)
    (hp : p ∈ a.block) :
    Moved p .ready a (a.release p) := by
  obtain ⟨hlt, hcond⟩ := (h.block_iff p).mp hp
  have hw := h.waiting_spec p
  have hs := h.selection_iff p
  have hwn := h.waiting_nodup
  have hbn := h.block_nodup
  exact
    { count := rfl
      pos := hlt
      old := by simp [hcond]
      same := fun i hi => by simp [Machine.release, modify, hi]
      condition := by simp [Machine.release, modify]
      processID := by simp [Machine.release, modify]
      waiting_nodup := by
        show ((a.ready ++ [p]) ++ a.pause).Nodup
        simp only [List.nodup_append] at hwn ⊢
        grind
      block_nodup := hbn.erase p
      waiting := fun i => by
        simp only [Machine.release, modify]
        grind
      block := fun i => by
        simp only [Machine.release, modify, hbn.mem_erase_iff]
        grind
      selection := fun i => by
        simp only [Machine.release, modify]
        grind
      completion := rfl }

theorem start_eq
    {d : Policy} {number : Nat}
    (hburst : 0 < (draw number (a.Prime p)).CPUBurst ∨ d = .sjf) :
    a.start d p number =
      { a.modify p (fun q => launch d (draw number q)) with
        ready := a.ready.erase p
        infinity := a.infinity + 1
        selection := some p } := by
  simp only [Machine.start, modify, update_same]
  rw [if_pos hburst, update_update]

/-- A dispatched process leaves the ready queue and runs. -/
theorem Queued.start
    {d : Policy} {number : Nat}
    (h : a.Queued)
    (hp : p ∈ a.ready)
    (hfree : a.selection = none)
    (hburst : 0 < (draw number (a.Prime p)).CPUBurst ∨ d = .sjf) :
    Moved p .running a (a.start d p number) := by
  obtain ⟨hlt, hcond⟩ :=
    h.waiting_spec p (List.mem_append_left _ hp)
  have hb := h.block_iff p
  have hwn := h.waiting_nodup
  have hrn : a.ready.Nodup := (List.nodup_append.mp hwn).1
  have hpause : p ∉ a.pause := fun hmem =>
    (List.nodup_append.mp hwn).2.2 p hp p hmem rfl
  rw [start_eq hburst]
  exact
    { count := rfl
      pos := hlt
      old := by simp [hcond]
      same := fun i hi => by simp [modify, hi]
      condition := by simp [modify, launch]
      processID := by
        simp [modify, launch, draw, Process.assignBurst]
      waiting_nodup :=
        hwn.sublist (List.erase_sublist.append_right _)
      block_nodup := h.block_nodup
      waiting := fun i => by
        simp only [modify, List.mem_append, hrn.mem_erase_iff]
        grind
      block := fun i => by
        simp only [modify]
        grind
      selection := fun i => by
        simp only
        grind
      completion := rfl }

/-- A process whose burst is 0 leaves the ready queue and is in none. -/
theorem Queued.lose
    {d : Policy} {number : Nat}
    (h : a.Queued)
    (hburst : ¬ (0 < (draw number (a.Prime p)).CPUBurst ∨ d = .sjf)) :
    (a.start d p number).Queued := by
  have hwn := h.waiting_nodup
  have hrn : a.ready.Nodup := (List.nodup_append.mp hwn).1
  have hstart : a.start d p number =
      { a.modify p (draw number) with
        ready := a.ready.erase p
        infinity := a.infinity + 1 } := by
    simp only [Machine.start, modify, update_same]
    rw [if_neg hburst]
  have hcond : ∀ i, ((a.modify p (draw number)).Prime i).condition =
      (a.Prime i).condition := by
    intro i
    by_cases hip : i = p
    · subst i
      simp [modify, draw, Process.assignBurst]
    · simp [modify, hip]
  rw [hstart]
  refine ⟨h.fits, ?_, hwn.sublist (List.erase_sublist.append_right _),
    h.block_nodup, ?_, ?_, ?_, ?_⟩
  · intro i hi
    by_cases hip : i = p
    · subst i
      simpa [modify, draw, Process.assignBurst] using h.ids p hi
    · simpa [modify, hip] using h.ids i hi
  · intro i hi
    rw [hcond]
    refine h.waiting_spec i ?_
    rw [List.mem_append] at hi ⊢
    exact hi.imp_left List.mem_of_mem_erase
  · intro i
    rw [hcond]
    exact h.block_iff i
  · intro i
    rw [hcond]
    exact h.selection_iff i
  · have htally : Machine.tally .terminated
        { a.modify p (draw number) with
          ready := a.ready.erase p
          infinity := a.infinity + 1 } = a.tally .terminated :=
      tally_congr rfl (fun i _ => by rw [hcond])
    rw [htally]
    exact h.completion_eq

end Moves

/-- Rearranging the two waiting queues keeps `Queued`. -/
theorem Queued.permute
    {a b : Machine}
    (h : a.Queued)
    (hprime : b.Prime = a.Prime)
    (hcount : b.countPrime = a.countPrime)
    (hselection : b.selection = a.selection)
    (hcompletion : b.completion = a.completion)
    (hblock : b.block = a.block)
    (hperm : (b.ready ++ b.pause).Perm (a.ready ++ a.pause)) :
    b.Queued where
  fits := by rw [hcount]; exact h.fits
  ids := by rw [hcount, hprime]; exact h.ids
  waiting_nodup := hperm.nodup_iff.mpr h.waiting_nodup
  block_nodup := by rw [hblock]; exact h.block_nodup
  waiting_spec := fun i => by
    rw [hperm.mem_iff, hcount, hprime]
    exact h.waiting_spec i
  block_iff := fun i => by
    rw [hblock, hcount, hprime]
    exact h.block_iff i
  selection_iff := fun i => by
    rw [hselection, hcount, hprime]
    exact h.selection_iff i
  completion_eq := by
    rw [hcompletion, h.completion_eq]
    exact (tally_congr hcount (by simp [hprime])).symm

end Machine
end Scheduler
end PastWork
