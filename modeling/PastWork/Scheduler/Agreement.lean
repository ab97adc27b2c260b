import PastWork.Scheduler.Run

/-!
# Queues and conditions agree

Under FCFS, Round Robin and SJF the two linked queues, their counters and the
fields `condition` agree at the end of every cycle, and no cycle follows a NULL
link.
-/

namespace PastWork
namespace Scheduler

open Links

/-- The ready queue, the block list and the conditions of a state agree. -/
structure QueuesAgree
    (s : State) (ready block : List Nat) : Prop where
  readyLinks : Linked (fun i => (s.Prime i).freshPrime)
    s.Afront s.Aback ready
  placement_eq : s.placement = ready.length
  blockLinks : Linked (fun i => (s.Prime i).pushBlock)
    s.Blockfront s.Blockback block
  BlockQ_eq : s.BlockQ = block.length
  ready_iff : ∀ i, i ∈ ready ↔
    i < s.countPrime ∧ (s.Prime i).condition = .ready
  block_iff : ∀ i, i ∈ block ↔
    i < s.countPrime ∧ (s.Prime i).condition = .blocked
  selection_iff : ∀ i, s.selection = some i ↔
    i < s.countPrime ∧ (s.Prime i).condition = .running
  unstarted_iff : ∀ i < s.countPrime,
    (s.Prime i).condition = .unstarted ↔ s.present ≤ (s.Prime i).A
  completion_eq : s.completion =
    ((Finset.range s.countPrime).filter
      (fun i => (s.Prime i).condition = .terminated)).card

/-- A state that represents a sound machine without paused processes. -/
theorem Represents.queuesAgree
    {s : State} {a : Machine} {t : Nat}
    (h : Represents s a)
    (hsound : a.Sound t)
    (ht : t < 2 ^ 32)
    (hpause : a.pause = []) :
    QueuesAgree s a.ready a.block := by
  have hcond : ∀ i, (s.Prime i).condition = (a.Prime i).condition :=
    h.field Process.condition (fun _ => rfl)
  have hpresent : s.present = t := by
    rw [h.present, hsound.present_eq, Nat.mod_eq_of_lt ht]
  exact
    { readyLinks := h.threaded.readyLinks
      placement_eq := h.threaded.placement_eq
      blockLinks := h.threaded.blockLinks
      BlockQ_eq := h.threaded.BlockQ_eq
      ready_iff := fun i => by
        have hiff := hsound.queued.waiting_iff hsound.complete i
        rw [hpause, List.append_nil] at hiff
        rw [h.countPrime, hcond]
        exact hiff
      block_iff := fun i => by
        rw [h.countPrime, hcond]
        exact hsound.queued.block_iff i
      selection_iff := fun i => by
        rw [h.selection, h.countPrime, hcond]
        exact hsound.queued.selection_iff i
      unstarted_iff := fun i hi => by
        rw [h.countPrime] at hi
        rw [hcond, hpresent, h.field Process.A (fun _ => rfl)]
        exact hsound.arrived.unstarted_iff i hi
      completion_eq := by
        rw [h.completion, h.countPrime, hsound.queued.completion_eq]
        simp only [Machine.tally, hcond] }

/-- At the end of every cycle the queues and the conditions agree. -/
theorem ticks_queuesAgree
    {d : Policy} {file : RandomFile} {W : Workload} {s₀ : State} {t : Nat}
    (hd : d ≠ .block)
    (hfile : file.Endless)
    (hjobs : ∀ job ∈ W.jobs, 1 ≤ job.B ∧ 1 ≤ job.C)
    (hstart : Started file W s₀)
    (ht : t < 2 ^ 32) :
    ∃ s ready block, ticks d file t s₀ = .ok s ∧
      QueuesAgree s ready block := by
  obtain ⟨a, hrep, hinit⟩ := hstart.initial
  have hsound := hinit.sound (fun job hjob => (hjobs job hjob).2)
  obtain ⟨s, b, hs, hb, hsb⟩ := hrep.ticks_ok hd hfile hinit.orderly t
  have hpause : b.pause = [] :=
    Machine.ticks_invariant (I := fun _ c => c.pause = []) hinit.pause
      (fun _ _ _ hc hstep =>
        (Machine.datapoint_pause hd hstep).trans hc) hb
  exact ⟨s, b.ready, b.block, hs,
    hsb.queuesAgree (hsound.ticks hb) ht hpause⟩

theorem twoJobs_queuesAgree :
    ∃ s₀ s ready block, Started steadyFile twoJobs s₀ ∧
      ticks .rr steadyFile 3 s₀ = .ok s ∧
      QueuesAgree s ready block := by
  obtain ⟨s₀, hstart⟩ := twoJobs_started
  obtain ⟨s, ready, block, hs, hagree⟩ :=
    ticks_queuesAgree (d := .rr) (t := 3) (by decide) steadyFile_endless
      (by decide) hstart (by norm_num)
  exact ⟨s₀, s, ready, block, hstart, hs, hagree⟩

end Scheduler
end PastWork
