import PastWork.Scheduler.Replay

/-!
# The pause queue under the policy `block`

`executeR` has two loops that move ready processes to the pause queue.  The
first insertion into an empty pause queue also moves `Afront` to `Aback`, so
processes in between are lost when three or more are ready.  As long as the
loops start with room, every started process is in exactly one place.
-/

namespace PastWork
namespace Scheduler

open Links

/-- Every started process is in exactly one of the ready list, the pause list,
the block list and `selection`. -/
structure Partitioned
    (s : State) (ready pause block : List Nat) : Prop where
  threaded : Threaded s ready pause block
  exactly_one : ∀ i < s.countPrime,
    (s.Prime i).condition ≠ .unstarted →
    (s.Prime i).condition ≠ .terminated →
    [decide (i ∈ ready), decide (i ∈ pause), decide (i ∈ block),
      decide (s.selection = some i)].count true = 1

/-- A pausing loop may start: the pause queue is in use already, or at most two
processes are ready. -/
def State.Roomy (s : State) : Prop :=
  s.PauseQ = 0 → s.placement ≤ 2

instance (s : State) : Decidable s.Roomy := by
  unfold State.Roomy
  infer_instance

/-- The condition on a cycle that starts in `s`: both pausing loops start with
room, and the process that is dispatched needs CPU time. -/
def PausesSafely (file : RandomFile) (s : State) : Prop :=
  (prepare .block s).Ensures fun s₁ =>
    (s₁.namelessOp ≠ none → s₁.placement ≠ 0 →
      s₁.Afront ≠ s₁.namelessOp → s₁.Roomy) ∧
    (pauseOthers .block s₁ >>= resumePaused .block).Ensures fun s₂ =>
      (s₂.selection = none → ∀ p ∈ s₂.Afront,
        (s₂.Prime p).C ≠ (s₂.Prime p).CPUTime) ∧
      (dispatch .block file s₂).Ensures fun s₃ =>
        s₃.placement ≠ 0 → s₃.selection ≠ none → s₃.Roomy

instance (file : RandomFile) (s : State) : Decidable (PausesSafely file s) := by
  unfold PausesSafely
  infer_instance

namespace Machine

variable {d : Policy} {file : RandomFile} {a b : Machine} {t : Nat}

/-- A started process is in exactly one place when none has got lost. -/
theorem Queued.exactly_one
    (h : a.Queued)
    (hcomplete : a.Complete)
    {i : Nat} (hi : i < a.countPrime)
    (hstarted : (a.Prime i).condition ≠ .unstarted)
    (hactive : (a.Prime i).condition ≠ .terminated) :
    [decide (i ∈ a.ready), decide (i ∈ a.pause), decide (i ∈ a.block),
      decide (a.selection = some i)].count true = 1 := by
  have hwaiting := h.waiting_iff hcomplete i
  have hblock := h.block_iff i
  have hselection := h.selection_iff i
  have hdisjoint : i ∈ a.ready → i ∉ a.pause := fun hr hp =>
    (List.nodup_append.mp h.waiting_nodup).2.2 i hr i hp rfl
  rw [List.mem_append] at hwaiting
  cases hc : (a.Prime i).condition with
  | unstarted => exact absurd hc hstarted
  | terminated => exact absurd hc hactive
  | ready =>
      simp only [hc, hi, true_and, iff_true] at hwaiting
      simp only [hc, reduceCtorEq, and_false, iff_false] at hblock hselection
      by_cases hr : i ∈ a.ready
      · simp [hr, hdisjoint hr, hblock, hselection]
      · have hp : i ∈ a.pause := by tauto
        simp [hr, hp, hblock, hselection]
  | running =>
      simp only [hc, hi, true_and, iff_true] at hselection
      simp only [hc, reduceCtorEq, and_false, iff_false, not_or]
        at hblock hwaiting
      simp [hwaiting, hblock, hselection]
  | blocked =>
      simp only [hc, hi, true_and, iff_true] at hblock
      simp only [hc, reduceCtorEq, and_false, iff_false, not_or]
        at hselection hwaiting
      simp [hwaiting, hblock, hselection]

end Machine

section Runs

variable {file : RandomFile} {s : State} {a : Machine} {t : Nat}

theorem Represents.roomy
    (h : Represents s a)
    (hroomy : s.Roomy) :
    a.Roomy := by
  intro hpause
  have hzero : s.PauseQ = 0 := by
    rw [h.threaded.PauseQ_eq, hpause]
    rfl
  rw [← h.threaded.placement_eq]
  exact hroomy hzero

/-- A cycle that pauses safely does what a cycle of the machine does. -/
theorem Represents.pausing_simulates
    (h : Represents s a)
    (ha : a.Orderly t)
    (hsafe : PausesSafely file s) :
    (((a.prepare .block).pauseOthers .block).resumePaused
        .block).Launchable .block ∧
      Simulates (Scheduler.datapoint .block file s)
        (a.datapoint .block file) := by
  have hopen := Machine.prepare_opened (d := .block) ha.queued ha.arrived
    ha.present_eq
  obtain ⟨hopen₂, hfits₂⟩ := ha.prepared (d := .block)
  have hq₂ := hopen₂.queued
  obtain ⟨s₁, hs₁, h₁⟩ :=
    h.prepare (d := .block) ha.queued ha.arrived ha.present_eq
  obtain ⟨hsafe₁, hsafe₂⟩ := hsafe s₁ hs₁
  have hothers : (a.prepare .block).OthersReady .block →
      (a.prepare .block).Roomy := by
    rintro ⟨hname, hready, hfront, _⟩
    apply h₁.roomy
    apply hsafe₁
    · rwa [h₁.namelessOp]
    · exact h₁.placement_ne_zero.mpr hready
    · rwa [h₁.namelessOp, h₁.threaded.readyLinks.front_eq]
  obtain ⟨s', hs', h'⟩ := h₁.pauseOthers (d := .block) hopen.queued hothers
  have hq' := (Machine.pauseOthers_phase (d := .block) hopen.queued).queued
  obtain ⟨s₂, hs₂, h₂⟩ := h'.resumePaused (d := .block) hq'
  have hmid : (Scheduler.pauseOthers .block s₁ >>=
      Scheduler.resumePaused .block) = .ok s₂ := by
    rw [hs']
    exact hs₂
  obtain ⟨hneeds, hsafe₃⟩ := hsafe₂ s₂ hmid
  have hlive : (((a.prepare .block).pauseOthers .block).resumePaused
      .block).Launchable .block := by
    intro hfree p number hp
    have hmem := Machine.choose_mem hp
    have hfront : s₂.Afront = some p := by
      rw [h₂.threaded.readyLinks.front_eq]
      simpa [Machine.choose] using hp
    have hleft := hneeds (h₂.selection.trans hfree) p hfront
    rw [h₂.field Process.C (fun _ => rfl),
      h₂.field Process.CPUTime (fun _ => rfl)] at hleft
    exact .inl ((hfits₂ p (hq₂.ready_spec hmem).1).draw_pos hleft number)
  have hrest : (a.prepare .block).Safe .block file := by
    refine ⟨hothers, fun c hc hrestReady => ?_⟩
    have hsim : Simulates (Scheduler.dispatch .block file s₂) _ :=
      h₂.dispatch hq₂ (fun i hi => (hfits₂ i hi).B_pos)
    rw [hc] at hsim
    obtain ⟨s₃, hs₃, h₃⟩ := hsim
    apply h₃.roomy
    apply hsafe₃ s₃ hs₃
    · exact h₃.placement_ne_zero.mpr hrestReady.2.1
    · rw [h₃.selection]
      exact hrestReady.2.2
  exact ⟨hlive, h.datapoint ha.queued ha.arrived ha.present_eq
    (fun i hi => (ha.fits i hi).B_pos) hrest⟩

theorem Represents.pausing_cycle
    (hfile : file.Endless)
    (h : Represents s a)
    (ha : a.Orderly t)
    (hsafe : PausesSafely file s) :
    ∃ s' b, Scheduler.datapoint .block file s = .ok s' ∧ Represents s' b ∧
      b.Orderly (t + 1) ∧ (a.Complete → b.Complete) := by
  obtain ⟨hlive, hsim⟩ := h.pausing_simulates ha hsafe
  obtain ⟨b, hb⟩ := Machine.datapoint_isSome (d := .block) hfile a
  rw [hb] at hsim
  obtain ⟨r, hr, hrep⟩ := hsim
  exact ⟨r, b, hr, hrep, ha.datapoint hb,
    (Machine.datapoint_cycle ha.queued ha.arrived ha.present_eq hlive hb).complete⟩

theorem Represents.partitioned
    (h : Represents s a)
    (hq : a.Queued)
    (hcomplete : a.Complete) :
    Partitioned s a.ready a.pause a.block where
  threaded := h.threaded
  exactly_one := fun i hi hstarted hactive => by
    rw [h.countPrime] at hi
    rw [h.field Process.condition (fun _ => rfl)] at hstarted hactive
    rw [h.selection]
    exact hq.exactly_one hcomplete hi hstarted hactive

/-- While every cycle pauses safely, no process is lost and no cycle follows a
NULL link. -/
theorem ticks_partitioned
    {W : Workload} {s₀ : State}
    (hfile : file.Endless)
    (hstart : Started file W s₀)
    (hsafe : ∀ k < t, (ticks .block file k s₀).Ensures (PausesSafely file)) :
    ∃ s ready pause block, ticks .block file t s₀ = .ok s ∧
      Partitioned s ready pause block := by
  obtain ⟨a, hrep, hinit⟩ := hstart.initial
  have key : ∀ k ≤ t, ∃ s b, ticks .block file k s₀ = .ok s ∧
      Represents s b ∧ b.Orderly k ∧ b.Complete := by
    intro k
    induction k with
    | zero =>
        intro _
        exact ⟨s₀, a, rfl, hrep, hinit.orderly, hinit.complete⟩
    | succ k ih =>
        intro hk
        obtain ⟨s, b, hs, hsb, hb, hcomplete⟩ := ih (by omega)
        obtain ⟨s', b', hs', hsb', hb', hkeeps⟩ :=
          hsb.pausing_cycle hfile hb (hsafe k (by omega) s hs)
        exact ⟨s', b', by rw [ticks_eq_bind, hs]; exact hs', hsb', hb',
          hkeeps hcomplete⟩
  obtain ⟨s, b, hs, hsb, hb, hcomplete⟩ := key t (le_refl t)
  exact ⟨s, b.ready, b.pause, b.block, hs, hsb.partitioned hb.queued hcomplete⟩

/-- Four processes that arrive together. -/
def fourJobs : Workload where
  jobs := [⟨0, 1, 5, 1⟩, ⟨0, 1, 5, 1⟩, ⟨0, 1, 5, 1⟩, ⟨0, 1, 5, 1⟩]
  fits := by decide

/-- One of four processes that arrive together is lost in the first cycle, and
the second cycle follows a NULL link. -/
theorem fourJobs_lost :
    ¬ ∀ (file : RandomFile) (W : Workload) (s₀ : State) (t : Nat),
      file.Endless → Started file W s₀ →
      ∃ s ready pause block, ticks .block file t s₀ = .ok s ∧
        Partitioned s ready pause block := by
  intro hclaim
  obtain ⟨s₀, hstart, hfault⟩ :=
    exists_loaded steadyFile fourJobs
      (P := fun s => (ticks .block steadyFile 2 s).fault? = some .nullPointer)
      (by decide +kernel)
  obtain ⟨s, _, _, _, hs, _⟩ :=
    hclaim steadyFile fourJobs s₀ 2 steadyFile_endless hstart
  rw [hs] at hfault
  cases hfault

theorem twoJobs_partitioned :
    ∃ s₀ s ready pause block, Started steadyFile twoJobs s₀ ∧
      ticks .block steadyFile 3 s₀ = .ok s ∧
      Partitioned s ready pause block := by
  obtain ⟨s₀, hstart, hsafe⟩ :=
    exists_loaded steadyFile twoJobs
      (P := fun s => ∀ k < 3,
        (ticks .block steadyFile k s).Ensures (PausesSafely steadyFile))
      (by decide +kernel)
  obtain ⟨s, ready, pause, block, hs, hpart⟩ :=
    ticks_partitioned steadyFile_endless hstart hsafe
  exact ⟨s₀, s, ready, pause, block, hstart, hs, hpart⟩

end Runs

end Scheduler
end PastWork
