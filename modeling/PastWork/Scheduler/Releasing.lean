import PastWork.Scheduler.Run

/-!
# Processes whose I/O ends in the same cycle

`execxuteB` walks the block list and unlinks every process whose timer has run
out.  It clears the link of the process before it follows that link, so that
the walk ends with the first release.  All are released exactly when there is
one at most.
-/

namespace PastWork
namespace Scheduler

open Links

/-- The expired processes have moved from the block list to the back of the
ready queue. -/
structure ReleasesExpired
    (s s' : State) (ready block : List Nat) : Prop where
  readyBefore : Linked (fun i => (s.Prime i).freshPrime)
    s.Afront s.Aback ready
  blockBefore : Linked (fun i => (s.Prime i).pushBlock)
    s.Blockfront s.Blockback block
  readyAfter : Linked (fun i => (s'.Prime i).freshPrime)
    s'.Afront s'.Aback (ready ++ block.filter (fun i => (s.Prime i).expired))
  blockAfter : Linked (fun i => (s'.Prime i).pushBlock)
    s'.Blockfront s'.Blockback
    (block.filter (fun i => !(s.Prime i).expired))
  condition : ∀ i, (s'.Prime i).condition =
    if i ∈ block ∧ (s.Prime i).expired = true then .ready
    else (s.Prime i).condition
  none_left : ∀ i < s'.countPrime, (s'.Prime i).condition = .blocked →
    (s'.Prime i).expired = false

/-- The timer of one blocked process at most has run out. -/
def OneExpired (s : State) : Prop :=
  ∀ i < s.countPrime, ∀ j < s.countPrime,
    (s.Prime i).condition = .blocked → (s.Prime i).expired = true →
    (s.Prime j).condition = .blocked → (s.Prime j).expired = true →
    i = j

section Release

variable {s s' : State} {a : Machine}

/-- With one expired process the block list is parted around it. -/
theorem Machine.Queued.expired_split
    {p : Nat}
    (h : a.Queued)
    (hfirst : a.firstExpired = some p)
    (hone : ∀ i ∈ a.block, (a.Prime i).expired = true → i = p) :
    a.block.filter (fun i => (a.Prime i).expired) = [p] ∧
      a.block.filter (fun i => !(a.Prime i).expired) = a.block.erase p := by
  obtain ⟨hmem, hexpired⟩ := Machine.firstExpired_spec hfirst
  have hiff : ∀ i ∈ a.block, ((a.Prime i).expired = true ↔ i = p) := by
    intro i hi
    refine ⟨hone i hi, ?_⟩
    rintro rfl
    exact hexpired
  constructor
  · rw [List.filter_congr (q := fun i => i == p)]
    · rw [List.filter_beq, List.count_eq_one_of_mem h.block_nodup hmem]
      rfl
    · intro i hi
      rw [Bool.eq_iff_iff, hiff i hi, beq_iff_eq]
  · rw [h.block_nodup.erase_eq_filter]
    apply List.filter_congr
    intro i hi
    rw [Bool.eq_iff_iff, Bool.not_eq_true', bne_iff_ne, ← not_iff_not]
    simpa using hiff i hi

/-- What the step has to make of the two lists and of the conditions. -/
theorem Machine.Queued.execxuteB_one
    (h : a.Queued)
    (hone : ∀ i ∈ a.block, ∀ j ∈ a.block, (a.Prime i).expired = true →
      (a.Prime j).expired = true → i = j) :
    a.execxuteB.ready =
        a.ready ++ a.block.filter (fun i => (a.Prime i).expired) ∧
      a.execxuteB.block = a.block.filter (fun i => !(a.Prime i).expired) ∧
      ∀ i, (a.execxuteB.Prime i).expired = (a.Prime i).expired ∧
        (a.execxuteB.Prime i).condition =
          if i ∈ a.block ∧ (a.Prime i).expired = true then .ready
          else (a.Prime i).condition := by
  unfold Machine.execxuteB
  cases hfirst : a.firstExpired with
  | none =>
      have hno : ∀ i ∈ a.block, (a.Prime i).expired = false := by
        simpa [Machine.firstExpired] using hfirst
      refine ⟨?_, ?_, ?_⟩
      · rw [List.filter_eq_nil_iff.mpr (by simpa using hno), List.append_nil]
      · exact (List.filter_eq_self.mpr (by simpa using hno)).symm
      · intro i
        refine ⟨rfl, ?_⟩
        rw [if_neg]
        rintro ⟨hi, hexpired⟩
        rw [hno i hi] at hexpired
        cases hexpired
  | some p =>
      obtain ⟨hmem, hexpired⟩ := Machine.firstExpired_spec hfirst
      obtain ⟨hmoved, hkept⟩ := h.expired_split hfirst
        (fun i hi hei => hone i hi p hmem hei hexpired)
      refine ⟨?_, ?_, ?_⟩
      · rw [hmoved]
        rfl
      · rw [hkept]
        rfl
      · intro i
        by_cases hip : i = p
        · subst hip
          rw [if_pos ⟨hmem, hexpired⟩]
          simp [Machine.release, Machine.modify, Process.expired]
        · have hnot : ¬ (i ∈ a.block ∧ (a.Prime i).expired = true) :=
            fun hi => hip (hone i hi.1 p hmem hi.2 hexpired)
          rw [if_neg hnot]
          simp [Machine.release, Machine.modify, hip]

/-- Any process but the first expired one stays as it is. -/
theorem Machine.execxuteB_stays
    {i : Nat}
    (hother : a.firstExpired ≠ some i) :
    a.execxuteB.Prime i = a.Prime i := by
  unfold Machine.execxuteB
  split
  next => rfl
  next p hp =>
    have hip : i ≠ p := fun heq => hother (heq ▸ hp)
    simp [Machine.release, Machine.modify, hip]

/-- What is still blocked has not expired. -/
theorem Machine.Queued.execxuteB_none_left
    {i : Nat}
    (h : a.Queued)
    (hprocess : (a.execxuteB.Prime i).expired = (a.Prime i).expired ∧
      (a.execxuteB.Prime i).condition =
        if i ∈ a.block ∧ (a.Prime i).expired = true then .ready
        else (a.Prime i).condition)
    (hi : i < a.countPrime)
    (hblocked : (a.execxuteB.Prime i).condition = .blocked) :
    (a.execxuteB.Prime i).expired = false := by
  rw [hprocess.2] at hblocked
  rw [hprocess.1]
  by_contra hexpired
  have hei : (a.Prime i).expired = true := by simpa using hexpired
  by_cases hmem : i ∈ a.block
  · rw [if_pos ⟨hmem, hei⟩] at hblocked
    cases hblocked
  · rw [if_neg (fun hc => hmem hc.1)] at hblocked
    exact hmem ((h.block_iff i).mpr ⟨hi, hblocked⟩)

/-- Two processes cannot both leave the block list. -/
theorem Represents.releases_iff
    (h : Represents s a)
    (h' : Represents s' a.execxuteB)
    (hq : a.Queued) :
    (∃ ready block, ReleasesExpired s s' ready block) ↔ OneExpired s := by
  have hcond : ∀ i, (s.Prime i).condition = (a.Prime i).condition :=
    h.field Process.condition (fun _ => rfl)
  have hexp : ∀ i, (s.Prime i).expired = (a.Prime i).expired :=
    h.field Process.expired (fun _ => rfl)
  have hcond' : ∀ i, (s'.Prime i).condition =
      (a.execxuteB.Prime i).condition :=
    h'.field Process.condition (fun _ => rfl)
  have hexp' : ∀ i, (s'.Prime i).expired = (a.execxuteB.Prime i).expired :=
    h'.field Process.expired (fun _ => rfl)
  have hcount : a.execxuteB.countPrime = a.countPrime :=
    (Machine.execxuteB_phase (d := .fcfs) hq).count
  unfold OneExpired
  simp only [hcond, hexp, h.countPrime]
  constructor
  · rintro ⟨ready, block, hreleases⟩ i hi j hj hbi hei hbj hej
    have hnone := hreleases.none_left
    simp only [hcond', hexp', h'.countPrime, hcount] at hnone
    -- a process other than the first expired one is still there
    have hstays : ∀ k < a.countPrime, (a.Prime k).condition = .blocked →
        (a.Prime k).expired = true → a.firstExpired = some k := by
      intro k hk hbk hek
      by_contra hother
      have hsame := Machine.execxuteB_stays hother
      have := hnone k hk (hsame ▸ hbk)
      rw [hsame, hek] at this
      cases this
    exact Option.some.inj
      ((hstays i hi hbi hei).symm.trans (hstays j hj hbj hej))
  · intro hone
    have hone' : ∀ i ∈ a.block, ∀ j ∈ a.block,
        (a.Prime i).expired = true → (a.Prime j).expired = true → i = j := by
      intro i hi j hj hei hej
      obtain ⟨hi, hbi⟩ := (hq.block_iff i).mp hi
      obtain ⟨hj, hbj⟩ := (hq.block_iff j).mp hj
      exact hone i hi j hj hbi hei hbj hej
    obtain ⟨hready, hblock, hprocess⟩ := hq.execxuteB_one hone'
    refine ⟨a.ready, a.block, ?_⟩
    exact
      { readyBefore := h.threaded.readyLinks
        blockBefore := h.threaded.blockLinks
        readyAfter := by
          simp only [hexp]
          exact hready ▸ h'.threaded.readyLinks
        blockAfter := by
          simp only [hexp]
          exact hblock ▸ h'.threaded.blockLinks
        condition := fun i => by
          rw [hcond', hcond, hexp]
          exact (hprocess i).2
        none_left := fun i hi hbi => by
          rw [h'.countPrime, hcount] at hi
          rw [hcond'] at hbi
          rw [hexp']
          exact hq.execxuteB_none_left (hprocess i) hi hbi }

end Release

/-- In every state that a run reaches, all expired processes are released
exactly when there is one at most. -/
theorem execxuteB_releases_iff
    {d : Policy} {file : RandomFile} {W : Workload}
    {s₀ s s₁ : State} {t : Nat}
    (hd : d ≠ .block)
    (hstart : Started file W s₀)
    (hrun : ticks d file t s₀ = .ok s)
    (hforward : proceedForward d s = .ok s₁) :
    ∃ s₂, execxuteB s₁ = .ok s₂ ∧
      ((∃ ready block, ReleasesExpired s₁ s₂ ready block) ↔
        OneExpired s₁) := by
  obtain ⟨_, a, _, _, hrep, horderly⟩ := hstart.reached hd hrun
  obtain ⟨s', hs', h₁⟩ := hrep.proceedForward (d := d) horderly.queued
  obtain rfl : s' = s₁ := Except.ok.inj (hs'.symm.trans hforward)
  have hq := (Machine.proceedForward_phase (d := d) horderly.queued).queued
  obtain ⟨s₂, hs₂, h₂⟩ := h₁.execxuteB hq
  exact ⟨s₂, hs₂, h₁.releases_iff h₂ hq⟩

theorem twoJobs_releases :
    ∃ s₀ s s₁ s₂, Started steadyFile twoJobs s₀ ∧
      ticks .fcfs steadyFile 2 s₀ = .ok s ∧
      proceedForward .fcfs s = .ok s₁ ∧ execxuteB s₁ = .ok s₂ ∧
      ((∃ ready block, ReleasesExpired s₁ s₂ ready block) ↔
        OneExpired s₁) := by
  obtain ⟨s₀, hstart, s, hs, s₁, hs₁, _⟩ :=
    exists_loaded steadyFile twoJobs
      (P := fun s => (ticks .fcfs steadyFile 2 s).Returns
        (fun s => (proceedForward .fcfs s).Returns (fun _ => True)))
      (by decide +kernel)
  obtain ⟨s₂, hs₂, hiff⟩ :=
    execxuteB_releases_iff (by decide) hstart hs hs₁
  exact ⟨s₀, s, s₁, s₂, hstart, hs, hs₁, hs₂, hiff⟩

/-- Two processes whose I/O ends in cycle 4. -/
def endTogether : Workload where
  jobs := [⟨0, 2, 9, 1⟩, ⟨0, 1, 9, 1⟩]
  fits := by decide

/-- A file of ones, so that a burst has two cycles where it can. -/
def oddFile : RandomFile :=
  fun _ => some 1

/-- The second one stays blocked. -/
theorem endTogether_left :
    ¬ ∀ (d : Policy) (file : RandomFile) (W : Workload)
      (s₀ s s₁ s₂ : State) (t : Nat), d ≠ .block →
      (∀ job ∈ W.jobs, 1 ≤ job.B ∧ 1 ≤ job.C) →
      Started file W s₀ → ticks d file t s₀ = .ok s →
      proceedForward d s = .ok s₁ → execxuteB s₁ = .ok s₂ →
      ∃ ready block, ReleasesExpired s₁ s₂ ready block := by
  intro hclaim
  obtain ⟨s₀, hstart, s, hs, s₁, hs₁, s₂, hs₂, hlt, hblocked, hexpired⟩ :=
    exists_loaded oddFile endTogether
      (P := fun s => (ticks .fcfs oddFile 4 s).Returns
        (fun s => (proceedForward .fcfs s).Returns
          (fun s => (execxuteB s).Returns (fun s =>
            1 < s.countPrime ∧ (s.Prime 1).condition = .blocked ∧
              (s.Prime 1).expired = true))))
      (by decide +kernel)
  obtain ⟨ready, block, hreleases⟩ := hclaim .fcfs oddFile endTogether
    s₀ s s₁ s₂ 4 (by decide) (by decide) hstart hs hs₁ hs₂
  rw [hreleases.none_left 1 hlt hblocked] at hexpired
  cases hexpired

end Scheduler
end PastWork
