import PastWork.Scheduler.Start

/-!
# Runs

`Machine.ticks` runs the machine for a number of cycles.  From the start of a
run every state that the simulator reaches represents the state that the
machine reaches.  Every such machine is orderly, and sound when all processes need
CPU time.
-/

namespace PastWork
namespace Scheduler

namespace Machine

/-- The machine after `t` cycles. -/
def ticks (d : Policy) (file : RandomFile) : Nat → Machine → Option Machine
  | 0, a => some a
  | t + 1, a => (ticks d file t a).bind (datapoint d file)

section Initial

variable {file : RandomFile} {W : Workload} {a : Machine}

theorem Initial.process
    (h : a.Initial file W)
    {i : Nat} (hi : i < a.countPrime) :
    ∃ (hlt : i < W.jobs.length), 0 < (W.jobs[i]).B.toNat ∧
      ∃ number quantum, file i = some number ∧
        a.Prime i = freshProcess W.jobs[i] i number quantum := by
  rw [h.pristine.countPrime] at hi
  exact ⟨hi, (h.pristine.fresh i).spec hi⟩

theorem Initial.unstarted
    (h : a.Initial file W)
    {i : Nat} (hi : i < a.countPrime) :
    (a.Prime i).condition = .unstarted := by
  obtain ⟨_, _, _, _, _, hproc⟩ := h.process hi
  rw [hproc]
  rfl

theorem Initial.queued
    (h : a.Initial file W) :
    a.Queued where
  fits := by
    rw [h.pristine.countPrime]
    exact W.fits
  ids := fun i hi => by
    obtain ⟨_, _, _, _, _, hproc⟩ := h.process hi
    rw [hproc]
    rfl
  waiting_nodup := by simp [h.ready, h.pause]
  block_nodup := by simp [h.block]
  waiting_spec := fun i hi => by
    rw [h.ready, h.pause] at hi
    cases hi
  block_iff := fun i => by
    rw [h.block]
    constructor
    · intro hi
      simp at hi
    · rintro ⟨hi, hcond⟩
      rw [h.unstarted hi] at hcond
      cases hcond
  selection_iff := fun i => by
    rw [h.pristine.selection]
    constructor
    · intro hi
      cases hi
    · rintro ⟨hi, hcond⟩
      rw [h.unstarted hi] at hcond
      cases hcond
  completion_eq := by
    rw [h.pristine.completion, tally, eq_comm, Finset.card_eq_zero,
      Finset.filter_eq_empty_iff]
    intro i hi
    rw [h.unstarted (Finset.mem_range.mp hi)]
    simp

theorem Initial.complete
    (h : a.Initial file W) :
    a.Complete := by
  intro i hi hcond
  rw [h.unstarted hi] at hcond
  cases hcond

theorem Initial.arrived
    (h : a.Initial file W) :
    a.Arrived 0 where
  A_lt := fun i hi => by
    obtain ⟨_, _, _, _, _, hproc⟩ := h.process hi
    rw [hproc]
    exact UInt32.toNat_lt _
  unstarted_iff := fun i hi => by
    simp [h.unstarted hi]
  total_eq := by
    rw [h.pristine.totalPrime]
    simp

theorem Initial.fits
    (h : a.Initial file W)
    {i : Nat} (hi : i < a.countPrime) :
    (a.Prime i).Fits := by
  obtain ⟨_, hB, _, _, _, hproc⟩ := h.process hi
  rw [hproc]
  exact ⟨hB, UInt32.toNat_lt _, UInt32.toNat_lt _, UInt32.toNat_lt _,
    by norm_num [freshProcess], Nat.mod_lt _ (by norm_num)⟩

theorem Initial.orderly
    (h : a.Initial file W) :
    a.Orderly 0 where
  queued := h.queued
  arrived := h.arrived
  present_eq := h.pristine.present
  fits := fun _ => h.fits

/-- A run over processes that need CPU time starts from a sound machine. -/
theorem Initial.sound
    (h : a.Initial file W)
    (hC : ∀ job ∈ W.jobs, 1 ≤ job.C) :
    a.Sound 0 where
  queued := h.queued
  arrived := h.arrived
  present_eq := h.pristine.present
  complete := h.complete
  budgeted := fun i hi => by
    have hcond := h.unstarted hi
    obtain ⟨hlt, _, _, _, _, hproc⟩ := h.process hi
    have hpos : 0 < (W.jobs[i]).C.toNat := by
      have hle := hC _ (List.getElem_mem hlt)
      have := UInt32.le_iff_toNat_le.mp hle
      exact this
    refine ⟨h.fits hi, ?_, ?_, ?_, ?_, ?_, ?_⟩
    · rw [hproc]
      exact hpos
    · intro _
      rw [hproc]
      rfl
    all_goals
      intro hc
      rw [hcond] at hc
      cases hc

end Initial

section Runs

variable {d : Policy} {file : RandomFile} {a b : Machine}

theorem ticks_succ
    {t : Nat}
    (hb : a.ticks d file (t + 1) = some b) :
    ∃ c, a.ticks d file t = some c ∧ c.datapoint d file = some b :=
  Option.bind_eq_some_iff.mp hb

/-- A property that each cycle keeps, with the number of the cycle, holds after
any number of cycles. -/
theorem ticks_invariant
    {I : Nat → Machine → Prop}
    (hinit : I 0 a)
    (hstep : ∀ t b c, I t b → b.datapoint d file = some c →
      I (t + 1) c)
    {t : Nat}
    (hb : a.ticks d file t = some b) :
    I t b := by
  induction t generalizing b with
  | zero =>
      cases hb
      exact hinit
  | succ t ih =>
      obtain ⟨c, hc, hcb⟩ := ticks_succ hb
      exact hstep t c b (ih hc) hcb

theorem Sound.ticks
    {t : Nat}
    (h : a.Sound 0)
    (hb : a.ticks d file t = some b) :
    b.Sound t :=
  ticks_invariant h (fun _ _ _ => Sound.datapoint) hb

theorem Orderly.ticks
    {t : Nat}
    (h : a.Orderly 0)
    (hb : a.ticks d file t = some b) :
    b.Orderly t :=
  ticks_invariant h (fun _ _ _ => Orderly.datapoint) hb

/-- With an endless file a cycle always has its random number. -/
theorem datapoint_isSome
    (hfile : file.Endless)
    (a : Machine) :
    ∃ b, a.datapoint d file = some b := by
  have hdispatch : ∀ c : Machine, ∃ b, c.dispatch d file = some b := by
    intro c
    unfold dispatch
    split
    · split
      · exact ⟨c, rfl⟩
      · obtain ⟨number, hnumber⟩ := Option.isSome_iff_exists.mp
          (hfile c.infinity)
        rw [hnumber]
        exact ⟨_, rfl⟩
    · exact ⟨c, rfl⟩
  obtain ⟨b, hb⟩ :=
    hdispatch (((a.prepare d).pauseOthers d).resumePaused d)
  exact ⟨(b.pauseReady d).advance d, by simp [datapoint, executeR, hb]⟩

theorem ticks_isSome
    (hfile : file.Endless)
    (a : Machine) (t : Nat) :
    ∃ b, a.ticks d file t = some b := by
  induction t with
  | zero =>
      exact ⟨a, rfl⟩
  | succ t ih =>
      obtain ⟨b, hb⟩ := ih
      obtain ⟨c, hc⟩ := datapoint_isSome (d := d) hfile b
      exact ⟨c, by rw [ticks, hb]; exact hc⟩

/-- Without pausing, `executeR` only dispatches. -/
theorem executeR_eq_dispatch
    (hd : d ≠ .block) :
    a.executeR d file = a.dispatch d file := by
  have hothers : ∀ c : Machine, c.pauseOthers d = c := fun c =>
    if_neg (fun h => hd h.2.2.2)
  have hresume : ∀ c : Machine, c.resumePaused d = c := by
    intro c
    unfold resumePaused
    split
    · rfl
    · exact if_neg (fun h => hd h.1)
  have hready : pauseReady d = id := by
    funext c
    exact if_neg (fun h => hd h.1)
  rw [executeR, hothers, hresume, hready, Option.map_id_fun, id]

theorem datapoint_eq_dispatch
    (hd : d ≠ .block) :
    a.datapoint d file =
      ((a.prepare d).dispatch d file).map (advance d) := by
  rw [datapoint, executeR_eq_dispatch hd]

theorem prepare_pause :
    (a.prepare d).pause = a.pause := by
  have hforward : (a.proceedForward d).pause = a.pause := by
    unfold proceedForward
    split
    · rfl
    · split_ifs <;> rfl
  have hexecute : ∀ c : Machine, c.execxuteB.pause = c.pause := by
    intro c
    unfold execxuteB
    split <;> rfl
  have hcreation : ∀ c : Machine, c.creation.pause = c.pause := by
    intro c
    unfold creation
    split <;> rfl
  rw [prepare, hcreation, hexecute, hforward]

theorem dispatch_pause
    (hb : a.dispatch d file = some b) :
    b.pause = a.pause := by
  cases dispatch_cases hb with
  | busy | idle => rfl
  | start =>
      unfold start
      dsimp only
      split <;> rfl

/-- The pause queue belongs to the policy `block` alone. -/
theorem datapoint_pause
    (hd : d ≠ .block)
    (hb : a.datapoint d file = some b) :
    b.pause = a.pause := by
  rw [datapoint_eq_dispatch hd] at hb
  obtain ⟨e, he, rfl⟩ := Option.map_eq_some_iff.mp hb
  exact (dispatch_pause he).trans prepare_pause

end Runs

end Machine

section Runs

variable {d : Policy} {file : RandomFile} {s : State} {a : Machine}

theorem ticks_eq_bind
    (t : Nat) :
    ticks d file (t + 1) s = ticks d file t s >>= datapoint d file := by
  rfl

/-- A cycle under a policy that pauses nothing. -/
theorem Represents.cycle
    {t : Nat}
    (hd : d ≠ .block)
    (h : Represents s a)
    (horderly : a.Orderly t) :
    Simulates (Scheduler.datapoint d file s) (a.datapoint d file) :=
  h.datapoint horderly.queued horderly.arrived horderly.present_eq
    (fun i hi => (horderly.fits i hi).B_pos) (Machine.safe_of_ne_block hd)

/-- The simulator and the machine run side by side. -/
theorem Represents.ticks
    (hd : d ≠ .block)
    (h : Represents s a)
    (horderly : a.Orderly 0)
    (t : Nat) :
    Simulates (Scheduler.ticks d file t s) (a.ticks d file t) := by
  induction t with
  | zero =>
      exact ⟨s, rfl, h⟩
  | succ t ih =>
      rw [ticks_eq_bind, Machine.ticks]
      apply ih.bind
      intro s' b hb hrep
      exact hrep.cycle hd (horderly.ticks hb)

/-- With an endless file the run has no end. -/
theorem Represents.ticks_ok
    (hd : d ≠ .block)
    (hfile : file.Endless)
    (h : Represents s a)
    (horderly : a.Orderly 0)
    (t : Nat) :
    ∃ s' b, Scheduler.ticks d file t s = .ok s' ∧
      a.ticks d file t = some b ∧ Represents s' b := by
  obtain ⟨b, hb⟩ := Machine.ticks_isSome (d := d) hfile a t
  have hsim : Simulates (Scheduler.ticks d file t s) (a.ticks d file t) :=
    h.ticks hd horderly t
  rw [hb] at hsim
  obtain ⟨s', hs', hrep⟩ := hsim
  exact ⟨s', b, hs', hb, hrep⟩

/-- A run that has been made is one of the machine. -/
theorem Represents.ran
    {s' : State} {t : Nat}
    (hd : d ≠ .block)
    (h : Represents s a)
    (horderly : a.Orderly 0)
    (hrun : Scheduler.ticks d file t s = .ok s') :
    ∃ b, a.ticks d file t = some b ∧ Represents s' b := by
  have hsim : Simulates (Scheduler.ticks d file t s) (a.ticks d file t) :=
    h.ticks hd horderly t
  rw [hrun] at hsim
  exact hsim.of_ok

/-- The two parts of a cycle under a policy that pauses nothing. -/
theorem Represents.parts
    {t : Nat}
    (file : RandomFile)
    (hd : d ≠ .block)
    (h : Represents s a)
    (horderly : a.Orderly t) :
    ∃ s₁, Scheduler.prepare d s = .ok s₁ ∧
      Represents s₁ (a.prepare d) ∧
      Simulates (Scheduler.executeR d file s₁)
        ((a.prepare d).dispatch d file) := by
  have hopen := Machine.prepare_opened (d := d) horderly.queued
    horderly.arrived horderly.present_eq
  obtain ⟨s₁, hs₁, h₁⟩ := h.prepare (d := d) horderly.queued
    horderly.arrived horderly.present_eq
  refine ⟨s₁, hs₁, h₁, ?_⟩
  rw [← Machine.executeR_eq_dispatch hd]
  apply h₁.executeR hopen.queued ?_ (Machine.safe_of_ne_block hd)
  intro i hi
  rw [hopen.count] at hi
  rw [(hopen.moves i hi).input_eq.2.1]
  exact (horderly.fits i hi).B_pos

/-- The state of a run, with the machine that it represents. -/
theorem Started.reached
    {W : Workload} {t : Nat} {s' : State}
    (hd : d ≠ .block)
    (hstart : Started file W s)
    (hrun : Scheduler.ticks d file t s = .ok s') :
    ∃ a₀ a : Machine, a₀.Initial file W ∧ a₀.ticks d file t = some a ∧
      Represents s' a ∧ a.Orderly t := by
  obtain ⟨a₀, hrep₀, hinit⟩ := hstart.initial
  obtain ⟨a, ha, hrep⟩ := hrep₀.ran hd hinit.orderly hrun
  exact ⟨a₀, a, hinit, ha, hrep, hinit.orderly.ticks ha⟩

end Runs

end Scheduler
end PastWork
