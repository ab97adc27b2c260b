import PastWork.Scheduler.IOTime

/-!
# One process at a time under the policy `block`

A process has the CPU to itself from its first dispatch to its end only if
`executeR` never dispatches another one in between.  What it dispatches is the
front of the ready queue after the first pausing loop and the resumption; the
loop stops half way, and `namelessOp` need not be the process that has begun.
-/

namespace PastWork
namespace Scheduler

open Links

/-- A process that has run and is not finished. -/
def Process.Begun (q : Process) : Prop :=
  0 < q.CPUTime ∧ q.condition ≠ .terminated

/-- The node after `k` links of the ready queue. -/
def State.readyAt (s : State) (k : Nat) : Ptr :=
  walk (fun i => (s.Prime i).freshPrime) k s.Afront

/-- With a free CPU, `executeR` hands it to `p` or leaves it free.  When the
first pausing loop runs, at most one process is ready or `p` is the one behind
the drained half; otherwise `p` is in front, or the ready queue is empty and no
other process is resumed. -/
def State.HandsTo (s : State) (p : Nat) : Prop :=
  if s.namelessOp ≠ none ∧ s.placement ≠ 0 ∧ s.Afront ≠ s.namelessOp then
    s.placement ≤ 1 ∨ s.readyAt ((s.placement + 1) / 2) = some p
  else if s.placement ≠ 0 then
    s.Afront = some p
  else
    s.namelessOp = none → s.PauseQ ≠ 0 → s.Pausefront = some p

instance (s : State) (p : Nat) : Decidable (s.HandsTo p) := by
  unfold State.HandsTo
  infer_instance

instance (q : Process) : Decidable q.Begun := by
  unfold Process.Begun
  infer_instance

/-- The condition on a cycle that starts in `s`: a process that has begun gets
the CPU before any other. -/
def KeepsOwner (s : State) : Prop :=
  (prepare .block s).Ensures fun s₁ =>
    s₁.selection = none → ∀ p < s₁.countPrime, (s₁.Prime p).Begun →
      s₁.HandsTo p

instance (s : State) : Decidable (KeepsOwner s) := by
  unfold KeepsOwner
  infer_instance

/-- The cycle from `s` to `s'` dispatches `p`. -/
def Dispatches (s s' : State) (p : Nat) : Prop :=
  (prepare .block s).Ensures (fun s₁ => s₁.selection = none) ∧
    s'.selection = some p

/-- In the first `n` cycles, a process that is dispatched is the only one until
it terminates. -/
def Uniprogrammed (run : Nat → State) (n : Nat) : Prop :=
  ∀ t₁ t₂ p q, t₁ ≤ t₂ → t₂ < n →
    Dispatches (run t₁) (run (t₁ + 1)) p →
    Dispatches (run t₂) (run (t₂ + 1)) q →
    p ≠ q → ((run (t₂ + 1)).Prime p).condition = .terminated

namespace Machine

variable {d : Policy} {file : RandomFile} {a b : Machine} {t i : Nat}

/-- The process that `executeR` dispatches when the CPU is free. -/
def offered (a : Machine) : Ptr :=
  ((a.pauseOthers .block).resumePaused .block).ready.head?

theorem offered_of_others
    (h : a.OthersReady .block) :
    a.offered = a.ready[(a.ready.length + 1) / 2]? := by
  have hresume : a.pauseHalf.resumePaused .block = a.pauseHalf := by
    unfold resumePaused
    split
    · rfl
    · exact if_neg (fun hc => h.1 hc.2)
  rw [offered, pauseOthers, if_pos h, hresume]
  exact List.head?_drop ..

theorem offered_of_not_others
    (h : ¬ a.OthersReady .block) :
    a.offered =
      if a.ready ≠ [] then a.ready.head?
      else if a.namelessOp = none then a.pause.head?
      else none := by
  rw [offered, pauseOthers, if_neg h]
  unfold resumePaused
  split
  next hpause =>
      rw [hpause]
      cases a.ready <;> simp
  next p rest hpause =>
      rw [hpause]
      by_cases hname : a.namelessOp = none
      · rw [if_pos ⟨rfl, hname⟩, if_pos hname]
        cases a.ready <;> simp
      · rw [if_neg (fun hc => hname hc.2), if_neg hname]
        cases a.ready <;> simp

/-- A cycle with a free CPU dispatches the process that is offered. -/
theorem Sound.selection_of_free
    (h : a.Sound t)
    (hb : a.datapoint .block file = some b)
    (hfree : (a.prepare .block).selection = none) :
    b.selection = (a.prepare .block).offered := by
  obtain ⟨c, hc, rfl⟩ := Option.map_eq_some_iff.mp hb
  obtain ⟨e, he, rfl⟩ := Option.map_eq_some_iff.mp hc
  have hselection : ((e.pauseReady .block).advance .block).selection =
      e.selection := pauseReady_frame.2
  have hfree' : (((a.prepare .block).pauseOthers .block).resumePaused
      .block).selection = none := by
    rw [resumePaused_frame.2, pauseOthers_frame.2]
    exact hfree
  rw [hselection]
  cases dispatch_cases he with
  | busy hbusy => exact absurd hfree' hbusy
  | idle _ hnone =>
      rw [hfree']
      exact (show offered _ = none from hnone).symm
  | @start p number _ hchoose =>
      rw [start_eq (h.launchable hfree' p number hchoose)]
      exact (show offered _ = some p from hchoose).symm

theorem selection_of_busy
    (hb : a.datapoint d file = some b)
    (hbusy : (a.prepare d).selection ≠ none) :
    b.selection = (a.prepare d).selection := by
  obtain ⟨c, hc, rfl⟩ := Option.map_eq_some_iff.mp hb
  obtain ⟨e, he, rfl⟩ := Option.map_eq_some_iff.mp hc
  have hselection : ((e.pauseReady d).advance d).selection =
      e.selection := pauseReady_frame.2
  rw [hselection]
  cases dispatch_cases he with
  | busy => rw [resumePaused_frame.2, pauseOthers_frame.2]
  | idle hfree | start hfree =>
      rw [resumePaused_frame.2, pauseOthers_frame.2] at hfree
      exact absurd hfree hbusy

/-- Before the dispatch the CPU is at most taken away. -/
theorem prepare_selection
    {p : Nat}
    (hp : (a.prepare d).selection = some p) :
    a.selection = some p := by
  have hexecute : ∀ c : Machine, c.execxuteB.selection = c.selection := by
    intro c
    unfold execxuteB
    split <;> rfl
  have hcreation : ∀ c : Machine, c.creation.selection = c.selection := by
    intro c
    unfold creation
    split <;> rfl
  rw [prepare, hcreation, hexecute] at hp
  unfold proceedForward at hp
  split at hp
  next hsel =>
      rw [hsel] at hp
      cases hp
  next s hsel =>
      split_ifs at hp
      · cases hp
      · cases hp
      · cases hp
      · exact hp

/-- Before the dispatch every process has the CPU time it had. -/
theorem Sound.prepare_CPUTime
    (h : a.Sound t)
    (hi : i < a.countPrime) :
    ((a.prepare d).Prime i).CPUTime = (a.Prime i).CPUTime :=
  ((prepare_opened h.queued h.arrived h.present_eq).moves i hi).CPUTime_eq

/-- A process that is finished before the dispatch is so after the cycle. -/
theorem Sound.terminated_of_prepare
    (h : a.Sound t)
    (hb : a.datapoint d file = some b) :
    (b.Prime i).condition = .terminated ↔
      ((a.prepare d).Prime i).condition = .terminated := by
  obtain ⟨c, hc, rfl⟩ := Option.map_eq_some_iff.mp hb
  rw [advance_condition]
  rcases h.executeR_Prime hc i with heq | ⟨hready, number, heq⟩
  · rw [heq]
  · rw [heq, hready]
    simp [launch]

/-- A cycle takes no CPU time away. -/
theorem Sound.CPUTime_le
    (h : a.Sound t)
    (hb : a.datapoint d file = some b)
    (hi : i < a.countPrime) :
    (a.Prime i).CPUTime ≤ (b.Prime i).CPUTime := by
  by_cases hsel : b.selection = some i
  · have := (h.running_CPUTime hb hsel).2.1
    omega
  · exact (h.waiting_CPUTime hb hi hsel).ge

end Machine

section Offer

variable {s : State} {a : Machine} {p : Nat}

/-- `HandsTo` says that nobody but `p` is offered the CPU. -/
theorem Represents.handsTo
    (h : Represents s a) :
    s.HandsTo p ↔ ∀ q, a.offered = some q → q = p := by
  have hothers : (s.namelessOp ≠ none ∧ s.placement ≠ 0 ∧
      s.Afront ≠ s.namelessOp) ↔ a.OthersReady .block := by
    rw [h.placement_ne_zero, h.namelessOp, h.threaded.readyLinks.front_eq]
    simp [Machine.OthersReady]
  unfold State.HandsTo
  by_cases hdrain : a.OthersReady .block
  · rw [if_pos (hothers.mpr hdrain), Machine.offered_of_others hdrain,
      h.threaded.placement_eq, State.readyAt,
      h.threaded.readyLinks.chain.walk_eq]
    have hpos := List.length_pos_of_ne_nil hdrain.2.1
    constructor
    · rintro (hone | hmid) q hq
      · rw [List.getElem?_eq_none (by omega)] at hq
        cases hq
      · rw [hmid] at hq
        exact (Option.some.inj hq).symm
    · intro honly
      by_cases hone : a.ready.length ≤ 1
      · exact .inl hone
      · have hlt : (a.ready.length + 1) / 2 < a.ready.length := by omega
        rw [List.getElem?_eq_getElem hlt] at honly ⊢
        exact .inr (congrArg some (honly _ rfl))
  · rw [if_neg (fun hc => hdrain (hothers.mp hc)),
      Machine.offered_of_not_others hdrain]
    by_cases hready : a.ready ≠ []
    · rw [if_pos (h.placement_ne_zero.mpr hready), if_pos hready,
        h.threaded.readyLinks.front_eq]
      obtain ⟨q, rest, hcons⟩ := List.exists_cons_of_ne_nil hready
      simp [hcons]
    · rw [if_neg (fun hc => hready (h.placement_ne_zero.mp hc)),
        if_neg hready, h.namelessOp, h.threaded.PauseQ_eq,
        h.threaded.pauseLinks.front_eq]
      by_cases hname : a.namelessOp = none
      · rw [if_pos hname]
        cases a.pause with
        | nil => simp
        | cons q rest => simp [hname]
      · rw [if_neg hname]
        simp [hname]

end Offer

/-- The first `n` cycles of the simulator beside those of the machine. -/
structure Followed
    (file : RandomFile) (W : Workload)
    (run : Nat → State) (m : Nat → Machine) (n : Nat) : Prop where
  initial : (m 0).Initial file W
  represents : ∀ t ≤ n, Represents (run t) (m t)
  sound : ∀ t ≤ n, (m t).Sound t
  step : ∀ t < n, (m t).datapoint .block file = some (m (t + 1))

section Runs

variable {file : RandomFile} {W : Workload}
variable {run : Nat → State} {m : Nat → Machine} {n p t : Nat}

theorem exists_followed
    (hC : ∀ job ∈ W.jobs, 1 ≤ job.C)
    (hstart : Started file W (run 0))
    (hrun : ∀ t < n, datapoint .block file (run t) = .ok (run (t + 1)))
    (hsafe : ∀ t < n, PausesSafely file (run t)) :
    ∃ m, Followed file W run m n := by
  obtain ⟨a, hrep, hinit⟩ := hstart.initial
  have hpair : ∀ t, t ≤ n → ∃ b, a.ticks .block file t = some b ∧
      Represents (run t) b := by
    intro t
    induction t with
    | zero =>
        intro _
        exact ⟨a, rfl, hrep⟩
    | succ t ih =>
        intro ht
        obtain ⟨b, hb, hrep⟩ := ih (by omega)
        have hsound := (hinit.sound hC).ticks hb
        obtain ⟨_, hsim⟩ := hrep.pausing_simulates
          ⟨hsound.queued, hsound.arrived, hsound.present_eq,
            fun i hi => (hsound.budgeted i hi).fits⟩
          (hsafe t (by omega))
        rw [hrun t (by omega)] at hsim
        cases hc : b.datapoint .block file with
        | none =>
            rw [hc] at hsim
            cases hsim
        | some c =>
            rw [hc] at hsim
            obtain ⟨s, hs, hsc⟩ := hsim
            cases hs
            exact ⟨c, by rw [Machine.ticks, hb]; exact hc, hsc⟩
  have : Nonempty Machine := ⟨a⟩
  choose! m hm hrep' using hpair
  have hzero : m 0 = a := (Option.some.inj (hm 0 (Nat.zero_le n))).symm
  refine ⟨m, hzero ▸ hinit, hrep',
    fun t ht => (hinit.sound hC).ticks (hm t ht), ?_⟩
  intro t ht
  obtain ⟨c, hc, hcb⟩ := Machine.ticks_succ (hm (t + 1) ht)
  rw [hm t (by omega)] at hc
  cases hc
  exact hcb

theorem Followed.countPrime
    (h : Followed file W run m n)
    (ht : t ≤ n) :
    (m t).countPrime = W.jobs.length := by
  induction t with
  | zero =>
      exact h.initial.pristine.countPrime
  | succ t ih =>
      exact ((h.sound t (by omega)).cycle (h.step t ht)).count.trans
        (ih (by omega))

theorem Followed.lt_countPrime
    (h : Followed file W run m n)
    (ht : t ≤ n)
    (hp : p < W.jobs.length) :
    p < (m t).countPrime :=
  (h.countPrime ht).symm ▸ hp

/-- A dispatch, read off the machine. -/
theorem Followed.dispatches_iff
    (h : Followed file W run m n)
    (ht : t < n) :
    Dispatches (run t) (run (t + 1)) p ↔
      ((m t).prepare .block).selection = none ∧
        (m (t + 1)).selection = some p := by
  have hs := h.sound t ht.le
  obtain ⟨s₁, hs₁, h₁⟩ := (h.represents t ht.le).prepare (d := .block)
    hs.queued hs.arrived hs.present_eq
  unfold Dispatches
  rw [hs₁, Result.ensures_ok, h₁.selection,
    (h.represents (t + 1) ht).selection]

theorem Followed.CPUTime_mono
    (h : Followed file W run m n)
    (hp : p < W.jobs.length)
    {u : Nat} (hut : u ≤ t) (ht : t ≤ n) :
    ((m u).Prime p).CPUTime ≤ ((m t).Prime p).CPUTime := by
  induction t with
  | zero =>
      obtain rfl : u = 0 := by omega
      exact le_refl _
  | succ t ih =>
      by_cases hlast : u = t + 1
      · rw [hlast]
      · exact (ih (by omega) (by omega)).trans
          ((h.sound t (by omega)).CPUTime_le (h.step t ht)
            (h.lt_countPrime (by omega) hp))

/-- A process runs in the cycle of its dispatch. -/
theorem Followed.running_pos
    (h : Followed file W run m n)
    (ht : t ≤ n)
    (hsel : (m t).selection = some p) :
    p < W.jobs.length ∧ 0 < ((m t).Prime p).CPUTime := by
  cases t with
  | zero =>
      rw [h.initial.pristine.selection] at hsel
      cases hsel
  | succ t =>
      have hs := h.sound t (by omega)
      obtain ⟨hlt, hcpu, _⟩ := hs.running_CPUTime (h.step t ht) hsel
      rw [h.countPrime (by omega)] at hlt
      exact ⟨hlt, by omega⟩

/-- A process that has CPU time has been dispatched. -/
theorem Followed.dispatched_of_pos
    (h : Followed file W run m n)
    (hp : p < W.jobs.length)
    (ht : t ≤ n)
    (hpos : 0 < ((m t).Prime p).CPUTime) :
    ∃ u < t, Dispatches (run u) (run (u + 1)) p := by
  induction t with
  | zero =>
      obtain ⟨_, _, _, _, _, hproc⟩ :=
        h.initial.process (h.lt_countPrime ht hp)
      rw [hproc] at hpos
      cases hpos
  | succ t ih =>
      by_cases hbefore : 0 < ((m t).Prime p).CPUTime
      · obtain ⟨u, hu, hdispatch⟩ := ih (by omega) hbefore
        exact ⟨u, by omega, hdispatch⟩
      · have hs := h.sound t (by omega)
        have hsel : (m (t + 1)).selection = some p := by
          by_contra hne
          rw [hs.waiting_CPUTime (h.step t ht)
            (h.lt_countPrime (by omega) hp) hne] at hpos
          exact hbefore hpos
        refine ⟨t, by omega, (h.dispatches_iff ht).mpr ⟨?_, hsel⟩⟩
        by_contra hbusy
        have hsame := Machine.selection_of_busy (h.step t ht) hbusy
        have hold := Machine.prepare_selection (hsame.symm.trans hsel)
        exact hbefore (h.running_pos (by omega) hold).2

/-- In a run that pauses safely the policy is uniprogrammed exactly as long as
a process that has begun gets the CPU before any other. -/
theorem ticks_uniprogrammed
    (hjobs : ∀ job ∈ W.jobs, 1 ≤ job.B ∧ 1 ≤ job.C)
    (hstart : Started file W (run 0))
    (hrun : ∀ t < n, datapoint .block file (run t) = .ok (run (t + 1)))
    (hsafe : ∀ t < n, PausesSafely file (run t)) :
    Uniprogrammed run n ↔ ∀ t < n, KeepsOwner (run t) := by
  obtain ⟨m, h⟩ := exists_followed (fun job hjob => (hjobs job hjob).2)
    hstart hrun hsafe
  constructor
  · intro huni t ht s₁ hs₁ hfree p hp hbegun
    have hs := h.sound t ht.le
    have hcount := h.countPrime ht.le
    have hopen := Machine.prepare_opened (d := .block)
      hs.queued hs.arrived hs.present_eq
    obtain ⟨s₁', hs₁', h₁⟩ := (h.represents t ht.le).prepare (d := .block)
      hs.queued hs.arrived hs.present_eq
    cases hs₁.symm.trans hs₁'
    rw [h₁.selection] at hfree
    rw [h₁.countPrime, hopen.count] at hp
    rw [Process.Begun, h₁.field Process.CPUTime (fun _ => rfl),
      h₁.field Process.condition (fun _ => rfl), hs.prepare_CPUTime hp]
      at hbegun
    rw [hcount] at hp
    obtain ⟨u, hu, hdispatched⟩ :=
      h.dispatched_of_pos hp ht.le hbegun.1
    rw [h₁.handsTo]
    intro q hq
    by_contra hqp
    have hdispatches := (h.dispatches_iff (p := q) ht).mpr
      ⟨hfree, (hs.selection_of_free (h.step t ht) hfree).trans hq⟩
    have hdone := huni u t p q hu.le ht hdispatched hdispatches
      (Ne.symm hqp)
    rw [(h.represents (t + 1) ht).field Process.condition (fun _ => rfl),
      hs.terminated_of_prepare (h.step t ht)] at hdone
    exact hbegun.2 hdone
  · intro howner t₁ t₂ p q hle ht₂ hp hq hpq
    have hs := h.sound t₂ ht₂.le
    obtain ⟨_, hselp⟩ := (h.dispatches_iff (by omega)).mp hp
    obtain ⟨hfree, hselq⟩ := (h.dispatches_iff ht₂).mp hq
    have hlt : t₁ < t₂ := by
      refine lt_of_le_of_ne hle ?_
      rintro rfl
      exact hpq (Option.some.inj (hselp.symm.trans hselq))
    obtain ⟨hpcount, hpos⟩ := h.running_pos (by omega) hselp
    have hpos₂ := hpos.trans_le (h.CPUTime_mono hpcount hlt ht₂.le)
    have hpcount₂ := h.lt_countPrime ht₂.le hpcount
    rw [(h.represents (t₂ + 1) ht₂).field Process.condition (fun _ => rfl),
      hs.terminated_of_prepare (h.step t₂ ht₂)]
    by_contra hactive
    have hopen := Machine.prepare_opened (d := .block)
      hs.queued hs.arrived hs.present_eq
    obtain ⟨s₁, hs₁, h₁⟩ := (h.represents t₂ ht₂.le).prepare (d := .block)
      hs.queued hs.arrived hs.present_eq
    have hbegun : (s₁.Prime p).Begun := by
      rw [Process.Begun, h₁.field Process.CPUTime (fun _ => rfl),
        h₁.field Process.condition (fun _ => rfl),
        hs.prepare_CPUTime hpcount₂]
      exact ⟨hpos₂, hactive⟩
    have hhands := howner t₂ ht₂ s₁ hs₁ (h₁.selection.trans hfree) p
      (by rw [h₁.countPrime, hopen.count]; exact hpcount₂) hbegun
    have hoffer := (hs.selection_of_free (h.step t₂ ht₂) hfree).symm.trans
      hselq
    exact hpq (h₁.handsTo.mp hhands q hoffer).symm

/-- The states of a run that has returned. -/
theorem exists_prefix
    {s₀ s : State}
    (h : ticks .block file n s₀ = .ok s) :
    ∃ run : Nat → State, run 0 = s₀ ∧
      (∀ t ≤ n, ticks .block file t s₀ = .ok (run t)) ∧
      ∀ t < n, datapoint .block file (run t) = .ok (run (t + 1)) := by
  have : Nonempty State := ⟨s₀⟩
  choose! run hticks using iterate_prefix h
  have hzero := hticks 0 (Nat.zero_le n)
  refine ⟨run, (Except.ok.inj hzero).symm, hticks, fun t ht => ?_⟩
  have hnext := hticks (t + 1) ht
  rw [iterate_succ_of_ok (hticks t ht.le)] at hnext
  exact hnext

/-- Two processes that arrive while the first one is blocked. -/
def threeJobs : Workload where
  jobs := [⟨0, 1, 2, 1⟩, ⟨1, 1, 1, 1⟩, ⟨1, 1, 1, 1⟩]
  fits := by decide

/-- Of two processes that arrive while the first one is blocked, one is paused
and the other one dispatched. -/
theorem threeJobs_overlap :
    ¬ ∀ (file : RandomFile) (W : Workload) (run : Nat → State) (n : Nat),
      (∀ job ∈ W.jobs, 1 ≤ job.B ∧ 1 ≤ job.C) →
      file.Endless → Started file W (run 0) →
      (∀ t < n, datapoint .block file (run t) = .ok (run (t + 1))) →
      Uniprogrammed run n := by
  intro hclaim
  obtain ⟨s₀, hstart, ⟨s, hs, _⟩, hfirst, hsecond⟩ :=
    exists_loaded steadyFile threeJobs
      (P := fun s => (ticks .block steadyFile 2 s).Returns (fun _ => True) ∧
        (ticks .block steadyFile 0 s).Ensures (fun s =>
          (prepare .block s).Ensures (fun s₁ => s₁.selection = none) ∧
          (datapoint .block steadyFile s).Ensures
            (fun s' => s'.selection = some 0)) ∧
        (ticks .block steadyFile 1 s).Ensures (fun s =>
          (prepare .block s).Ensures (fun s₁ => s₁.selection = none) ∧
          (datapoint .block steadyFile s).Ensures (fun s' =>
            s'.selection = some 2 ∧
              (s'.Prime 0).condition ≠ .terminated)))
      (by decide +kernel)
  obtain ⟨run, hzero, hticks, hrun⟩ := exists_prefix hs
  rw [hticks 0 (by decide), Result.ensures_ok, hrun 0 (by decide),
    Result.ensures_ok] at hfirst
  rw [hticks 1 (by decide), Result.ensures_ok, hrun 1 (by decide),
    Result.ensures_ok] at hsecond
  exact hsecond.2.2 (hclaim steadyFile threeJobs run 2 (by decide)
    steadyFile_endless (hzero ▸ hstart) hrun 0 1 0 2 (by decide)
    (by decide) hfirst ⟨hsecond.1, hsecond.2.1⟩ (by decide))

theorem twoJobs_uniprogrammed :
    ∃ run : Nat → State, Started steadyFile twoJobs (run 0) ∧
      (∀ t < 3, datapoint .block steadyFile (run t) =
        .ok (run (t + 1))) ∧
      Uniprogrammed run 3 := by
  obtain ⟨s₀, hloaded, ⟨s, hs, _⟩, hsafe⟩ :=
    exists_loaded steadyFile twoJobs
      (P := fun s => (ticks .block steadyFile 3 s).Returns (fun _ => True) ∧
        ∀ t < 3, (ticks .block steadyFile t s).Ensures
          (fun s => PausesSafely steadyFile s ∧ KeepsOwner s))
      (by decide +kernel)
  obtain ⟨run, hzero, hticks, hrun⟩ := exists_prefix hs
  have hstart : Started steadyFile twoJobs (run 0) := hzero ▸ hloaded
  have hmeets : ∀ t < 3, PausesSafely steadyFile (run t) ∧
      KeepsOwner (run t) := by
    intro t ht
    have h := hsafe t ht
    rw [hticks t ht.le, Result.ensures_ok] at h
    exact h
  refine ⟨run, hstart, hrun, ?_⟩
  exact (ticks_uniprogrammed (by decide) hstart hrun
    (fun t ht => (hmeets t ht).1)).mpr (fun t ht => (hmeets t ht).2)

end Runs

end Scheduler
end PastWork
