import PastWork.Scheduler.Termination

/-!
# What no routine changes

Whatever the queues look like, the simulator never writes the input of a
process and never leaves the process array.  So after any policy that returns,
even one that has corrupted its queues, the processes are still there for the
next run.
-/

namespace PastWork
namespace Scheduler

/-- A pointer into the first `n` processes, or NULL. -/
def Within (n : Nat) (p : Ptr) : Prop :=
  ∀ i, p = some i → i < n

@[simp] theorem within_none
    {n : Nat} :
    Within n none :=
  fun _ h => nomatch h

@[simp] theorem within_some
    {n i : Nat} :
    Within n (some i) ↔ i < n := by
  simp [Within]

/-- The process at a position, with its links inside the array. -/
structure Kept (n : Nat) (job : Job) (i : Nat) (q : Process) : Prop where
  processID : q.processID = i
  A : q.A = job.A.toNat
  B : q.B = job.B.toNat
  C : q.C = job.C.toNat
  M : q.M = job.M.toNat
  freshPrime : Within n q.freshPrime
  pushPrimeForward : Within n q.pushPrimeForward
  pushBlock : Within n q.pushBlock

/-- The processes of `W` are in the array, and no pointer leads out of it. -/
structure Holds (W : Workload) (s : State) : Prop where
  countPrime : s.countPrime = W.jobs.length
  kept : ∀ i (h : i < W.jobs.length),
    Kept W.jobs.length W.jobs[i] i (s.Prime i)
  beyond : ∀ i, W.jobs.length ≤ i → s.Prime i = default
  Afront : Within W.jobs.length s.Afront
  Aback : Within W.jobs.length s.Aback
  Pausefront : Within W.jobs.length s.Pausefront
  Pauseback : Within W.jobs.length s.Pauseback
  Blockfront : Within W.jobs.length s.Blockfront
  Blockback : Within W.jobs.length s.Blockback
  selection : Within W.jobs.length s.selection

section Links

variable {W : Workload} {s : State}

theorem Holds.links
    (h : Holds W s) (i : Nat) :
    Within W.jobs.length (s.Prime i).freshPrime ∧
      Within W.jobs.length (s.Prime i).pushPrimeForward ∧
      Within W.jobs.length (s.Prime i).pushBlock := by
  by_cases hi : i < W.jobs.length
  · have hkept := h.kept i hi
    exact ⟨hkept.freshPrime, hkept.pushPrimeForward, hkept.pushBlock⟩
  · rw [h.beyond i (by omega)]
    exact ⟨within_none, within_none, within_none⟩

theorem deref_within
    {n i : Nat} {p : Ptr}
    (hp : Within n p)
    (h : deref p = .ok i) :
    i < n := by
  cases p with
  | none => cases h
  | some j =>
      cases h
      exact hp _ rfl

/-- A change of one process that keeps its input and its links inside. -/
theorem Holds.modify
    {i : Nat} {f : Process → Process}
    (h : Holds W s)
    (hi : i < W.jobs.length)
    (hf : Kept W.jobs.length W.jobs[i] i (s.Prime i) →
      Kept W.jobs.length W.jobs[i] i (f (s.Prime i))) :
    Holds W (s.modify i f) where
  countPrime := h.countPrime
  kept := fun j hj => by
    by_cases hji : j = i
    · subst hji
      simp only [State.modify, update_same]
      exact hf (h.kept j hj)
    · simp only [State.modify, update_ne _ _ hji]
      exact h.kept j hj
  beyond := fun j hj => by
    simp only [State.modify, update_ne _ f (show j ≠ i by omega)]
    exact h.beyond j hj
  Afront := h.Afront
  Aback := h.Aback
  Pausefront := h.Pausefront
  Pauseback := h.Pauseback
  Blockfront := h.Blockfront
  Blockback := h.Blockback
  selection := h.selection

theorem Holds.setFreshPrime
    {i : Nat} {link : Ptr}
    (h : Holds W s)
    (hi : i < W.jobs.length)
    (hlink : Within W.jobs.length link) :
    Holds W (s.setFreshPrime i link) :=
  h.modify hi (fun hkept => { hkept with freshPrime := hlink })

theorem Holds.setPushPrimeForward
    {i : Nat} {link : Ptr}
    (h : Holds W s)
    (hi : i < W.jobs.length)
    (hlink : Within W.jobs.length link) :
    Holds W (s.setPushPrimeForward i link) :=
  h.modify hi (fun hkept => { hkept with pushPrimeForward := hlink })

theorem Holds.setPushBlock
    {i : Nat} {link : Ptr}
    (h : Holds W s)
    (hi : i < W.jobs.length)
    (hlink : Within W.jobs.length link) :
    Holds W (s.setPushBlock i link) :=
  h.modify hi (fun hkept => { hkept with pushBlock := hlink })

theorem Holds.setCondition
    {i : Nat} {c : Condition}
    (h : Holds W s)
    (hi : i < W.jobs.length) :
    Holds W (s.setCondition i c) :=
  h.modify hi (fun hkept => { hkept with })

end Links

section Queues

variable {W : Workload} {s s' : State} {p : Ptr}

theorem Holds.qsetup
    (h : Holds W s)
    (hp : Within W.jobs.length p)
    (hs' : Scheduler.qsetup p s = .ok s') :
    Holds W s' := by
  unfold Scheduler.qsetup at hs'
  split at hs'
  · cases hs'
    exact { h with Afront := hp, Aback := hp }
  · obtain ⟨fresh, hfresh, hs'⟩ := Result.bind_eq_ok hs'
    obtain ⟨back, hback, hs'⟩ := Result.bind_eq_ok hs'
    cases hs'
    have hf := deref_within hp hfresh
    have h₁ := h.setFreshPrime hf within_none
    have h₂ := h₁.setFreshPrime (deref_within h.Aback hback)
      (within_some.mpr hf)
    exact { h₂ with Aback := (h₂.links back).1 }

theorem Holds.dsetup
    (h : Holds W s)
    (hs' : Scheduler.dsetup s = .ok (p, s')) :
    Holds W s' ∧ Within W.jobs.length p := by
  unfold Scheduler.dsetup at hs'
  split at hs'
  · cases hs'
    exact ⟨h, within_none⟩
  · obtain ⟨rot, hrot, hs'⟩ := Result.bind_eq_ok hs'
    cases hs'
    have hr := deref_within h.Afront hrot
    refine ⟨?_, within_some.mpr hr⟩
    apply Holds.setFreshPrime _ hr within_none
    split
    · exact { h with Afront := (h.links rot).1, Aback := within_none }
    · exact { h with Afront := (h.links rot).1 }

theorem Holds.pauseQue
    (h : Holds W s)
    (hp : Within W.jobs.length p)
    (hs' : Scheduler.pauseQue p s = .ok s') :
    Holds W s' := by
  unfold Scheduler.pauseQue at hs'
  split at hs'
  · cases hs'
    exact { h with Pausefront := hp, Pauseback := hp, Afront := h.Aback }
  · obtain ⟨fresh, hfresh, hs'⟩ := Result.bind_eq_ok hs'
    obtain ⟨back, hback, hs'⟩ := Result.bind_eq_ok hs'
    cases hs'
    have hf := deref_within hp hfresh
    have h₁ := h.setPushPrimeForward hf within_none
    have h₂ := h₁.setPushPrimeForward (deref_within h.Pauseback hback)
      (within_some.mpr hf)
    exact { h₂ with Pauseback := (h₂.links back).2.1 }

theorem Holds.replaceN
    (h : Holds W s)
    (hs' : Scheduler.replaceN s = .ok (p, s')) :
    Holds W s' ∧ Within W.jobs.length p := by
  unfold Scheduler.replaceN at hs'
  split at hs'
  · cases hs'
    exact ⟨h, within_none⟩
  · obtain ⟨rot, hrot, hs'⟩ := Result.bind_eq_ok hs'
    cases hs'
    have hr := deref_within h.Pausefront hrot
    refine ⟨?_, within_some.mpr hr⟩
    apply Holds.setPushPrimeForward _ hr within_none
    split
    · exact
        { h with
          Pausefront := (h.links rot).2.1
          Pauseback := within_none }
    · exact { h with Pausefront := (h.links rot).2.1 }

theorem Holds.insertB
    (h : Holds W s)
    (hp : Within W.jobs.length p) :
    Holds W (Scheduler.insertB p s) := by
  unfold Scheduler.insertB
  split
  next front back hfront hback =>
    have h₁ := h.setPushBlock (h.Blockback back hback) hp
    exact { h₁ with Blockback := hp }
  next =>
    exact { h with Blockfront := hp, Blockback := hp }

theorem Holds.removeB
    (h : Holds W s) :
    Holds W (Scheduler.removeB s).2 ∧
      Within W.jobs.length (Scheduler.removeB s).1 := by
  unfold Scheduler.removeB
  split
  next => exact ⟨h, within_none⟩
  next rot hrot =>
    have hr := h.Blockfront rot hrot
    refine ⟨?_, within_some.mpr hr⟩
    apply Holds.setPushBlock _ hr within_none
    split
    · exact
        { h with
          Blockfront := (h.links rot).2.2
          Blockback := within_none }
    · exact { h with Blockfront := (h.links rot).2.2 }

end Queues

section Routines

variable {W : Workload} {s s' : State} {d : Policy} {file : RandomFile}

theorem walkBefore_within
    {n fuel x y : Nat} {next : Nat → Option Nat} {stop : Nat → Bool}
    (hnext : ∀ i, Within n (next i))
    (hx : x < n)
    (h : Links.walkBefore next stop fuel x = .ok y) :
    y < n := by
  induction fuel generalizing x with
  | zero => cases h
  | succ fuel ih =>
      unfold Links.walkBefore at h
      split at h
      next => cases h
      next z hz =>
        split at h
        next =>
          cases h
          exact hx
        next => exact ih (hnext x z hz) h

/-- Unlinking the node behind `blockPrime`, and inserting it into the ready
queue. -/
theorem Holds.releaseBehind
    {blockPrime extraN : Nat} {behind back : Ptr}
    (h : Holds W s)
    (hprime : blockPrime < W.jobs.length)
    (hextra : extraN < W.jobs.length)
    (hbehind : Within W.jobs.length behind)
    (hback : Within W.jobs.length back)
    (hs' : Scheduler.qsetup (some extraN)
      { (s.setPushBlock blockPrime behind).setPushBlock extraN none with
        Blockback := back
        BlockQ := decr s.BlockQ } = .ok s') :
    Holds W s' := by
  have h₂ := (h.setPushBlock hprime hbehind).setPushBlock hextra within_none
  refine Holds.qsetup (s := { (s.setPushBlock blockPrime behind).setPushBlock
    extraN none with
      Blockback := back
      BlockQ := decr s.BlockQ }) ?_ (within_some.mpr hextra) hs'
  exact { h₂ with Blockback := hback }

theorem Holds.releaseBlocked
    {presentN : Nat}
    (h : Holds W s)
    (hp : presentN < W.jobs.length)
    (hs' : Scheduler.releaseBlocked presentN s = .ok s') :
    Holds W s' := by
  have h₁ := h.setCondition (c := .ready) hp
  unfold Scheduler.releaseBlocked at hs'
  simp only at hs'
  generalize s.setCondition presentN .ready = s₁ at h₁ hs'
  obtain ⟨front, hfront, hs'⟩ := Result.bind_eq_ok hs'
  have hf := deref_within h₁.Blockfront hfront
  split at hs'
  · exact h₁.removeB.1.qsetup h₁.removeB.2 hs'
  · obtain ⟨back, hback, hs'⟩ := Result.bind_eq_ok hs'
    split at hs'
    · obtain ⟨blockPrime, hwalk, hs'⟩ := Result.bind_eq_ok hs'
      obtain ⟨extraN, hextra, hs'⟩ := Result.bind_eq_ok hs'
      have hb := walkBefore_within (fun i => (h₁.links i).2.2) hf hwalk
      have he := deref_within (h₁.links blockPrime).2.2 hextra
      exact h₁.releaseBehind hb he within_none (within_some.mpr hb) hs'
    · obtain ⟨blockPrime, hwalk, hs'⟩ := Result.bind_eq_ok hs'
      obtain ⟨extraN, hextra, hs'⟩ := Result.bind_eq_ok hs'
      have hb := walkBefore_within (fun i => (h₁.links i).2.2) hf hwalk
      have he := deref_within (h₁.links blockPrime).2.2 hextra
      exact h₁.releaseBehind hb he (h₁.links extraN).2.2 h₁.Blockback hs'

theorem Holds.execxuteBFrom
    {fuel : Nat} {presentN : Ptr}
    (h : Holds W s)
    (hp : Within W.jobs.length presentN)
    (hs' : Scheduler.execxuteBFrom fuel presentN s = .ok s') :
    Holds W s' := by
  induction fuel generalizing presentN s with
  | zero =>
      cases presentN with
      | none =>
          cases hs'
          exact h
      | some i => cases hs'
  | succ fuel ih =>
      cases presentN with
      | none =>
          cases hs'
          exact h
      | some i =>
          rw [Scheduler.execxuteBFrom] at hs'
          split at hs'
          · obtain ⟨s₁, hs₁, hs'⟩ := Result.bind_eq_ok hs'
            have h₁ := h.releaseBlocked (within_some.mp hp) hs₁
            exact ih h₁ (h₁.links i).2.2 hs'
          · exact ih h (h.links i).2.2 hs'

theorem execxuteB_stable :
    Stable (Holds W) execxuteB := by
  intro s s' h hs'
  unfold execxuteB at hs'
  split at hs'
  · cases hs'
    exact h
  · exact h.execxuteBFrom h.Blockfront hs'

theorem chargeBurst_kept
    {n i : Nat} {job : Job} {q : Process}
    (h : Kept n job i q) :
    Kept n job i q.chargeBurst := by
  rw [Process.chargeBurst_eq]
  exact { h with }

theorem Holds.writeTerminated
    {p : Nat}
    (h : Holds W s)
    (hs' : Scheduler.writeTerminated p s = .ok s') :
    Holds W s' := by
  unfold Scheduler.writeTerminated at hs'
  split at hs'
  · cases hs'
    exact { h with }
  · cases hs'

theorem proceedForward_stable :
    Stable (Holds W) (proceedForward d) := by
  intro s s' h hs'
  unfold proceedForward at hs'
  split at hs'
  next =>
    cases hs'
    exact h
  next p hp =>
    have hlt := h.selection p hp
    have h₁ := h.modify (f := Process.chargeBurst) hlt chargeBurst_kept
    simp only at hs'
    generalize s.modify p Process.chargeBurst = s₁ at h₁ hs'
    by_cases hdone : (s₁.Prime p).C = (s₁.Prime p).CPUTime
    · rw [if_pos hdone] at hs'
      obtain ⟨s₂, hs₂, hs'⟩ := Result.bind_eq_ok hs'
      have h₂ : Holds W s₂ := Holds.writeTerminated
        (h₁.modify (f := fun q =>
          { q with
            condition := .terminated
            finishingTime := toInt32 s₁.present }) hlt
          (fun hk => { hk with })) hs₂
      cases hs'
      split
      · exact { h₂ with selection := within_none }
      · exact { h₂ with selection := within_none }
    · rw [if_neg hdone] at hs'
      split_ifs at hs' with hburst hquantum
      · cases hs'
        have h₂ := (h₁.setCondition (c := .blocked) hlt).insertB
          (within_some.mpr hlt)
        exact { h₂ with selection := within_none }
      · obtain ⟨s₂, hs₂, hs'⟩ := Result.bind_eq_ok hs'
        cases hs'
        have h₂ := (h₁.setCondition (c := .ready) hlt).qsetup
          (within_some.mpr hlt) hs₂
        exact { h₂ with selection := within_none }
      · cases hs'
        exact h₁.setCondition hlt

theorem creation_stable :
    Stable (Holds W) creation := by
  intro s s' h hs'
  refine Stable.foldlM (P := Holds W) (f := creationStep)
    (l := List.range s.countPrime) ?_ s s' h hs'
  intro i hi s₁ s₂ h₁ hs₂
  rw [List.mem_range, h.countPrime] at hi
  simp only [creationStep] at hs₂
  split at hs₂
  · have hcond := h₁.setCondition (i := i) (c := .ready) hi
    refine Holds.qsetup ?_ (within_some.mpr hi) hs₂
    split
    · exact { hcond with }
    · exact { hcond with }
  · cases hs₂
    exact h₁

theorem pauseFront_stable :
    Stable (Holds W) pauseFront := by
  intro s s' h hs'
  obtain ⟨⟨pauseNo, s₁⟩, hs₁, hs'⟩ := Result.bind_eq_ok hs'
  obtain ⟨p, hp, hs'⟩ := Result.bind_eq_ok hs'
  obtain ⟨h₁, hpause⟩ := h.dsetup hs₁
  have hlt := deref_within hpause hp
  exact (h₁.setCondition hlt).pauseQue (within_some.mpr hlt) hs'

theorem pauseLoop_stable
    {guard : State → Bool} (fuel i : Nat) :
    Stable (Holds W) (pauseLoop guard fuel i) := by
  induction fuel generalizing i with
  | zero =>
      intro s s' h hs'
      rw [pauseLoop] at hs'
      split at hs'
      · cases hs'
      · cases hs'
        exact h
  | succ fuel ih =>
      intro s s' h hs'
      rw [pauseLoop] at hs'
      split at hs'
      · simp only at hs'
        split at hs'
        · obtain ⟨s₁, hs₁, hs'⟩ := Result.bind_eq_ok hs'
          exact ih (i + 1) s₁ s' (pauseFront_stable s s₁ h hs₁) hs'
        · exact ih (i + 1) s s' h hs'
      · cases hs'
        exact h

theorem pauseOthers_stable :
    Stable (Holds W) (pauseOthers d) := by
  intro s s' h hs'
  unfold pauseOthers at hs'
  split at hs'
  · exact pauseLoop_stable _ _ s s' h hs'
  · cases hs'
    exact h

theorem resumePaused_stable :
    Stable (Holds W) (resumePaused d) := by
  intro s s' h hs'
  unfold resumePaused at hs'
  split at hs'
  · obtain ⟨⟨continueRunning, s₁⟩, hs₁, hs'⟩ := Result.bind_eq_ok hs'
    obtain ⟨p, hp, hs'⟩ := Result.bind_eq_ok hs'
    obtain ⟨h₁, hcont⟩ := h.replaceN hs₁
    have hlt := deref_within hcont hp
    have h₂ := h₁.setCondition (c := .ready) hlt
    refine Holds.qsetup ?_ (within_some.mpr hlt) hs'
    exact { h₂ with }
  · cases hs'
    exact h

/-- Unlinking a node behind `presentNode` from the ready queue. -/
theorem Holds.takeBehind
    {presentNode loadedPrime : Nat} {behind back : Ptr}
    (h : Holds W s)
    (hnode : presentNode < W.jobs.length)
    (hloaded : loadedPrime < W.jobs.length)
    (hbehind : Within W.jobs.length behind)
    (hback : Within W.jobs.length back) :
    Holds W
      { (s.setFreshPrime presentNode behind).setFreshPrime loadedPrime none with
        Aback := back
        placement := decr s.placement } := by
  have h₂ := (h.setFreshPrime hnode hbehind).setFreshPrime hloaded within_none
  exact { h₂ with Aback := hback }

theorem Holds.takeReady
    {quickPrime loadedPrime : Nat}
    (h : Holds W s)
    (hs' : Scheduler.takeReady quickPrime s = .ok (loadedPrime, s')) :
    Holds W s' ∧ loadedPrime < W.jobs.length := by
  unfold Scheduler.takeReady at hs'
  obtain ⟨front, hfront, hs'⟩ := Result.bind_eq_ok hs'
  have hf := deref_within h.Afront hfront
  split at hs'
  · obtain ⟨⟨rot, s₁⟩, hs₁, hs'⟩ := Result.bind_eq_ok hs'
    obtain ⟨p, hp, hs'⟩ := Result.bind_eq_ok hs'
    cases hs'
    obtain ⟨h₁, hrot⟩ := h.dsetup hs₁
    exact ⟨h₁, deref_within hrot hp⟩
  · obtain ⟨back, hback, hs'⟩ := Result.bind_eq_ok hs'
    split at hs'
    · obtain ⟨node, hwalk, hs'⟩ := Result.bind_eq_ok hs'
      obtain ⟨p, hp, hs'⟩ := Result.bind_eq_ok hs'
      cases hs'
      have hn := walkBefore_within (fun i => (h.links i).1) hf hwalk
      have hl := deref_within (h.links node).1 hp
      exact ⟨h.takeBehind hn hl within_none (within_some.mpr hn), hl⟩
    · obtain ⟨node, hwalk, hs'⟩ := Result.bind_eq_ok hs'
      obtain ⟨p, hp, hs'⟩ := Result.bind_eq_ok hs'
      cases hs'
      have hn := walkBefore_within (fun i => (h.links i).1) hf hwalk
      have hl := deref_within (h.links node).1 hp
      exact ⟨h.takeBehind hn hl (h.links _).1 h.Aback, hl⟩

theorem dispatchShortest_stable :
    Stable (Holds W) (dispatchShortest file) := by
  intro s s' h hs'
  obtain ⟨front, _, hs'⟩ := Result.bind_eq_ok hs'
  obtain ⟨quickPrime, _, hs'⟩ := Result.bind_eq_ok hs'
  obtain ⟨⟨loadedPrime, s₁⟩, hs₁, hs'⟩ := Result.bind_eq_ok hs'
  obtain ⟨burst, _, hs'⟩ := Result.bind_eq_ok hs'
  cases hs'
  obtain ⟨h₁, hlt⟩ := h.takeReady hs₁
  have h₂ := h₁.modify
    (f := fun p => { p with condition := .running, operating := true })
    hlt (fun hk => { hk with })
  have h₃ := h₂.modify (f := fun p => p.assignBurst burst) hlt
    (fun hk => { hk with })
  exact { h₃ with selection := within_some.mpr hlt }

theorem dispatchFront_stable :
    Stable (Holds W) (dispatchFront d file) := by
  intro s s' h hs'
  obtain ⟨⟨rot, s₁⟩, hs₁, hs'⟩ := Result.bind_eq_ok hs'
  obtain ⟨p, hp, hs'⟩ := Result.bind_eq_ok hs'
  obtain ⟨burst, _, hs'⟩ := Result.bind_eq_ok hs'
  obtain ⟨h₁, hrot⟩ := h.dsetup hs₁
  have hlt := deref_within hrot hp
  have h₂ := h₁.modify (f := fun p => p.assignBurst burst) hlt
    (fun hk => { hk with })
  have h₃ : Holds W { s₁.modify p (fun p => p.assignBurst burst) with
      infinity := s₁.infinity + 1 } := { h₂ with }
  simp only at hs'
  split at hs'
  · cases hs'
    have h₄ := h₃.modify
      (f := fun p =>
        { p with
          condition := .running
          operating := true
          quantum := if d = .rr then 2 else p.quantum })
      hlt (fun hk => { hk with })
    exact { h₄ with selection := within_some.mpr hlt }
  · cases hs'
    exact h₃

theorem dispatch_stable :
    Stable (Holds W) (dispatch d file) := by
  intro s s' h hs'
  unfold dispatch at hs'
  split_ifs at hs'
  · exact dispatchShortest_stable s s' h hs'
  · exact dispatchFront_stable s s' h hs'
  · cases hs'
    exact h

theorem pauseReady_stable :
    Stable (Holds W) (pauseReady d) := by
  intro s s' h hs'
  unfold pauseReady at hs'
  split at hs'
  · exact pauseLoop_stable _ _ s s' h hs'
  · cases hs'
    exact h

theorem countdown_stable :
    Stable (Holds W) (fun s =>
      .ok { countdown d s with present := incr (countdown d s).present }) := by
  intro s s' h hs'
  cases hs'
  have hkept : ∀ {n i : Nat} {job : Job} {q : Process},
      Kept n job i q → Kept n job i (q.countdown d) := by
    intro n i job q hk
    unfold Process.countdown
    split
    · exact hk
    · exact { hk with }
    · exact { hk with }
    · exact { hk with }
    · exact hk
  refine { h with kept := fun i hi => ?_, beyond := fun i hi => ?_ }
  · simp only [countdown, Globals.countdown]
    split
    · exact hkept (h.kept i hi)
    · exact h.kept i hi
  · have hge : ¬ i < s.countPrime := by
      rw [h.countPrime]
      omega
    simp only [countdown, Globals.countdown, hge, if_false]
    exact h.beyond i hi

/-- A cycle keeps the processes in the array, whatever the queues look like. -/
theorem datapoint_stable :
    Stable (Holds W) (datapoint d file) := by
  have hprepare : Stable (Holds W) (prepare d) := by
    intro s s' h hs'
    obtain ⟨s₁, hs₁, hs'⟩ := Result.bind_eq_ok hs'
    obtain ⟨s₂, hs₂, hs'⟩ := Result.bind_eq_ok hs'
    have h₂ := execxuteB_stable s₁ s₂ (proceedForward_stable s s₁ h hs₁) hs₂
    split at hs'
    · exact creation_stable s₂ s' h₂ hs'
    · cases hs'
      exact h₂
  have hexecute : Stable (Holds W) (executeR d file) :=
    pauseOthers_stable.bind (resumePaused_stable.bind
      (dispatch_stable.bind pauseReady_stable))
  intro s s' h hs'
  rw [datapoint_eq] at hs'
  exact (hprepare.bind hexecute).bind countdown_stable s s' h hs'

end Routines

end Scheduler
end PastWork
