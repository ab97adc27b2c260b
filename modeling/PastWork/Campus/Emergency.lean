import PastWork.Library.Steps

/-!
# The emergency button

The handlers of `script.js` share one counter and one interval handle.  An alert
is sent after ten ticks when every press starts with the counter at ten and no
interval running; any other press can go on to an alert that is too early, or
that comes after the button has been released.
-/

namespace PastWork
namespace Campus

open Steps

/-- The variables of the script, the texts of the page, and the intervals. -/
structure Emergency where
  countdown : Int
  countdownInterval : Option Nat
  /-- the intervals that have been started and not cleared -/
  live : List Nat
  /-- how many intervals have been started; the next one gets this identifier -/
  started : Nat
  /-- `button.innerText` -/
  button : String
  /-- `message.innerText` -/
  message : String
  /-- how often `triggerEmergency` has been called -/
  alerts : Nat

/-- What the browser calls the script for. -/
inductive PageEvent where
  | mousedown
  | mouseup
  /-- a second of an interval has passed -/
  | tick (interval : Nat)
deriving DecidableEq

/-- `clearInterval` -/
def clearInterval (handle : Option Nat) (live : List Nat) : List Nat :=
  live.filter (fun interval => handle ≠ some interval)

/-- The text of the button while it counts. -/
def hold (countdown : Int) : String :=
  "Hold " ++ toString countdown

namespace Emergency

/-- The page after it has been loaded. -/
def start : Emergency where
  countdown := 10
  countdownInterval := none
  live := []
  started := 0
  button := "Alert"
  message := ""
  alerts := 0

def mousedown (s : Emergency) : Emergency :=
  { s with
    button := hold s.countdown
    message := ""
    countdownInterval := some s.started
    live := s.live ++ [s.started]
    started := s.started + 1 }

def triggerEmergency (s : Emergency) : Emergency :=
  { s with
    message := "Help is on the way! Sending your location!"
    alerts := s.alerts + 1 }

/-- The function that each interval calls. -/
def onInterval (s : Emergency) : Emergency :=
  let s := { s with countdown := s.countdown - 1 }
  if s.countdown > 0 then
    { s with button := hold s.countdown }
  else
    triggerEmergency
      { s with
        live := clearInterval s.countdownInterval s.live
        button := "📍" }

def mouseup (s : Emergency) : Emergency :=
  let s := { s with live := clearInterval s.countdownInterval s.live }
  if s.countdown > 0 then
    { s with
      message := "Alert canceled button not held long enough."
      button := "Alert"
      countdown := 10 }
  else
    s

/-- One event; only an interval that is live ticks. -/
def step (s : Emergency) : PageEvent → Option Emergency
  | .mousedown => some s.mousedown
  | .mouseup => some s.mouseup
  | .tick interval => if interval ∈ s.live then some s.onInterval else none

section Holding

/-- The ticks since the most recent `mousedown`, when there has been no `mouseup`
since then. -/
def watch : Option Nat → PageEvent → Option Nat
  | _, .mousedown => some 0
  | _, .mouseup => none
  | held, .tick _ => held.map (fun n => n + 1)

def heldTicks (es : List PageEvent) : Option Nat :=
  es.foldl watch none

/-- `triggerEmergency` is called only at the tenth tick of a hold or later. -/
def OnlyHeld (es : List PageEvent) : Prop :=
  ∀ pre e, pre ++ [e] <+: es → ∀ s s', exec step start pre = some s →
    step s e = some s' → s.alerts < s'.alerts →
      ∃ n, heldTicks (pre ++ [e]) = some n ∧ 10 ≤ n

theorem heldTicks_snoc
    (es : List PageEvent) (e : PageEvent) :
    heldTicks (es ++ [e]) = watch (heldTicks es) e := by
  rw [heldTicks, List.foldl_append]
  rfl

theorem foldl_watch_ticks
    (held : Option Nat) (interval n : Nat) :
    (List.replicate n (PageEvent.tick interval)).foldl watch held =
      held.map (fun k => k + n) := by
  induction n generalizing held with
  | zero =>
      cases held <;> rfl
  | succ n ih =>
      rw [List.replicate_succ, List.foldl_cons, ih]
      cases held with
      | none => rfl
      | some k =>
          simp only [watch, Option.map_some, Option.some_inj]
          omega

end Holding

section Presses

variable {s s' : Emergency} {held : Option Nat} {e : PageEvent}
  {es : List PageEvent}

/-- A press starts with the full count and no interval running. -/
def Fresh (s : Emergency) (e : PageEvent) : Prop :=
  e = .mousedown → s.countdown = 10 ∧ s.live = []

instance (s : Emergency) (e : PageEvent) : Decidable (s.Fresh e) :=
  inferInstanceAs (Decidable (_ → _))

/-- The button is up, held, or held after its alert. -/
inductive Steady (s : Emergency) : Option Nat → Prop
  | up
      (hlive : s.live = [])
      (hcount : s.countdown = 10 ∨ s.countdown ≤ 0) :
      Steady s none
  | down {interval n : Nat}
      (hlive : s.live = [interval])
      (hhandle : s.countdownInterval = some interval)
      (hn : n < 10)
      (hcount : s.countdown = 10 - n) :
      Steady s (some n)
  | fired {n : Nat}
      (hlive : s.live = [])
      (hn : 10 ≤ n)
      (hcount : s.countdown ≤ 0) :
      Steady s (some n)

theorem Steady.mousedown
    (hcount : s.countdown = 10)
    (hlive : s.live = []) :
    Steady s.mousedown (some 0) := by
  refine @Steady.down _ s.started 0 ?_ rfl (by decide) ?_
  · simp [Emergency.mousedown, hlive]
  · simpa [Emergency.mousedown] using hcount

theorem clearInterval_self
    (interval : Nat) :
    clearInterval (some interval) [interval] = [] := by
  simp [clearInterval]

theorem mouseup_live
    (s : Emergency) :
    s.mouseup.live = clearInterval s.countdownInterval s.live := by
  unfold mouseup
  dsimp only
  split <;> rfl

theorem mouseup_alerts
    (s : Emergency) :
    s.mouseup.alerts = s.alerts := by
  unfold mouseup
  dsimp only
  split <;> rfl

theorem mouseup_started
    (s : Emergency) :
    s.mouseup.started = s.started := by
  unfold mouseup
  dsimp only
  split <;> rfl

theorem mouseup_countdown
    (s : Emergency) :
    s.mouseup.countdown = if s.countdown > 0 then 10 else s.countdown := by
  unfold mouseup
  dsimp only
  split <;> rfl

theorem Steady.mouseup
    (h : Steady s held) :
    Steady s.mouseup none := by
  have hlive : s.mouseup.live = [] := by
    rw [mouseup_live]
    cases h with
    | up hlive _ => rw [hlive]; rfl
    | down hlive hhandle => rw [hlive, hhandle, clearInterval_self]
    | fired hlive => rw [hlive]; rfl
  refine .up hlive ?_
  rw [mouseup_countdown]
  split
  · exact .inl rfl
  next hle => exact .inr (by omega)

/-- A tick that does not end the count. -/
theorem onInterval_counts
    (h : 1 < s.countdown) :
    s.onInterval =
      { s with
        countdown := s.countdown - 1
        button := hold (s.countdown - 1) } := by
  unfold onInterval
  dsimp only
  rw [if_pos (by omega)]

/-- A tick that ends it. -/
theorem onInterval_fires
    (h : s.countdown ≤ 1) :
    s.onInterval =
      { s with
        countdown := s.countdown - 1
        live := clearInterval s.countdownInterval s.live
        button := "📍"
        message := "Help is on the way! Sending your location!"
        alerts := s.alerts + 1 } := by
  unfold onInterval triggerEmergency
  dsimp only
  rw [if_neg (by omega)]

theorem Steady.onInterval
    {interval : Nat}
    (h : Steady s held)
    (hmem : interval ∈ s.live) :
    Steady s.onInterval (watch held (.tick interval)) ∧
      (s.alerts < s.onInterval.alerts →
        ∃ n, watch held (.tick interval) = some n ∧ 10 ≤ n) := by
  cases h with
  | up hlive =>
      rw [hlive] at hmem
      cases hmem
  | fired hlive =>
      rw [hlive] at hmem
      cases hmem
  | @down running n hlive hhandle hn hcount =>
      rcases Nat.lt_or_ge n 9 with hlt | hge
      · have hstep := onInterval_counts (s := s) (by omega)
        constructor
        · refine @Steady.down _ running (n + 1) ?_ ?_ (by omega) ?_
          · rw [hstep]
            exact hlive
          · rw [hstep]
            exact hhandle
          · rw [hstep]
            simp only [hcount]
            omega
        · intro halert
          rw [hstep] at halert
          exact absurd halert (lt_irrefl s.alerts)
      · have hstep := onInterval_fires (s := s) (by omega)
        constructor
        · refine @Steady.fired _ (n + 1) ?_ (by omega) ?_
          · rw [hstep, hhandle, hlive, clearInterval_self]
          · rw [hstep]
            simp only [hcount]
            omega
        · intro _
          exact ⟨n + 1, rfl, by omega⟩

theorem Steady.step
    (h : Steady s held)
    (hstep : Emergency.step s e = some s')
    (hfresh : s.Fresh e) :
    Steady s' (watch held e) ∧
      (s.alerts < s'.alerts → ∃ n, watch held e = some n ∧ 10 ≤ n) := by
  cases e with
  | mousedown =>
      cases hstep
      obtain ⟨hcount, hlive⟩ := hfresh rfl
      refine ⟨Steady.mousedown hcount hlive, ?_⟩
      intro halert
      exact absurd halert (lt_irrefl s.alerts)
  | mouseup =>
      cases hstep
      refine ⟨h.mouseup, ?_⟩
      intro halert
      rw [mouseup_alerts] at halert
      exact absurd halert (lt_irrefl s.alerts)
  | tick interval =>
      rw [Emergency.step] at hstep
      split at hstep
      next hmem =>
          cases hstep
          exact h.onInterval hmem
      next => cases hstep

/-- The button after a run in which every press was fresh. -/
theorem steady_of_fresh
    (heach : EachStep step start es Fresh)
    (h : exec step start es = some s) :
    Steady s (heldTicks es) := by
  induction es using List.reverseRecOn generalizing s with
  | nil =>
      cases h
      exact .up rfl (.inl rfl)
  | append_singleton es e ih =>
      obtain ⟨m, hm, hlast⟩ := exec_snoc h
      have hbefore : EachStep step start es Fresh := fun pre f hpre =>
        heach pre f (hpre.trans (List.prefix_append es [e]))
      have hfresh := heach es e (List.prefix_refl _) m s hm hlast
      rw [heldTicks_snoc]
      exact ((ih hbefore hm).step hlast hfresh).1

theorem onlyHeld_of_fresh
    (heach : EachStep step start es Fresh) :
    OnlyHeld es := by
  intro pre e hpre s s' hs hstep halert
  have hbefore : EachStep step start pre Fresh := fun pre' f hpre' =>
    heach pre' f (hpre'.trans ((List.prefix_append pre [e]).trans hpre))
  have hsteady := steady_of_fresh hbefore hs
  rw [heldTicks_snoc]
  exact (hsteady.step hstep (heach pre e hpre s s' hs hstep)).2 halert

end Presses

section FalseAlerts

variable {s : Emergency} {es : List PageEvent} {interval : Nat}

/-- The counter is at most ten, and intervals have been started before they run. -/
structure Proper (s : Emergency) : Prop where
  countdown_le : s.countdown ≤ 10
  live_lt : ∀ interval ∈ s.live, interval < s.started

theorem mem_clearInterval
    {handle : Option Nat} {live : List Nat} :
    interval ∈ clearInterval handle live ↔
      interval ∈ live ∧ handle ≠ some interval := by
  simp [clearInterval]

theorem Proper.step
    {s s' : Emergency} {e : PageEvent}
    (h : Proper s)
    (hstep : Emergency.step s e = some s') :
    Proper s' := by
  cases e with
  | mousedown =>
      cases hstep
      refine ⟨h.countdown_le, ?_⟩
      intro interval hmem
      rcases List.mem_append.mp hmem with hmem | hmem
      · exact (h.live_lt interval hmem).trans (Nat.lt_succ_self _)
      · rw [List.mem_singleton.mp hmem]
        exact Nat.lt_succ_self _
  | mouseup =>
      cases hstep
      constructor
      · rw [mouseup_countdown]
        split
        · exact Int.le_refl 10
        · exact h.countdown_le
      · intro interval hmem
        rw [mouseup_live, mem_clearInterval] at hmem
        rw [mouseup_started]
        exact h.live_lt interval hmem.1
  | tick interval =>
      rw [Emergency.step] at hstep
      split at hstep
      next =>
          cases hstep
          have hle := h.countdown_le
          by_cases hlt : 1 < s.countdown
          · rw [onInterval_counts hlt]
            exact ⟨by simp only; omega, h.live_lt⟩
          · rw [onInterval_fires (Int.not_lt.mp hlt)]
            refine ⟨by simp only; omega, ?_⟩
            intro running hmem
            exact h.live_lt running (mem_clearInterval.mp hmem).1
      next => cases hstep

theorem proper_of_exec
    (h : exec step start es = some s) :
    Proper s := by
  refine exec_invariant ?_ (fun _ _ _ hs hstep => hs.step hstep) h
  refine ⟨Int.le_refl 10, ?_⟩
  intro interval hmem
  cases hmem

/-- An interval that goes on ticking ends in an alert. -/
theorem ticks_alert
    (m : Nat)
    (hcount : s.countdown ≤ m + 1)
    (hmem : interval ∈ s.live) :
    ∃ n, n ≤ m ∧ ∃ s₁ s₂,
      exec step s (List.replicate n (.tick interval)) = some s₁ ∧
        step s₁ (.tick interval) = some s₂ ∧ s₁.alerts < s₂.alerts := by
  induction m generalizing s with
  | zero =>
      refine ⟨0, le_rfl, s, s.onInterval, rfl, if_pos hmem, ?_⟩
      rw [onInterval_fires (by simpa using hcount)]
      exact Nat.lt_succ_self _
  | succ m ih =>
      by_cases hlt : 1 < s.countdown
      · have hstep : step s (.tick interval) = some s.onInterval := if_pos hmem
        have hcounts := onInterval_counts hlt
        have hcount' : s.onInterval.countdown ≤ m + 1 := by
          rw [hcounts]
          simp only
          omega
        have hmem' : interval ∈ s.onInterval.live := by
          rw [hcounts]
          exact hmem
        obtain ⟨n, hn, s₁, s₂, hrun, hlast, halert⟩ := ih hcount' hmem'
        refine ⟨n + 1, by omega, s₁, s₂, ?_, hlast, halert⟩
        rw [List.replicate_succ, exec, hstep]
        exact hrun
      · refine ⟨0, Nat.zero_le _, s, s.onInterval, rfl, if_pos hmem, ?_⟩
        rw [onInterval_fires (Int.not_lt.mp hlt)]
        exact Nat.lt_succ_self _

/-- Enough ticks of an interval make an alert that is early, or that comes after
the release. -/
theorem not_onlyHeld_of_ticks
    (m : Nat)
    (h : exec step start es = some s)
    (hcount : s.countdown ≤ m + 1)
    (hmem : interval ∈ s.live)
    (hearly : ∀ k, heldTicks es = some k → k + m + 1 < 10) :
    ∃ fs, ¬ OnlyHeld (es ++ fs) := by
  obtain ⟨n, hn, s₁, s₂, hrun, hlast, halert⟩ := ticks_alert m hcount hmem
  refine ⟨List.replicate n (.tick interval) ++ [.tick interval], ?_⟩
  intro honly
  have hexec : exec step start (es ++ List.replicate n (.tick interval)) =
      some s₁ := by
    rw [exec_append, h]
    exact hrun
  have hheld : heldTicks (es ++ List.replicate n (.tick interval)) =
      (heldTicks es).map (fun k => k + n) := by
    rw [heldTicks, List.foldl_append, foldl_watch_ticks]
    rfl
  rw [← List.append_assoc] at honly
  obtain ⟨k, hk, hten⟩ := honly _ _ (List.prefix_refl _) s₁ s₂ hexec hlast halert
  rw [heldTicks_snoc, hheld] at hk
  cases hes : heldTicks es with
  | none =>
      rw [hes] at hk
      cases hk
  | some j =>
      have hlt := hearly j hes
      rw [hes] at hk
      obtain rfl : j + n + 1 = k := Option.some_inj.mp hk
      omega

/-- A press that is not fresh can go on to a false alert. -/
theorem press_unsafe
    {e : PageEvent}
    (h : exec step start es = some s)
    (hpress : ¬ s.Fresh e) :
    ∃ fs, ¬ OnlyHeld (es ++ e :: fs) := by
  obtain ⟨rfl, hstale⟩ := Classical.not_imp.mp hpress
  have hproper := proper_of_exec h
  have hle := hproper.countdown_le
  have hdown : exec step start (es ++ [.mousedown]) = some s.mousedown := by
    rw [exec_append, h]
    rfl
  cases hlive : s.live with
  | nil =>
      have hne : s.countdown ≠ 10 := fun heq => hstale ⟨heq, hlive⟩
      have hcount : s.mousedown.countdown ≤ ((8 : Nat) : Int) + 1 := by
        simp only [mousedown]
        omega
      have hmem : s.started ∈ s.mousedown.live := by
        simp [mousedown]
      obtain ⟨fs, hfs⟩ := not_onlyHeld_of_ticks 8 hdown hcount hmem (by
        intro k hk
        rw [heldTicks_snoc] at hk
        cases hk
        decide)
      refine ⟨fs, ?_⟩
      rwa [List.append_assoc] at hfs
  | cons interval rest =>
      have hlt := hproper.live_lt interval (by rw [hlive]; exact List.mem_cons_self)
      have hup : exec step start (es ++ [.mousedown, .mouseup]) =
          some s.mousedown.mouseup := by
        rw [exec_append, h]
        rfl
      have hcount : s.mousedown.mouseup.countdown ≤ ((9 : Nat) : Int) + 1 := by
        rw [mouseup_countdown]
        split
        · decide
        · simp only [mousedown]
          omega
      have hmem : interval ∈ s.mousedown.mouseup.live := by
        rw [mouseup_live, mem_clearInterval]
        constructor
        · simp [mousedown, hlive]
        · simp only [mousedown, ne_eq, Option.some_inj]
          omega
      obtain ⟨fs, hfs⟩ := not_onlyHeld_of_ticks 9 hup hcount hmem (by
        intro k hk
        rw [heldTicks, List.foldl_append] at hk
        cases hk)
      refine ⟨.mouseup :: fs, ?_⟩
      rwa [List.append_assoc] at hfs

/-- Alerts need a hold of ten ticks in every run whose presses are all fresh, and
a press that is not fresh can always go on to a false alert. -/
theorem alerts_held
    (es : List PageEvent) :
    (EachStep step start es Fresh → OnlyHeld es) ∧
      ∀ s e, exec step start es = some s → ¬ s.Fresh e →
        ∃ fs, ¬ OnlyHeld (es ++ e :: fs) :=
  ⟨onlyHeld_of_fresh, fun _ _ h hpress => press_unsafe h hpress⟩

/-- A press of ten seconds. -/
def longPress : List PageEvent :=
  .mousedown :: List.replicate 10 (.tick 0)

theorem longPress_held :
    OnlyHeld longPress :=
  (alerts_held longPress).1 (by decide +kernel)

/-- After an alert the next press sends another one at its first tick. -/
theorem secondPress_early :
    ¬ ∀ es, OnlyHeld es := by
  intro hclaim
  have hrun : (exec step start
      (longPress ++ [.mouseup, .mousedown])).any
        (fun s => (step s (.tick 1)).any
          (fun s' => decide (s.alerts < s'.alerts))) = true := by
    decide +kernel
  obtain ⟨s, hs, hnext⟩ := (Option.any_eq_true _ _).mp hrun
  obtain ⟨s', hs', halert⟩ := (Option.any_eq_true _ _).mp hnext
  obtain ⟨n, hn, hten⟩ := hclaim _ _ _ (List.prefix_refl _) s s' hs hs'
    (of_decide_eq_true halert)
  have hone : heldTicks (longPress ++ [.mouseup, .mousedown] ++ [.tick 1]) =
      some 1 := by
    decide +kernel
  rw [hone] at hn
  cases hn
  omega

end FalseAlerts

end Emergency

end Campus
end PastWork
