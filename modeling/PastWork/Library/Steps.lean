import Mathlib.Algebra.GroupWithZero.Nat
import Mathlib.Data.List.Induction
import Mathlib.Data.List.Infix

/-!
# Labelled steps

A system that is driven by labels: `step s e` is the state after the label `e`,
and `none` when `e` cannot happen in `s`.  Besides the invariant rule there is a
rule for a property that is lost exactly at the steps that miss a condition.
-/

namespace PastWork
namespace Steps

universe u v

variable {σ : Type u} {ε : Type v}

/-- The state after a list of labels. -/
def exec (step : σ → ε → Option σ) : σ → List ε → Option σ
  | s, [] => some s
  | s, e :: es => (step s e).bind (fun s' => exec step s' es)

variable {step : σ → ε → Option σ} {s₀ : σ} {es : List ε}

@[simp] theorem exec_nil
    (s : σ) :
    exec step s [] = some s := by
  rfl

theorem exec_append
    (s : σ) (es fs : List ε) :
    exec step s (es ++ fs) =
      (exec step s es).bind (fun s' => exec step s' fs) := by
  induction es generalizing s with
  | nil =>
      rfl
  | cons e es ih =>
      simp only [List.cons_append, exec]
      cases step s e with
      | none => rfl
      | some s' => exact ih s'

/-- The last step of a run. -/
theorem exec_snoc
    {e : ε} {s' : σ}
    (h : exec step s₀ (es ++ [e]) = some s') :
    ∃ s, exec step s₀ es = some s ∧ step s e = some s' := by
  rw [exec_append] at h
  obtain ⟨s, hs, hlast⟩ := Option.bind_eq_some_iff.mp h
  refine ⟨s, hs, ?_⟩
  simpa [exec] using hlast

/-- What every step keeps holds after every run. -/
theorem exec_invariant
    {I : σ → Prop} {s : σ}
    (hinit : I s₀)
    (hstep : ∀ s e s', I s → step s e = some s' → I s')
    (h : exec step s₀ es = some s) :
    I s := by
  induction es using List.reverseRecOn generalizing s with
  | nil =>
      cases h
      exact hinit
  | append_singleton es e ih =>
      obtain ⟨m, hm, hlast⟩ := exec_snoc h
      exact hstep m e s (ih hm) hlast

section Costs

variable {μ : σ → Nat} {cost pay : ε → Nat}

/-- When every step costs no more than it pays and takes from a store, a run costs no
more than it pays and finds there. -/
theorem exec_paid
    {s : σ}
    (hstep : ∀ s e s', step s e = some s' → μ s' + cost e ≤ μ s + pay e)
    (h : exec step s₀ es = some s) :
    μ s + (es.map cost).sum ≤ μ s₀ + (es.map pay).sum := by
  induction es using List.reverseRecOn generalizing s with
  | nil =>
      cases h
      exact le_rfl
  | append_singleton es e ih =>
      obtain ⟨m, hm, hlast⟩ := exec_snoc h
      have hfront := ih hm
      have hone := hstep m e s hlast
      simp only [List.map_append, List.sum_append, List.map_cons, List.map_nil,
        List.sum_cons, List.sum_nil]
      omega

/-- When every step takes from a store, a run is no longer than what is there. -/
theorem exec_length_le
    {s : σ}
    (hstep : ∀ s e s', step s e = some s' → μ s' < μ s)
    (h : exec step s₀ es = some s) :
    es.length ≤ μ s₀ := by
  have hpaid : μ s + (es.map (fun _ => 1)).sum ≤ μ s₀ + (es.map (fun _ => 0)).sum :=
    exec_paid (fun s e s' he => Nat.succ_le_of_lt (hstep s e s' he)) h
  simp only [List.map_const', List.sum_replicate_nat, Nat.mul_one,
    Nat.mul_zero] at hpaid
  omega

/-- When every step in the states of an invariant takes from a store, a run there is no
longer than what is used up. -/
theorem exec_spends
    {I : σ → Prop} {s : σ}
    (hinit : I s₀)
    (hstep : ∀ s e s', I s → step s e = some s' → I s' ∧ μ s' < μ s)
    (h : exec step s₀ es = some s) :
    I s ∧ μ s + es.length ≤ μ s₀ := by
  induction es using List.reverseRecOn generalizing s with
  | nil =>
      cases h
      exact ⟨hinit, le_rfl⟩
  | append_singleton es e ih =>
      obtain ⟨m, hm, hlast⟩ := exec_snoc h
      obtain ⟨hI, hsum⟩ := ih hm
      obtain ⟨hnext, hless⟩ := hstep m e s hI hlast
      refine ⟨hnext, ?_⟩
      rw [List.length_append, List.length_singleton]
      omega

/-- When every step takes from a store, some run cannot be continued. -/
theorem exists_stuck
    (hstep : ∀ s e s', step s e = some s' → μ s' < μ s)
    (s₀ : σ) :
    ∃ es s, exec step s₀ es = some s ∧ ∀ e, step s e = none := by
  induction hn : μ s₀ using Nat.strong_induction_on generalizing s₀ with
  | _ n ih =>
      by_cases hstuck : ∀ e, step s₀ e = none
      · exact ⟨[], s₀, rfl, hstuck⟩
      · obtain ⟨e, he⟩ := not_forall.mp hstuck
        obtain ⟨m, hm⟩ := Option.ne_none_iff_exists'.mp he
        obtain ⟨es, s, hes, hs⟩ := ih (μ m) (hn ▸ hstep s₀ e m hm) m rfl
        exact ⟨e :: es, s, by rw [exec, hm]; exact hes, hs⟩

end Costs

/-- When every step is none or one of another system, every run is a run of
that system. -/
theorem exec_mimics
    {τ : Type u} {φ : Type v} {step' : τ → φ → Option τ}
    (I : σ → Prop) (view : σ → τ) {s : σ}
    (hinit : I s₀)
    (hstep : ∀ s e s', I s → step s e = some s' →
      I s' ∧ (view s' = view s ∨ ∃ f, step' (view s) f = some (view s')))
    (h : exec step s₀ es = some s) :
    ∃ fs, exec step' (view s₀) fs = some (view s) := by
  have hI : ∀ {es s}, exec step s₀ es = some s → I s :=
    exec_invariant hinit (fun s e s' hs he => (hstep s e s' hs he).1)
  induction es using List.reverseRecOn generalizing s with
  | nil =>
      cases h
      exact ⟨[], rfl⟩
  | append_singleton es e ih =>
      obtain ⟨m, hm, hlast⟩ := exec_snoc h
      obtain ⟨fs, hfs⟩ := ih hm
      rcases (hstep m e s (hI hm) hlast).2 with heq | ⟨f, hf⟩
      · exact ⟨fs, heq ▸ hfs⟩
      · refine ⟨fs ++ [f], ?_⟩
        rw [exec_append, hfs]
        simpa [exec] using hf

/-- `P` holds in every state that the run on `es` reaches. -/
def Always
    (step : σ → ε → Option σ) (s₀ : σ) (es : List ε)
    (P : σ → Prop) : Prop :=
  ∀ pre, pre <+: es → ∀ s, exec step s₀ pre = some s → P s

/-- Every step of the run on `es` meets `C`. -/
def EachStep
    (step : σ → ε → Option σ) (s₀ : σ) (es : List ε)
    (C : σ → ε → Prop) : Prop :=
  ∀ pre e, pre ++ [e] <+: es → ∀ s s', exec step s₀ pre = some s →
    step s e = some s' → C s e

section Decide

variable {C : σ → ε → Prop}

theorem eachStep_nil :
    EachStep step s₀ [] C := by
  intro pre e hpre
  have := List.prefix_nil.mp hpre
  simp at this

/-- A run can be checked from its first step on. -/
theorem eachStep_cons
    {e : ε} :
    EachStep step s₀ (e :: es) C ↔
      ∀ s, step s₀ e = some s → C s₀ e ∧ EachStep step s es C := by
  constructor
  · intro h s hs
    refine ⟨h [] e (by simp) s₀ s rfl hs, ?_⟩
    intro pre e' hpre m m' hm hm'
    refine h (e :: pre) e' (by simpa using hpre) m m' ?_ hm'
    rw [exec, hs]
    exact hm
  · intro h pre e' hpre m m' hm hm'
    cases pre with
    | nil =>
        cases hm
        obtain rfl : e' = e := by simpa using hpre
        exact (h m' hm').1
    | cons e₁ pre =>
        obtain ⟨rfl, hrest⟩ := List.cons_prefix_cons.mp hpre
        obtain ⟨s, hs, hpre⟩ := Option.bind_eq_some_iff.mp hm
        exact (h s hs).2 pre e' hrest m m' hpre hm'

instance [∀ s e, Decidable (C s e)] :
    ∀ (es : List ε) (s₀ : σ), Decidable (EachStep step s₀ es C)
  | [], _ => isTrue eachStep_nil
  | e :: es, s₀ =>
      have : ∀ s, Decidable (EachStep step s es C) := fun s =>
        instDecidableEachStep es s
      match h : step s₀ e with
      | none =>
          isTrue (eachStep_cons.mpr (fun _ hs => by rw [h] at hs; cases hs))
      | some s =>
          decidable_of_iff (C s₀ e ∧ EachStep step s es C)
            ⟨fun hc => eachStep_cons.mpr (fun s' hs' => by
              rw [h] at hs'
              cases hs'
              exact hc),
            fun hc => eachStep_cons.mp hc s h⟩

end Decide

section Exactness

variable {I P : σ → Prop} {C : σ → ε → Prop}

theorem EachStep.invariant
    (h : EachStep step s₀ es C)
    (hinit : I s₀)
    (hkeep : ∀ s e s', I s → step s e = some s' → C s e → I s') :
    Always step s₀ es I := by
  intro pre
  induction pre using List.reverseRecOn with
  | nil =>
      intro _ s hs
      cases hs
      exact hinit
  | append_singleton pre e ih =>
      intro hpre s' hs'
      obtain ⟨s, hs, hlast⟩ := exec_snoc hs'
      have hI := ih ((List.prefix_append pre [e]).trans hpre) s hs
      exact hkeep s e s' hI hlast (h pre e hpre s s' hs hlast)

/-- When the invariant is kept by the steps that meet `C`, and a step that
misses `C` ends outside `P`, then `P` holds all along exactly when each step
meets `C`. -/
theorem always_iff_eachStep
    (hinit : I s₀)
    (hgood : ∀ s, I s → P s)
    (hkeep : ∀ s e s', I s → step s e = some s' → C s e → I s')
    (hneed : ∀ s e s', I s → step s e = some s' → P s' → C s e) :
    Always step s₀ es P ↔ EachStep step s₀ es C := by
  constructor
  · intro halways
    have hI : Always step s₀ es I := by
      intro pre
      induction pre using List.reverseRecOn with
      | nil =>
          intro _ s hs
          cases hs
          exact hinit
      | append_singleton pre e ih =>
          intro hpre s' hs'
          obtain ⟨s, hs, hlast⟩ := exec_snoc hs'
          have hI := ih ((List.prefix_append pre [e]).trans hpre) s hs
          exact hkeep s e s' hI hlast
            (hneed s e s' hI hlast (halways _ hpre s' hs'))
    intro pre e hpre s s' hs hlast
    have hs' : exec step s₀ (pre ++ [e]) = some s' := by
      rw [exec_append, hs]
      simpa [exec] using hlast
    exact hneed s e s'
      (hI pre ((List.prefix_append pre [e]).trans hpre) s hs) hlast
      (halways _ hpre s' hs')
  · intro heach pre hpre s hs
    exact hgood s (heach.invariant hinit hkeep pre hpre s hs)

/-- Conditions that agree in the states of an invariant, which one of them keeps. -/
theorem eachStep_iff
    {D : σ → ε → Prop}
    (hinit : I s₀)
    (hkeep : ∀ s e s', I s → step s e = some s' → C s e → I s')
    (hiff : ∀ s e s', I s → step s e = some s' → (C s e ↔ D s e)) :
    EachStep step s₀ es C ↔ EachStep step s₀ es D := by
  have hkeep' : ∀ s e s', I s → step s e = some s' → D s e → I s' :=
    fun s e s' hI hstep hD => hkeep s e s' hI hstep ((hiff s e s' hI hstep).mpr hD)
  have hpre : ∀ {pre : List ε} {e : ε}, pre ++ [e] <+: es → pre <+: es :=
    fun hpre => (List.prefix_append _ _).trans hpre
  constructor
  · intro h pre e hprefix s s' hs hlast
    have hI := h.invariant hinit hkeep pre (hpre hprefix) s hs
    exact (hiff s e s' hI hlast).mp (h pre e hprefix s s' hs hlast)
  · intro h pre e hprefix s s' hs hlast
    have hI := h.invariant hinit hkeep' pre (hpre hprefix) s hs
    exact (hiff s e s' hI hlast).mpr (h pre e hprefix s s' hs hlast)

/-- Conditions that agree in the states of an invariant. -/
theorem eachStep_congr
    {D : σ → ε → Prop}
    (hinit : I s₀)
    (hkeep : ∀ s e s', I s → step s e = some s' → I s')
    (hiff : ∀ s e s', I s → step s e = some s' → (C s e ↔ D s e)) :
    EachStep step s₀ es C ↔ EachStep step s₀ es D := by
  constructor
  · intro h pre e hpre s s' hs hlast
    have hI := exec_invariant hinit hkeep hs
    exact (hiff s e s' hI hlast).mp (h pre e hpre s s' hs hlast)
  · intro h pre e hpre s s' hs hlast
    have hI := exec_invariant hinit hkeep hs
    exact (hiff s e s' hI hlast).mpr (h pre e hpre s s' hs hlast)

/-- A run whose steps all meet `C` goes on with a step that meets it. -/
theorem EachStep.snoc
    {e : ε} {s : σ}
    (h : EachStep step s₀ es C)
    (hs : exec step s₀ es = some s)
    (hC : C s e) :
    EachStep step s₀ (es ++ [e]) C := by
  intro pre f hpre m m' hm hm'
  rcases List.prefix_concat_iff.mp hpre with heq | hpre
  · obtain ⟨rfl, hf⟩ := List.append_inj' heq rfl
    obtain rfl := List.singleton_inj.mp hf
    rw [hs] at hm
    cases hm
    exact hC
  · exact h pre f hpre m m' hm hm'

/-- When a step that misses `C` leads to `B`, which is never left again, then
the steps of a run all meet `C`, or the run ends in `B`. -/
theorem eachStep_or
    {B : σ → Prop} {s : σ}
    (hinit : I s₀)
    (hkeep : ∀ s e s', I s → step s e = some s' → C s e → I s')
    (hlose : ∀ s e s', I s → step s e = some s' → ¬ C s e → B s')
    (hstay : ∀ s e s', B s → step s e = some s' → B s')
    (h : exec step s₀ es = some s) :
    EachStep step s₀ es C ∨ B s := by
  induction es using List.reverseRecOn generalizing s with
  | nil =>
      exact .inl eachStep_nil
  | append_singleton es e ih =>
      obtain ⟨m, hm, hlast⟩ := exec_snoc h
      rcases ih hm with heach | hB
      · have hI := heach.invariant hinit hkeep es (List.prefix_refl es) m hm
        by_cases hC : C m e
        · exact .inl (heach.snoc hm hC)
        · exact .inr (hlose m e s hI hlast hC)
      · exact .inr (hstay m e s hB hlast)

end Exactness

end Steps
end PastWork
