import Mathlib.Tactic

/-!
# Faults of C programs and runs of partial steps

A C routine is embedded as a function into `Result`: it either returns, or
stops at one of a few faults (a NULL link followed, a division by zero, a
write outside an array, the end of a file, a loop that does not end).

The second half is about running a partial step again and again: iterating it
a fixed number of times, and `while` loops, which carry fuel.  The rules at the
end derive facts about whole runs from facts about one step.
-/

namespace PastWork

universe u v

/-- What can go wrong while a C routine runs. -/
inductive Fault where
  | nullPointer
  | divisionByZero
  | outOfBounds
  | endOfFile
  | endless
deriving DecidableEq, Repr

abbrev Result (α : Type u) := Except Fault α

/-- Follow a pointer. -/
def deref {ν : Type u} : Option ν → Result ν
  | none => .error .nullPointer
  | some x => .ok x

@[simp] theorem deref_some
    {ν : Type u} (x : ν) :
    deref (some x) = .ok x := by
  rfl

namespace Result

/-- The fault at which a routine has stopped. -/
def fault? {α : Type u} : Result α → Option Fault
  | .error e => some e
  | .ok _ => none

/-- A routine has stopped at a fault; one whose fuel is used up goes on. -/
def stopped {α : Type u} : Result α → Bool
  | .error .endless => false
  | .error _ => true
  | .ok _ => false

theorem stopped_error
    {α : Type u} {e : Fault} :
    stopped (.error e : Result α) = true ↔ e ≠ .endless := by
  cases e <;> simp [stopped]

/-- A routine that can only run out of fuel has not stopped. -/
theorem stopped_eq_false
    {α : Type u} {r : Result α}
    (h : ∀ e, r = .error e → e = .endless) :
    stopped r = false := by
  cases r with
  | ok x => rfl
  | error e =>
      obtain rfl := h e rfl
      rfl

/-- A routine that returns does so with a result that satisfies `P`. -/
def Ensures {α : Type u} (r : Result α) (P : α → Prop) : Prop :=
  ∀ x, r = .ok x → P x

theorem ensures_ok
    {α : Type u} {x : α} {P : α → Prop} :
    Ensures (.ok x) P ↔ P x := by
  constructor
  · intro h
    exact h x rfl
  · rintro h y ⟨⟩
    exact h

theorem ensures_error
    {α : Type u} {e : Fault} {P : α → Prop} :
    Ensures (.error e) P :=
  fun _ h => nomatch h

instance {α : Type u} (r : Result α) (P : α → Prop) [DecidablePred P] :
    Decidable (Ensures r P) :=
  match r with
  | .ok x => decidable_of_iff (P x) ensures_ok.symm
  | .error _ => isTrue ensures_error

/-- A routine returns, with a result that satisfies `P`. -/
def Returns {α : Type u} (r : Result α) (P : α → Prop) : Prop :=
  ∃ x, r = .ok x ∧ P x

theorem returns_ok
    {α : Type u} {x : α} {P : α → Prop} :
    Returns (.ok x) P ↔ P x := by
  constructor
  · rintro ⟨y, ⟨⟩, h⟩
    exact h
  · exact fun h => ⟨x, rfl, h⟩

theorem not_returns_error
    {α : Type u} {e : Fault} {P : α → Prop} :
    ¬ Returns (.error e) P := by
  rintro ⟨x, hx, _⟩
  cases hx

instance {α : Type u} (r : Result α) (P : α → Prop) [DecidablePred P] :
    Decidable (Returns r P) :=
  match r with
  | .ok x => decidable_of_iff (P x) returns_ok.symm
  | .error _ => isFalse not_returns_error

@[simp] theorem ok_bind
    {α : Type u} {β : Type u}
    (x : α) (f : α → Result β) :
    ((Except.ok x : Result α) >>= f) = f x := by
  rfl

@[simp] theorem error_bind
    {α : Type u} {β : Type u}
    (e : Fault) (f : α → Result β) :
    ((Except.error e : Result α) >>= f) = .error e := by
  rfl

/-- A sequence that returns has returned at its first part. -/
theorem bind_eq_ok
    {α : Type u} {β : Type u}
    {x : Result α} {f : α → Result β} {b : β}
    (h : (x >>= f) = .ok b) :
    ∃ a : α, x = .ok a ∧ f a = .ok b := by
  cases x with
  | error e =>
      cases h
  | ok a =>
      exact ⟨a, rfl, h⟩

/-- Two routines with the same view of their results stop at the same fault or both
return. -/
theorem of_map_eq
    {α β γ : Type u}
    {x : Result α} {y : Result β} {f : α → γ} {g : β → γ}
    (h : x.map f = y.map g) :
    (∃ e : Fault, x = .error e ∧ y = .error e) ∨
      ∃ a b, x = .ok a ∧ y = .ok b ∧ f a = g b := by
  cases x with
  | error e =>
      cases y with
      | error e' =>
          obtain rfl : e = e' := Except.error.inj h
          exact .inl ⟨e, rfl, rfl⟩
      | ok b =>
          cases h
  | ok a =>
      cases y with
      | error e =>
          cases h
      | ok b =>
          exact .inr ⟨a, b, rfl, rfl, Except.ok.inj h⟩

end Result

section Iteration

variable {σ : Type u}

/-- The state after `k` steps. -/
def iterate (step : σ → Result σ) : Nat → σ → Result σ
  | 0, s => .ok s
  | k + 1, s => iterate step k s >>= step

/-- `while (cond s) s = step s;` with a bound on the number of rounds. -/
def whileLoop
    (cond : σ → Bool) (step : σ → Result σ) :
    Nat → σ → Result σ
  | 0, s => if cond s then .error .endless else .ok s
  | fuel + 1, s =>
      if cond s then
        step s >>= whileLoop cond step fuel
      else
        .ok s

variable {step : σ → Result σ} {cond : σ → Bool}

theorem iterate_succ_of_ok
    {k : Nat} {s s' : σ}
    (h : iterate step k s = .ok s') :
    iterate step (k + 1) s = step s' := by
  rw [iterate, h]
  rfl

theorem iterate_add
    (j k : Nat) (s : σ) :
    iterate step (j + k) s =
      iterate step j s >>= iterate step k := by
  induction k with
  | zero =>
      simp only [Nat.add_zero]
      cases iterate step j s <;> rfl
  | succ k ih =>
      rw [← Nat.add_assoc, iterate, ih]
      cases iterate step j s <;> rfl

/-- A run that returns has returned at every step before. -/
theorem iterate_prefix
    {n : Nat} {s s' : σ}
    (h : iterate step n s = .ok s')
    (k : Nat) (hk : k ≤ n) :
    ∃ m, iterate step k s = .ok m := by
  obtain ⟨j, rfl⟩ := Nat.exists_eq_add_of_le hk
  rw [iterate_add] at h
  obtain ⟨m, hm, _⟩ := Result.bind_eq_ok h
  exact ⟨m, hm⟩

/-- More fuel does not change the result of a loop that has returned. -/
theorem whileLoop_mono
    {fuel fuel' : Nat} {s s' : σ}
    (hle : fuel ≤ fuel')
    (h : whileLoop cond step fuel s = .ok s') :
    whileLoop cond step fuel' s = .ok s' := by
  induction fuel generalizing s fuel' with
  | zero =>
      cases hc : cond s with
      | true =>
          simp [whileLoop, hc] at h
      | false =>
          cases fuel' <;> simpa [whileLoop, hc] using h
  | succ fuel ih =>
      cases fuel' with
      | zero =>
          omega
      | succ fuel' =>
          cases hc : cond s with
          | true =>
              simp only [whileLoop, hc, if_true] at h ⊢
              obtain ⟨m, hm, hrest⟩ := Result.bind_eq_ok h
              rw [hm]
              exact ih (by omega) hrest
          | false =>
              simpa [whileLoop, hc] using h

/-- A step in front of `k` others. -/
theorem iterate_succ_first
    {k : Nat} {s m : σ}
    (h : step s = .ok m) :
    iterate step (k + 1) s = iterate step k m := by
  rw [Nat.add_comm, iterate_add]
  simp only [iterate, Result.ok_bind, h]

/-- The rounds of a loop that has returned. -/
theorem whileLoop_rounds
    {fuel : Nat} {s s' : σ}
    (h : whileLoop cond step fuel s = .ok s') :
    ∃ (n : Nat) (run : Nat → σ), n ≤ fuel ∧
      (∀ k ≤ n, iterate step k s = .ok (run k)) ∧ run n = s' ∧
      cond s' = false ∧ ∀ k < n, cond (run k) = true := by
  induction fuel generalizing s with
  | zero =>
      cases hc : cond s with
      | true =>
          simp [whileLoop, hc] at h
      | false =>
          simp only [whileLoop, hc] at h
          cases h
          refine ⟨0, fun _ => s', le_rfl, ?_, rfl, hc, by simp⟩
          intro k hk
          obtain rfl : k = 0 := by omega
          rfl
  | succ fuel ih =>
      cases hc : cond s with
      | false =>
          simp only [whileLoop, hc] at h
          cases h
          refine ⟨0, fun _ => s', Nat.zero_le _, ?_, rfl, hc, by simp⟩
          intro k hk
          obtain rfl : k = 0 := by omega
          rfl
      | true =>
          simp only [whileLoop, hc, if_true] at h
          obtain ⟨m, hm, hrest⟩ := Result.bind_eq_ok h
          obtain ⟨n, run, hle, hrun, hend, hstop, hgo⟩ := ih hrest
          refine ⟨n + 1, fun k => if k = 0 then s else run (k - 1),
            by omega, ?_, hend, hstop, ?_⟩
          · intro k hk
            cases k with
            | zero =>
                rfl
            | succ k =>
                rw [iterate_succ_first hm]
                exact hrun k (by omega)
          · intro k hk
            cases k with
            | zero =>
                exact hc
            | succ k =>
                exact hgo k (by omega)

/-- A loop fails as one of its rounds does, or has too little fuel. -/
theorem whileLoop_eq_error
    {fuel : Nat} {s : σ} {e : Fault}
    (h : whileLoop cond step fuel s = .error e) :
    e = .endless ∨ ∃ k, iterate step k s = .error e := by
  induction fuel generalizing s with
  | zero =>
      cases hc : cond s with
      | true =>
          simp only [whileLoop, hc] at h
          cases h
          exact .inl rfl
      | false =>
          simp [whileLoop, hc] at h
  | succ fuel ih =>
      cases hc : cond s with
      | false =>
          simp [whileLoop, hc] at h
      | true =>
          simp only [whileLoop, hc, if_true] at h
          cases hm : step s with
          | error e' =>
              rw [hm] at h
              cases h
              exact .inr ⟨1, hm⟩
          | ok m =>
              rw [hm] at h
              rcases ih h with hend | ⟨k, hk⟩
              · exact .inl hend
              · exact .inr ⟨k + 1, (iterate_succ_first hm).trans hk⟩

/-- The variant rule for total correctness of a loop: every round keeps the
invariant, returns, and lowers a measure in a well-founded order. -/
theorem whileLoop_total
    {α : Type v} {r : α → α → Prop} {f : σ → Result σ} {c : σ → Bool}
    (hwf : WellFounded r)
    {I : σ → Prop} (measure : σ → α)
    (hstep : ∀ s, I s → c s = true →
      ∃ s', f s = .ok s' ∧ I s' ∧ r (measure s') (measure s))
    {s : σ} (hinit : I s) :
    ∃ fuel s', whileLoop c f fuel s = .ok s' ∧
      I s' ∧ c s' = false := by
  have key : ∀ m s, measure s = m → I s →
      ∃ fuel s', whileLoop c f fuel s = .ok s' ∧
        I s' ∧ c s' = false := by
    intro m
    induction m using hwf.induction with
    | _ m ih =>
        intro s hm hs
        cases hc : c s with
        | true =>
            obtain ⟨s', hs', hinv, hlt⟩ := hstep s hs hc
            obtain ⟨fuel, s'', hloop, hres⟩ :=
              ih (measure s') (hm ▸ hlt) s' rfl hinv
            refine ⟨fuel + 1, s'', ?_, hres⟩
            simp [whileLoop, hc, hs', hloop]
        | false =>
            exact ⟨0, s, by simp [whileLoop, hc], hs, hc⟩
  exact key (measure s) s rfl hinit

/-- The relational rule for loops: two runs whose steps keep a relation, and
that agree on the condition, end after the same number of rounds. -/
theorem whileLoop_relate
    {R : σ → σ → Prop}
    (hcond : ∀ s t, R s t → cond s = cond t)
    (hstep : ∀ s t s', R s t → cond s = true → step s = .ok s' →
      ∃ t', step t = .ok t' ∧ R s' t')
    {fuel : Nat} {s t s' : σ}
    (hrel : R s t)
    (h : whileLoop cond step fuel s = .ok s') :
    ∃ t', whileLoop cond step fuel t = .ok t' ∧ R s' t' := by
  induction fuel generalizing s t with
  | zero =>
      cases hc : cond s with
      | true =>
          simp [whileLoop, hc] at h
      | false =>
          simp only [whileLoop, hc] at h
          cases h
          refine ⟨t, ?_, hrel⟩
          simp [whileLoop, ← hcond _ t hrel, hc]
  | succ fuel ih =>
      cases hc : cond s with
      | true =>
          simp only [whileLoop, hc, if_true] at h
          obtain ⟨m, hm, hrest⟩ := Result.bind_eq_ok h
          obtain ⟨m', hm', hrel'⟩ := hstep s t m hrel hc hm
          obtain ⟨t', ht', hdone⟩ := ih hrel' hrest
          refine ⟨t', ?_, hdone⟩
          simp only [whileLoop, ← hcond s t hrel, hc, if_true, hm',
            Result.ok_bind]
          exact ht'
      | false =>
          simp only [whileLoop, hc] at h
          cases h
          refine ⟨t, ?_, hrel⟩
          simp [whileLoop, ← hcond _ t hrel, hc]

end Iteration

section Stability

variable {σ : Type u} {α : Type v}

/-- `f` keeps `P` whenever it returns. -/
def Stable (P : σ → Prop) (f : σ → Result σ) : Prop :=
  ∀ s s', P s → f s = .ok s' → P s'

variable {P : σ → Prop} {f g : σ → Result σ}

theorem Stable.bind
    (hf : Stable P f)
    (hg : Stable P g) :
    Stable P (fun s => f s >>= g) := by
  intro s s' hP h
  obtain ⟨m, hm, hs'⟩ := Result.bind_eq_ok h
  exact hg m s' (hf s m hP hm) hs'

theorem Stable.foldlM
    {f : σ → α → Result σ} {l : List α}
    (hstep : ∀ x ∈ l, Stable P (fun s => f s x)) :
    Stable P (fun s => l.foldlM f s) := by
  induction l with
  | nil =>
      intro s s' hP h
      cases h
      exact hP
  | cons x l ih =>
      intro s s' hP h
      simp only [List.foldlM_cons] at h
      obtain ⟨m, hm, hs'⟩ := Result.bind_eq_ok h
      exact ih (fun y hy => hstep y (by simp [hy])) m s'
        (hstep x (by simp) s m hP hm) hs'

theorem Stable.iterate
    {n : Nat}
    (hf : Stable P f) :
    Stable P (iterate f n) := by
  induction n with
  | zero =>
      intro s s' hP h
      cases h
      exact hP
  | succ n ih =>
      exact ih.bind hf

theorem Stable.whileLoop
    {cond : σ → Bool} {fuel : Nat}
    (hf : Stable P f) :
    Stable P (whileLoop cond f fuel) := by
  induction fuel with
  | zero =>
      intro s s' hP h
      rw [PastWork.whileLoop] at h
      split at h
      · cases h
      · cases h
        exact hP
  | succ fuel ih =>
      intro s s' hP h
      rw [PastWork.whileLoop] at h
      split at h
      · obtain ⟨m, hm, hs'⟩ := Result.bind_eq_ok h
        exact ih m s' (hf s m hP hm) hs'
      · cases h
        exact hP

end Stability

end PastWork
