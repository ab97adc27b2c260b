import Mathlib.Data.Nat.Count

/-!
# Events on a time line

A run is read off at the times 0, 1, 2, ….  `Since event u t` says that `u` is
the last time before `t` at which an event happened, or 0 when there was none.
`lastAt` is the value that was read off at that time.
-/

namespace PastWork
namespace Timeline

variable {event event' : Nat → Prop} {value : Nat → Nat} {j t u : Nat}

/-- Nothing has happened between `u` and `t`, and `u` is the time of an event
or the start. -/
structure Since (event : Nat → Prop) (u t : Nat) : Prop where
  lt : u < t
  start : u = 0 ∨ event u
  quiet : ∀ j, u < j → j < t → ¬ event j

/-- The value at the last event before `t`, and 0 when there was none. -/
def lastAt
    (event : Nat → Prop) [DecidablePred event] (value : Nat → Nat) :
    Nat → Nat
  | 0 => 0
  | t + 1 => if event t then value t else lastAt event value t

/-- `P` holds from `t` on for exactly `n` steps. -/
structure HoldsFor (P : Nat → Prop) (t n : Nat) : Prop where
  during : ∀ j < n, P (t + j)
  after : ¬ P (t + n)

theorem HoldsFor.unique
    {P : Nat → Prop} {n n' : Nat}
    (h : HoldsFor P t n)
    (h' : HoldsFor P t n') :
    n = n' := by
  rcases Nat.lt_trichotomy n n' with hlt | heq | hgt
  · exact absurd (h'.during n hlt) h.after
  · exact heq
  · exact absurd (h.during n' hgt) h'.after

theorem exists_since
    (event : Nat → Prop) [DecidablePred event] :
    ∃ u, Since event u (t + 1) := by
  induction t with
  | zero =>
      exact ⟨0, by omega, .inl rfl, fun j _ _ => by omega⟩
  | succ t ih =>
      by_cases hev : event (t + 1)
      · exact ⟨t + 1, by omega, .inr hev, fun j _ _ => by omega⟩
      · obtain ⟨u, hlt, hstart, hquiet⟩ := ih
        refine ⟨u, by omega, hstart, fun j huj hjt => ?_⟩
        rcases Nat.lt_succ_iff_lt_or_eq.mp hjt with hjt | rfl
        · exact hquiet j huj hjt
        · exact hev

/-- Events of a larger kind are since the same time, as long as none of them
happens later. -/
theorem Since.mono
    (h : Since event u t)
    (hsub : ∀ j, event j → event' j)
    (hquiet : ∀ j, u < j → j < t → ¬ event' j) :
    Since event' u t :=
  ⟨h.lt, h.start.imp_right (hsub u), hquiet⟩

section LastAt

variable [DecidablePred event]

theorem le_lastAt
    (hmono : Monotone value)
    (hev : event j)
    (hjt : j < t) :
    value j ≤ lastAt event value t := by
  induction t with
  | zero =>
      omega
  | succ t ih =>
      unfold lastAt
      split
      next =>
          exact hmono (by omega)
      next hnot =>
          have hne : j ≠ t := by
            rintro rfl
            exact hnot hev
          exact ih (by omega)

theorem lastAt_eq
    (hzero : value 0 = 0)
    (h : Since event u t) :
    lastAt event value t = value u := by
  obtain ⟨hlt, hstart, hquiet⟩ := h
  induction t with
  | zero =>
      omega
  | succ t ih =>
      unfold lastAt
      by_cases hut : u = t
      · subst hut
        split
        next =>
            rfl
        next hnot =>
            obtain rfl := hstart.resolve_right hnot
            exact hzero.symm
      · rw [if_neg (hquiet t (by omega) (by omega))]
        exact ih (by omega) (fun j huj hjt => hquiet j huj (by omega))

end LastAt

end Timeline
end PastWork
