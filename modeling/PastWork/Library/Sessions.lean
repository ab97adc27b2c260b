import Mathlib.Data.List.Basic

/-!
# Sessions with a server

A server keeps a state and answers requests one after another; it may also stop.
A session is seen through its answers.  Two servers have the same sessions when
related states give the same answer, or stop, and stay related; each side may have
a condition on the requests that it gets.
-/

namespace PastWork
namespace Sessions

universe u v w x

variable {σ : Type u} {τ : Type v} {ι : Type w} {ρ : Type x}

/-- The answers to the requests, up to the first one at which the server stops. -/
def answers (serve : σ → ι → Option (ρ × σ)) : σ → List ι → List ρ
  | _, [] => []
  | s, i :: rest =>
      match serve s i with
      | none => []
      | some (r, s') => r :: answers serve s' rest

/-- Every request meets the condition in the state in which it arrives. -/
def Along
    (serve : σ → ι → Option (ρ × σ)) (P : σ → ι → Prop) :
    σ → List ι → Prop
  | _, [] => True
  | s, i :: rest =>
      P s i ∧ ∀ out ∈ serve s i, Along serve P out.2 rest

instance along_decidable
    (serve : σ → ι → Option (ρ × σ)) (P : σ → ι → Prop)
    [∀ s i, Decidable (P s i)] :
    ∀ (requests : List ι) (s : σ), Decidable (Along serve P s requests)
  | [], _ => isTrue trivial
  | i :: rest, s =>
      have : ∀ out : ρ × σ, Decidable (Along serve P out.2 rest) :=
        fun out => along_decidable serve P rest out.2
      inferInstanceAs
        (Decidable (P s i ∧ ∀ out ∈ serve s i, Along serve P out.2 rest))

/-- Both servers stop, or both give the same answer and end in related states. -/
def Together
    (R : σ → τ → Prop) (o : Option (ρ × σ)) (o' : Option (ρ × τ)) : Prop :=
  o = none ∧ o' = none ∨
    ∃ r s t, o = some (r, s) ∧ o' = some (r, t) ∧ R s t

section Rules

variable {serve : σ → ι → Option (ρ × σ)} {serve' : τ → ι → Option (ρ × τ)}
variable {R : σ → τ → Prop} {P : σ → ι → Prop} {Q : τ → ι → Prop}

/-- Servers that go together request by request have the same sessions. -/
theorem answers_eq
    {s : σ} {t : τ} {requests : List ι}
    (hstep : ∀ s t i, R s t → P s i → Q t i →
      Together R (serve s i) (serve' t i))
    (hR : R s t)
    (hP : Along serve P s requests)
    (hQ : Along serve' Q t requests) :
    answers serve s requests = answers serve' t requests := by
  induction requests generalizing s t with
  | nil =>
      rfl
  | cons i rest ih =>
      obtain ⟨hPi, hPrest⟩ := hP
      obtain ⟨hQi, hQrest⟩ := hQ
      rcases hstep s t i hR hPi hQi with
        ⟨hnone, hnone'⟩ | ⟨r, s', t', hsome, hsome', hR'⟩
      · rw [answers, answers, hnone, hnone']
      · have hrest := ih hR' (hPrest (r, s') hsome) (hQrest (r, t') hsome')
        rw [answers, answers, hsome, hsome']
        exact congrArg (r :: ·) hrest

end Rules

end Sessions
end PastWork
