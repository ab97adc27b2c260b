import PastWork.Library.Faults

/-!
# Programs that use a service

A program that makes requests and goes on with the answers.  It runs over any
service that keeps a state of its own; a service may also end the program.  When
each answer of one service is the answer of another one, in states that are
related, every program does the same over both.
-/

namespace PastWork

universe u

/-- A program with requests in `ρ` and answers in `β`, which returns or faults. -/
inductive Client (ρ β α : Type u) where
  | done (result : Result α)
  | ask (request : ρ) (next : β → Client ρ β α)

namespace Client

variable {ρ β α γ σ τ : Type u}

protected def bind : Client ρ β α → (α → Client ρ β γ) → Client ρ β γ
  | done (.ok a), f => f a
  | done (.error e), _ => done (.error e)
  | ask request next, f => ask request (fun answer => (next answer).bind f)

instance : Monad (Client ρ β) where
  pure := fun a => done (.ok a)
  bind := Client.bind

/-- One request. -/
def call (request : ρ) : Client ρ β β :=
  ask request (fun answer => done (.ok answer))

/-- Run over a service; `none` when the service ends the program. -/
def run (serve : σ → ρ → Option (β × σ)) :
    Client ρ β α → σ → Option (Result α × σ)
  | done result, s => some (result, s)
  | ask request next, s =>
      (serve s request).bind (fun out => (next out.1).run serve out.2)

section Rules

variable {serve : σ → ρ → Option (β × σ)} {serve' : τ → ρ → Option (β × τ)}

@[simp] theorem run_done
    (result : Result α) (s : σ) :
    (done result : Client ρ β α).run serve s = some (result, s) := by
  rfl

/-- A program in two parts. -/
theorem run_bind
    (c : Client ρ β α) (f : α → Client ρ β γ) (s : σ) :
    (c >>= f).run serve s =
      (c.run serve s).bind (fun out =>
        match out.1 with
        | .ok a => (f a).run serve out.2
        | .error e => some (.error e, out.2)) := by
  induction c generalizing s with
  | done result =>
      cases result <;> rfl
  | ask request next ih =>
      change (serve s request).bind _ = _
      rw [run, Option.bind_assoc]
      refine congrArg _ (funext fun out => ?_)
      exact ih out.1 out.2

/-- A step that may fault comes first. -/
@[simp] theorem run_done_ok_bind
    (a : α) (f : α → Client ρ β γ) (s : σ) :
    (done (.ok a) >>= f).run serve s = (f a).run serve s := by
  rfl

@[simp] theorem run_done_error_bind
    (e : Fault) (f : α → Client ρ β γ) (s : σ) :
    (done (.error e) >>= f).run serve s = some (.error e, s) := by
  rfl

@[simp] theorem run_pure
    (a : α) (s : σ) :
    (pure a : Client ρ β α).run serve s = some (.ok a, s) := by
  rfl

theorem run_call_bind
    (request : ρ) (f : β → Client ρ β γ) (s : σ) :
    (call request >>= f).run serve s =
      (serve s request).bind (fun out => (f out.1).run serve out.2) := by
  rfl

/-- A service that always answers never ends a program. -/
theorem run_isSome
    {I : σ → Prop} {c : Client ρ β α} {s : σ}
    (hstep : ∀ s request, I s →
      ∃ answer s', serve s request = some (answer, s') ∧ I s')
    (hinit : I s) :
    ∃ r s', c.run serve s = some (r, s') ∧ I s' := by
  induction c generalizing s with
  | done result =>
      exact ⟨result, s, rfl, hinit⟩
  | ask request next ih =>
      obtain ⟨answer, m, hanswer, hm⟩ := hstep s request hinit
      obtain ⟨r, s', hrun, hs'⟩ := ih answer hm
      refine ⟨r, s', ?_, hs'⟩
      rw [run, hanswer]
      exact hrun

/-- Each answer of the one service is the answer of the other. -/
def Simulates
    (serve : σ → ρ → Option (β × σ)) (serve' : τ → ρ → Option (β × τ))
    (R : σ → τ → Prop) : Prop :=
  ∀ s t request answer s', R s t → serve s request = some (answer, s') →
    ∃ t', serve' t request = some (answer, t') ∧ R s' t'

/-- Every program does over the one service what it does over the other. -/
theorem Simulates.run
    {R : σ → τ → Prop} {c : Client ρ β α} {s s' : σ} {t : τ} {r : Result α}
    (hserve : Simulates serve serve' R)
    (hR : R s t)
    (h : c.run serve s = some (r, s')) :
    ∃ t', c.run serve' t = some (r, t') ∧ R s' t' := by
  induction c generalizing s t with
  | done result =>
      cases h
      exact ⟨t, rfl, hR⟩
  | ask request next ih =>
      obtain ⟨⟨answer, m⟩, hanswer, hrest⟩ := Option.bind_eq_some_iff.mp h
      obtain ⟨n, hn, hmn⟩ := hserve s t request answer m hR hanswer
      obtain ⟨t', ht', hR'⟩ := ih answer hmn hrest
      refine ⟨t', ?_, hR'⟩
      rw [Client.run, hn]
      exact ht'

end Rules

end Client
end PastWork
