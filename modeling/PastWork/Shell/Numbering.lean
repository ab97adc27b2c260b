import PastWork.Library.Steps
import PastWork.Shell.Jobs

/-!
# Job IDs

`addjob` wraps `nextjid` to 1 and `deletejob` sets it past the largest ID in
use.  The IDs in use stay distinct exactly as long as every job that is added
finds a `nextjid` that is positive and not in use.
-/

namespace PastWork
namespace Shell

open Steps

/-- The slots in use have distinct job IDs, each at least 1. -/
structure Numbered (jobs : Table) : Prop where
  pos : ∀ k, (jobs k).pid ≠ 0 → 1 ≤ (jobs k).mippy
  inj : ∀ k j, (jobs k).pid ≠ 0 → (jobs j).pid ≠ 0 →
    (jobs k).mippy = (jobs j).mippy → k = j

/-- `fg %jid` and `bg %jid` find the job with this ID. -/
def Designated (jobs : Table) : Prop :=
  ∀ k, (jobs k).pid ≠ 0 → getjobjid (jobs k).mippy jobs = some k

/-- A free slot has no job ID. -/
def FreeCleared (jobs : Table) : Prop :=
  ∀ k, (jobs k).pid = 0 → (jobs k).mippy = 0

/-- A call of `addjob` or `deletejob`. -/
inductive Call where
  | add (pid : Int) (state : JobState) (cmdline : CString)
  | delete (pid : Int)
deriving DecidableEq, Repr

def Call.run (l : Jobs) : Call → Option Jobs
  | .add pid state cmdline => some (addjob pid state cmdline l).2
  | .delete pid => some (deletejob pid l).2

/-- A job that is added gets a positive ID that is not in use. -/
def FreshId (l : Jobs) : Call → Prop
  | .add pid _ _ =>
      1 ≤ pid → (∃ k, (l.jobs k).pid = 0) →
        1 ≤ l.nextjid ∧
          ∀ k, (l.jobs k).pid ≠ 0 → (l.jobs k).mippy ≠ l.nextjid
  | .delete _ => True

/-- A job is added with a pid that is not in the table. -/
def FreshPid (l : Jobs) : Call → Prop
  | .add pid _ _ => 1 ≤ pid ∧ ∀ k, (l.jobs k).pid ≠ pid
  | .delete _ => True

instance (l : Jobs) (call : Call) : Decidable (FreshPid l call) := by
  cases call <;> unfold FreshPid <;> infer_instance

section Table

variable {jobs : Table} {k : Fin MAXJOBS} {job : Job}

theorem Numbered.designated
    (h : Numbered jobs)
    (hfree : FreeCleared jobs) :
    Designated jobs := by
  intro k hk
  have hpos := h.pos k hk
  unfold getjobjid
  rw [if_neg (by omega)]
  apply first_eq_of_unique (by simp)
  intro j hj
  have hsame : (jobs j).mippy = (jobs k).mippy := by simpa using hj
  refine h.inj j k ?_ hk hsame
  intro hzero
  rw [hfree j hzero] at hsame
  omega

theorem FreeCleared.set
    (h : FreeCleared jobs)
    (hjob : job.pid = 0 → job.mippy = 0) :
    FreeCleared (jobs.set k job) := by
  intro j hj
  by_cases hjk : j = k
  · subst hjk
    rw [set_same] at hj ⊢
    exact hjob hj
  · rw [set_ne jobs job hjk] at hj ⊢
    exact h j hj

theorem Numbered.clear
    (h : Numbered jobs)
    (k : Fin MAXJOBS) :
    Numbered (jobs.set k clearjob) := by
  have hkeep : ∀ j, ((jobs.set k clearjob) j).pid ≠ 0 →
      (jobs.set k clearjob) j = jobs j := by
    intro j hj
    by_cases hjk : j = k
    · subst hjk
      rw [set_same] at hj
      exact absurd rfl hj
    · exact set_ne jobs clearjob hjk
  constructor
  · intro j hj
    have heq := hkeep j hj
    rw [heq] at hj ⊢
    exact h.pos j hj
  · intro i j hi hj hsame
    have heqi := hkeep i hi
    have heqj := hkeep j hj
    rw [heqi] at hi
    rw [heqj] at hj
    rw [heqi, heqj] at hsame
    exact h.inj i j hi hj hsame

/-- A new job keeps the numbering exactly when its ID is positive and new. -/
theorem Numbered.set_iff
    (h : Numbered jobs)
    (hfree : (jobs k).pid = 0)
    (hjob : job.pid ≠ 0) :
    Numbered (jobs.set k job) ↔
      1 ≤ job.mippy ∧
        ∀ j, (jobs j).pid ≠ 0 → (jobs j).mippy ≠ job.mippy := by
  have hother : ∀ j, (jobs j).pid ≠ 0 → j ≠ k := by
    rintro j hj rfl
    exact hj hfree
  constructor
  · intro hnew
    refine ⟨by simpa using hnew.pos k (by simpa using hjob), ?_⟩
    intro j hj hsame
    have hjk := hother j hj
    apply hjk
    apply hnew.inj
    · simpa [hjk] using hj
    · simpa using hjob
    · simpa [hjk] using hsame
  · rintro ⟨hpos, hnew⟩
    constructor
    · intro j hj
      by_cases hjk : j = k
      · subst hjk
        simpa using hpos
      · simp only [set_ne jobs job hjk] at hj ⊢
        exact h.pos j hj
    · intro i j hi hj hsame
      by_cases hik : i = k <;> by_cases hjk : j = k
      · rw [hik, hjk]
      · subst hik
        simp only [set_same, set_ne jobs job hjk] at hj hsame
        exact absurd hsame.symm (hnew j hj)
      · subst hjk
        simp only [set_same, set_ne jobs job hik] at hi hsame
        exact absurd hsame (hnew i hi)
      · simp only [set_ne jobs job hik, set_ne jobs job hjk] at hi hj hsame
        exact h.inj i j hi hj hsame

end Table

/-- What a call does to the table. -/
theorem Call.run_cases
    {l l' : Jobs} {call : Call}
    (h : call.run l = some l') :
    l' = l ∧ (∀ pid state cmdline, call = .add pid state cmdline →
        1 ≤ pid → ∀ k, (l.jobs k).pid ≠ 0) ∨
    (∃ pid state cmdline k, call = .add pid state cmdline ∧ 1 ≤ pid ∧
      (l.jobs k).pid = 0 ∧
      l'.jobs = l.jobs.set k ⟨pid, l.nextjid, state, cmdline⟩) ∨
    ∃ pid k, call = .delete pid ∧ l'.jobs = l.jobs.set k clearjob := by
  cases call with
  | add pid state cmdline =>
      obtain rfl : (addjob pid state cmdline l).2 = l' := Option.some.inj h
      rcases addjob_cases pid state cmdline l with
        ⟨hsame, hfull⟩ | ⟨k, hpid, hk, hset⟩
      · refine .inl ⟨hsame, fun pid' _ _ hcall hpid => ?_⟩
        cases hcall
        exact hfull hpid
      · exact .inr (.inl ⟨pid, state, cmdline, k, rfl, hpid, hk,
          congrArg Jobs.jobs hset⟩)
  | delete pid =>
      obtain rfl : (deletejob pid l).2 = l' := Option.some.inj h
      rw [deletejob_eq]
      split
      next =>
          exact .inl ⟨rfl, fun _ _ _ hcall => by cases hcall⟩
      next k hk =>
          exact .inr (.inr ⟨pid, k, rfl, rfl⟩)

/-- The job IDs in use stay distinct, positive and good for a lookup exactly as
long as each job that is added gets a positive ID that is not in use. -/
theorem calls_numbered
    (calls : List Call) :
    Always Call.run initjobs calls
        (fun l => Numbered l.jobs ∧ Designated l.jobs) ↔
      EachStep Call.run initjobs calls FreshId := by
  apply always_iff_eachStep
    (I := fun l => Numbered l.jobs ∧ FreeCleared l.jobs)
  · refine ⟨⟨?_, ?_⟩, ?_⟩
    · intro k hk
      exact absurd rfl hk
    · intro k j hk
      exact absurd rfl hk
    · intro k _
      rfl
  · rintro l ⟨hnum, hfree⟩
    exact ⟨hnum, hnum.designated hfree⟩
  · rintro l call l' ⟨hnum, hfree⟩ hrun hfresh
    rcases Call.run_cases hrun with ⟨rfl, _⟩ |
      ⟨pid, state, cmdline, k, rfl, hpid, hk, hset⟩ | ⟨pid, k, rfl, hset⟩
    · exact ⟨hnum, hfree⟩
    · rw [hset]
      refine ⟨(hnum.set_iff hk ?_).mpr (hfresh hpid ⟨k, hk⟩),
        hfree.set ?_⟩
      · show pid ≠ 0
        omega
      · intro hzero
        have : pid = 0 := hzero
        omega
    · rw [hset]
      exact ⟨hnum.clear k, hfree.set (fun _ => rfl)⟩
  · rintro l call l' ⟨hnum, hfree⟩ hrun ⟨hnum', _⟩
    rcases Call.run_cases hrun with ⟨rfl, hfull⟩ |
      ⟨pid, state, cmdline, k, rfl, hpid, hk, hset⟩ | ⟨pid, k, rfl, hset⟩
    · cases call with
      | add pid state cmdline =>
          rintro hpid ⟨k, hk⟩
          exact absurd hk (hfull pid state cmdline rfl hpid k)
      | delete pid =>
          trivial
    · intro _ _
      rw [hset] at hnum'
      refine (hnum.set_iff hk ?_).mp hnum'
      show pid ≠ 0
      omega
    · trivial

/-- Sixteen jobs, two deletions and two more jobs. -/
def wrapCalls : List Call :=
  (List.range 16).map (fun i => .add (i + 1) .BG []) ++
    [.delete 15, .delete 14, .add 17 .BG [], .add 18 .BG []]

/-- The last job gets the ID of the first one, which is still in use. -/
theorem wrapCalls_collide :
    ¬ ∀ calls, EachStep Call.run initjobs calls FreshPid →
      Always Call.run initjobs calls (fun l => Numbered l.jobs) := by
  intro hclaim
  have hfresh : EachStep Call.run initjobs wrapCalls FreshPid := by
    decide +kernel
  have hlast : ∃ l, exec Call.run initjobs wrapCalls = some l ∧
      (l.jobs 0).pid = 1 ∧ (l.jobs 14).pid = 18 ∧
      (l.jobs 0).mippy = (l.jobs 14).mippy := by
    refine ⟨_, rfl, ?_⟩
    decide +kernel
  obtain ⟨l, hl, hfirst, hsecond, hsame⟩ := hlast
  have hnum := hclaim wrapCalls hfresh wrapCalls (List.prefix_refl _) l hl
  have heq := hnum.inj 0 14 (by omega) (by omega) hsame
  cases heq

end Shell
end PastWork
