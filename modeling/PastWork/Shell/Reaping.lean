import Mathlib.Data.Fintype.Card
import PastWork.Shell.Effects

/-!
# Children that end together

One run of `sigchld_handler` is for all children that have changed by then.  It
returns at the first one that is not in the job list, so that it gets through
exactly when no other child is left behind such a one.
-/

namespace PastWork
namespace Shell

/-- The slot of a child that has stopped is in state ST, the slot of one that has
ended is cleared, and the other slots are kept. -/
def Table.reap (jobs : Table) (child : Int × ChildStatus) : Table :=
  match getjobpid child.1 jobs with
  | none => jobs
  | some hand =>
      jobs.set hand
        (if child.2 = .stopped then { jobs hand with state := .ST }
        else clearjob)

/-- All children have been consumed, and the job list is what they make of it. -/
structure ReapsAll (children : List (Int × ChildStatus)) (s : Tsh) : Prop where
  consumed : (sigchldHandler children s).2 = []
  table : (sigchldHandler children s).1.jobs = children.foldl Table.reap s.jobs

/-- How many slots have this pid. -/
def owned (pid : Int) (jobs : Table) : Nat :=
  (Finset.univ.filter (fun k => (jobs k).pid = pid)).card

/-- How many of the children have this pid and have ended. -/
def endings (pid : Int) (children : List (Int × ChildStatus)) : Nat :=
  children.countP (fun child => child.1 = pid && child.2 ≠ .stopped)

/-- Every child but the last one has a slot left when its turn comes. -/
def TrackedButLast (jobs : Table) (children : List (Int × ChildStatus)) :
    Prop :=
  ∀ before child after, children = before ++ child :: after → after ≠ [] →
    1 ≤ child.1 ∧ endings child.1 before < owned child.1 jobs

section Slots

variable {jobs : Table} {pid : Int} {hand : Fin MAXJOBS}
variable {child : Int × ChildStatus}

theorem getjobpid_isSome_iff :
    (getjobpid pid jobs).isSome ↔ 1 ≤ pid ∧ 0 < owned pid jobs := by
  unfold owned
  rw [Finset.card_pos]
  constructor
  · intro h
    obtain ⟨k, hk⟩ := Option.isSome_iff_exists.mp h
    obtain ⟨hpos, hpid⟩ := getjobpid_spec hk
    exact ⟨hpos, k, by simp [hpid]⟩
  · rintro ⟨hpos, k, hk⟩
    have hpid : (jobs k).pid = pid := by simpa using hk
    cases hget : getjobpid pid jobs with
    | some j => rfl
    | none =>
        rw [getjobpid, if_neg (by omega)] at hget
        simpa [hpid] using first_eq_none hget k

theorem owned_congr
    {jobs' : Table}
    (h : ∀ k, (jobs' k).pid = (jobs k).pid) :
    owned pid jobs' = owned pid jobs := by
  simp only [owned, h]

/-- Clearing a slot takes it from the pid that it had. -/
theorem owned_clear
    (jobs : Table) (hand : Fin MAXJOBS)
    (hpos : 1 ≤ pid) :
    owned pid (jobs.set hand clearjob) +
        (if (jobs hand).pid = pid then 1 else 0) =
      owned pid jobs := by
  have herase : Finset.univ.filter
      (fun k => (jobs.set hand clearjob k).pid = pid) =
        (Finset.univ.filter (fun k => (jobs k).pid = pid)).erase hand := by
    ext k
    rw [Finset.mem_erase, Finset.mem_filter, Finset.mem_filter]
    by_cases hk : k = hand
    · subst hk
      have hzero : clearjob.pid ≠ pid := by
        simp only [clearjob]
        omega
      simp [hzero]
    · simp [hk]
  unfold owned
  rw [herase]
  split
  next hpid =>
      exact Finset.card_erase_add_one (by simp [hpid])
  next hpid =>
      rw [Finset.erase_eq_of_notMem (by simp [hpid])]
      rfl

/-- A child that is tracked leaves one slot less when it has ended. -/
theorem owned_reap
    (hpos : 1 ≤ pid)
    (htracked : (getjobpid child.1 jobs).isSome) :
    owned pid (jobs.reap child) + endings pid [child] = owned pid jobs := by
  obtain ⟨hand, hhand⟩ := Option.isSome_iff_exists.mp htracked
  obtain ⟨_, hpid⟩ := getjobpid_spec hhand
  simp only [Table.reap, hhand]
  by_cases hstopped : child.2 = .stopped
  · rw [if_pos hstopped]
    have hsame : owned pid (jobs.set hand
        { jobs hand with state := .ST }) = owned pid jobs := by
      apply owned_congr
      intro k
      by_cases hk : k = hand
      · subst hk
        simp
      · simp [hk]
    simp [hsame, endings, hstopped]
  · rw [if_neg hstopped, ← owned_clear jobs hand hpos, hpid]
    by_cases heq : child.1 = pid <;> simp [endings, heq, hstopped]

end Slots

section Handler

variable {s : Tsh} {child : Int × ChildStatus}

/-- A child that is not in the job list ends the run of the handler. -/
theorem handler_untracked
    (rest : List (Int × ChildStatus))
    (h : getjobpid child.1 s.jobs = none) :
    sigchldHandler (child :: rest) s = (s.print (.noChild child.1), rest) := by
  simp only [sigchldHandler, h]

/-- After a child that is in the job list the handler goes on. -/
theorem handler_tracked
    (rest : List (Int × ChildStatus))
    (h : (getjobpid child.1 s.jobs).isSome) :
    ∃ s' : Tsh, s'.jobs = s.jobs.reap child ∧
      sigchldHandler (child :: rest) s = sigchldHandler rest s' := by
  obtain ⟨hand, hhand⟩ := Option.isSome_iff_exists.mp h
  obtain ⟨cPid, Cstat⟩ := child
  have hdelete := congrArg Jobs.jobs (delete_eq hhand)
  cases Cstat with
  | stopped =>
      simp only [sigchldHandler, hhand, Table.reap]
      exact ⟨_, rfl, rfl⟩
  | signaled =>
      simp only [sigchldHandler, hhand, Table.reap]
      exact ⟨(s.delete cPid).print
        (.terminated ((s.delete cPid).jobs hand).mippy cPid), hdelete, rfl⟩
  | exited =>
      simp only [sigchldHandler, hhand, Table.reap]
      exact ⟨_, hdelete, rfl⟩

end Handler

section Exactness

variable {s : Tsh} {child : Int × ChildStatus}
variable {rest : List (Int × ChildStatus)}

theorem TrackedButLast.head
    {jobs : Table}
    (h : TrackedButLast jobs (child :: rest))
    (hrest : rest ≠ []) :
    (getjobpid child.1 jobs).isSome := by
  obtain ⟨hpos, hlt⟩ := h [] child rest rfl hrest
  exact getjobpid_isSome_iff.mpr ⟨hpos, by simpa [endings] using hlt⟩

/-- The children behind a tracked one are tracked in what it leaves. -/
theorem trackedButLast_cons
    {jobs : Table}
    (h : (getjobpid child.1 jobs).isSome) :
    TrackedButLast jobs (child :: rest) ↔
      TrackedButLast (jobs.reap child) rest := by
  have hcount : ∀ (c : Int × ChildStatus) before, 1 ≤ c.1 →
      (endings c.1 (child :: before) < owned c.1 jobs ↔
        endings c.1 before < owned c.1 (jobs.reap child)) := by
    intro c before hpos
    have howned := owned_reap hpos h
    have hsplit : endings c.1 (child :: before) =
        endings c.1 before + endings c.1 [child] := by
      unfold endings
      rw [← List.countP_append, List.countP_append, List.countP_cons]
      simp
    omega
  constructor
  · rintro hall before c after rfl hafter
    obtain ⟨hpos, hlt⟩ := hall (child :: before) c after rfl hafter
    exact ⟨hpos, (hcount c before hpos).mp hlt⟩
  · intro hall before c after hsplit hafter
    cases before with
    | nil =>
        cases hsplit
        obtain ⟨hpos, hlt⟩ := getjobpid_isSome_iff.mp h
        exact ⟨hpos, by simpa [endings] using hlt⟩
    | cons b before =>
        cases hsplit
        obtain ⟨hpos, hlt⟩ := hall before c after rfl hafter
        exact ⟨hpos, (hcount c before hpos).mpr hlt⟩

/-- The handler gets through its children exactly when each of them but the last
one has a slot left when its turn comes. -/
theorem handler_reaps_iff
    (children : List (Int × ChildStatus)) (s : Tsh) :
    ReapsAll children s ↔ TrackedButLast s.jobs children := by
  induction children generalizing s with
  | nil =>
      refine iff_of_true ⟨rfl, rfl⟩ ?_
      intro before child after h
      simp at h
  | cons child rest ih =>
      by_cases htracked : (getjobpid child.1 s.jobs).isSome
      · obtain ⟨s', hjobs, hhandler⟩ := handler_tracked rest htracked
        have hsame : ReapsAll (child :: rest) s ↔ ReapsAll rest s' := by
          constructor
          · rintro ⟨hconsumed, htable⟩
            rw [hhandler] at hconsumed htable
            exact ⟨hconsumed, by rw [htable, List.foldl_cons, hjobs]⟩
          · rintro ⟨hconsumed, htable⟩
            refine ⟨by rw [hhandler, hconsumed], ?_⟩
            rw [hhandler, htable, List.foldl_cons, hjobs]
        rw [hsame, ih, hjobs, trackedButLast_cons htracked]
      · have hnone := Option.not_isSome_iff_eq_none.mp htracked
        have huntracked := handler_untracked rest hnone
        by_cases hrest : rest = []
        · subst hrest
          refine iff_of_true ⟨by rw [huntracked], ?_⟩ ?_
          · rw [huntracked]
            simp [Table.reap, hnone, Tsh.print]
          · intro before c after hsplit hafter
            cases before with
            | nil =>
                cases hsplit
                exact absurd rfl hafter
            | cons b before =>
                simp at hsplit
        · refine iff_of_false ?_ (fun h => htracked (h.head hrest))
          rintro ⟨hconsumed, _⟩
          rw [huntracked] at hconsumed
          exact hrest hconsumed

end Exactness

/-- The shell with one job, whose pid is 6. -/
def oneJob : Tsh where
  jobs := fun k => if k = 0 then ⟨6, 1, .FG, []⟩ else clearjob
  nextjid := 2
  control := .suspended 6
  out := []

/-- A child that `addjob` has not recorded keeps the foreground job from being
reaped. -/
theorem untracked_hides :
    ¬ ∀ (children : List (Int × ChildStatus)) (s : Tsh),
      ReapsAll children s := by
  intro hclaim
  have hall := (hclaim [(5, .exited), (6, .exited)] oneJob).consumed
  have hleft : (sigchldHandler [(5, .exited), (6, .exited)] oneJob).2 =
      [(6, .exited)] := by
    decide
  rw [hleft] at hall
  cases hall

end Shell
end PastWork
