import Mathlib.Data.List.FinRange
import Mathlib.Logic.Function.Basic
import Mathlib.Tactic

/-!
# The job list of the shell

`struct job_t`, the table `jobs` with the counter `nextjid`, and the routines of
`tsh.c` that scan and change them.  `int` and `pid_t` values are integers; the
two places where a job ID is computed wrap explicitly.  A C string is a list of
characters.
-/

namespace PastWork
namespace Shell

abbrev MAXJOBS : Nat := 16

/-- A C string without its terminating NUL. -/
abbrev CString := List Char

/-- An `int` after wrapping. -/
def toInt32 (x : Int) : Int :=
  (x + 2 ^ 31) % 2 ^ 32 - 2 ^ 31

/-- The values of the field `state`. -/
inductive JobState where
  | UNDEF
  | FG
  | BG
  | ST
deriving DecidableEq, Repr

structure Job where
  pid : Int
  mippy : Int
  state : JobState
  cmdline : CString
deriving DecidableEq, Repr

/-- The table `jobs`, of `MAXJOBS` slots. -/
abbrev Table := Fin MAXJOBS → Job

/-- The table with the global `nextjid`. -/
structure Jobs where
  jobs : Table
  nextjid : Int

/-- A cleared slot. -/
def clearjob : Job where
  pid := 0
  mippy := 0
  state := .UNDEF
  cmdline := []

/-- Write to a slot of the table. -/
def Table.set (jobs : Table) (k : Fin MAXJOBS) (job : Job) : Table :=
  fun j => if j = k then job else jobs j

def initjobs : Jobs where
  jobs := fun _ => clearjob
  nextjid := 1

/-- The loop of every scan: the first slot that satisfies `p`. -/
def Table.first (jobs : Table) (p : Job → Bool) : Option (Fin MAXJOBS) :=
  (List.finRange MAXJOBS).find? (fun k => p (jobs k))

def maxjid (jobs : Table) : Int :=
  (List.finRange MAXJOBS).foldl
    (fun max k => if (jobs k).mippy > max then (jobs k).mippy else max) 0

/-- `nextjid++; if (nextjid > MAXJOBS) nextjid = 1;` -/
def bump (nextjid : Int) : Int :=
  if toInt32 (nextjid + 1) > MAXJOBS then 1 else toInt32 (nextjid + 1)

/-- The job goes to the first slot that is free; the result says whether there
was one. -/
def addjob
    (pid : Int) (state : JobState) (cmdline : CString) (l : Jobs) :
    Bool × Jobs :=
  if pid < 1 then
    (false, l)
  else
    match l.jobs.first (fun job => job.pid = 0) with
    | none => (false, l)
    | some k =>
        (true,
          { jobs := l.jobs.set k
              { pid := pid
                mippy := l.nextjid
                state := state
                cmdline := cmdline }
            nextjid := bump l.nextjid })

/-- The first slot with this pid is cleared. -/
def deletejob (pid : Int) (l : Jobs) : Bool × Jobs :=
  if pid < 1 then
    (false, l)
  else
    match l.jobs.first (fun job => job.pid = pid) with
    | none => (false, l)
    | some k =>
        let jobs := l.jobs.set k clearjob
        (true, { jobs := jobs, nextjid := toInt32 (maxjid jobs + 1) })

/-- The pid of the foreground job, 0 when there is none. -/
def fgpid (jobs : Table) : Int :=
  match jobs.first (fun job => job.state = .FG) with
  | none => 0
  | some k => (jobs k).pid

def getjobpid (pid : Int) (jobs : Table) : Option (Fin MAXJOBS) :=
  if pid < 1 then none
  else jobs.first (fun job => job.pid = pid)

def getjobjid (mippy : Int) (jobs : Table) : Option (Fin MAXJOBS) :=
  if mippy < 1 then none
  else jobs.first (fun job => job.mippy = mippy)

def pid2jid (pid : Int) (jobs : Table) : Int :=
  if pid < 1 then 0
  else
    match jobs.first (fun job => job.pid = pid) with
    | none => 0
    | some k => (jobs k).mippy

section Slots

variable {jobs : Table} {k j : Fin MAXJOBS} {job : Job} {p : Job → Bool}

@[simp] theorem set_same
    (jobs : Table) (k : Fin MAXJOBS) (job : Job) :
    jobs.set k job k = job := by
  simp [Table.set]

@[simp] theorem set_ne
    (jobs : Table) (job : Job) (h : j ≠ k) :
    jobs.set k job j = jobs j := by
  simp [Table.set, h]

theorem first_spec
    (h : jobs.first p = some k) :
    p (jobs k) = true :=
  List.find?_some (p := fun k => p (jobs k)) h

theorem first_eq_none
    (h : jobs.first p = none)
    (k : Fin MAXJOBS) :
    p (jobs k) = false := by
  have := List.find?_eq_none.mp h k (List.mem_finRange k)
  simpa using this

/-- The only slot that satisfies `p` is the one that the scan finds. -/
theorem first_eq_of_unique
    (hk : p (jobs k) = true)
    (hunique : ∀ j, p (jobs j) = true → j = k) :
    jobs.first p = some k := by
  cases h : jobs.first p with
  | none =>
      rw [first_eq_none h k] at hk
      cases hk
  | some j =>
      rw [hunique j (first_spec h)]

theorem getjobpid_spec
    {pid : Int}
    (h : getjobpid pid jobs = some k) :
    1 ≤ pid ∧ (jobs k).pid = pid := by
  unfold getjobpid at h
  split at h
  next =>
      cases h
  next hpid =>
      exact ⟨by omega, by simpa using first_spec h⟩

theorem getjobjid_spec
    {mippy : Int}
    (h : getjobjid mippy jobs = some k) :
    1 ≤ mippy ∧ (jobs k).mippy = mippy := by
  unfold getjobjid at h
  split at h
  next =>
      cases h
  next hjid =>
      exact ⟨by omega, by simpa using first_spec h⟩

/-- `deletejob` clears the slot that `getjobpid` finds. -/
theorem deletejob_eq
    (pid : Int) (l : Jobs) :
    deletejob pid l =
      match getjobpid pid l.jobs with
      | none => (false, l)
      | some k =>
          (true,
            { jobs := l.jobs.set k clearjob
              nextjid := toInt32 (maxjid (l.jobs.set k clearjob) + 1) }) := by
  unfold deletejob getjobpid
  split <;> rfl

/-- With a foreground job, `fgpid` is the pid of one. -/
theorem fgpid_of_fg
    (hk : (jobs k).state = .FG) :
    ∃ j, (jobs j).state = .FG ∧ fgpid jobs = (jobs j).pid := by
  unfold fgpid
  split
  next hnone =>
      have := first_eq_none hnone k
      simp [hk] at this
  next j hj =>
      exact ⟨j, by simpa using first_spec hj, rfl⟩

/-- `addjob` changes nothing, or fills a slot that is free. -/
theorem addjob_cases
    (pid : Int) (state : JobState) (cmdline : CString) (l : Jobs) :
    (addjob pid state cmdline l).2 = l ∧
        (1 ≤ pid → ∀ k, (l.jobs k).pid ≠ 0) ∨
      ∃ k, 1 ≤ pid ∧ (l.jobs k).pid = 0 ∧
        (addjob pid state cmdline l).2 =
          { jobs := l.jobs.set k ⟨pid, l.nextjid, state, cmdline⟩
            nextjid := bump l.nextjid } := by
  unfold addjob
  split
  next hlow =>
      exact .inl ⟨rfl, fun hpid => by omega⟩
  next hpid =>
      split
      next hfull =>
          refine .inl ⟨rfl, fun _ k => ?_⟩
          simpa using first_eq_none hfull k
      next k hk =>
          exact .inr ⟨k, by omega, by simpa using first_spec hk, rfl⟩

end Slots

end Shell
end PastWork
