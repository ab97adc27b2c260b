import Mathlib.Data.Fintype.Card
import PastWork.Shell.Foreground

/-!
# The slots and the pointer of `do_bgfg`

`do_bgfg` keeps a pointer into the table while SIGCHLD is unblocked, and the
handler may clear the slot behind it.  The slots stay well formed, SIGCONT goes
to a job and `waitfg` gets the pid of one exactly as long as the slot is still
in use whenever `do_bgfg` uses the pointer.

A job ID in use is never 0, even after `nextjid` has wrapped: a negative
`nextjid` is followed by at most `MAXJOBS` additions before `deletejob` sets it
anew.
-/

namespace PastWork
namespace Shell

open Steps

/-- What the claim of the table is for every slot: `pid = 0` iff `jid = 0` iff
`state = UNDEF`. -/
def Job.WellFormed (job : Job) : Prop :=
  (job.pid = 0 ↔ job.mippy = 0) ∧ (job.mippy = 0 ↔ job.state = .UNDEF)

/-- `do_bgfg` sends SIGCONT to the job it has looked up, and `waitfg` is called
with a pid. -/
def Aimed (jobs : Table) : Control → Prop
  | .killing _ piddy target =>
      1 ≤ target ∧
        ((jobs piddy).pid = target ∨ (jobs piddy).pid = 0)
  | .entering pid => 1 ≤ pid
  | _ => True

/-- All slots are well formed, and `do_bgfg` and `waitfg` use real pids. -/
structure Sane (s : Tsh) : Prop where
  slots : ∀ k, (s.jobs k).WellFormed
  aimed : Aimed s.jobs s.control

/-- The pointer of `do_bgfg` is used only while its slot is in use. -/
def UsesLiveSlot (s : Tsh) (e : Event) : Prop :=
  match s.control, e with
  | .found _ piddy, .proceed => (s.jobs piddy).pid ≠ 0
  | .resumed _ piddy, .proceed => (s.jobs piddy).pid ≠ 0
  | .fronting piddy, .proceed => (s.jobs piddy).pid ≠ 0
  | _, _ => True

/-- A slot is cleared or holds a job. -/
def Job.Proper (job : Job) : Prop :=
  job.pid = 0 ∧ job.mippy = 0 ∧ job.state = .UNDEF ∨
    1 ≤ job.pid ∧ job.mippy ≠ 0 ∧ job.state ≠ .UNDEF

theorem Job.Proper.wellFormed
    {job : Job}
    (h : job.Proper) :
    job.WellFormed := by
  rcases h with ⟨hpid, hmippy, hstate⟩ | ⟨hpid, hmippy, hstate⟩
  · simp [Job.WellFormed, hpid, hmippy, hstate]
  · have hne : job.pid ≠ 0 := by omega
    simp [Job.WellFormed, hne, hmippy, hstate]

theorem Job.Proper.pid_pos
    {job : Job}
    (h : job.Proper)
    (hne : job.pid ≠ 0) :
    1 ≤ job.pid := by
  rcases h with ⟨hpid, _⟩ | ⟨hpid, _⟩
  · exact absurd hpid hne
  · exact hpid

theorem Job.Proper.reaps
    {job job' : Job}
    (h : job.Proper)
    (hreaps : Reaps job job') :
    job'.Proper := by
  cases hreaps with
  | same => exact h
  | stopped hpid =>
      rcases h with ⟨hzero, _⟩ | ⟨_, hmippy, _⟩
      · omega
      · exact .inr ⟨hpid, hmippy, by simp⟩
  | cleared => exact .inl ⟨rfl, rfl, rfl⟩

/-- The number of free slots. -/
def free (jobs : Table) : Nat :=
  (Finset.univ.filter (fun k => (jobs k).pid = 0)).card

/-- The next job ID is not 0, nor is any before the table is full. -/
structure Counted (l : Jobs) : Prop where
  low : -2 ^ 31 ≤ l.nextjid
  high : l.nextjid < 2 ^ 31
  next : 1 ≤ l.nextjid ∨ l.nextjid + free l.jobs < 0
  ids : ∀ k, (l.jobs k).mippy < 2 ^ 31

section Counting

variable {jobs : Table} {l : Jobs} {k : Fin MAXJOBS} {job : Job}

theorem free_le
    (jobs : Table) :
    free jobs ≤ 16 := by
  have h := Finset.card_filter_le Finset.univ
    (fun k => (jobs k).pid = 0)
  simpa [free] using h

theorem free_set
    (hk : (jobs k).pid = 0)
    (hjob : job.pid ≠ 0) :
    free (jobs.set k job) + 1 = free jobs := by
  have hinsert : Finset.univ.filter (fun j => (jobs j).pid = 0) =
      insert k (Finset.univ.filter
        (fun j => ((jobs.set k job) j).pid = 0)) := by
    ext j
    by_cases hjk : j = k
    · subst hjk
      simp [hk]
    · simp [hjk]
  unfold free
  rw [hinsert, Finset.card_insert_of_notMem (by simp [hjob])]

theorem free_eq
    {jobs' : Table}
    (h : ∀ k, (jobs' k).pid = (jobs k).pid) :
    free jobs' = free jobs := by
  simp only [free, h]

theorem maxjid_bounds
    (h : ∀ k, (jobs k).mippy < 2 ^ 31) :
    0 ≤ maxjid jobs ∧ maxjid jobs < 2 ^ 31 := by
  have key : ∀ (ks : List (Fin MAXJOBS)) (max : Int),
      0 ≤ max ∧ max < 2 ^ 31 →
      0 ≤ ks.foldl (fun max k =>
          if (jobs k).mippy > max then (jobs k).mippy else max) max ∧
        ks.foldl (fun max k =>
          if (jobs k).mippy > max then (jobs k).mippy else max) max <
            2 ^ 31 := by
    intro ks
    induction ks with
    | nil =>
        exact fun _ hmax => hmax
    | cons k ks ih =>
        intro max hmax
        have hk := h k
        apply ih
        dsimp only
        split <;> omega
  exact key _ 0 (by omega)

theorem Counted.deleted
    (h : Counted l)
    (k : Fin MAXJOBS) :
    Counted
      { jobs := l.jobs.set k clearjob
        nextjid := toInt32 (maxjid (l.jobs.set k clearjob) + 1) } := by
  have hids : ∀ j, ((l.jobs.set k clearjob) j).mippy < 2 ^ 31 := by
    intro j
    by_cases hjk : j = k
    · subst hjk
      simp [clearjob]
    · simpa [hjk] using h.ids j
  obtain ⟨hzero, hmax⟩ := maxjid_bounds hids
  have hfree := free_le (l.jobs.set k clearjob)
  have hval : toInt32 (maxjid (l.jobs.set k clearjob) + 1) =
      if maxjid (l.jobs.set k clearjob) + 1 < 2 ^ 31 then
        maxjid (l.jobs.set k clearjob) + 1
      else -2 ^ 31 := by
    simp only [toInt32]
    split <;> omega
  refine ⟨?_, ?_, ?_, hids⟩ <;> dsimp only <;> rw [hval] <;> split <;> omega

theorem Counted.added
    (h : Counted l)
    (hk : (l.jobs k).pid = 0)
    (hpid : job.pid ≠ 0)
    (hmippy : job.mippy = l.nextjid) :
    Counted { jobs := l.jobs.set k job, nextjid := bump l.nextjid } := by
  obtain ⟨hlow, hhigh, hnext, hids⟩ := h
  have hfree := free_set hk hpid
  have hle := free_le l.jobs
  have hids' : ∀ j, ((l.jobs.set k job) j).mippy < 2 ^ 31 := by
    intro j
    by_cases hjk : j = k
    · subst hjk
      simpa [hmippy] using hhigh
    · simpa [hjk] using hids j
  have hval : toInt32 (l.nextjid + 1) =
      if l.nextjid + 1 < 2 ^ 31 then l.nextjid + 1 else -2 ^ 31 := by
    simp only [toInt32]
    split <;> omega
  refine ⟨?_, ?_, ?_, hids'⟩ <;> dsimp only [bump] <;> rw [hval] <;>
    split_ifs <;> omega

theorem Counted.of_same
    {l' : Jobs}
    (h : Counted l)
    (hnext : l'.nextjid = l.nextjid)
    (hpid : ∀ k, (l'.jobs k).pid = (l.jobs k).pid)
    (hmippy : ∀ k, (l'.jobs k).mippy = (l.jobs k).mippy) :
    Counted l' := by
  refine ⟨hnext ▸ h.low, hnext ▸ h.high, ?_, ?_⟩
  · rw [hnext, free_eq hpid]
    exact h.next
  · intro k
    rw [hmippy]
    exact h.ids k

theorem Counted.setState
    {s : Tsh}
    (h : Counted s.toJobs)
    (k : Fin MAXJOBS) (state : JobState) :
    Counted (s.setState k state).toJobs := by
  refine h.of_same rfl ?_ ?_
  · intro j
    by_cases hjk : j = k <;> simp [Tsh.setState, hjk]
  · intro j
    by_cases hjk : j = k <;> simp [Tsh.setState, hjk]

theorem Counted.handler
    {s : Tsh}
    (h : Counted s.toJobs)
    (children : List (Int × ChildStatus)) :
    Counted (sigchldHandler children s).1.toJobs := by
  refine sigchldHandler_keeps ?_ ?_ children h
  · intro m _ hand _ hm
    exact hm.setState hand .ST
  · intro m cPid hand hfind hm
    rw [delete_eq hfind]
    exact hm.deleted hand

end Counting

/-- The pids that the control carries are real. -/
def Carries (jobs : Table) : Control → Prop
  | .adding pid _ _ | .started pid _ _ | .entering pid => 1 ≤ pid
  | .killing _ piddy target =>
      1 ≤ target ∧
        ((jobs piddy).pid = target ∨ (jobs piddy).pid = 0)
  | _ => True

theorem Carries.aimed
    {jobs : Table} {c : Control}
    (h : Carries jobs c) :
    Aimed jobs c := by
  cases c <;> first | exact h | trivial

/-- The invariant of the runs in which `do_bgfg` uses live slots only. -/
structure Settled (s : Tsh) : Prop where
  proper : ∀ k, (s.jobs k).Proper
  counted : Counted s.toJobs
  carries : Carries s.jobs s.control

section Steps

variable {s s' : Tsh} {e : Event}

theorem Settled.sane
    (h : Settled s) :
    Sane s :=
  ⟨fun k => (h.proper k).wellFormed, h.carries.aimed⟩

theorem Settled.start :
    Settled Tsh.start where
  proper := fun _ => .inl ⟨rfl, rfl, rfl⟩
  counted := ⟨by decide, by decide, .inl (by decide), by decide⟩
  carries := trivial

/-- Writing the state of a slot that is in use keeps it proper. -/
theorem setState_proper
    {piddy : Fin MAXJOBS} {state : JobState}
    (h : ∀ k, (s.jobs k).Proper)
    (hlive : (s.jobs piddy).pid ≠ 0)
    (hstate : state ≠ .UNDEF)
    (k : Fin MAXJOBS) :
    ((s.setState piddy state).jobs k).Proper := by
  by_cases hk : k = piddy
  · subst hk
    rcases h k with ⟨hzero, _⟩ | ⟨hpid, hmippy, _⟩
    · exact absurd hzero hlive
    · rw [Tsh.setState_jobs, set_same]
      exact .inr ⟨hpid, hmippy, hstate⟩
  · rw [Tsh.setState_jobs, set_ne _ _ hk]
    exact h k

theorem Carries.reaps
    {jobs jobs' : Table} {c : Control}
    (h : Carries jobs c)
    (hreaps : ∀ k, Reaps (jobs k) (jobs' k)) :
    Carries jobs' c := by
  cases c with
  | killing command piddy target =>
      refine ⟨h.1, ?_⟩
      rcases (hreaps piddy).pid_eq with hsame | hzero
      · rw [hsame]
        exact h.2
      · exact .inr hzero
  | _ => exact h

/-- A job that is added has an ID other than 0. -/
theorem added_proper
    {l : Jobs} {pid : Int} {k : Fin MAXJOBS}
    (h : ∀ k, (l.jobs k).Proper)
    (hcounted : Counted l)
    (hpid : 1 ≤ pid)
    (hk : (l.jobs k).pid = 0)
    (bg : Bool) (cmdline : CString)
    (j : Fin MAXJOBS) :
    (l.jobs.set k
      ⟨pid, l.nextjid, if bg then .BG else .FG, cmdline⟩ j).Proper := by
  by_cases hjk : j = k
  · subst hjk
    rw [set_same]
    refine .inr ⟨hpid, ?_, ?_⟩
    · have hnext := hcounted.next
      show l.nextjid ≠ 0
      omega
    · cases bg <;> simp
  · rw [set_ne _ _ hjk]
    exact h j

/-- A live pointer and the checks of the control give real pids. -/
theorem Carries.steers
    {jobs : Table} {c c' : Control}
    (h : Carries jobs c)
    (hproper : ∀ k, (jobs k).Proper)
    (hsteer : Steers jobs e c c')
    (hfound : ∀ command piddy, c = .found command piddy →
      e = .proceed → (jobs piddy).pid ≠ 0)
    (hfront : ∀ piddy, c = .fronting piddy →
      e = .proceed → (jobs piddy).pid ≠ 0) :
    Carries jobs c' := by
  cases hsteer with
  | fork bg cmdline hpid => exact hpid
  | foreground => exact h
  | aim command piddy =>
      have hpid := (hproper piddy).pid_pos (hfound command piddy rfl rfl)
      exact ⟨hpid, .inl rfl⟩
  | wait piddy =>
      exact (hproper piddy).pid_pos (hfront piddy rfl rfl)
  | wake => cases c <;> exact h
  | _ => trivial

theorem Settled.step
    (h : Settled s)
    (hstep : Shell.step s e = some s')
    (hlive : UsesLiveSlot s e) :
    Settled s' := by
  obtain ⟨hproper, hcounted, hcarries⟩ := h
  cases step_effect hstep with
  | steer hjobs hcontrol =>
      refine ⟨hjobs ▸ hproper, hjobs ▸ hcounted, ?_⟩
      rw [hjobs]
      apply hcarries.steers hproper hcontrol
      · rintro command piddy hfound rfl
        simpa [UsesLiveSlot, hfound] using hlive
      · rintro piddy hfront rfl
        simpa [UsesLiveSlot, hfront] using hlive
  | handle children hopen hjobs hcontrol =>
      have hreaps := sigchldHandler_reaps children s
      refine ⟨?_, hjobs ▸ hcounted.handler children, ?_⟩
      · rw [hjobs]
        exact fun k => (hproper k).reaps (hreaps k)
      · rw [hjobs, hcontrol]
        have hkept := hcarries.reaps hreaps
        revert hkept
        cases s.control <;> exact fun hkept => hkept
  | @record pid bg cmdline _ hadding hjobs hcontrol =>
      rw [hadding] at hcarries
      have hadd := addjob_cases pid (if bg then .BG else .FG) cmdline s.toJobs
      rw [← hjobs] at hadd
      have hcarries' : Carries s'.jobs s'.control := by
        rw [hcontrol]
        exact hcarries
      rcases hadd with ⟨hsame, _⟩ | ⟨k, hpid, hk, hset⟩
      · exact ⟨hsame ▸ hproper, hsame ▸ hcounted, hcarries'⟩
      · refine ⟨?_, ?_, hcarries'⟩
        · rw [hset]
          exact added_proper hproper hcounted hpid hk _ cmdline
        · rw [hset]
          refine hcounted.added hk ?_ rfl
          show pid ≠ 0
          omega
  | @background command piddy _ hresumed hjobs hcontrol =>
      have hpid : (s.jobs piddy).pid ≠ 0 := by
        simpa [UsesLiveSlot, hresumed] using hlive
      refine ⟨?_, hjobs ▸ hcounted.setState piddy .BG, hcontrol ▸ trivial⟩
      rw [hjobs]
      exact setState_proper hproper hpid (by simp)
  | @foreground command piddy _ hresumed hjobs hcontrol =>
      have hpid : (s.jobs piddy).pid ≠ 0 := by
        simpa [UsesLiveSlot, hresumed] using hlive
      refine ⟨?_, hjobs ▸ hcounted.setState piddy .FG, hcontrol ▸ trivial⟩
      rw [hjobs]
      exact setState_proper hproper hpid (by simp)

/-- A step that uses the pointer on a cleared slot leaves a bad state. -/
theorem usesLiveSlot_of_sane
    (hstep : step s e = some s')
    (hsane : Sane s') :
    UsesLiveSlot s e := by
  unfold UsesLiveSlot
  split
  next command piddy hc =>
      simp only [step, Tsh.proceed, hc] at hstep
      cases hstep
      have haim : Aimed s.jobs
          (.killing command piddy (s.jobs piddy).pid) := hsane.aimed
      have := haim.1
      omega
  next command piddy hc =>
      simp only [step, Tsh.proceed, hc] at hstep
      cases hstep
      have hslot := hsane.slots piddy
      unfold Tsh.mark at hslot
      intro hzero
      split at hslot <;>
        simp [Job.WellFormed, Tsh.goto, hzero] at hslot
  next piddy hc =>
      simp only [step, Tsh.proceed, hc] at hstep
      cases hstep
      have haim : Aimed s.jobs (.entering (s.jobs piddy).pid) :=
        hsane.aimed
      have hpid : 1 ≤ (s.jobs piddy).pid := haim
      omega
  next =>
      trivial

/-- The slots stay well formed, SIGCONT goes to a job and `waitfg` gets the pid
of one exactly as long as the slot behind the pointer of `do_bgfg` is in use
whenever the pointer is. -/
theorem slots_sane
    (events : List Event) :
    Always step Tsh.start events Sane ↔
      EachStep step Tsh.start events UsesLiveSlot :=
  always_iff_eachStep Settled.start (fun _ h => h.sane)
    (fun _ _ _ h hstep hlive => h.step hstep hlive)
    (fun _ _ _ _ hstep hsane => usesLiveSlot_of_sane hstep hsane)

/-- A background job ends after `fg` has looked it up. -/
def raceEvents : List Event :=
  [.line ["myint".toList] true "myint &\n".toList, .proceed, .fork 5,
    .proceed, .proceed,
    .line ["fg".toList, "%1".toList] false "fg %1\n".toList, .proceed,
    .proceed, .sigchld [(5, .exited)], .proceed, .kill true, .proceed,
    .proceed]

/-- `fg` sends SIGCONT to the process group of the shell, marks a free slot as
the foreground job and waits for pid 0. -/
theorem raceEvents_insane :
    ¬ ∀ events, Always step Tsh.start events Sane := by
  intro hclaim
  have hlast : ∃ s, exec step Tsh.start raceEvents = some s ∧
      s.control = .entering 0 := by
    refine ⟨_, rfl, ?_⟩
    decide +kernel
  obtain ⟨s, hs, hc⟩ := hlast
  have haim := (hclaim raceEvents raceEvents (List.prefix_refl _) s hs).aimed
  rw [hc] at haim
  have hpid : (1 : Int) ≤ 0 := haim
  omega

end Steps

end Shell
end PastWork
