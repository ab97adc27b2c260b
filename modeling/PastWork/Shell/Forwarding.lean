import PastWork.Shell.Signals

/-!
# Forwarding to jobs

`Kill` ends the shell when the process group of its target does not exist.  A
pid in the job list is that of a child which has not been waited for, or which
`sigchld_handler` has just been given by `waitpid`.  From this invariant it
follows which calls of `Kill` succeed: those whose target has called `setpgid`,
is still in the job list and has not been returned by `waitpid`, and those for
which a descendant is left in the group.
-/

namespace PastWork
namespace Shell

open Steps

namespace World

/-- `waitpid` has returned the end of this child to `sigchld_handler`. -/
def Held (w : World) (pid : Int) : Prop :=
  ∃ Cstat, Cstat ≠ .stopped ∧ .reaped pid Cstat ∈ w.frames

/-- `Kill` is going to be called for this pid. -/
def Aims (w : World) (pid : Int) : Prop :=
  pid ≠ 0 ∧
    ((∃ key, .forwarding key pid ∈ w.frames) ∨
      ∃ command piddy, w.control = .killing command piddy pid)

/-- The job with this pid can be sent a signal. -/
def Signalable (w : World) (pid : Int) : Prop :=
  pid = 0 ∨ pid ∈ w.groups ∨
    (∃ k, (w.jobs k).pid = pid) ∧ pid ∈ w.grouped ∧ ¬ w.Held pid

/-- A step that calls `Kill` does so for a job that can be sent a signal. -/
def SignalsJob (w : World) (h : Happening) : Prop :=
  match h with
  | .kill =>
      ∀ command piddy target, w.control = .killing command piddy target →
        w.Signalable target
  | .deliver =>
      ∀ key pidZ rest, w.frames = .forwarding key pidZ :: rest →
        pidZ > 0 → w.Signalable pidZ
  | _ => True

/-- The shell has not been ended by a failing `Kill`. -/
def Survives (w : World) : Prop :=
  w.ended ≠ some .kill

/-- How the job list, the children and the running handlers belong together. -/
structure Traced (w : World) : Prop where
  child : ∀ k, (w.jobs k).pid ≠ 0 →
    (w.jobs k).pid ∈ w.children ∨ w.Held (w.jobs k).pid
  distinct : ∀ k j, (w.jobs k).pid = (w.jobs j).pid →
    (w.jobs k).pid ≠ 0 → k = j
  positive : ∀ pid ∈ w.children, 1 ≤ pid
  held : ∀ pid, w.Held pid → 1 ≤ pid ∧ pid ∉ w.children
  aimed : ∀ pid, w.Aims pid → pid ∈ w.children →
    ∃ k, (w.jobs k).pid = pid
  adding : ∀ pid bg cmdline, w.control = .adding pid bg cmdline →
    w.frames = [] ∧ pid ∈ w.children ∧ ∀ k, (w.jobs k).pid ≠ pid
  survives : w.Survives

theorem Traced.start :
    Traced World.start where
  child := fun k hk => absurd rfl hk
  distinct := fun k j _ hk => absurd rfl hk
  positive := by
    rintro pid ⟨⟩
  held := by
    rintro pid ⟨Cstat, _, hmem⟩
    cases hmem
  aimed := by
    rintro pid _ hchild
    cases hchild
  adding := by
    rintro pid bg cmdline hc
    cases hc
  survives := by
    rintro ⟨⟩

section Kill

variable {w : World} {pid : Int}

/-- For a pid that `Kill` is called with, the process group exists exactly when
the job can be sent a signal. -/
theorem Traced.groupExists_iff
    (h : Traced w)
    (haims : pid ≠ 0 → w.Aims pid) :
    w.groupExists pid = true ↔ w.Signalable pid := by
  simp only [groupExists, Bool.or_eq_true, Bool.and_eq_true,
    decide_eq_true_eq]
  constructor
  · rintro ((hzero | hgroup) | ⟨hchild, hgrouped⟩)
    · exact .inl hzero
    · exact .inr (.inl hgroup)
    · by_cases hzero : pid = 0
      · exact .inl hzero
      · refine .inr (.inr ⟨?_, hgrouped, ?_⟩)
        · exact h.aimed pid (haims hzero) hchild
        · exact fun hheld => (h.held pid hheld).2 hchild
  · rintro (hzero | hgroup | ⟨⟨k, hk⟩, hgrouped, hheld⟩)
    · exact .inl (.inl hzero)
    · exact .inl (.inr hgroup)
    · by_cases hzero : pid = 0
      · exact .inl (.inl hzero)
      · have hchild := h.child k (by rwa [hk])
        rw [hk] at hchild
        exact .inr ⟨hchild.resolve_right hheld, hgrouped⟩

end Kill

section Steps

variable {w w' : World}

/-- A foreground pid is the pid of a slot. -/
theorem fgpid_slot
    {jobs : Table}
    (h : fgpid jobs ≠ 0) :
    ∃ k, (jobs k).pid = fgpid jobs := by
  unfold fgpid at h ⊢
  split
  next hnone =>
      rw [hnone] at h
      exact absurd rfl h
  next k hk => exact ⟨k, rfl⟩

theorem setState_pid
    (s : Tsh) (hand : Fin MAXJOBS) (state : JobState) (k : Fin MAXJOBS) :
    ((s.setState hand state).jobs k).pid = (s.jobs k).pid := by
  by_cases hk : k = hand
  · rw [hk, Tsh.setState_jobs, set_same]
  · rw [Tsh.setState_jobs, set_ne _ _ hk]

/-- A step that keeps the pids, the children and what `waitpid` has returned
keeps the invariant when the new aims are jobs. -/
theorem Traced.of_pids
    (h : Traced w)
    (hpid : ∀ k, (w'.jobs k).pid = (w.jobs k).pid)
    (hchildren : w'.children = w.children)
    (hheld : ∀ pid, w'.Held pid ↔ w.Held pid)
    (haims : ∀ pid, w'.Aims pid → w.Aims pid ∨ ∃ k, (w.jobs k).pid = pid)
    (hadding : ∀ pid bg cmdline, w'.control = .adding pid bg cmdline →
      w.control = .adding pid bg cmdline ∧ w'.frames = [])
    (hsurvives : w'.Survives) :
    Traced w' := by
  refine ⟨?_, ?_, hchildren ▸ h.positive, ?_, ?_, ?_, hsurvives⟩
  · intro k
    rw [hpid, hchildren, hheld]
    exact h.child k
  · intro k j
    rw [hpid, hpid]
    exact h.distinct k j
  · intro pid
    rw [hheld, hchildren]
    exact h.held pid
  · intro pid haim hchild
    simp only [hpid]
    rw [hchildren] at hchild
    rcases haims pid haim with hold | hjob
    · exact h.aimed pid hold hchild
    · exact hjob
  · intro pid bg cmdline hc
    obtain ⟨hold, hframes⟩ := hadding pid bg cmdline hc
    obtain ⟨_, hchild, hfree⟩ := h.adding pid bg cmdline hold
    refine ⟨hframes, hchildren ▸ hchild, ?_⟩
    intro k
    rw [hpid]
    exact hfree k

/-- The process groups, and an end of the shell that is not a failing `Kill`, can
change without the rest. -/
theorem Traced.outside
    {ended : Option Exit} {grouped groups : List Int}
    (h : Traced w)
    (hended : ended ≠ some .kill) :
    Traced { w with ended := ended, grouped := grouped, groups := groups } :=
  ⟨h.child, h.distinct, h.positive, h.held, h.aimed, h.adding, hended⟩

theorem main_eq_some
    {e : Event} {reason : Exit}
    (h : w.main e reason = some w') :
    w.frames = [] ∧ ∃ s, Shell.step w.toTsh e = some s ∧
      w' =
        { w with
          toTsh := s
          ended := if s.control = .exited then some reason else none } := by
  unfold World.main at h
  split at h
  next hframes =>
      obtain ⟨s, hs, rfl⟩ := Option.map_eq_some_iff.mp h
      exact ⟨hframes, s, hs, rfl⟩
  next =>
      cases h

/-- The events that are steps of the shell itself, but for `fork`. -/
def Own : Event → Prop
  | .fork _ | .sigchld _ | .forward _ => False
  | _ => True

/-- `do_bgfg` reads its target from the job list. -/
theorem Steers.aimed
    {jobs : Table} {e : Event} {c : Control}
    {command : CString} {piddy : Fin MAXJOBS} {target : Int}
    (h : Steers jobs e c (.killing command piddy target))
    (hown : Own e) :
    (jobs piddy).pid = target := by
  generalize hc' : Control.killing command piddy target = c' at h
  cases h with
  | aim => cases hc'; rfl
  | wake => exact hown.elim
  | _ => cases hc'

/-- Only `fork` leads to `addjob`. -/
theorem Steers.not_adding
    {jobs : Table} {e : Event} {c : Control}
    {pid : Int} {bg : Bool} {cmdline : CString}
    (h : Steers jobs e c (.adding pid bg cmdline))
    (hown : Own e) :
    False := by
  generalize hc' : Control.adding pid bg cmdline = c' at h
  cases h with
  | fork => exact hown
  | wake => exact hown
  | _ => cases hc'

/-- Recording a child that is not yet in the job list. -/
theorem Traced.record
    {pid : Int} {bg : Bool} {cmdline : CString}
    (h : Traced w)
    (hc : w.control = .adding pid bg cmdline)
    (hjobs : w'.toJobs =
      (addjob pid (if bg then .BG else .FG) cmdline w.toJobs).2)
    (hcontrol : w'.control = .started pid bg cmdline)
    (hframes : w'.frames = w.frames)
    (hchildren : w'.children = w.children)
    (hsurvives : w'.Survives) :
    Traced w' := by
  obtain ⟨hnone, hchild, hfree⟩ := h.adding pid bg cmdline hc
  have hheld : ∀ pid, w'.Held pid ↔ w.Held pid := by
    intro pid
    simp only [Held, hframes]
  have hnoaim : ∀ pid, ¬ w'.Aims pid := by
    rintro pid ⟨_, ⟨key, hmem⟩ | ⟨command, piddy, hkill⟩⟩
    · rw [hframes, hnone] at hmem
      cases hmem
    · rw [hcontrol] at hkill
      cases hkill
  have hnoadd : ∀ pid bg cmdline, w'.control ≠ .adding pid bg cmdline := by
    intro pid bg cmdline hadd
    rw [hcontrol] at hadd
    cases hadd
  have hadd := addjob_cases pid (if bg then .BG else .FG) cmdline w.toJobs
  rw [← hjobs] at hadd
  rcases hadd with ⟨hsame, _⟩ | ⟨k, hpos, hk, hset⟩
  · refine h.of_pids ?_ hchildren hheld ?_ ?_ hsurvives
    · intro k
      rw [show w'.jobs = w.jobs from congrArg Jobs.jobs hsame]
    · intro pid haim
      exact absurd haim (hnoaim pid)
    · intro pid bg cmdline hadd
      exact absurd hadd (hnoadd pid bg cmdline)
  · have hslots : w'.jobs =
        w.jobs.set k ⟨pid, w.nextjid, if bg then .BG else .FG, cmdline⟩ :=
      congrArg Jobs.jobs hset
    refine ⟨?_, ?_, hchildren ▸ h.positive, ?_, ?_, ?_, hsurvives⟩
    · intro j
      rw [hslots, hchildren, hheld]
      by_cases hjk : j = k
      · subst hjk
        rw [set_same]
        exact fun _ => .inl hchild
      · rw [set_ne _ _ hjk]
        exact h.child j
    · intro j i
      rw [hslots]
      by_cases hjk : j = k <;> by_cases hik : i = k
      · exact fun _ _ => hjk.trans hik.symm
      · rw [hjk, set_same, set_ne _ _ hik]
        exact fun heq => absurd heq.symm (hfree i)
      · rw [hik, set_same, set_ne _ _ hjk]
        exact fun heq => absurd heq (hfree j)
      · rw [set_ne _ _ hjk, set_ne _ _ hik]
        exact h.distinct j i
    · intro pid
      rw [hheld, hchildren]
      exact h.held pid
    · intro pid haim
      exact absurd haim (hnoaim pid)
    · intro pid bg cmdline hadd
      exact absurd hadd (hnoadd pid bg cmdline)

/-- The steps of the shell itself. -/
theorem Traced.main
    {e : Event} {reason : Exit}
    (h : Traced w)
    (hmain : w.main e reason = some w')
    (hown : Own e)
    (hsurvives : w'.Survives) :
    Traced w' := by
  obtain ⟨hnone, s, hs, rfl⟩ := main_eq_some hmain
  have hold : ∀ pid, (∃ key, .forwarding key pid ∈ w.frames) →
      w.Aims pid ∨ ∃ k, (w.jobs k).pid = pid := by
    rintro pid ⟨key, hmem⟩
    rw [hnone] at hmem
    cases hmem
  cases step_effect hs with
  | steer hjobs hcontrol =>
      refine h.of_pids ?_ rfl (fun _ => Iff.rfl) ?_ ?_ hsurvives
      · intro k
        show (s.toJobs.jobs k).pid = _
        rw [hjobs]
      · rintro pid ⟨_, hframe | ⟨command, piddy, hkill⟩⟩
        · exact hold pid hframe
        · have hkill : s.control = .killing command piddy pid := hkill
          rw [hkill] at hcontrol
          exact .inr ⟨piddy, Steers.aimed hcontrol hown⟩
      · intro pid bg cmdline hadd
        have hadd : s.control = .adding pid bg cmdline := hadd
        rw [hadd] at hcontrol
        exact (Steers.not_adding hcontrol hown).elim
  | handle children => exact hown.elim
  | record hadding hjobs hcontrol =>
      exact h.record hadding hjobs hcontrol rfl rfl hsurvives
  | @background command piddy _ _ hjobs hcontrol
  | @foreground command piddy _ _ hjobs hcontrol =>
      refine h.of_pids ?_ rfl (fun _ => Iff.rfl) ?_ ?_ hsurvives
      · intro k
        show (s.toJobs.jobs k).pid = _
        rw [hjobs]
        exact setState_pid w.toTsh piddy _ k
      · rintro pid ⟨_, hframe | ⟨command, piddy, hkill⟩⟩
        · exact hold pid hframe
        · exact absurd (hcontrol.symm.trans hkill) (by simp)
      · intro pid bg cmdline hadd
        exact absurd (hcontrol.symm.trans hadd) (by simp)

/-- The child that `fork` has made is not in the job list. -/
theorem Traced.fork
    {m : World} {pid : Int}
    (h : Traced w)
    (hfresh : pid ∉ w.children)
    (hmain : w.main (.fork pid) .fork = some m) :
    Traced (if pid < 0 then m else m.born pid) := by
  obtain ⟨hnone, s, hs, rfl⟩ := main_eq_some hmain
  have hnoframe : ∀ frame, frame ∉ w.frames := by
    intro frame
    rw [hnone]
    exact List.not_mem_nil
  have hnoheld : ∀ pid, ¬ w.Held pid := by
    rintro pid ⟨Cstat, _, hmem⟩
    exact hnoframe _ hmem
  have hchild : ∀ k, (w.jobs k).pid ≠ 0 → (w.jobs k).pid ∈ w.children := by
    intro k hk
    exact (h.child k hk).resolve_right (hnoheld _)
  cases hc : w.control <;> simp only [Shell.step, hc] at hs <;> try cases hs
  next bg cmdline =>
    split_ifs at hs with hneg hzero
    · cases hs
      rw [if_pos hneg]
      refine h.of_pids (fun _ => rfl) rfl (fun _ => Iff.rfl) ?_ ?_ ?_
      · rintro pid ⟨_, ⟨key, hmem⟩ | ⟨command, piddy, hkill⟩⟩
        · exact absurd hmem (hnoframe _)
        · cases hkill
      · rintro pid bg cmdline ⟨⟩
      · simp [Survives, Tsh.goto]
    · cases hs
      rw [if_neg hneg]
      refine ⟨?_, h.distinct, ?_, ?_, ?_, ?_, ?_⟩
      · intro k hk
        exact .inl (List.mem_cons_of_mem _ (hchild k hk))
      · intro child hmem
        rcases List.mem_cons.mp hmem with rfl | hmem
        · omega
        · exact h.positive child hmem
      · exact fun pid hheld => absurd hheld (hnoheld pid)
      · rintro pid ⟨_, ⟨key, hmem⟩ | ⟨command, piddy, hkill⟩⟩
        · exact absurd hmem (hnoframe _)
        · cases hkill
      · rintro child bg cmdline ⟨⟩
        refine ⟨hnone, List.mem_cons_self, ?_⟩
        intro k hk
        have hk : (w.jobs k).pid = pid := hk
        exact hfresh (hk ▸ hchild k (by omega))
      · simp [Survives, Tsh.goto, born]

/-- A handler runs only while signals can come in. -/
theorem Traced.not_adding
    {frame : Frame} {rest : List Frame}
    (h : Traced w)
    (hframes : w.frames = frame :: rest)
    (pid : Int) (bg : Bool) (cmdline : CString) :
    w.control ≠ .adding pid bg cmdline := by
  intro hc
  have hnone := (h.adding pid bg cmdline hc).1
  rw [hframes] at hnone
  cases hnone

theorem woken_eq_killing
    {c : Control} {command : CString} {piddy : Fin MAXJOBS} {pid : Int}
    (h : c.woken = .killing command piddy pid) :
    c = .killing command piddy pid := by
  cases c <;> first | exact h | cases h

theorem woken_eq_adding
    {c : Control} {pid : Int} {bg : Bool} {cmdline : CString}
    (h : c.woken = .adding pid bg cmdline) :
    c = .adding pid bg cmdline := by
  cases c <;> first | exact h | cases h

theorem leave_control
    (w : World) (rest : List Frame) :
    (w.leave rest).control = w.control ∨
      (w.leave rest).control = w.control.woken := by
  unfold leave
  dsimp only
  split
  · exact .inr rfl
  · exact .inl rfl

/-- What is aimed at after a handler has returned was so before. -/
theorem leave_aims
    {frame : Frame} {rest : List Frame} {pid : Int}
    (hframes : w.frames = frame :: rest)
    (h : (w.leave rest).Aims pid) :
    w.Aims pid := by
  obtain ⟨hne, ⟨key, hmem⟩ | ⟨command, piddy, hkill⟩⟩ := h
  · refine ⟨hne, .inl ⟨key, ?_⟩⟩
    rw [hframes]
    exact List.mem_cons_of_mem _ hmem
  · refine ⟨hne, .inr ⟨command, piddy, ?_⟩⟩
    rcases leave_control w rest with hc | hc
    · exact hc.symm.trans hkill
    · exact woken_eq_killing (hc.symm.trans hkill)

theorem leave_adding
    {rest : List Frame} {pid : Int} {bg : Bool} {cmdline : CString}
    (h : (w.leave rest).control = .adding pid bg cmdline) :
    w.control = .adding pid bg cmdline := by
  rcases leave_control w rest with hc | hc
  · exact hc.symm.trans h
  · exact woken_eq_adding (hc.symm.trans h)

/-- What `waitpid` had returned is dropped with its slot. -/
theorem Traced.release
    {cPid : Int}
    (h : Traced w)
    (hgone : cPid ∉ w.children)
    (hslot : ∀ k, w'.jobs k = w.jobs k ∧ (w.jobs k).pid ≠ cPid ∨
      (w.jobs k).pid = cPid ∧ (w'.jobs k).pid = 0)
    (hchildren : w'.children = w.children)
    (hheld : ∀ pid, w'.Held pid → w.Held pid)
    (hkept : ∀ pid, pid ≠ cPid → w.Held pid → w'.Held pid)
    (haims : ∀ pid, w'.Aims pid → w.Aims pid)
    (hadding : ∀ pid bg cmdline, w'.control ≠ .adding pid bg cmdline)
    (hsurvives : w'.Survives) :
    Traced w' := by
  have hsame : ∀ k, (w'.jobs k).pid ≠ 0 →
      w'.jobs k = w.jobs k ∧ (w.jobs k).pid ≠ cPid := by
    intro k hk
    exact (hslot k).resolve_right (fun hcleared => hk hcleared.2)
  refine ⟨?_, ?_, hchildren ▸ h.positive, ?_, ?_, ?_, hsurvives⟩
  · intro k hk
    obtain ⟨heq, hne⟩ := hsame k hk
    rw [heq] at hk ⊢
    rw [hchildren]
    exact (h.child k hk).imp_right (hkept _ hne)
  · intro k j heq hk
    have hk' := hsame k hk
    have hj' := hsame j (heq ▸ hk)
    rw [hk'.1] at hk
    rw [hk'.1, hj'.1] at heq
    exact h.distinct k j heq hk
  · intro pid hpid
    rw [hchildren]
    exact h.held pid (hheld pid hpid)
  · intro pid haim hchild
    rw [hchildren] at hchild
    obtain ⟨k, hk⟩ := h.aimed pid (haims pid haim) hchild
    refine ⟨k, ?_⟩
    rcases hslot k with ⟨heq, _⟩ | ⟨hcleared, _⟩
    · rw [heq, hk]
    · exact absurd (hcleared.symm.trans hk ▸ hchild) hgone
  · exact fun pid bg cmdline hc => absurd hc (hadding pid bg cmdline)

section Waited

variable {cPid : Int} {Cstat : ChildStatus} {rest : List Frame}

/-- What is aimed at once `waitpid` has returned was so before. -/
theorem waited_aims
    {pid : Int} {children : List Int}
    (hframes : w.frames = .reaping :: rest)
    (h : Aims
      { w with frames := .reaped cPid Cstat :: rest, children := children }
      pid) :
    w.Aims pid := by
  obtain ⟨hne, ⟨key, hkey⟩ | hkill⟩ := h
  · rcases List.mem_cons.mp hkey with heq | hrest
    · cases heq
    · refine ⟨hne, .inl ⟨key, ?_⟩⟩
      rw [hframes]
      exact List.mem_cons_of_mem _ hrest
  · exact ⟨hne, .inr hkill⟩

/-- After `waitpid` the handler holds the child it has returned and those that it
held before. -/
theorem waited_held
    {children : List Int}
    (hframes : w.frames = .reaping :: rest)
    (pid : Int) :
    Held
        { w with frames := .reaped cPid Cstat :: rest, children := children }
        pid ↔
      (pid = cPid ∧ Cstat ≠ .stopped) ∨ w.Held pid := by
  constructor
  · rintro ⟨Cstat', hended, hheld⟩
    rcases List.mem_cons.mp hheld with heq | hrest
    · cases heq
      exact .inl ⟨rfl, hended⟩
    · refine .inr ⟨Cstat', hended, ?_⟩
      rw [hframes]
      exact List.mem_cons_of_mem _ hrest
  · rintro (⟨rfl, hended⟩ | ⟨Cstat', hended, hheld⟩)
    · exact ⟨Cstat, hended, List.mem_cons_self⟩
    · rw [hframes] at hheld
      refine ⟨Cstat', hended, List.mem_cons_of_mem _ ?_⟩
      simpa using hheld

/-- A child that has stopped stays a child. -/
theorem Traced.waited_stopped
    (h : Traced w)
    (hframes : w.frames = .reaping :: rest) :
    Traced { w with frames := .reaped cPid .stopped :: rest } := by
  refine h.of_pids (fun _ => rfl) rfl ?_
    (fun _ haim => .inl (waited_aims hframes haim)) ?_ h.survives
  · intro pid
    rw [waited_held hframes]
    simp
  · intro pid bg cmdline hadd
    exact absurd hadd (h.not_adding hframes _ _ _)

/-- A child that has ended is held by the handler instead. -/
theorem Traced.waited_ended
    (h : Traced w)
    (hframes : w.frames = .reaping :: rest)
    (hmem : cPid ∈ w.children)
    (hended : Cstat ≠ .stopped) :
    Traced
      { w with
        frames := .reaped cPid Cstat :: rest
        children := w.children.filter (fun pid => pid ≠ cPid) } := by
  refine ⟨?_, h.distinct, ?_, ?_, ?_, ?_, h.survives⟩
  · intro k hk
    rw [waited_held hframes]
    rcases h.child k hk with hchild | hheld
    · by_cases hpid : (w.jobs k).pid = cPid
      · exact .inr (.inl ⟨hpid, hended⟩)
      · exact .inl (List.mem_filter.mpr ⟨hchild, by simpa using hpid⟩)
    · exact .inr (.inr hheld)
  · intro pid hpid
    exact h.positive pid (List.mem_filter.mp hpid).1
  · intro pid hheld
    rcases (waited_held hframes pid).mp hheld with ⟨rfl, _⟩ | hold
    · exact ⟨h.positive pid hmem, by simp⟩
    · refine ⟨(h.held pid hold).1, ?_⟩
      intro hpid
      exact (h.held pid hold).2 (List.mem_filter.mp hpid).1
  · intro pid haim hpid
    exact h.aimed pid (waited_aims hframes haim) (List.mem_filter.mp hpid).1
  · intro pid bg cmdline hadd
    exact absurd hadd (h.not_adding hframes _ _ _)

end Waited

/-- `waitpid` returns a child to the handler, or that there is none. -/
theorem Traced.wait
    {rest : List Frame} {child : Option (Int × ChildStatus)}
    (h : Traced w)
    (hframes : w.frames = .reaping :: rest)
    (hwait : w.wait rest child = some w') :
    Traced w' := by
  cases child with
  | none =>
      cases hwait
      refine h.of_pids (fun _ => rfl) rfl ?_ ?_ ?_ h.survives
      · intro pid
        simp [Held, leave, hframes]
      · exact fun pid haim => .inl (leave_aims hframes haim)
      · intro pid bg cmdline hadd
        exact absurd (leave_adding hadd) (h.not_adding hframes _ _ _)
  | some child =>
      obtain ⟨cPid, Cstat⟩ := child
      simp only [World.wait] at hwait
      split at hwait
      next hmem =>
          cases hwait
          by_cases hstopped : Cstat = .stopped
          · subst hstopped
            simpa using h.waited_stopped hframes
          · simp only [if_neg hstopped]
            exact h.waited_ended hframes hmem hstopped
      next =>
          cases hwait

section Handler

variable {s : Tsh} {cPid : Int} {Cstat : ChildStatus}

theorem getjobpid_eq_none
    {jobs : Table}
    (h : getjobpid cPid jobs = none)
    (hpos : 1 ≤ cPid)
    (k : Fin MAXJOBS) :
    (jobs k).pid ≠ cPid := by
  unfold getjobpid at h
  rw [if_neg (by omega)] at h
  simpa using first_eq_none h k

theorem handler_control
    (s : Tsh) (cPid : Int) (Cstat : ChildStatus) :
    (sigchldHandler [(cPid, Cstat)] s).1.control = s.control := by
  unfold sigchldHandler
  cases getjobpid cPid s.jobs with
  | none => rfl
  | some hand => cases Cstat <;> rfl

/-- A child that is not in the job list, and one that has stopped. -/
theorem handler_pid
    (h : getjobpid cPid s.jobs = none ∨ Cstat = .stopped)
    (k : Fin MAXJOBS) :
    ((sigchldHandler [(cPid, Cstat)] s).1.jobs k).pid = (s.jobs k).pid := by
  unfold sigchldHandler
  cases hfind : getjobpid cPid s.jobs with
  | none => rfl
  | some hand =>
      rcases h with hnone | rfl
      · rw [hfind] at hnone
        cases hnone
      · exact setState_pid s hand .ST k

/-- A child that has ended leaves the job list. -/
theorem handler_delete
    {hand : Fin MAXJOBS}
    (hfind : getjobpid cPid s.jobs = some hand)
    (hended : Cstat ≠ .stopped) :
    (sigchldHandler [(cPid, Cstat)] s).1.jobs = s.jobs.set hand clearjob := by
  have hdelete := congrArg Jobs.jobs (delete_eq hfind)
  unfold sigchldHandler
  simp only [hfind]
  cases Cstat with
  | stopped => exact absurd rfl hended
  | signaled => exact hdelete
  | exited => exact hdelete

end Handler

/-- The slot of a child that has ended is cleared, the others are kept. -/
theorem Traced.handler_slot
    {cPid : Int} {Cstat : ChildStatus}
    (h : Traced w)
    (hpos : 1 ≤ cPid)
    (hended : Cstat ≠ .stopped)
    {jobs : Table}
    (hjobs : jobs = (sigchldHandler [(cPid, Cstat)] w.toTsh).1.jobs)
    (k : Fin MAXJOBS) :
    jobs k = w.jobs k ∧ (w.jobs k).pid ≠ cPid ∨
      (w.jobs k).pid = cPid ∧ (jobs k).pid = 0 := by
  cases hfind : getjobpid cPid w.jobs with
  | none =>
      refine .inl ⟨?_, getjobpid_eq_none hfind hpos k⟩
      simp [hjobs, sigchldHandler, hfind, Tsh.print]
  | some hand =>
      have hhand := (getjobpid_spec hfind).2
      rw [hjobs, handler_delete hfind hended]
      by_cases hk : k = hand
      · refine .inr ⟨hk ▸ hhand, ?_⟩
        rw [hk, set_same]
        rfl
      · refine .inl ⟨set_ne _ _ hk, ?_⟩
        intro heq
        exact hk (h.distinct k hand (heq.trans hhand.symm) (by omega))

/-- After the body of the loop the handler goes on or returns. -/
theorem Traced.handled
    {cPid : Int} {Cstat : ChildStatus} {rest : List Frame}
    (h : Traced w)
    (hframes : w.frames = .reaped cPid Cstat :: rest)
    (hrest : ∀ frame, frame ≠ .reaping →
      (frame ∈ w'.frames ↔ frame ∈ rest))
    (hjobs : w'.jobs = (sigchldHandler [(cPid, Cstat)] w.toTsh).1.jobs)
    (hchildren : w'.children = w.children)
    (hkilling : ∀ command piddy pid,
      w'.control = .killing command piddy pid →
        w.control = .killing command piddy pid)
    (hadding : ∀ pid bg cmdline, w'.control = .adding pid bg cmdline →
      w.control = .adding pid bg cmdline)
    (hsurvives : w'.Survives) :
    Traced w' := by
  have hmem : ∀ {frame}, frame ≠ .reaping → frame ∈ w'.frames →
      frame ∈ w.frames := by
    intro frame hne hframe
    rw [hframes]
    exact List.mem_cons_of_mem _ ((hrest frame hne).mp hframe)
  have hheld : ∀ pid, w'.Held pid → w.Held pid := by
    rintro pid ⟨Cstat', hended, hheld⟩
    exact ⟨Cstat', hended, hmem (by simp) hheld⟩
  have hkept : ∀ pid, pid ≠ cPid ∨ Cstat = .stopped → w.Held pid →
      w'.Held pid := by
    rintro pid hne ⟨Cstat', hended, hold⟩
    rw [hframes] at hold
    rcases List.mem_cons.mp hold with heq | hold
    · cases heq
      rcases hne with hne | hstopped
      · exact absurd rfl hne
      · exact absurd hstopped hended
    · exact ⟨Cstat', hended, (hrest _ (by simp)).mpr hold⟩
  have haims : ∀ pid, w'.Aims pid → w.Aims pid := by
    rintro pid ⟨hne, ⟨key, hkey⟩ | ⟨command, piddy, hkill⟩⟩
    · exact ⟨hne, .inl ⟨key, hmem (by simp) hkey⟩⟩
    · exact ⟨hne, .inr ⟨command, piddy, hkilling _ _ _ hkill⟩⟩
  have hnoadd : ∀ pid bg cmdline, w'.control ≠ .adding pid bg cmdline :=
    fun pid bg cmdline hadd =>
      h.not_adding hframes _ _ _ (hadding pid bg cmdline hadd)
  by_cases hstopped : Cstat = .stopped
  · refine h.of_pids ?_ hchildren ?_ (fun pid haim => .inl (haims pid haim))
      (fun pid bg cmdline hadd => absurd hadd (hnoadd pid bg cmdline))
      hsurvives
    · intro k
      rw [hjobs]
      exact handler_pid (.inr hstopped) k
    · exact fun pid => ⟨hheld pid, hkept pid (.inr hstopped)⟩
  · have hown : w.Held cPid := by
      refine ⟨Cstat, hstopped, ?_⟩
      rw [hframes]
      exact List.mem_cons_self
    obtain ⟨hpos, hgone⟩ := h.held cPid hown
    exact h.release hgone (h.handler_slot hpos hstopped hjobs) hchildren hheld
      (fun pid hne => hkept pid (.inl hne)) haims hnoadd hsurvives

/-- The body of the loop of `sigchld_handler`. -/
theorem Traced.handle
    {cPid : Int} {Cstat : ChildStatus} {rest : List Frame}
    (h : Traced w)
    (hframes : w.frames = .reaped cPid Cstat :: rest) :
    Traced (w.handle cPid Cstat rest) := by
  have hcontrol := handler_control w.toTsh cPid Cstat
  unfold World.handle
  dsimp only
  split
  next =>
      refine h.handled hframes (fun _ _ => Iff.rfl) rfl rfl ?_ ?_ h.survives
      · intro command piddy pid hkill
        rw [← hcontrol]
        rcases leave_control _ rest with hc | hc
        · exact hc.symm.trans hkill
        · exact woken_eq_killing (hc.symm.trans hkill)
      · intro pid bg cmdline hadd
        rw [← hcontrol]
        exact leave_adding hadd
  next =>
      refine h.handled hframes ?_ rfl rfl ?_ ?_ h.survives
      · intro frame hne
        simp [hne]
      · exact fun _ _ _ hkill => hcontrol.symm.trans hkill
      · exact fun _ _ _ hadd => hcontrol.symm.trans hadd

/-- A keyboard handler is entered. -/
theorem Traced.key
    (h : Traced w)
    (key : Key)
    (hopen : open? w.control = true) :
    Traced
      { w with frames := .forwarding key (fgpid w.jobs) :: w.frames } := by
  refine h.of_pids (fun _ => rfl) rfl ?_ ?_ ?_ h.survives
  · intro pid
    simp [Held]
  · rintro pid ⟨hne, ⟨key', hmem⟩ | hkill⟩
    · rcases List.mem_cons.mp hmem with heq | hmem
      · cases heq
        exact .inr (fgpid_slot hne)
      · exact .inl ⟨hne, .inl ⟨key', hmem⟩⟩
    · exact .inl ⟨hne, .inr hkill⟩
  · intro pid bg cmdline hadd
    have hadd : w.control = .adding pid bg cmdline := hadd
    rw [hadd] at hopen
    cases hopen

theorem main_survives
    {e : Event} {reason : Exit}
    (hmain : w.main e reason = some w')
    (hreason : reason ≠ .kill) :
    w'.Survives := by
  obtain ⟨_, s, _, rfl⟩ := main_eq_some hmain
  unfold Survives
  dsimp only
  split <;> simp [hreason]

/-- The `Kill` of `do_bgfg` ends the shell unless it finds the group. -/
theorem main_kill
    {command : CString} {piddy : Fin MAXJOBS} {target : Int} {ok : Bool}
    (hc : w.control = .killing command piddy target)
    (hmain : w.main (.kill ok) .kill = some w') :
    w'.Survives ↔ ok = true := by
  obtain ⟨_, s, hs, rfl⟩ := main_eq_some hmain
  simp only [Shell.step, hc] at hs
  cases hs
  cases ok <;> simp [Survives, Tsh.goto]

theorem send_survives
    {pid : Int} {m : World}
    (h : m.Survives) :
    (w.send pid m).Survives ↔ w.groupExists pid = true := by
  unfold send
  split
  next hok => exact iff_of_true h hok
  next hok => exact iff_of_false (by simp [Survives]) hok

/-- The target of a `Kill` is a pid that is aimed at. -/
theorem aims_of_killing
    {command : CString} {piddy : Fin MAXJOBS} {target : Int}
    (hc : w.control = .killing command piddy target)
    (hne : target ≠ 0) :
    w.Aims target :=
  ⟨hne, .inr ⟨command, piddy, hc⟩⟩

theorem aims_of_forwarding
    {key : Key} {pidZ : Int} {rest : List Frame}
    (hframes : w.frames = .forwarding key pidZ :: rest)
    (hne : pidZ ≠ 0) :
    w.Aims pidZ := by
  refine ⟨hne, .inl ⟨key, ?_⟩⟩
  rw [hframes]
  exact List.mem_cons_self

/-- The rest of a keyboard handler whose `Kill` succeeds. -/
theorem Traced.leave
    {key : Key} {pidZ : Int} {rest : List Frame}
    (h : Traced w)
    (hframes : w.frames = .forwarding key pidZ :: rest) :
    Traced (w.leave rest) := by
  refine h.of_pids (fun _ => rfl) rfl ?_
    (fun pid haim => .inl (leave_aims hframes haim)) ?_ h.survives
  · intro pid
    simp [Held, World.leave, hframes]
  · intro pid bg cmdline hadd
    exact absurd (leave_adding hadd) (h.not_adding hframes _ _ _)

/-- Every step that signals jobs only keeps the invariant. -/
theorem Traced.step
    {hap : Happening}
    (h : Traced w)
    (hstep : World.step w hap = some w')
    (hsignals : w.SignalsJob hap) :
    Traced w' := by
  cases occurs_of_step hstep with
  | line hmain | eof hmain | proceed hmain =>
      exact h.main hmain trivial (main_survives hmain (by simp))
  | fork hfresh hmain => exact h.fork hfresh hmain
  | @kill command piddy target _ hc hmain =>
      have hok := (h.groupExists_iff (aims_of_killing hc)).mpr
        (hsignals command piddy target hc)
      exact h.main hmain trivial ((main_kill hc hmain).mpr hok)
  | sigchld hopen =>
      refine h.of_pids (fun _ => rfl) rfl ?_ ?_ ?_ h.survives
      · intro pid
        simp [Held]
      · rintro pid ⟨hne, haim⟩
        refine .inl ⟨hne, ?_⟩
        simpa using haim
      · intro pid bg cmdline hadd
        have hadd : w.control = .adding pid bg cmdline := hadd
        rw [hadd] at hopen
        exact absurd hopen (by simp [Control.unblocked])
  | waitpid hframes hwait => exact h.wait hframes hwait
  | handle hframes => exact h.handle hframes
  | key key hopen => exact h.key key hopen
  | @deliver key pidZ rest hframes hpos =>
      have hok := (h.groupExists_iff (aims_of_forwarding hframes)).mpr
        (hsignals key pidZ rest hframes hpos)
      rw [send, if_pos hok]
      exact h.leave hframes
  | nobody hframes hpos => exact h.leave hframes
  | sigquit => exact h.outside (by simp)
  | setpgid pid => exact h.outside h.survives
  | descend groups => exact h.outside h.survives

/-- A step after which the shell survives signals jobs only. -/
theorem Traced.signalsJob
    {hap : Happening}
    (h : Traced w)
    (hstep : World.step w hap = some w')
    (hsurvives : w'.Survives) :
    w.SignalsJob hap := by
  cases occurs_of_step hstep with
  | kill hkilling hmain =>
      intro command piddy target hc
      cases hkilling.symm.trans hc
      exact (h.groupExists_iff (aims_of_killing hc)).mp
        ((main_kill hc hmain).mp hsurvives)
  | deliver hframes hpos =>
      intro key pidZ rest hforwarding _
      cases hframes.symm.trans hforwarding
      have hleave := (h.leave hframes).survives
      exact (h.groupExists_iff (aims_of_forwarding hframes)).mp
        ((send_survives hleave).mp hsurvives)
  | nobody hframes hpos =>
      intro key pidZ rest hforwarding hsend
      cases hframes.symm.trans hforwarding
      exact absurd hsend hpos
  | _ => trivial

end Steps

end World

/-- The shell is not ended by a failing `Kill` exactly as long as every `Kill`
is for a job that can be sent a signal: it has called `setpgid`, is still in the
job list and has not been returned by `waitpid`, or has left a descendant in its
group. -/
theorem forwarding_survives
    (happenings : List Happening) :
    Always World.step World.start happenings World.Survives ↔
      EachStep World.step World.start happenings World.SignalsJob :=
  always_iff_eachStep World.Traced.start (fun _ h => h.survives)
    (fun _ _ _ h hstep hsignals => h.step hstep hsignals)
    (fun _ _ _ h hstep hsurvives => h.signalsJob hstep hsurvives)

/-- The keyboard interrupts a foreground job whose child has not got as far as
`setpgid`. -/
def lateSetpgid : List Happening :=
  [.line ["myspin".toList] false "myspin\n".toList, .proceed, .fork 5,
    .proceed, .key .SIGINT, .deliver]

/-- The shell ends although nobody has asked it to. -/
theorem lateSetpgid_ends :
    ¬ ∀ happenings,
      Always World.step World.start happenings World.Survives := by
  intro hclaim
  have hlast : ∃ w, exec World.step World.start lateSetpgid = some w ∧
      w.ended = some .kill := by
    refine ⟨_, rfl, ?_⟩
    decide +kernel
  obtain ⟨w, hw, hended⟩ := hlast
  exact hclaim lateSetpgid lateSetpgid (List.prefix_refl _) w hw hended

end Shell
end PastWork
