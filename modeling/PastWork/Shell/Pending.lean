import PastWork.Shell.Waiting

/-!
# Signals that are pending

The kernel keeps one bit for SIGCHLD, however many children change, and the last
change of each child until `waitpid` has told of it, in any order.  So one run of the
handler has to take all that there is.  It does so unless it returns at a child that is
in no slot, and then a change can be left behind for which no signal comes any more.
-/

namespace PastWork
namespace Shell

open Steps

/-- The shell with what the kernel keeps for it. -/
structure Kernel extends World where
  /-- SIGCHLD is pending -/
  pending : Bool
  /-- what `waitpid` has not told of -/
  reports : List (Int × ChildStatus)

inductive Turn where
  /-- a step of the shell, its handlers and its children -/
  | happen (h : Happening)
  /-- a child stops or ends -/
  | change (pid : Int) (Cstat : ChildStatus)
  /-- a stopped child goes on -/
  | resume (pid : Int)
deriving DecidableEq, Repr

/-- The shell goes on by itself, with what the kernel has for it. -/
def Happening.onward : Happening → Bool
  | .sigchld | .waitpid _ | .handle | .proceed => true
  | _ => false

namespace Kernel

def start : Kernel where
  toWorld := World.start
  pending := false
  reports := []

/-- The handler is entered for a pending signal, and `waitpid` tells of a change, of
any of them, as long as there is one. -/
def allows (k : Kernel) : Happening → Bool
  | .sigchld => k.pending
  | .waitpid (some report) => report ∈ k.reports
  | .waitpid none => k.reports = []
  | _ => true

/-- The signal is not pending any more when its handler is entered. -/
def pendingAfter (k : Kernel) : Happening → Bool
  | .sigchld => false
  | _ => k.pending

/-- What `waitpid` has told of is not kept. -/
def reportsAfter (k : Kernel) : Happening → List (Int × ChildStatus)
  | .waitpid (some report) => k.reports.filter (fun other => other.1 ≠ report.1)
  | _ => k.reports

def happen (k : Kernel) (h : Happening) : Option Kernel :=
  if k.allows h then
    (k.toWorld.step h).map (fun w =>
      { toWorld := w
        pending := k.pendingAfter h
        reports := k.reportsAfter h })
  else
    none

/-- One step of the shell or of a child.  A child that has ended does not change any
more, and one that goes on takes back that it has stopped. -/
def step (k : Kernel) : Turn → Option Kernel
  | .happen h => k.happen h
  | .change pid Cstat =>
      if pid ∈ k.children ∧
          ∀ report ∈ k.reports, report.1 = pid → report.2 = .stopped then
        some
          { k with
            pending := true
            reports := (pid, Cstat) ::
              k.reports.filter (fun report => report.1 ≠ pid) }
      else
        none
  | .resume pid =>
      if pid ∈ k.children then
        some
          { k with
            pending := true
            reports := k.reports.filter (fun report => report ≠ (pid, .stopped)) }
      else
        none

/-- One step with which the shell goes on by itself. -/
def goOn (k : Kernel) (h : Happening) : Option Kernel :=
  if h.onward then k.happen h else none

/-- What has changed is under way to the shell: SIGCHLD is pending, or its handler
runs. -/
def Told (k : Kernel) : Prop :=
  k.pending = true ∨ k.frames.any World.reaps = true ∨ k.reports = []

/-- The child that `waitpid` has returned is in no slot. -/
def unlisted (jobs : Table) : Frame → Bool
  | .reaped cPid _ => (getjobpid cPid jobs).isNone
  | _ => false

/-- The handler is about to return, at a child that is in no slot. -/
def Returns (k : Kernel) (h : Happening) : Prop :=
  h = .handle ∧ k.frames.head?.any (unlisted k.jobs) = true

instance (k : Kernel) (h : Happening) : Decidable (k.Returns h) :=
  inferInstanceAs (Decidable (_ ∧ _))

/-- `waitpid` has something to tell of this child. -/
def Reports (k : Kernel) (pid : Int) : Prop :=
  ∃ Cstat, (pid, Cstat) ∈ k.reports

/-- A handler that returns early leaves nothing behind. -/
def Heeds (k : Kernel) : Turn → Prop
  | .happen h => k.Returns h → k.pending = true ∨ k.reports = []
  | .change _ _ | .resume _ => True

/-- A handler that returns early does not leave the foreground job behind. -/
def Minds (pid : Int) (k : Kernel) (h : Happening) : Prop :=
  k.Returns h → NoFG k.jobs ∨ ¬ k.Reports pid

variable {k k' : Kernel} {h : Happening} {turn : Turn} {pid : Int}

theorem returns_iff :
    k.Returns h ↔ h = .handle ∧ ∃ cPid Cstat rest,
      k.frames = .reaped cPid Cstat :: rest ∧ getjobpid cPid k.jobs = none := by
  unfold Returns
  refine and_congr_right (fun _ => ?_)
  cases hframes : k.frames with
  | nil => simp
  | cons f rest => cases f <;> simp [unlisted]

theorem happen_cases
    (hstep : k.happen h = some k') :
    k.allows h = true ∧ ∃ w, k.toWorld.step h = some w ∧
      k' =
        { toWorld := w
          pending := k.pendingAfter h
          reports := k.reportsAfter h } := by
  unfold happen at hstep
  split at hstep
  next hallows =>
    obtain ⟨w, hw, rfl⟩ := Option.map_eq_some_iff.mp hstep
    exact ⟨hallows, w, hw, rfl⟩
  next => cases hstep

/-- Every run is one of the shell and its children. -/
theorem exec_world
    {turns : List Turn}
    (hk : exec step start turns = some k) :
    ∃ happenings, exec World.step World.start happenings = some k.toWorld := by
  refine exec_mimics (fun _ => True) Kernel.toWorld trivial ?_ hk
  intro m turn m' _ hstep
  refine ⟨trivial, ?_⟩
  cases turn with
  | happen h =>
      obtain ⟨_, w, hw, rfl⟩ := happen_cases hstep
      exact .inr ⟨h, hw⟩
  | change pid Cstat =>
      simp only [step] at hstep
      split at hstep <;> cases hstep
      exact .inl rfl
  | resume pid =>
      simp only [step] at hstep
      split at hstep <;> cases hstep
      exact .inl rfl

end Kernel

namespace World

/-- What a step does to the running handlers. -/
inductive Enters (w : World) : Happening → List Frame → Prop
  | sigchld
      (hnone : w.frames.any reaps = false) :
      Enters w .sigchld (.reaping :: w.frames)
  | told {child : Int × ChildStatus} {rest : List Frame}
      (hframes : w.frames = .reaping :: rest) :
      Enters w (.waitpid (some child)) (.reaped child.1 child.2 :: rest)
  | done {rest : List Frame}
      (hframes : w.frames = .reaping :: rest) :
      Enters w (.waitpid none) rest
  | tracked {cPid : Int} {Cstat : ChildStatus} {rest : List Frame}
      (hframes : w.frames = .reaped cPid Cstat :: rest)
      (hfind : getjobpid cPid w.jobs ≠ none) :
      Enters w .handle (.reaping :: rest)
  | untracked {cPid : Int} {Cstat : ChildStatus} {rest : List Frame}
      (hframes : w.frames = .reaped cPid Cstat :: rest)
      (hfind : getjobpid cPid w.jobs = none) :
      Enters w .handle rest
  | other {h : Happening} {frames : List Frame}
      (hother : h ≠ .sigchld ∧ (∀ child, h ≠ .waitpid child) ∧ h ≠ .handle)
      (hsame : frames.countP reaps = w.frames.countP reaps) :
      Enters w h frames

variable {w w' : World} {h : Happening}

theorem main_frames
    {e : Event} {reason : Exit}
    (hmain : w.main e reason = some w') :
    w'.frames = w.frames := by
  obtain ⟨_, s, _, rfl⟩ := main_eq_some hmain
  rfl

theorem enters_of_step
    (hstep : w.step h = some w') :
    w.Enters h w'.frames := by
  cases occurs_of_step hstep with
  | line hmain | eof hmain | proceed hmain =>
      exact .other (by simp) (by rw [main_frames hmain])
  | kill _ hmain => exact .other (by simp) (by rw [main_frames hmain])
  | fork _ hmain =>
      refine .other (by simp) ?_
      rw [← main_frames hmain]
      split <;> rfl
  | sigchld hopen =>
      refine .sigchld ?_
      unfold World.step at hstep
      split at hstep
      · simp only at hstep
        split at hstep
        next hguard => simpa using hguard.2
        next => cases hstep
      · cases hstep
  | @waitpid child rest _ hframes hwait =>
      cases child with
      | none =>
          cases hwait
          exact .done hframes
      | some child =>
          simp only [World.wait] at hwait
          split at hwait
          · cases hwait
            exact .told hframes
          · cases hwait
  | @handle cPid Cstat rest hframes =>
      unfold handle
      dsimp only
      split
      next hfind => exact .untracked hframes hfind
      next hfind => exact .tracked hframes hfind
  | key key hopen => exact .other (by simp) (by simp [reaps])
  | deliver hframes hpos =>
      refine .other (by simp) ?_
      unfold send
      split
      · simp [leave, hframes, reaps]
      · rfl
  | nobody hframes hpos =>
      exact .other (by simp) (by simp [leave, hframes, reaps])
  | sigquit | setpgid | descend => exact .other (by simp) rfl

theorem any_reaps_iff
    {frames : List Frame} :
    frames.any reaps = true ↔ 0 < frames.countP reaps := by
  rw [List.any_eq_true, List.countP_pos_iff]

end World

namespace Kernel

variable {k k' : Kernel} {h : Happening} {turn : Turn} {pid : Int}

section Telling

/-- `sigchld_handler` does not interrupt itself. -/
def Alone (k : Kernel) : Prop :=
  k.frames.countP World.reaps ≤ 1

theorem Alone.rest
    {f : Frame} {rest : List Frame}
    (halone : k.Alone)
    (hframes : k.frames = f :: rest)
    (hf : World.reaps f = true) :
    rest.countP World.reaps = 0 := by
  rw [Alone, hframes, List.countP_cons_of_pos hf] at halone
  omega

theorem Alone.step
    (halone : k.Alone)
    (hstep : k.step turn = some k') :
    k'.Alone := by
  cases turn with
  | happen h =>
      obtain ⟨_, w, hw, rfl⟩ := happen_cases hstep
      show w.frames.countP World.reaps ≤ 1
      generalize hframes' : w.frames = frames
      cases hframes' ▸ World.enters_of_step hw with
      | sigchld hnone =>
          have hzero : ¬ 0 < k.frames.countP World.reaps := by
            rw [← World.any_reaps_iff, hnone]
            exact Bool.false_ne_true
          rw [List.countP_cons_of_pos rfl]
          omega
      | told hframes => rw [List.countP_cons_of_pos rfl, halone.rest hframes rfl]
      | done hframes => exact (halone.rest hframes rfl).trans_le (Nat.zero_le 1)
      | tracked hframes => rw [List.countP_cons_of_pos rfl, halone.rest hframes rfl]
      | untracked hframes => exact (halone.rest hframes rfl).trans_le (Nat.zero_le 1)
      | other _ hsame => exact hsame.trans_le halone
  | change pid Cstat =>
      simp only [Kernel.step] at hstep
      split at hstep <;> cases hstep
      exact halone
  | resume pid =>
      simp only [step] at hstep
      split at hstep <;> cases hstep
      exact halone

/-- A step tells of all changes, or leaves some at a child in no slot. -/
theorem Told.step_iff
    (halone : k.Alone)
    (htold : k.Told)
    (hstep : k.step turn = some k') :
    k'.Told ↔ k.Heeds turn := by
  cases turn with
  | change pid Cstat =>
      simp only [Kernel.step] at hstep
      split at hstep <;> cases hstep
      exact iff_of_true (.inl rfl) trivial
  | resume pid =>
      simp only [step] at hstep
      split at hstep <;> cases hstep
      exact iff_of_true (.inl rfl) trivial
  | happen h =>
      obtain ⟨hallows, w, hw, rfl⟩ := happen_cases hstep
      have hheeds : h ≠ .handle → k.Heeds (.happen h) :=
        fun hne hreturns => absurd hreturns.1 hne
      unfold Told
      dsimp only
      generalize hframes' : w.frames = frames
      cases hframes' ▸ World.enters_of_step hw with
      | sigchld => exact iff_of_true (.inr (.inl rfl)) (hheeds (by simp))
      | told => exact iff_of_true (.inr (.inl rfl)) (hheeds (by simp))
      | done =>
          have hnone : k.reports = [] := by simpa [allows] using hallows
          exact iff_of_true (.inr (.inr hnone)) (hheeds (by simp))
      | @tracked cPid Cstat rest hframes hfind =>
          refine iff_of_true (.inr (.inl rfl)) ?_
          intro hreturns
          obtain ⟨_, cPid', Cstat', rest', hframes'', hnone⟩ := returns_iff.mp hreturns
          rw [hframes] at hframes''
          cases hframes''
          exact absurd hnone hfind
      | @untracked cPid Cstat _ hframes hfind =>
          have hrest : frames.any World.reaps = false := by
            by_contra hany
            rw [Bool.not_eq_false, World.any_reaps_iff, halone.rest hframes rfl] at hany
            exact absurd hany (lt_irrefl 0)
          simp only [hrest, pendingAfter, reportsAfter, Bool.false_eq_true, false_or]
          have hreturns : k.Returns .handle :=
            returns_iff.mpr ⟨rfl, cPid, Cstat, frames, hframes, hfind⟩
          exact ⟨fun hleft _ => hleft, fun hturn => hturn hreturns⟩
      | other hother hsame =>
          refine iff_of_true ?_ (hheeds hother.2.2)
          have hpending : k.pendingAfter h = k.pending := by
            cases h <;> first | rfl | exact absurd rfl hother.1
          have hreports : k.reportsAfter h = k.reports := by
            cases h <;> first | rfl | exact absurd rfl (hother.2.1 _)
          rw [hpending, hreports, World.any_reaps_iff, hsame, ← World.any_reaps_iff]
          exact htold

end Telling

section Reporting

/-- Only children that have not been waited for have something to tell. -/
def Known (k : Kernel) : Prop :=
  ∀ report ∈ k.reports, report.1 ∈ k.children

/-- A child is there until `waitpid` has told of its end. -/
theorem children_of_step
    {w w' : World}
    (hstep : w.step h = some w')
    (hchild : pid ∈ w.children)
    (hother : ∀ report, h = .waitpid (some report) → report.1 ≠ pid) :
    pid ∈ w'.children := by
  cases World.occurs_of_step hstep with
  | line hmain | eof hmain | proceed hmain =>
      obtain ⟨_, s, _, rfl⟩ := World.main_eq_some hmain
      exact hchild
  | kill _ hmain =>
      obtain ⟨_, s, _, rfl⟩ := World.main_eq_some hmain
      exact hchild
  | fork _ hmain =>
      obtain ⟨_, s, _, rfl⟩ := World.main_eq_some hmain
      split
      · exact hchild
      · exact List.mem_cons_of_mem _ hchild
  | @waitpid child rest _ hframes hwait =>
      cases child with
      | none =>
          cases hwait
          exact hchild
      | some report =>
          simp only [World.wait] at hwait
          split at hwait
          · cases hwait
            dsimp only
            split
            · exact hchild
            · exact List.mem_filter.mpr ⟨hchild, by simpa using (hother report rfl).symm⟩
          · cases hwait
  | handle hframes =>
      unfold World.handle
      dsimp only
      split <;> exact hchild
  | deliver hframes hpos =>
      unfold World.send
      split <;> exact hchild
  | nobody | sigchld | key | sigquit | setpgid | descend => exact hchild

theorem Known.step
    (hknown : k.Known)
    (hstep : k.step turn = some k') :
    k'.Known := by
  cases turn with
  | happen h =>
      obtain ⟨_, w, hw, rfl⟩ := happen_cases hstep
      intro report hreport
      have hkept : report ∈ k.reports ∧
          ∀ other, h = .waitpid (some other) → other.1 ≠ report.1 := by
        unfold reportsAfter at hreport
        split at hreport
        next other =>
          obtain ⟨hmem, hne⟩ := List.mem_filter.mp hreport
          refine ⟨hmem, ?_⟩
          rintro _ ⟨⟩
          exact Ne.symm (by simpa using hne)
        next hnot =>
          exact ⟨hreport, fun other heq => absurd heq (hnot other)⟩
      exact children_of_step hw (hknown report hkept.1) hkept.2
  | change pid Cstat =>
      simp only [Kernel.step] at hstep
      split at hstep
      next hguard =>
        cases hstep
        intro report hreport
        rcases List.mem_cons.mp hreport with rfl | hmem
        · exact hguard.1
        · exact hknown report (List.mem_of_mem_filter hmem)
      next => cases hstep
  | resume pid =>
      simp only [step] at hstep
      split at hstep <;> cases hstep
      exact fun report hreport => hknown report (List.mem_of_mem_filter hreport)

end Reporting

section Reached

variable {turns : List Turn}

theorem exec_kept
    (hk : exec step start turns = some k) :
    k.Alone ∧ k.Known := by
  refine exec_invariant (I := fun k => k.Alone ∧ k.Known) ⟨Nat.zero_le 1, ?_⟩ ?_ hk
  · rintro report ⟨⟩
  · rintro k turn k' ⟨halone, hknown⟩ hstep
    exact ⟨halone.step hstep, hknown.step hstep⟩

/-- What has changed is under way to the shell all along exactly when no handler that
returns early leaves anything behind. -/
theorem always_told
    (turns : List Turn) :
    Always step start turns Told ↔ EachStep step start turns Heeds := by
  refine always_iff_eachStep (I := fun k => k.Alone ∧ k.Told)
    ⟨Nat.zero_le 1, .inr (.inr rfl)⟩ (fun _ hk => hk.2) ?_ ?_
  · rintro k turn k' ⟨halone, htold⟩ hstep hheeds
    exact ⟨halone.step hstep, (htold.step_iff halone hstep).mpr hheeds⟩
  · rintro k turn k' ⟨halone, htold⟩ hstep htold'
    exact (htold.step_iff halone hstep).mp htold'

/-- The job that the shell sleeps for has not been waited for. -/
theorem asleep_foreground
    (hk : exec step start turns = some k)
    (hended : k.ended = none)
    (hasleep : k.control = .suspended pid)
    (hframes : k.frames = [])
    (hne : pid ≠ 0) :
    (∃ j, (k.jobs j).state = .FG ∧ (k.jobs j).pid = pid) ∧ pid ∈ k.children := by
  obtain ⟨happenings, hreached⟩ := exec_world hk
  obtain ⟨hfronted, hsleeps⟩ := World.exec_sleeps hreached
  have htraced := World.exec_traced hreached hended
  have hfgpid := hsleeps pid hasleep hframes
  have hfg : ¬ NoFG k.jobs := by
    intro hno
    rw [World.fgpid_eq_zero hno] at hfgpid
    exact hne hfgpid
  obtain ⟨j, hj⟩ := not_forall.mp hfg
  have hj := not_not.mp hj
  have hpid : (k.jobs j).pid = pid := by
    rw [hfgpid, World.fgpid_eq hfronted.one hj]
  refine ⟨⟨j, hj, hpid⟩, ?_⟩
  rcases htraced.child j (hpid ▸ hne) with hchild | ⟨Cstat, _, hmem⟩
  · exact hpid ▸ hchild
  · rw [hframes] at hmem
    cases hmem

end Reached

end Kernel
end Shell
end PastWork
