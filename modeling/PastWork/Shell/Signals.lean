import PastWork.Shell.Effects

/-!
# Signals, children and process groups

The shell together with the kernel.  The handlers are interleaved with each
other: `sigchld_handler` can be interrupted between `waitpid` and the change of
the table, and the keyboard handlers between `fgpid` and `Kill`.  A child is in a
process group of its own from the moment it has called `setpgid`.
-/

namespace PastWork
namespace Shell

open Steps

/-- The signals that the keyboard handlers forward. -/
inductive Key where
  | SIGINT
  | SIGTSTP
deriving DecidableEq, Repr

/-- A handler that is running. -/
inductive Frame where
  /-- `sigchld_handler`, `waitpid` comes next -/
  | reaping
  /-- `sigchld_handler`, `waitpid` has returned this child -/
  | reaped (cPid : Int) (Cstat : ChildStatus)
  /-- `sigint_handler` or `sigtstp_handler` after `fgpid` -/
  | forwarding (key : Key) (pidZ : Int)
deriving DecidableEq, Repr

/-- Why the shell has ended. -/
inductive Exit where
  | quit
  | endOfInput
  | sigquit
  | fork
  | kill
deriving DecidableEq, Repr

/-- The shell with its handlers, innermost first, and what the kernel knows. -/
structure World extends Tsh where
  frames : List Frame
  /-- the children that have not been waited for -/
  children : List Int
  /-- the children that have called `setpgid` -/
  grouped : List Int
  /-- the process groups of other processes, the descendants of the jobs -/
  groups : List Int
  ended : Option Exit

inductive Happening where
  | line (argv : List CString) (bg : Bool) (cmdline : CString)
  | eof
  | proceed
  | fork (pid : Int)
  /-- the `Kill` of `do_bgfg` -/
  | kill
  /-- `sigchld_handler` is entered -/
  | sigchld
  /-- its next `waitpid` returns a child, or that there is none -/
  | waitpid (child : Option (Int × ChildStatus))
  /-- the body of its loop -/
  | handle
  /-- a keyboard handler is entered and calls `fgpid` -/
  | key (key : Key)
  /-- the rest of the keyboard handler -/
  | deliver
  | sigquit
  /-- a child calls `setpgid(0, 0)` -/
  | setpgid (pid : Int)
  /-- the descendants of the jobs come, go and change their groups -/
  | descend (groups : List Int)
deriving DecidableEq, Repr

namespace World

def start : World where
  toTsh := Tsh.start
  frames := []
  children := []
  grouped := []
  groups := []
  ended := none

/-- `kill(-pid, sig)` finds a process.  For `pid = 0` that is the shell. -/
def groupExists (w : World) (pid : Int) : Bool :=
  pid = 0 || pid ∈ w.groups || (pid ∈ w.children && pid ∈ w.grouped)

/-- A step of the shell itself; `reason` says what it is when this ends it. -/
def main (w : World) (e : Event) (reason : Exit) : Option World :=
  if w.frames = [] then
    (step w.toTsh e).map (fun s =>
      { w with
        toTsh := s
        ended := if s.control = .exited then some reason else none })
  else
    none

/-- A new child, which is still in the process group of the shell. -/
def born (w : World) (pid : Int) : World :=
  { w with
    children := pid :: w.children
    grouped := w.grouped.filter (fun child => child ≠ pid) }

/-- A handler returns; the last one ends `sigsuspend`. -/
def leave (w : World) (frames : List Frame) : World :=
  { w with
    frames := frames
    control := if frames = [] then w.control.woken else w.control }

/-- `Kill(-pid, sig)`, where `w'` is the state after it has succeeded. -/
def send (w : World) (pid : Int) (w' : World) : World :=
  if w.groupExists pid then w' else { w with ended := some .kill }

def reaps : Frame → Bool
  | .forwarding _ _ => false
  | _ => true

def forwards (key : Key) : Frame → Bool
  | .forwarding key' _ => key' = key
  | _ => false

/-- Not all signals are blocked. -/
def open? : Control → Bool
  | .adding _ _ _ | .exited => false
  | _ => true

/-- `waitpid` returns. -/
def wait (w : World) (rest : List Frame) :
    Option (Int × ChildStatus) → Option World
  | none => some (w.leave rest)
  | some (cPid, Cstat) =>
      if cPid ∈ w.children then
        some
          { w with
            frames := .reaped cPid Cstat :: rest
            children :=
              if Cstat = .stopped then w.children
              else w.children.filter (fun pid => pid ≠ cPid) }
      else
        none

/-- The body of the loop of `sigchld_handler` for one child. -/
def handle
    (w : World) (cPid : Int) (Cstat : ChildStatus) (rest : List Frame) :
    World :=
  let s := (sigchldHandler [(cPid, Cstat)] w.toTsh).1
  if getjobpid cPid w.jobs = none then { w with toTsh := s }.leave rest
  else { w with toTsh := s, frames := .reaping :: rest }

/-- One step of the shell and its children. -/
def step (w : World) (h : Happening) : Option World :=
  if w.ended = none then
    match h with
    | .line argv bg cmdline => w.main (.line argv bg cmdline) .quit
    | .eof => w.main .eof .endOfInput
    | .proceed => w.main .proceed .quit
    | .fork pid =>
        if pid ∈ w.children then none
        else
          (w.main (.fork pid) .fork).map (fun w =>
            if pid < 0 then w else w.born pid)
    | .kill =>
        match w.control with
        | .killing _ _ target =>
            w.main (.kill (w.groupExists target)) .kill
        | _ => none
    | .sigchld =>
        if w.control.unblocked ∧ ¬ w.frames.any reaps then
          some { w with frames := .reaping :: w.frames }
        else
          none
    | .waitpid child =>
        match w.frames with
        | .reaping :: rest => w.wait rest child
        | _ => none
    | .handle =>
        match w.frames with
        | .reaped cPid Cstat :: rest => some (w.handle cPid Cstat rest)
        | _ => none
    | .key key =>
        if open? w.control ∧ ¬ w.frames.any (forwards key) then
          some { w with frames := .forwarding key (fgpid w.jobs) :: w.frames }
        else
          none
    | .deliver =>
        match w.frames with
        | .forwarding _ pidZ :: rest =>
            if pidZ > 0 then some (w.send pidZ (w.leave rest))
            else some (w.leave rest)
        | _ => none
    | .sigquit =>
        if open? w.control then some { w with ended := some .sigquit } else none
    | .setpgid pid =>
        if pid ∈ w.children then some { w with grouped := pid :: w.grouped }
        else none
    | .descend groups => some { w with groups := groups }
  else
    none

/-- What a happening does, and what it needs. -/
inductive Occurs (w : World) : Happening → World → Prop
  | line {argv : List CString} {bg : Bool} {cmdline : CString} {w' : World}
      (hmain : w.main (.line argv bg cmdline) .quit = some w') :
      Occurs w (.line argv bg cmdline) w'
  | eof {w' : World}
      (hmain : w.main .eof .endOfInput = some w') :
      Occurs w .eof w'
  | proceed {w' : World}
      (hmain : w.main .proceed .quit = some w') :
      Occurs w .proceed w'
  | fork {pid : Int} {m : World}
      (hfresh : pid ∉ w.children)
      (hmain : w.main (.fork pid) .fork = some m) :
      Occurs w (.fork pid) (if pid < 0 then m else m.born pid)
  | kill {command : CString} {piddy : Fin MAXJOBS} {target : Int} {w' : World}
      (hkilling : w.control = .killing command piddy target)
      (hmain : w.main (.kill (w.groupExists target)) .kill = some w') :
      Occurs w .kill w'
  | sigchld
      (hopen : w.control.unblocked = true) :
      Occurs w .sigchld { w with frames := .reaping :: w.frames }
  | waitpid {child : Option (Int × ChildStatus)} {rest : List Frame} {w' : World}
      (hframes : w.frames = .reaping :: rest)
      (hwait : w.wait rest child = some w') :
      Occurs w (.waitpid child) w'
  | handle {cPid : Int} {Cstat : ChildStatus} {rest : List Frame}
      (hframes : w.frames = .reaped cPid Cstat :: rest) :
      Occurs w .handle (w.handle cPid Cstat rest)
  | key (key : Key)
      (hopen : open? w.control = true) :
      Occurs w (.key key)
        { w with frames := .forwarding key (fgpid w.jobs) :: w.frames }
  | deliver {key : Key} {pidZ : Int} {rest : List Frame}
      (hframes : w.frames = .forwarding key pidZ :: rest)
      (hpos : pidZ > 0) :
      Occurs w .deliver (w.send pidZ (w.leave rest))
  | nobody {key : Key} {pidZ : Int} {rest : List Frame}
      (hframes : w.frames = .forwarding key pidZ :: rest)
      (hpos : ¬ pidZ > 0) :
      Occurs w .deliver (w.leave rest)
  | sigquit :
      Occurs w .sigquit { w with ended := some .sigquit }
  | setpgid (pid : Int) :
      Occurs w (.setpgid pid) { w with grouped := pid :: w.grouped }
  | descend (groups : List Int) :
      Occurs w (.descend groups) { w with groups := groups }

theorem occurs_of_step
    {w w' : World} {h : Happening}
    (hstep : w.step h = some w') :
    Occurs w h w' := by
  unfold step at hstep
  split at hstep
  case isFalse =>
      cases hstep
  case isTrue =>
      cases h with
      | line argv bg cmdline => exact .line hstep
      | eof => exact .eof hstep
      | proceed => exact .proceed hstep
      | fork pid =>
          simp only at hstep
          split at hstep
          · cases hstep
          next hfresh =>
            obtain ⟨m, hm, rfl⟩ := Option.map_eq_some_iff.mp hstep
            exact .fork hfresh hm
      | kill =>
          simp only at hstep
          split at hstep
          next hkilling => exact .kill hkilling hstep
          next => cases hstep
      | sigchld =>
          simp only at hstep
          split at hstep
          next hopen =>
            cases hstep
            exact .sigchld hopen.1
          next => cases hstep
      | waitpid child =>
          simp only at hstep
          split at hstep
          next hframes => exact .waitpid hframes hstep
          next => cases hstep
      | handle =>
          simp only at hstep
          split at hstep
          next hframes =>
            cases hstep
            exact .handle hframes
          next => cases hstep
      | key key =>
          simp only at hstep
          split at hstep
          next hopen =>
            cases hstep
            exact .key key hopen.1
          next => cases hstep
      | deliver =>
          simp only at hstep
          split at hstep
          next hframes =>
            split at hstep
            next hpos =>
              cases hstep
              exact .deliver hframes hpos
            next hpos =>
              cases hstep
              exact .nobody hframes hpos
          next => cases hstep
      | sigquit =>
          simp only at hstep
          split at hstep
          next =>
            cases hstep
            exact .sigquit
          next => cases hstep
      | setpgid pid =>
          simp only at hstep
          split at hstep
          next =>
            cases hstep
            exact .setpgid pid
          next => cases hstep
      | descend groups =>
          cases hstep
          exact .descend groups

section Uninterrupted

variable {w w' : World}

/-- A run of `sigchld_handler` that nothing interrupts. -/
def handlerRun (reports : List (Int × ChildStatus)) : List Happening :=
  .sigchld ::
    (reports.flatMap (fun child => [.waitpid (some child), .handle]) ++
      [.waitpid none])

theorem handle_toTsh
    {cPid : Int} {Cstat : ChildStatus} {hand : Fin MAXJOBS}
    (hfind : getjobpid cPid w.jobs = some hand)
    (rest : List (Int × ChildStatus)) :
    sigchldHandler ((cPid, Cstat) :: rest) w.toTsh =
      sigchldHandler rest (w.handle cPid Cstat []).toTsh := by
  unfold handle
  rw [if_neg (by simp [hfind])]
  cases Cstat <;> simp [sigchldHandler, hfind]

/-- One round of the loop of the handler. -/
theorem exec_report
    {cPid : Int} {Cstat : ChildStatus} {rest : List Happening}
    (hframes : w.frames = [.reaping])
    (hrun : exec World.step w
      (.waitpid (some (cPid, Cstat)) :: .handle :: rest) = some w') :
    ∃ m : World, m.toTsh = w.toTsh ∧
      exec World.step (m.handle cPid Cstat []) rest = some w' := by
  obtain ⟨m, hm, hrun⟩ := Option.bind_eq_some_iff.mp hrun
  obtain ⟨n, hn, hrun⟩ := Option.bind_eq_some_iff.mp hrun
  cases occurs_of_step hm with
  | waitpid hframes' hwait =>
      obtain rfl := (List.cons.inj (hframes'.symm.trans hframes)).2
      simp only [wait] at hwait
      split at hwait
      case isFalse => cases hwait
      case isTrue =>
          cases hwait
          cases occurs_of_step hn with
          | handle hframes'' =>
              cases hframes''
              refine ⟨_, ?_, hrun⟩
              rfl

theorem exec_reports
    {reports : List (Int × ChildStatus)}
    (hframes : w.frames = [.reaping])
    (hrun : exec World.step w
      (reports.flatMap (fun child => [.waitpid (some child), .handle]) ++
        [.waitpid none]) = some w') :
    w'.toTsh =
      (sigchldHandler reports w.toTsh).1.goto w.control.woken := by
  induction reports generalizing w with
  | nil =>
      obtain ⟨m, hm, hrun⟩ := Option.bind_eq_some_iff.mp hrun
      cases hrun
      cases occurs_of_step hm with
      | waitpid hframes' hwait =>
          obtain rfl := (List.cons.inj (hframes'.symm.trans hframes)).2
          cases hwait
          rfl
  | cons child rest ih =>
      obtain ⟨cPid, Cstat⟩ := child
      obtain ⟨m, hm, hrun⟩ := exec_report hframes hrun
      cases hfind : getjobpid cPid m.jobs with
      | none =>
          -- the handler has returned, so that no `waitpid` can come
          have hgone : (m.handle cPid Cstat []).frames = [] := by
            unfold handle
            simp [hfind, leave]
          cases rest <;>
            · obtain ⟨n, hn, _⟩ := Option.bind_eq_some_iff.mp hrun
              simp [World.step, hgone] at hn
      | some hand =>
          have hon : (m.handle cPid Cstat []).frames = [.reaping] := by
            unfold handle
            simp [hfind]
          have hcontrol : (m.handle cPid Cstat []).control = m.control := by
            unfold handle
            rw [if_neg (by simp [hfind])]
            cases Cstat <;> simp [sigchldHandler, hfind] <;> rfl
          have hrest := ih hon hrun
          rw [hrest, hcontrol, ← hm, handle_toTsh hfind]

/-- When nothing interrupts it, the handler does what it does in one step. -/
theorem sigchld_uninterrupted
    {reports : List (Int × ChildStatus)}
    (hframes : w.frames = [])
    (hrun : exec World.step w (handlerRun reports) = some w') :
    Shell.step w.toTsh (.sigchld reports) = some w'.toTsh := by
  obtain ⟨m, hm, hrun⟩ := Option.bind_eq_some_iff.mp hrun
  cases occurs_of_step hm with
  | sigchld hopen =>
      rw [hframes] at hrun
      have hlast := exec_reports rfl hrun
      simp only [Shell.step, if_pos hopen]
      rw [hlast]

end Uninterrupted

end World

end Shell
end PastWork
