import PastWork.Library.Steps
import PastWork.Shell.Jobs

/-!
# The shell as a step function

The read/eval loop of `tsh.c` as a machine whose control points are the places
where `sigchld_handler` may run, and those where SIGCHLD is blocked.  Labels
stand for what comes from outside: command lines, the results of `fork` and
`kill`, and signals.  A command line is given as `parseline` leaves it, by its
words and the background flag.
-/

namespace PastWork
namespace Shell

/-- How `waitpid` reports a child. -/
inductive ChildStatus where
  | stopped
  | signaled
  | exited
deriving DecidableEq, Repr

/-- What the shell prints. -/
inductive Line where
  /-- `%s command requires PID or %%jobid argument` -/
  | missing (command : CString)
  /-- `%s: argument must be a pid or %%jobid` -/
  | malformed (command : CString)
  /-- `%s: no such job` -/
  | noSuchJob (arg : CString)
  /-- `(%s): such process` -/
  | noSuchProcess (arg : CString)
  /-- `[%d] (%d) %s` -/
  | job (mippy pid : Int) (text : CString)
  /-- `Job [%d] (%d) stopped by signal` -/
  | stopped (mippy pid : Int)
  /-- `Job [%d] (%d) terminated by signal` -/
  | terminated (mippy pid : Int)
  /-- `((%d): No  child` -/
  | noChild (pid : Int)
  /-- `Tried to create too many jobs` -/
  | tooMany
  /-- the output of `jobL` -/
  | listing (rows : List Job)
deriving DecidableEq, Repr

/-- Where the shell is. -/
inductive Control where
  | reading
  | evaluating (argv : List CString) (bg : Bool) (cmdline : CString)
  /-- SIGCHLD is blocked, `fork` comes next -/
  | forking (bg : Bool) (cmdline : CString)
  /-- the child exists, all signals are blocked, `addjob` comes next -/
  | adding (pid : Int) (bg : Bool) (cmdline : CString)
  /-- the job has been added and the signals are unblocked -/
  | started (pid : Int) (bg : Bool) (cmdline : CString)
  /-- `do_bgfg` has been called -/
  | looking (argv : List CString)
  /-- `do_bgfg` has found a slot -/
  | found (command : CString) (piddy : Fin MAXJOBS)
  /-- `kill(-target, SIGCONT)` comes next -/
  | killing (command : CString) (piddy : Fin MAXJOBS) (target : Int)
  /-- the job has been sent SIGCONT, its state is written next -/
  | resumed (command : CString) (piddy : Fin MAXJOBS)
  /-- the state is BG, the job is printed next -/
  | announcing (piddy : Fin MAXJOBS)
  /-- the state is FG, `waitfg(piddy->pid)` comes next -/
  | fronting (piddy : Fin MAXJOBS)
  /-- `waitfg` has been called -/
  | entering (pid : Int)
  /-- SIGCHLD is blocked, the loop condition of `waitfg` comes next -/
  | testing (pid : Int)
  /-- in `sigsuspend` -/
  | suspended (pid : Int)
  | exited
deriving DecidableEq, Repr

structure Tsh extends Jobs where
  control : Control
  out : List Line

namespace Tsh

/-- The state after `initjobs`. -/
def start : Tsh where
  toJobs := initjobs
  control := .reading
  out := []

def goto (s : Tsh) (control : Control) : Tsh :=
  { s with control := control }

def print (s : Tsh) (line : Line) : Tsh :=
  { s with out := s.out ++ [line] }

/-- `jobs[k].state = state` -/
def setState (s : Tsh) (k : Fin MAXJOBS) (state : JobState) : Tsh :=
  { s with jobs := s.jobs.set k { s.jobs k with state := state } }

@[simp] theorem setState_jobs
    (s : Tsh) (k : Fin MAXJOBS) (state : JobState) :
    (s.setState k state).jobs =
      s.jobs.set k { s.jobs k with state := state } := by
  rfl

def delete (s : Tsh) (pid : Int) : Tsh :=
  { s with toJobs := (deletejob pid s.toJobs).2 }

end Tsh

/-- The loop of `sigchld_handler` over what `waitpid` returns.  The second
result is what is left for `waitpid` when the handler returns early. -/
def sigchldHandler :
    List (Int × ChildStatus) → Tsh → Tsh × List (Int × ChildStatus)
  | [], s => (s, [])
  | (cPid, Cstat) :: rest, s =>
      match getjobpid cPid s.jobs with
      | none => (s.print (.noChild cPid), rest)
      | some hand =>
          match Cstat with
          | .stopped =>
              let s := s.setState hand .ST
              sigchldHandler rest
                (s.print (.stopped (s.jobs hand).mippy cPid))
          | .signaled =>
              let s := s.delete cPid
              sigchldHandler rest
                (s.print (.terminated (s.jobs hand).mippy cPid))
          | .exited => sigchldHandler rest (s.delete cPid)

section Arguments

def isspace (c : Char) : Bool :=
  c = ' ' || ('\t' ≤ c && c ≤ '\r')

/-- The value of the leading digits. -/
def digits (s : CString) : Nat :=
  (s.takeWhile Char.isDigit).foldl (fun n c => 10 * n + (c.toNat - 48)) 0

/-- `strtol(s, NULL, 10)`, which stops at the bounds of a `long`. -/
def strtol (s : CString) : Int :=
  let value : Int :=
    match s.dropWhile isspace with
    | '-' :: rest => -(digits rest : Int)
    | '+' :: rest => digits rest
    | rest => digits rest
  max (-2 ^ 63) (min value (2 ^ 63 - 1))

/-- `atoi(s)`, which is `(int) strtol(s, NULL, 10)`. -/
def atoi (s : CString) : Int :=
  toInt32 (strtol s)

/-- `s[i]`, NUL past the end. -/
def CString.at (s : CString) (i : Nat) : Char :=
  s.getD i '\x00'

/-- The first part of `do_bgfg`: the slot that the argument names, or the
message that it prints. -/
def selectJob (argv : List CString) (jobs : Table) :
    Except Line (Fin MAXJOBS) :=
  let command := argv.getD 0 []
  match argv[1]? with
  | none => .error (.missing command)
  | some arg =>
      if CString.at arg 0 = '%' then
        if (CString.at arg 1).isDigit then
          match getjobjid (atoi (arg.drop 1)) jobs with
          | none => .error (.noSuchJob arg)
          | some piddy => .ok piddy
        else
          .error (.malformed command)
      else if (CString.at arg 0).isDigit then
        match getjobpid (atoi arg) jobs with
        | none => .error (.noSuchProcess arg)
        | some piddy => .ok piddy
      else
        .error (.malformed command)

end Arguments

namespace Tsh

/-- `builtin_cmd`, up to the call of `do_bgfg`, and the branch of `eval` for
other commands up to `fork`. -/
def evaluate
    (argv : List CString) (bg : Bool) (cmdline : CString) (s : Tsh) :
    Tsh :=
  match argv with
  | [] => s.goto .reading
  | command :: _ =>
      if command = "jobs".toList then
        (s.print (.listing
          (((List.finRange MAXJOBS).map s.jobs).filter
            (fun job => job.pid ≠ 0)))).goto .reading
      else if command = "quit".toList then
        s.goto .exited
      else if command = "&".toList then
        s.goto .reading
      else if command = "bg".toList ∨ command = "fg".toList then
        s.goto (.looking argv)
      else
        s.goto (.forking bg cmdline)

/-- `addjob` in `eval`. -/
def record (pid : Int) (bg : Bool) (cmdline : CString) (s : Tsh) : Tsh :=
  let added := addjob pid (if bg then .BG else .FG) cmdline s.toJobs
  let s := { s with toJobs := added.2 }
  if added.1 ∨ pid < 1 then s else s.print .tooMany

/-- The end of `eval`; `buf` is the line with a blank for its last byte. -/
def follow (pid : Int) (bg : Bool) (cmdline : CString) (s : Tsh) : Tsh :=
  if bg then
    (s.print (.job (pid2jid pid s.jobs) pid
      (cmdline.dropLast ++ [' ']))).goto .reading
  else
    s.goto (.entering pid)

def look (argv : List CString) (s : Tsh) : Tsh :=
  match selectJob argv s.jobs with
  | .error line => (s.print line).goto .reading
  | .ok piddy => s.goto (.found (argv.getD 0 []) piddy)

/-- The state write of `do_bgfg`. -/
def mark (command : CString) (piddy : Fin MAXJOBS) (s : Tsh) : Tsh :=
  if command = "bg".toList then
    (s.setState piddy .BG).goto (.announcing piddy)
  else
    (s.setState piddy .FG).goto (.fronting piddy)

def announce (piddy : Fin MAXJOBS) (s : Tsh) : Tsh :=
  (s.print (.job (s.jobs piddy).mippy (s.jobs piddy).pid
    (s.jobs piddy).cmdline)).goto .reading

/-- The loop condition of `waitfg`. -/
def test (pid : Int) (s : Tsh) : Tsh :=
  if pid = fgpid s.jobs then s.goto (.suspended pid)
  else s.goto .reading

/-- What the shell does next by itself. -/
def proceed (s : Tsh) : Option Tsh :=
  match s.control with
  | .evaluating argv bg cmdline => some (s.evaluate argv bg cmdline)
  | .adding pid bg cmdline =>
      some ((s.record pid bg cmdline).goto (.started pid bg cmdline))
  | .started pid bg cmdline => some (s.follow pid bg cmdline)
  | .looking argv => some (s.look argv)
  | .found command piddy =>
      some (s.goto (.killing command piddy (s.jobs piddy).pid))
  | .resumed command piddy => some (s.mark command piddy)
  | .announcing piddy => some (s.announce piddy)
  | .fronting piddy => some (s.goto (.entering (s.jobs piddy).pid))
  | .entering pid => some (s.goto (.testing pid))
  | .testing pid => some (s.test pid)
  | .reading | .forking _ _ | .killing _ _ _ | .suspended _ | .exited => none

end Tsh

/-- SIGCHLD is not blocked. -/
def Control.unblocked : Control → Bool
  | .forking _ _ | .adding _ _ _ | .testing _ | .exited => false
  | _ => true

/-- A signal ends `sigsuspend`. -/
def Control.woken : Control → Control
  | .suspended pid => .testing pid
  | c => c

/-- What comes from outside. -/
inductive Event where
  | line (argv : List CString) (bg : Bool) (cmdline : CString)
  | eof
  | proceed
  /-- the result of `fork` in the parent -/
  | fork (pid : Int)
  /-- `kill` in `do_bgfg` has succeeded or failed -/
  | kill (ok : Bool)
  /-- `sigchld_handler` runs on these children -/
  | sigchld (children : List (Int × ChildStatus))
  /-- `sigint_handler` or `sigtstp_handler` runs; if there is a foreground job,
  its `kill` has succeeded or failed -/
  | forward (ok : Bool)
deriving DecidableEq, Repr

/-- One step of the shell. -/
def step (s : Tsh) : Event → Option Tsh
  | .line argv bg cmdline =>
      match s.control with
      | .reading => some (s.goto (.evaluating argv bg cmdline))
      | _ => none
  | .eof =>
      match s.control with
      | .reading => some (s.goto .exited)
      | _ => none
  | .proceed => s.proceed
  | .fork pid =>
      match s.control with
      | .forking bg cmdline =>
          if pid < 0 then some (s.goto .exited)
          else if pid = 0 then none
          else some (s.goto (.adding pid bg cmdline))
      | _ => none
  | .kill ok =>
      match s.control with
      | .killing command piddy _ =>
          some (s.goto (if ok then .resumed command piddy else .exited))
      | _ => none
  | .sigchld children =>
      if s.control.unblocked then
        some ((sigchldHandler children s).1.goto s.control.woken)
      else
        none
  | .forward ok =>
      match s.control with
      | .adding _ _ _ | .exited => none
      | _ =>
          if fgpid s.jobs > 0 ∧ ok = false then some (s.goto .exited)
          else some (s.goto s.control.woken)

end Shell
end PastWork
