import PastWork.Scheduler.Tick

/-!
# Loading, running and reporting

`main` loads the processes, `listoutputs` runs one policy twice with `Extra`
after each run, and `main` calls `listoutputs` once for each policy.
-/

namespace PastWork
namespace Scheduler

/-- The four numbers of a process in the input file. -/
structure Job where
  A : UInt32
  B : UInt32
  C : UInt32
  M : UInt32
deriving DecidableEq

/-- An input: as many processes as a `uint32_t` can count. -/
structure Workload where
  jobs : List Job
  fits : jobs.length < 2 ^ 32

/-- The globals before `main` runs. -/
def boot : State where
  Prime := fun _ => default
  terminateAlg := fun _ => none
  countPrime := 0
  firstPrime := true
  namelessOp := none
  selection := none
  present := 0
  totalPrime := 0
  completion := 0
  totalTimeNumber := 0
  infinity := 0
  Afront := none
  Aback := none
  placement := 0
  Pausefront := none
  Pauseback := none
  PauseQ := 0
  Blockfront := none
  Blockback := none
  BlockQ := 0

/-- The body of the loop of `main` that reads one process. -/
def loadStep (file : RandomFile) (s : State) (job : Job) : Result State := do
  let burst ← ranomize job.B.toNat file s.infinity
  let s := s.modify s.countPrime (fun _ =>
    { A := job.A.toNat
      B := job.B.toNat
      C := job.C.toNat
      M := job.M.toNat
      processID := s.countPrime
      condition := .unstarted
      finishingTime := -1
      CPUTime := 0
      Btime := 0
      currentWaitingTime := 0
      CPUBurst := burst
      BurstTime := (job.M.toNat * burst) % 2 ^ 32
      operating := false
      quantum := 2
      pushBlock := none
      freshPrime := none
      pushPrimeForward := none })
  .ok { s with
    countPrime := incr s.countPrime
    infinity := s.infinity + 1 }

/-- The state in which `main` calls `listoutputs` first. -/
def load (file : RandomFile) (W : Workload) : Result State :=
  W.jobs.foldlM (loadStep file) boot

/-- The body of the loop of `Extra`. -/
def extraStep (file : RandomFile) (s : State) (i : Nat) : Result State := do
  let burst ← ranomize (s.Prime i).B file s.infinity
  let s := s.modify i (fun p =>
    { p with
      condition := .unstarted
      freshPrime := none
      pushPrimeForward := none
      pushBlock := none
      finishingTime := -1
      CPUTime := 0
      Btime := 0
      currentWaitingTime := 0
      operating := false
      CPUBurst := burst
      BurstTime := (p.M * burst) % 2 ^ 32 })
  .ok { s with infinity := s.infinity + 1 }

/-- Reset the globals and the processes after a run. -/
def extra (file : RandomFile) (s : State) : Result State :=
  let s := { s with
    present := 0
    totalPrime := 0
    completion := 0
    totalTimeNumber := 0
    firstPrime := true
    namelessOp := none
    Afront := none
    Aback := none
    placement := 0
    Pausefront := none
    Pauseback := none
    PauseQ := 0
    Blockfront := none
    Blockback := none
    BlockQ := 0
    selection := none
    infinity := 0 }
  (List.range s.countPrime).foldlM (extraStep file) s

/-- `infinity = fopen(pickAr, "r")` in `listoutputs`. -/
def openRandom (s : State) : State :=
  { s with infinity := 0 }

/-- The state after `t` cycles. -/
def ticks
    (datastream : Policy) (file : RandomFile) :
    Nat → State → Result State :=
  iterate (datapoint datastream file)

/-- `while (completion != countPrime) datapoint(...);` -/
def simulate
    (datastream : Policy) (file : RandomFile) :
    Nat → State → Result State :=
  whileLoop (fun s => s.completion ≠ s.countPrime) (datapoint datastream file)

/-- The states of `listoutputs` at the end of its first run, at the end of its
second run and when it returns. -/
structure Passes where
  first : State
  second : State
  final : State

def listoutputs
    (datastream : Policy) (file : RandomFile)
    (fuel : Nat) (s : State) : Result Passes := do
  let s := { s with terminateAlg := fun _ => none }
  let first ← simulate datastream file fuel (openRandom s)
  let s ← extra file first
  let second ← simulate datastream file fuel (openRandom s)
  let final ← extra file second
  .ok { first, second, final }

/-- `listoutputs` for one policy after another. -/
def listAll
    (file : RandomFile) (fuel : Nat) :
    List Policy → State → Result State
  | [], s => .ok s
  | datastream :: rest, s => do
      let passes ← listoutputs datastream file fuel s
      listAll file fuel rest passes.final

/-- The lines of `printProcessSpecifics` for one process. -/
structure Specifics where
  processID : Nat
  input : Nat × Nat × Nat × Nat
  finishingTime : Int
  turnaroundTime : Int
  ioTime : Nat
  waitingTime : Nat
deriving DecidableEq

/-- `finishingTime - A` is computed on `uint32_t` and printed as an `int`. -/
def Process.specifics (p : Process) : Specifics where
  processID := p.processID
  input := (p.A, p.B, p.C, p.M)
  finishingTime := p.finishingTime
  turnaroundTime := toInt32 (sub32 (p.finishingTime % 2 ^ 32).toNat p.A)
  ioTime := p.Btime
  waitingTime := p.currentWaitingTime

def printProcessSpecifics (s : State) : List Specifics :=
  (List.range s.countPrime).map (fun i => (s.Prime i).specifics)

/-- A state that `main` or `Extra` leaves for a run over the processes of `W`.
`Extra` is called in any state that holds these processes; beyond the array
there are none. -/
inductive Started (file : RandomFile) (W : Workload) : State → Prop
  | main {s : State}
      (hload : load file W = .ok s) :
      Started file W (openRandom s)
  | extra {s s' : State}
      (hcount : s.countPrime = W.jobs.length)
      (hjobs : ∀ i (h : i < W.jobs.length),
        (s.Prime i).processID = i ∧
        (s.Prime i).A = (W.jobs[i]).A.toNat ∧
        (s.Prime i).B = (W.jobs[i]).B.toNat ∧
        (s.Prime i).C = (W.jobs[i]).C.toNat ∧
        (s.Prime i).M = (W.jobs[i]).M.toNat)
      (hbeyond : ∀ i, W.jobs.length ≤ i → s.Prime i = default)
      (hextra : extra file s = .ok s') :
      Started file W (openRandom s')

/-- What holds behind the loading of a workload holds at a start. -/
theorem exists_loaded
    (file : RandomFile) (W : Workload) {P : State → Prop}
    (h : (load file W).Returns (fun s => P (openRandom s))) :
    ∃ s₀, Started file W s₀ ∧ P s₀ := by
  obtain ⟨s, hload, hP⟩ := h
  exact ⟨openRandom s, .main hload, hP⟩

end Scheduler
end PastWork
