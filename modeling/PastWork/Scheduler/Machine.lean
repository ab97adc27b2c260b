import PastWork.Scheduler.Driver
import Mathlib.Data.List.MinMax

/-!
# The simulator over plain queues

An abstract machine that says what one cycle is for: the three queues are
lists, and the processes carry no links.  `Queued` is what the lists, the
conditions and the counter of finished processes have to do with each other.

Every operation of the machine comes with the lemma that it keeps `Queued`.
-/

namespace PastWork
namespace Scheduler

/-- A process without its queue links. -/
def Process.unlink (p : Process) : Process :=
  { p with
    pushBlock := none
    freshPrime := none
    pushPrimeForward := none }

def Globals.unlink (g : Globals) : Globals :=
  { g with
    Prime := fun i => (g.Prime i).unlink
    terminateAlg := fun k => (g.terminateAlg k).map Process.unlink }

@[ext] structure Machine extends Globals where
  ready : List Nat
  pause : List Nat
  block : List Nat

namespace Machine

def modify (a : Machine) (i : Nat) (f : Process → Process) : Machine :=
  { a with Prime := update a.Prime i f }

/-- The running process has used up its CPU time. -/
def terminate (d : Policy) (p : Nat) (a : Machine) : Machine :=
  let q := { (a.Prime p).chargeBurst with
    condition := .terminated
    finishingTime := toInt32 a.present }
  { a.modify p (fun _ => q) with
    terminateAlg := fun k =>
      if k = a.completion then some q else a.terminateAlg k
    completion := incr a.completion
    namelessOp := if d = .block then none else a.namelessOp
    selection := none }

/-- The running process has used up its burst and starts an I/O. -/
def blockRunning (p : Nat) (a : Machine) : Machine :=
  { a.modify p (fun q => { q.chargeBurst with condition := .blocked }) with
    block := a.block ++ [p]
    selection := none }

/-- The running process has used up its quantum. -/
def preempt (p : Nat) (a : Machine) : Machine :=
  { a.modify p (fun q => { q.chargeBurst with condition := .ready }) with
    ready := a.ready ++ [p]
    selection := none }

/-- The running process goes on. -/
def keepRunning (p : Nat) (a : Machine) : Machine :=
  a.modify p (fun q => { q.chargeBurst with condition := .running })

def proceedForward (d : Policy) (a : Machine) : Machine :=
  match a.selection with
  | none => a
  | some p =>
      if (a.Prime p).C = (a.Prime p).CPUTime then
        a.terminate d p
      else if (a.Prime p).CPUBurst = 0 then
        a.blockRunning p
      else if d = .rr ∧ (a.Prime p).quantum ≤ 0 then
        a.preempt p
      else
        a.keepRunning p

/-- A blocked process returns to the ready queue. -/
def release (p : Nat) (a : Machine) : Machine :=
  { a.modify p (fun q => { q with condition := .ready }) with
    block := a.block.erase p
    ready := a.ready ++ [p] }

/-- The first blocked process whose timer has run out; no other one leaves the
block list in the same cycle. -/
def firstExpired (a : Machine) : Ptr :=
  a.block.find? (fun i => (a.Prime i).expired)

def execxuteB (a : Machine) : Machine :=
  match a.firstExpired with
  | none => a
  | some p => a.release p

/-- The processes that arrive in this cycle, in index order. -/
def arrivals (a : Machine) : List Nat :=
  (List.range a.countPrime).filter (fun i => (a.Prime i).A = a.present)

def arrive (a : Machine) : Machine :=
  { a with
    Prime := fun i =>
      if i ∈ a.arrivals then { a.Prime i with condition := .ready }
      else a.Prime i
    totalPrime := (a.totalPrime + a.arrivals.length) % 2 ^ 32
    firstPrime :=
      a.firstPrime && !(a.namelessOp.isNone && !a.arrivals.isEmpty)
    namelessOp :=
      if a.namelessOp = none ∧ a.firstPrime = true then a.arrivals.head?
      else a.namelessOp
    ready := a.ready ++ a.arrivals }

def creation (a : Machine) : Machine :=
  if a.totalPrime ≠ a.countPrime then a.arrive else a

/-- A pausing loop moves the first half of the ready queue, rounded up. -/
def pauseHalf (a : Machine) : Machine :=
  { a with
    ready := a.ready.drop ((a.ready.length + 1) / 2)
    pause := a.pause ++ a.ready.take ((a.ready.length + 1) / 2) }

/-- The first pausing loop runs. -/
def OthersReady (d : Policy) (a : Machine) : Prop :=
  a.namelessOp ≠ none ∧ a.ready ≠ [] ∧ a.ready.head? ≠ a.namelessOp
    ∧ d = .block

instance (d : Policy) (a : Machine) : Decidable (a.OthersReady d) := by
  unfold OthersReady
  infer_instance

def pauseOthers (d : Policy) (a : Machine) : Machine :=
  if a.OthersReady d then a.pauseHalf else a

def resumePaused (d : Policy) (a : Machine) : Machine :=
  match a.pause with
  | [] => a
  | p :: rest =>
      if d = .block ∧ a.namelessOp = none then
        { a with
          pause := rest
          ready := a.ready ++ [p]
          namelessOp := some p }
      else
        a

/-- The process a dispatch takes: the first with the least time left under SJF,
the front otherwise. -/
def choose (d : Policy) (a : Machine) : Ptr :=
  if d = .sjf then
    a.ready.argmin (fun i => (a.Prime i).remaining)
  else
    a.ready.head?

/-- The burst that a number of the file gives to a process. -/
def draw (number : Nat) (q : Process) : Process :=
  q.assignBurst ((1 + number % q.B) % 2 ^ 32)

def launch (d : Policy) (q : Process) : Process :=
  { q with
    condition := .running
    operating := true
    quantum := if d = .rr then 2 else q.quantum }

/-- The process leaves the ready queue; it runs when its burst is positive. -/
def start (d : Policy) (p : Nat) (number : Nat) (a : Machine) : Machine :=
  let a := { a.modify p (draw number) with
    ready := a.ready.erase p
    infinity := a.infinity + 1 }
  if 0 < (a.Prime p).CPUBurst ∨ d = .sjf then
    { a.modify p (launch d) with selection := some p }
  else
    a

def dispatch (d : Policy) (file : RandomFile) (a : Machine) : Option Machine :=
  if a.selection = none then
    match a.choose d with
    | none => some a
    | some p => (file a.infinity).map (fun number => a.start d p number)
  else
    some a

/-- The last pausing loop has something to move. -/
def RestReady (d : Policy) (a : Machine) : Prop :=
  d = .block ∧ a.ready ≠ [] ∧ a.selection ≠ none

instance (d : Policy) (a : Machine) : Decidable (a.RestReady d) := by
  unfold RestReady
  infer_instance

def pauseReady (d : Policy) (a : Machine) : Machine :=
  if a.RestReady d then a.pauseHalf else a

def executeR (d : Policy) (file : RandomFile) (a : Machine) : Option Machine :=
  (((a.pauseOthers d).resumePaused d).dispatch d file).map (pauseReady d)

def countdown (d : Policy) (a : Machine) : Machine :=
  { a with toGlobals := a.toGlobals.countdown d }

/-- The part of a cycle before the dispatch. -/
def prepare (d : Policy) (a : Machine) : Machine :=
  (a.proceedForward d).execxuteB.creation

/-- The part of a cycle after the dispatch. -/
def advance (d : Policy) (a : Machine) : Machine :=
  { a.countdown d with present := incr a.present }

def datapoint (d : Policy) (file : RandomFile) (a : Machine) : Option Machine :=
  ((a.prepare d).executeR d file).map (advance d)

end Machine
end Scheduler
end PastWork
