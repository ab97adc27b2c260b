import PastWork.Library.Links
import PastWork.Scheduler.Queues

/-!
# One tick of the simulation

The routines `datapoint` calls in each cycle: `proceedForward` for the running
process, `execxuteB` for the block list, `creation` for arrivals, `executeR`
for the dispatch, and `countdown` for the timers.  Printing is left out.

A `while` loop over a list runs with the number of processes as its fuel; it
reports `endless` when that is used up.
-/

namespace PastWork
namespace Scheduler

open Links

/-- The body of the loop of `execxuteB` for an expired process: it leaves the
block list from the front, from the back or from the middle. -/
def releaseBlocked (presentN : Nat) (s : State) : Result State := do
  let s := s.setCondition presentN .ready
  let front ← deref s.Blockfront
  if (s.Prime presentN).processID = (s.Prime front).processID then
    let (removeBlockOp, s) := removeB s
    qsetup removeBlockOp s
  else
    let back ← deref s.Blockback
    if (s.Prime presentN).processID = (s.Prime back).processID then
      let blockPrime ← walkBefore (fun i => (s.Prime i).pushBlock)
        (fun i => (s.Prime i).pushBlock = none) s.countPrime front
      let extraN ← deref (s.Prime blockPrime).pushBlock
      let s := { s with Blockback := some blockPrime }
      let s := s.setPushBlock blockPrime none
      let s := s.setPushBlock extraN none
      qsetup (some extraN) { s with BlockQ := decr s.BlockQ }
    else
      let blockPrime ← walkBefore (fun i => (s.Prime i).pushBlock)
        (fun i => (s.Prime i).processID = (s.Prime presentN).processID)
        s.countPrime front
      let extraN ← deref (s.Prime blockPrime).pushBlock
      let behind := (s.Prime extraN).pushBlock
      let s := s.setPushBlock blockPrime behind
      let s := s.setPushBlock extraN none
      qsetup (some extraN) { s with BlockQ := decr s.BlockQ }

/-- The loop of `execxuteB` from the node `presentN` on.  The next node is read
after the body has run. -/
def execxuteBFrom : Nat → Ptr → State → Result State
  | _, none, s => .ok s
  | 0, some _, _ => .error .endless
  | fuel + 1, some presentN, s => do
      let s ←
        if (s.Prime presentN).expired then releaseBlocked presentN s
        else .ok s
      execxuteBFrom fuel (s.Prime presentN).pushBlock s

def execxuteB (s : State) : Result State :=
  if s.BlockQ = 0 then
    .ok s
  else
    execxuteBFrom s.countPrime s.Blockfront s

/-- `terminateAlg[completion] = *selection` -/
def writeTerminated (p : Nat) (s : State) : Result State :=
  if s.completion < s.countPrime then
    .ok { s with
      terminateAlg := fun k =>
        if k = s.completion then some (s.Prime p) else s.terminateAlg k }
  else
    .error .outOfBounds

/-- What happens to the running process at the start of a cycle. -/
def proceedForward (selectAlg : Policy) (s : State) : Result State :=
  match s.selection with
  | none => .ok s
  | some p => do
      let s := s.modify p Process.chargeBurst
      if (s.Prime p).C = (s.Prime p).CPUTime then
        let s := s.modify p (fun q =>
          { q with
            condition := .terminated
            finishingTime := toInt32 s.present })
        let s ← writeTerminated p s
        let s := { s with completion := incr s.completion }
        let s := if selectAlg = .block then { s with namelessOp := none } else s
        .ok { s with selection := none }
      else if (s.Prime p).CPUBurst = 0 then
        let s := s.setCondition p .blocked
        .ok { insertB (some p) s with selection := none }
      else if selectAlg = .rr ∧ (s.Prime p).quantum ≤ 0 then
        let s := s.setCondition p .ready
        let s ← qsetup (some p) s
        .ok { s with selection := none }
      else
        .ok (s.setCondition p .running)

/-- The body of the loop of `creation`. -/
def creationStep (s : State) (i : Nat) : Result State :=
  if (s.Prime i).A = s.present then
    let s := { s with totalPrime := incr s.totalPrime }
    let s := s.setCondition i .ready
    let s :=
      if s.namelessOp = none ∧ s.firstPrime = true then
        { s with firstPrime := false, namelessOp := some i }
      else s
    qsetup (some i) s
  else
    .ok s

def creation (s : State) : Result State :=
  (List.range s.countPrime).foldlM creationStep s

/-- Move the front of the ready queue to the pause queue. -/
def pauseFront (s : State) : Result State := do
  let (pauseNo, s) ← dsetup s
  let p ← deref pauseNo
  pauseQue (some p) (s.setCondition p .ready)

/-- `for (; i < placement; ++i)` around `pauseFront`, which is skipped unless
`guard` holds. -/
def pauseLoop (guard : State → Bool) : Nat → Nat → State → Result State
  | 0, i, s => if i < s.placement then .error .endless else .ok s
  | fuel + 1, i, s =>
      if i < s.placement then do
        let s ← if guard s then pauseFront s else .ok s
        pauseLoop guard fuel (i + 1) s
      else
        .ok s

/-- The first loop of `executeR`: another process than `namelessOp` is ready. -/
def pauseOthers (selectAlg : Policy) (s : State) : Result State :=
  if s.namelessOp ≠ none ∧ s.placement ≠ 0 ∧ s.Afront ≠ s.namelessOp
      ∧ selectAlg = .block then
    pauseLoop (fun _ => true) s.placement 0 s
  else
    .ok s

/-- The second step of `executeR`: a paused process becomes `namelessOp`. -/
def resumePaused (selectAlg : Policy) (s : State) : Result State :=
  if s.PauseQ ≠ 0 ∧ selectAlg = .block ∧ s.namelessOp = none then do
    let (continueRunning, s) ← replaceN s
    let p ← deref continueRunning
    let s := s.setCondition p .ready
    qsetup (some p) { s with namelessOp := some p }
  else
    .ok s

/-- The minimum scan of the SJF branch over `count` nodes. -/
def shortestFrom (m : Nat → Process) : Nat → Ptr → Nat → Result Nat
  | 0, _, quickPrime => .ok quickPrime
  | count + 1, presentPrime, quickPrime => do
      let p ← deref presentPrime
      let quickPrime :=
        if (m quickPrime).remaining > (m p).remaining then p else quickPrime
      shortestFrom m count (m p).freshPrime quickPrime

/-- Unlink `quickPrime` from the ready queue: from the front, the back or the
middle. -/
def takeReady (quickPrime : Nat) (s : State) : Result (Nat × State) := do
  let front ← deref s.Afront
  if (s.Prime front).processID = (s.Prime quickPrime).processID then
    let (rot, s) ← dsetup s
    let loadedPrime ← deref rot
    .ok (loadedPrime, s)
  else
    let back ← deref s.Aback
    if (s.Prime back).processID = (s.Prime quickPrime).processID then
      let presentNode ← walkBefore (fun i => (s.Prime i).freshPrime)
        (fun i => (s.Prime i).freshPrime = none) s.countPrime front
      let loadedPrime ← deref (s.Prime presentNode).freshPrime
      let s := { s with Aback := some presentNode }
      let s := s.setFreshPrime presentNode none
      let s := s.setFreshPrime loadedPrime none
      .ok (loadedPrime, { s with placement := decr s.placement })
    else
      let presentNode ← walkBefore (fun i => (s.Prime i).freshPrime)
        (fun i => (s.Prime i).processID = (s.Prime quickPrime).processID)
        s.countPrime front
      let loadedPrime ← deref (s.Prime presentNode).freshPrime
      let behind := (s.Prime loadedPrime).freshPrime
      let s := s.setFreshPrime presentNode behind
      let s := s.setFreshPrime loadedPrime none
      .ok (loadedPrime, { s with placement := decr s.placement })

/-- The SJF branch of the dispatch. -/
def dispatchShortest (file : RandomFile) (s : State) : Result State := do
  let front ← deref s.Afront
  let quickPrime ← shortestFrom s.Prime s.placement s.Afront front
  let (loadedPrime, s) ← takeReady quickPrime s
  let s := s.modify loadedPrime
    (fun p => { p with condition := .running, operating := true })
  let newCPUBurst ← ranomize (s.Prime quickPrime).B file s.infinity
  let s := s.modify loadedPrime (fun p => p.assignBurst newCPUBurst)
  .ok { s with
    infinity := s.infinity + 1
    selection := some loadedPrime }

/-- The branch of the dispatch for the other policies. -/
def dispatchFront
    (selectAlg : Policy) (file : RandomFile) (s : State) : Result State := do
  let (rot, s) ← dsetup s
  let preparePrime ← deref rot
  let newCPUBurst ← ranomize (s.Prime preparePrime).B file s.infinity
  let s := s.modify preparePrime (fun p => p.assignBurst newCPUBurst)
  let s := { s with infinity := s.infinity + 1 }
  if 0 < (s.Prime preparePrime).CPUBurst then
    let s := s.modify preparePrime (fun p =>
      { p with
        condition := .running
        operating := true
        quantum := if selectAlg = .rr then 2 else p.quantum })
    .ok { s with selection := some preparePrime }
  else
    .ok s

/-- The third step of `executeR`. -/
def dispatch
    (selectAlg : Policy) (file : RandomFile) (s : State) : Result State :=
  if s.placement ≠ 0 ∧ s.selection = none then
    if selectAlg = .sjf then
      dispatchShortest file s
    else
      dispatchFront selectAlg file s
  else
    .ok s

/-- The last loop of `executeR`. -/
def pauseReady (selectAlg : Policy) (s : State) : Result State :=
  if selectAlg = .block ∧ s.placement ≠ 0 then
    pauseLoop (fun s => s.selection.isSome) s.placement 0 s
  else
    .ok s

def executeR
    (selectAlg : Policy) (file : RandomFile) (s : State) : Result State := do
  let s ← pauseOthers selectAlg s
  let s ← resumePaused selectAlg s
  let s ← dispatch selectAlg file s
  pauseReady selectAlg s

/-- `countdown`, which moves every timer and counts the cycle when some process
is blocked. -/
def Globals.countdown (selectAlg : Policy) (g : Globals) : Globals :=
  let m := fun i =>
    if i < g.countPrime then (g.Prime i).countdown selectAlg else g.Prime i
  { g with
    Prime := m
    totalTimeNumber :=
      if (List.range g.countPrime).any
          (fun i => (m i).condition = .blocked) then
        incr g.totalTimeNumber
      else g.totalTimeNumber }

def countdown (selectAlg : Policy) (s : State) : State :=
  { s with toGlobals := s.toGlobals.countdown selectAlg }

/-- One cycle. -/
def datapoint
    (datastream : Policy) (file : RandomFile) (s : State) : Result State := do
  let s ← proceedForward datastream s
  let s ← execxuteB s
  let s ← if s.totalPrime ≠ s.countPrime then creation s else .ok s
  let s ← executeR datastream file s
  let s := countdown datastream s
  .ok { s with present := incr s.present }

end Scheduler
end PastWork
