import PastWork.Library.Faults

/-!
# The data of the scheduling simulator

`struct Process`, the globals of `scheduler.c`, and the parts of its routines
that touch a single process.

The process array is memory indexed by position; a `struct Process*` is a
position or NULL.  `uint32_t` values are natural numbers whose operations wrap
explicitly, `int32_t` values are integers.  The random-number file is read by
line; a line past its end is the NULL of `fgets`.
-/

namespace PastWork
namespace Scheduler

/-- `++x` on a `uint32_t`. -/
def incr (x : Nat) : Nat :=
  (x + 1) % 2 ^ 32

/-- `--x` on a `uint32_t`. -/
def decr (x : Nat) : Nat :=
  (x + (2 ^ 32 - 1)) % 2 ^ 32

/-- `x - y` on `uint32_t` values. -/
def sub32 (x y : Nat) : Nat :=
  (x + (2 ^ 32 - y)) % 2 ^ 32

/-- `(int32_t) x`. -/
def toInt32 (x : Nat) : Int :=
  if x < 2 ^ 31 then (x : Int) else (x : Int) - 2 ^ 32

theorem incr_eq
    {x : Nat} (h : x + 1 < 2 ^ 32) :
    incr x = x + 1 := by
  simp only [incr]
  omega

theorem decr_eq
    {x : Nat} (h : 0 < x) (hlt : x < 2 ^ 32) :
    decr x = x - 1 := by
  simp only [decr]
  omega

theorem sub32_eq
    {x y : Nat} (h : y ≤ x) (hlt : x < 2 ^ 32) :
    sub32 x y = x - y := by
  simp only [sub32]
  omega

theorem sub32_pos_iff
    {x y : Nat} (hx : x < 2 ^ 32) (hy : y < 2 ^ 32) :
    0 < sub32 x y ↔ x ≠ y := by
  simp only [sub32]
  omega

/-- The values of `datastream` and `selectAlg`. -/
inductive Policy where
  | fcfs
  | rr
  | block
  | sjf
deriving DecidableEq, Repr

/-- The values of the field `condition`, 0 to 4. -/
inductive Condition where
  | unstarted
  | ready
  | running
  | blocked
  | terminated
deriving DecidableEq, Repr, Inhabited

/-- A `struct Process*`. -/
abbrev Ptr := Option Nat

/-- The lines of `random-numbers`. -/
abbrev RandomFile := Nat → Option Nat

/-- A file without an end. -/
def RandomFile.Endless (file : RandomFile) : Prop :=
  ∀ line, (file line).isSome

structure Process where
  A : Nat
  B : Nat
  C : Nat
  M : Nat
  processID : Nat
  condition : Condition
  finishingTime : Int
  CPUTime : Nat
  Btime : Nat
  currentWaitingTime : Nat
  BurstTime : Nat
  CPUBurst : Nat
  quantum : Int
  operating : Bool
  pushBlock : Ptr
  freshPrime : Ptr
  pushPrimeForward : Ptr
deriving Inhabited, DecidableEq

/-- The globals other than the three queues, with the process array, the array
`terminateAlg` of `listoutputs` and the position in the random-number file. -/
@[ext] structure Globals where
  Prime : Nat → Process
  terminateAlg : Nat → Option Process
  countPrime : Nat
  firstPrime : Bool
  namelessOp : Ptr
  selection : Ptr
  present : Nat
  totalPrime : Nat
  completion : Nat
  totalTimeNumber : Nat
  infinity : Nat

/-- The globals with the ready, the pause and the block queue. -/
structure State extends Globals where
  Afront : Ptr
  Aback : Ptr
  placement : Nat
  Pausefront : Ptr
  Pauseback : Ptr
  PauseQ : Nat
  Blockfront : Ptr
  Blockback : Ptr
  BlockQ : Nat

/-- Write to the process at position `i`. -/
def update
    (m : Nat → Process) (i : Nat) (f : Process → Process) :
    Nat → Process :=
  fun j => if j = i then f (m j) else m j

@[simp] theorem update_same
    (m : Nat → Process) (i : Nat) (f : Process → Process) :
    update m i f i = f (m i) := by
  simp [update]

@[simp] theorem update_ne
    (m : Nat → Process) {i j : Nat} (f : Process → Process)
    (h : j ≠ i) :
    update m i f j = m j := by
  simp [update, h]

/-- A field that `f` leaves alone is the same after the write. -/
theorem update_field
    {β : Type} (field : Process → β)
    (m : Nat → Process) (i j : Nat) {f : Process → Process}
    (h : ∀ q, field (f q) = field q) :
    field (update m i f j) = field (m j) := by
  simp only [update]
  split
  · exact h _
  · rfl

theorem update_update
    (m : Nat → Process) (i : Nat) (f g : Process → Process) :
    update (update m i f) i g = update m i (fun q => g (f q)) := by
  funext j
  by_cases h : j = i <;> simp [update, h]

namespace State

def modify (s : State) (i : Nat) (f : Process → Process) : State :=
  { s with Prime := update s.Prime i f }

/-- `p->freshPrime = link` -/
def setFreshPrime (s : State) (i : Nat) (link : Ptr) : State :=
  s.modify i (fun p => { p with freshPrime := link })

/-- `p->pushPrimeForward = link` -/
def setPushPrimeForward (s : State) (i : Nat) (link : Ptr) : State :=
  s.modify i (fun p => { p with pushPrimeForward := link })

/-- `p->pushBlock = link` -/
def setPushBlock (s : State) (i : Nat) (link : Ptr) : State :=
  s.modify i (fun p => { p with pushBlock := link })

/-- `p->condition = condition` -/
def setCondition (s : State) (i : Nat) (condition : Condition) : State :=
  s.modify i (fun p => { p with condition := condition })

end State

namespace Process

/-- The CPU time a process still needs, `C - CPUTime`. -/
def remaining (p : Process) : Nat :=
  sub32 p.C p.CPUTime

/-- `(int32_t) BurstTime <= 0` -/
def expired (p : Process) : Bool :=
  toInt32 p.BurstTime ≤ 0

/-- The first cycle after a dispatch fixes the length of the next I/O. -/
def chargeBurst (p : Process) : Process :=
  if p.operating then
    { p with
      operating := false
      BurstTime := (1 + p.M * p.CPUBurst) % 2 ^ 32 }
  else
    p

/-- The burst drawn at a dispatch, cut to the time that is left. -/
def assignBurst (p : Process) (newCPUBurst : Nat) : Process :=
  { p with
    CPUBurst :=
      if newCPUBurst > p.remaining then p.remaining else newCPUBurst }

/-- The `switch` of `countdown`. -/
def countdown (selectAlg : Policy) (p : Process) : Process :=
  match p.condition with
  | .unstarted => p
  | .blocked =>
      { p with
        Btime := incr p.Btime
        BurstTime := decr p.BurstTime }
  | .running =>
      { p with
        CPUTime := incr p.CPUTime
        CPUBurst := decr p.CPUBurst
        quantum := if selectAlg = .rr then p.quantum - 1 else p.quantum }
  | .ready =>
      { p with currentWaitingTime := incr p.currentWaitingTime }
  | .terminated => p

end Process

/-- `1 + (MysteryNumb % line)` for the number on a line of the file. -/
def ranomize (line : Nat) (file : RandomFile) (infinity : Nat) : Result Nat :=
  match file infinity with
  | none => .error .endOfFile
  | some MysteryNumb =>
      if line = 0 then
        .error .divisionByZero
      else
        .ok ((1 + MysteryNumb % line) % 2 ^ 32)

end Scheduler
end PastWork
