import PastWork.Scheduler.Process

/-!
# The three queues of the simulator

The ready queue is threaded through `freshPrime`, the pause queue through
`pushPrimeForward` and the block list through `pushBlock`.
-/

namespace PastWork
namespace Scheduler

/-- Insert into the ready queue. -/
def qsetup (FreshN : Ptr) (s : State) : Result State :=
  if s.placement = 0 then
    .ok { s with
      Afront := FreshN
      Aback := FreshN
      placement := incr s.placement }
  else do
    let fresh ← deref FreshN
    let s := s.setFreshPrime fresh none
    let back ← deref s.Aback
    let s := s.setFreshPrime back (some fresh)
    .ok { s with
      Aback := (s.Prime back).freshPrime
      placement := incr s.placement }

/-- Remove the front of the ready queue. -/
def dsetup (s : State) : Result (Ptr × State) :=
  if s.placement = 0 then
    .ok (none, s)
  else do
    let rot ← deref s.Afront
    let s := { s with
      Afront := (s.Prime rot).freshPrime
      placement := decr s.placement }
    let s := if s.placement = 0 then { s with Aback := none } else s
    .ok (some rot, s.setFreshPrime rot none)

/-- Insert into the pause queue.  The first insertion also moves the front of
the ready queue to its back. -/
def pauseQue (FreshN : Ptr) (s : State) : Result State :=
  if s.PauseQ = 0 then
    .ok { s with
      Pausefront := FreshN
      Pauseback := FreshN
      Afront := s.Aback
      PauseQ := incr s.PauseQ }
  else do
    let fresh ← deref FreshN
    let s := s.setPushPrimeForward fresh none
    let back ← deref s.Pauseback
    let s := s.setPushPrimeForward back (some fresh)
    .ok { s with
      Pauseback := (s.Prime back).pushPrimeForward
      PauseQ := incr s.PauseQ }

/-- Remove the front of the pause queue. -/
def replaceN (s : State) : Result (Ptr × State) :=
  if s.PauseQ = 0 then
    .ok (none, s)
  else do
    let rot ← deref s.Pausefront
    let s := { s with
      Pausefront := (s.Prime rot).pushPrimeForward
      PauseQ := decr s.PauseQ }
    let s := if s.PauseQ = 0 then { s with Pauseback := none } else s
    .ok (some rot, s.setPushPrimeForward rot none)

/-- Insert into the block list. -/
def insertB (FreshN : Ptr) (s : State) : State :=
  match s.Blockfront, s.Blockback with
  | some _, some back =>
      let s := s.setPushBlock back FreshN
      { s with
        Blockback := FreshN
        BlockQ := incr s.BlockQ }
  | _, _ =>
      { s with
        Blockfront := FreshN
        Blockback := FreshN
        BlockQ := incr s.BlockQ }

/-- Remove the front of the block list. -/
def removeB (s : State) : Ptr × State :=
  match s.Blockfront with
  | none => (none, s)
  | some rot =>
      let s := { s with Blockfront := (s.Prime rot).pushBlock }
      let s := if s.Blockfront = none then { s with Blockback := none } else s
      let s := { s with BlockQ := decr s.BlockQ }
      (some rot, s.setPushBlock rot none)

end Scheduler
end PastWork
