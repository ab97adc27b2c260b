import Mathlib.Data.Finmap
import PastWork.Filesystem.Paths

/-!
# The nodes of the file system simulator

Memory maps the addresses that `malloc` has handed out to nodes.  A NULL link
that is followed is the fault `nullPointer`; an access outside the allocated
nodes, like a copy that does not fit its array, is `outOfBounds`.  Which address
`malloc` returns is up to the environment.  Loops over children have as much fuel
as there are nodes.  Printing is left out.
-/

namespace PastWork

namespace Filesystem

open Libgen (slash)

/-- A `NODE*`. -/
abbrev Ptr := Option Nat

/-- The values of the field `type`: the root, a directory and a file. -/
inductive NodeType where
  | D
  | Y
  | G
deriving DecidableEq

structure Node where
  nm : CStr
  type : NodeType
  Cptr : Ptr
  Sptr : Ptr
  Pptr : Ptr
deriving DecidableEq

/-- The nodes and the globals that outlive a command. -/
structure State where
  heap : Finmap (fun _ : Nat => Node)
  root : Nat
  cwd : Nat
  dirname : CStr
  basename : CStr

namespace State

/-- The node behind a pointer. -/
def load (s : State) (p : Ptr) : Result Node := do
  let a ← deref p
  match s.heap.lookup a with
  | some node => .ok node
  | none => .error .outOfBounds

/-- Write to the fields of the node behind a pointer. -/
def modify (s : State) (p : Ptr) (f : Node → Node) : Result State := do
  let a ← deref p
  let node ← s.load p
  .ok { s with heap := s.heap.insert a (f node) }

/-- As many nodes as a loop over children can meet. -/
def size (s : State) : Nat :=
  s.heap.keys.card

/-- The loop of `lookC` from the child `chief` on. -/
def lookFrom (s : State) (nm : CStr) : Nat → Ptr → Result Ptr
  | _, none => .ok none
  | 0, some _ => .error .endless
  | fuel + 1, some chief => do
      let node ← s.load (some chief)
      if node.nm = nm then
        .ok (some chief)
      else
        lookFrom s nm fuel node.Sptr

def lookC (s : State) (Pptr : Ptr) (nm : CStr) : Result Ptr := do
  let parent ← s.load Pptr
  s.lookFrom nm s.size parent.Cptr

/-- `while(chief->Sptr) chief = chief->Sptr;` -/
def lastFrom (s : State) : Nat → Nat → Result Nat
  | 0, _ => .error .endless
  | fuel + 1, chief => do
      let node ← s.load (some chief)
      match node.Sptr with
      | none => .ok chief
      | some sibling => lastFrom s fuel sibling

/-- The first half of `insert_child`: the end of the child list points to the new
node. -/
def linkLast (s : State) (Pptr zero : Ptr) : Result State := do
  let parent ← s.load Pptr
  match parent.Cptr with
  | none => s.modify Pptr (fun node => { node with Cptr := zero })
  | some chief => do
      let chief ← s.lastFrom s.size chief
      s.modify (some chief) (fun node => { node with Sptr := zero })

def insert_child (s : State) (Pptr zero : Ptr) : Result State := do
  let s ← s.linkLast Pptr zero
  s.modify zero (fun node =>
    { node with
      Pptr := Pptr
      Cptr := none
      Sptr := none })

/-- The loop of `nodeP`. -/
def walkFrom (s : State) : List CStr → Ptr → Result Ptr
  | [], chief => .ok chief
  | a :: nm, chief =>
      if a = literal "." then
        walkFrom s nm chief
      else if a = literal ".." then do
        let node ← s.load chief
        walkFrom s nm node.Pptr
      else do
        let chief ← s.lookC chief a
        match chief with
        | none => .ok none
        | some chief => walkFrom s nm (some chief)

/-- The walk starts at the root when the global `dirname` starts with a slash,
whatever the pathname is. -/
def nodeP (s : State) (pathname : CStr) : Result Ptr := do
  let nm ← tokenize pathname
  let sT := if s.dirname.head? = some slash then s.root else s.cwd
  s.walkFrom nm (some sT)

/-- Split a pathname into the globals `dirname` and `basename`. -/
def z (s : State) (pathname : CStr) : Result State := do
  let x ← copied 130 pathname
  let dirname ← copied 70 (Libgen.dirname x)
  let basename ← copied 70 (Libgen.basename x)
  .ok { s with dirname, basename }

/-- `sT = nodeP(dirname); chief = lookC(sT, basename);` -/
def target (s : State) : Result (Ptr × Ptr) := do
  let sT ← s.nodeP s.dirname
  let chief ← s.lookC sT s.basename
  .ok (sT, chief)

/-- `initialize`, for the address that `malloc` returns. -/
def initialized (root : Nat) : State where
  heap := Finmap.singleton root
    { nm := literal "/"
      type := .D
      Cptr := none
      Sptr := none
      Pptr := some root }
  root := root
  cwd := root
  dirname := []
  basename := []

end State

/-- The names that `mkdir`, `create` and `rmdir` refuse. -/
def refused (basename : CStr) : Bool :=
  basename = literal "/" || basename = literal "." || basename = literal ".."

/-- What `mkdir` and `create` share.  `block` is what `malloc` returns. -/
def make
    (type : NodeType) (block : Ptr) (pathname : CStr) (s : State) :
    Result (Int × State) := do
  let s ← s.z pathname
  if refused s.basename then
    .ok (-1, s)
  else
    let (sT, chief) ← s.target
    match chief with
    | some _ => .ok (-1, s)
    | none => do
        let address ← deref block
        let nm ← copied 70 s.basename
        let s := { s with
          heap := s.heap.insert address
            { nm := nm
              type := type
              Cptr := none
              Sptr := none
              Pptr := none } }
        let s ← s.insert_child sT block
        .ok (0, s)

def mkdir : Ptr → CStr → State → Result (Int × State) :=
  make .Y

def create : Ptr → CStr → State → Result (Int × State) :=
  make .G

def rmdir (pathname : CStr) (s : State) : Result (Int × State) := do
  let s ← s.z pathname
  if refused s.basename then
    .ok (-1, s)
  else
    let (_, chief) ← s.target
    match chief with
    | none => .ok (-1, s)
    | some chief => do
        let node ← s.load (some chief)
        if node.Cptr ≠ none then
          .ok (-1, s)
        else
          let s ← s.modify node.Pptr
            (fun zero => { zero with Cptr := node.Sptr })
          .ok (0, { s with heap := s.heap.erase chief })

def rm (pathname : CStr) (s : State) : Result (Int × State) := do
  let s ← s.z pathname
  let (_, chief) ← s.target
  match chief with
  | none => .ok (-1, s)
  | some chief => do
      let node ← s.load (some chief)
      if node.type ≠ .G then
        .ok (-1, s)
      else
        let s ← s.modify node.Pptr (fun zero => { zero with Cptr := none })
        .ok (0, { s with heap := s.heap.erase chief })

def cd (pathname : CStr) (s : State) : Result (Int × State) := do
  let chief ← s.nodeP pathname
  let a ← deref chief
  let node ← s.load chief
  if node.type = .Y then
    .ok (0, { s with cwd := a })
  else
    .ok (-1, s)

inductive Command where
  | mkdir
  | create
  | rmdir
  | rm
  | cd
deriving DecidableEq

/-- A command with its pathname, and what `malloc` would return for it. -/
structure Request where
  command : Command
  pathname : CStr
  block : Ptr
deriving DecidableEq

def call (request : Request) (s : State) : Result (Int × State) :=
  match request.command with
  | .mkdir => mkdir request.block request.pathname s
  | .create => create request.block request.pathname s
  | .rmdir => rmdir request.pathname s
  | .rm => rm request.pathname s
  | .cd => cd request.pathname s

end Filesystem
end PastWork
