import PastWork.Filesystem.Adding

/-!
# Lines of input

All commands that take a pathname, and `pwd`.  A walk starts at the root when the
global `dirname` does; every command but `cd` has split its own pathname by then,
and `cd` still finds the directory part of an earlier one.  No command looks at
what `nodeP` returns: where that is NULL, it is followed.
-/

namespace PastWork
namespace Filesystem

open Steps
open Libgen (slash Absolute)

namespace State

/-- The loop of `ls`: the types and the names that it gives to `printf`, which has `%a`
for a name. -/
def listFrom (s : State) : Nat → Ptr → Result (List (NodeType × CStr))
  | _, none => .ok []
  | 0, some _ => .error .endless
  | fuel + 1, some chief => do
      let node ← s.load (some chief)
      let rest ← listFrom s fuel node.Sptr
      .ok ((node.type, node.nm) :: rest)

/-- The text of `helperFunction`, with the names where it has `%a`. -/
def helperFunction (s : State) : Nat → Ptr → Result CStr
  | 0, _ => .error .endless
  | fuel + 1, chief =>
      if chief = some s.root then
        .ok [slash]
      else do
        let node ← s.load chief
        let front ← helperFunction s fuel node.Pptr
        .ok (front ++ node.nm ++ [slash])

end State

/-- The result is what is printed. -/
def ls (pathname : CStr) (s : State) :
    Result (List (NodeType × CStr) × State) := do
  let s ← s.z pathname
  let chief ← s.nodeP pathname
  let node ← s.load chief
  let printed ← s.listFrom s.size node.Cptr
  .ok (printed, s)

/-- The result is what is printed in front of the newline. -/
def pwd (s : State) : Result CStr :=
  s.helperFunction s.size (some s.cwd)

/-- The commands of the array `cmd`, without `quit`. -/
inductive Cmd where
  | change (command : Command)
  | ls
  | pwd
deriving DecidableEq

/-- A line that `main` has read, and what `malloc` would return for it. -/
structure Line where
  user_command : Cmd
  pathname : CStr
  block : Ptr
deriving DecidableEq

namespace Line

/-- The value that the command returns, if it has a `return`. -/
def run (line : Line) (s : State) : Result (Option Int × State) :=
  match line.user_command with
  | .change command => do
      let (n, s) ← call ⟨command, line.pathname, line.block⟩ s
      .ok (some n, s)
  | .ls => do
      let (_, s) ← ls line.pathname s
      .ok (none, s)
  | .pwd => do
      let _ ← pwd s
      .ok (none, s)

/-- The command calls `z`. -/
def splits (line : Line) : Bool :=
  match line.user_command with
  | .change .cd => false
  | .pwd => false
  | _ => true

end Line

/-- The program goes on with the next line.  A fault is its end. -/
def obey (s : State) (line : Line) : Option State :=
  if ∀ a ∈ line.block, a ∉ s.heap then
    match line.run s with
    | .ok (_, s') => some s'
    | .error _ => none
  else
    none

/-- The last pathname that `z` has split. -/
def lastSplit (lines : List Line) : CStr :=
  lines.foldl (fun x line => if line.splits then line.pathname else x) []

namespace State

/-- Where `nodeP` starts. -/
def start (s : State) : Nat :=
  if s.dirname.head? = some slash then s.root else s.cwd

/-- Where the walk along a pathname should start. -/
def anchor (s : State) (pathname : CStr) : Nat :=
  if Absolute pathname then s.root else s.cwd

end State

namespace Line

/-- Where the walk of the command starts. -/
def start (line : Line) (s : State) : Option Nat :=
  match line.user_command with
  | .change .cd => some s.start
  | .pwd => none
  | _ => some (s.split line.pathname).start

/-- The nodes that the command looks up. -/
def resolved (line : Line) (s : State) : Result (List Ptr) :=
  match line.user_command with
  | .change .cd => do
      let chief ← s.nodeP line.pathname
      .ok [chief]
  | .change .rm => do
      let s ← s.z line.pathname
      let (sT, chief) ← s.target
      .ok [sT, chief]
  | .change _ => do
      let s ← s.z line.pathname
      if refused s.basename then
        .ok []
      else
        let (sT, chief) ← s.target
        .ok [sT, chief]
  | .ls => do
      let s ← s.z line.pathname
      let chief ← s.nodeP line.pathname
      .ok [chief]
  | .pwd => .ok []

end Line

section Globals

variable {s s' : State} {pathname : CStr}

theorem z_eq_split
    (h : s.z pathname = .ok s') :
    s' = s.split pathname := by
  by_cases hfits : FitsSplit pathname
  · rw [z_eq_ok hfits] at h
    exact (Except.ok.inj h).symm
  · rw [z_eq_error hfits] at h
    cases h

theorem rmdir_dirname
    {n : Int}
    (h : rmdir pathname s = .ok (n, s')) :
    s'.dirname = Libgen.dirname pathname := by
  obtain ⟨m, hm, h⟩ := Result.bind_eq_ok h
  obtain rfl := z_eq_split hm
  split at h
  next =>
    cases h
    rfl
  next =>
    obtain ⟨⟨sT, chief⟩, _, h⟩ := Result.bind_eq_ok h
    cases chief with
    | none =>
        cases h
        rfl
    | some c =>
        obtain ⟨node, _, h⟩ := Result.bind_eq_ok h
        split at h
        next =>
          cases h
          rfl
        next =>
          obtain ⟨m, hmodify, h⟩ := Result.bind_eq_ok h
          cases h
          exact modify_dirname hmodify

theorem rm_dirname
    {n : Int}
    (h : rm pathname s = .ok (n, s')) :
    s'.dirname = Libgen.dirname pathname := by
  obtain ⟨m, hm, h⟩ := Result.bind_eq_ok h
  obtain rfl := z_eq_split hm
  obtain ⟨⟨sT, chief⟩, _, h⟩ := Result.bind_eq_ok h
  cases chief with
  | none =>
      cases h
      rfl
  | some c =>
      obtain ⟨node, _, h⟩ := Result.bind_eq_ok h
      split at h
      next =>
        cases h
        rfl
      next =>
        obtain ⟨m, hmodify, h⟩ := Result.bind_eq_ok h
        cases h
        exact modify_dirname hmodify

/-- `cd` changes nothing but `cwd`. -/
theorem cd_eq_ok
    {n : Int}
    (h : cd pathname s = .ok (n, s')) :
    ∃ a node, s.nodeP pathname = .ok (some a) ∧
      s.heap.lookup a = some node ∧
      (node.type = .Y ∧ n = 0 ∧ s' = { s with cwd := a } ∨
        node.type ≠ .Y ∧ n = -1 ∧ s' = s) := by
  obtain ⟨chief, hchief, h⟩ := Result.bind_eq_ok h
  cases chief with
  | none =>
      cases h
  | some a =>
      rw [deref_some, Result.ok_bind] at h
      obtain ⟨node, hnode, h⟩ := Result.bind_eq_ok h
      refine ⟨a, node, hchief, load_eq_ok hnode, ?_⟩
      split at h
      next htype =>
        cases h
        exact .inl ⟨htype, rfl, rfl⟩
      next htype =>
        cases h
        exact .inr ⟨htype, rfl, rfl⟩

/-- `ls` splits its pathname and changes nothing else. -/
theorem ls_eq_ok
    {printed : List (NodeType × CStr)}
    (h : ls pathname s = .ok (printed, s')) :
    s' = s.split pathname := by
  obtain ⟨m, hm, h⟩ := Result.bind_eq_ok h
  obtain ⟨chief, _, h⟩ := Result.bind_eq_ok h
  obtain ⟨node, _, h⟩ := Result.bind_eq_ok h
  obtain ⟨printed, _, h⟩ := Result.bind_eq_ok h
  cases h
  exact z_eq_split hm

end Globals

section Histories

variable {s s' s₁ s₂ : State} {line : Line} {lines : List Line}

/-- `dirname` after a line. -/
theorem Line.run_dirname
    {n : Option Int}
    (h : line.run s = .ok (n, s')) :
    s'.dirname =
      if line.splits then Libgen.dirname line.pathname else s.dirname := by
  obtain ⟨user_command, pathname, block⟩ := line
  cases user_command with
  | change command =>
      obtain ⟨⟨k, m⟩, hcall, h⟩ := Result.bind_eq_ok h
      cases h
      cases command with
      | mkdir | create => exact make_dirname hcall
      | rmdir => exact rmdir_dirname hcall
      | rm => exact rm_dirname hcall
      | cd =>
          obtain ⟨a, node, _, _, ⟨_, _, rfl⟩ | ⟨_, _, rfl⟩⟩ := cd_eq_ok hcall
          · rfl
          · rfl
  | ls =>
      obtain ⟨⟨printed, m⟩, hls, h⟩ := Result.bind_eq_ok h
      cases h
      rw [ls_eq_ok hls]
      rfl
  | pwd =>
      obtain ⟨printed, _, h⟩ := Result.bind_eq_ok h
      cases h
      rfl

/-- What a line does to a program that goes on. -/
theorem obey_eq_some
    (h : obey s line = some s') :
    (∀ a ∈ line.block, a ∉ s.heap) ∧ ∃ n, line.run s = .ok (n, s') := by
  unfold obey at h
  split at h
  next hblock =>
    split at h
    next n m hrun =>
      cases h
      exact ⟨hblock, n, hrun⟩
    next =>
      cases h
  next =>
    cases h

/-- The directory part in `dirname` is that of the last pathname that was
split. -/
theorem absolute_lastSplit
    {root : Nat}
    (h : exec obey (State.initialized root) lines = some s) :
    Absolute s.dirname ↔ Absolute (lastSplit lines) := by
  induction lines using List.reverseRecOn generalizing s with
  | nil =>
      cases h
      exact Iff.rfl
  | append_singleton lines line ih =>
      obtain ⟨m, hm, hlast⟩ := exec_snoc h
      obtain ⟨_, n, hrun⟩ := obey_eq_some hlast
      rw [Line.run_dirname hrun, lastSplit, List.foldl_concat]
      split
      · exact Libgen.absolute_dirname line.pathname
      · exact ih hm

/-- Where the walk starts after a split. -/
theorem start_split
    (s : State) (pathname : CStr) :
    (s.split pathname).start = s.anchor pathname := by
  have habsolute := Libgen.absolute_dirname pathname
  unfold State.start State.anchor
  by_cases h : Absolute pathname
  · rw [if_pos h]
    exact if_pos (habsolute.mpr h)
  · rw [if_neg h]
    exact if_neg (fun h' => h (habsolute.mp h'))

/-- Without a split the walk starts at the right node when `dirname` happens to
start like the pathname, or the two nodes are one. -/
theorem start_eq_anchor
    (s : State) (pathname : CStr) :
    s.start = s.anchor pathname ↔
      s.cwd = s.root ∨ (Absolute s.dirname ↔ Absolute pathname) := by
  unfold State.start State.anchor Absolute
  split_ifs <;> simp_all [eq_comm]

/-- Trees that are the same are the same state after a split. -/
theorem SameTree.split_eq
    (h : SameTree s₁ s₂)
    (pathname : CStr) :
    s₁.split pathname = s₂.split pathname := by
  obtain ⟨hheap, hroot, hcwd⟩ := h
  unfold State.split
  rw [hheap, hroot, hcwd]

theorem SameTree.z_eq
    (h : SameTree s₁ s₂)
    (pathname : CStr) :
    s₁.z pathname = s₂.z pathname := by
  by_cases hfits : FitsSplit pathname
  · rw [z_eq_ok hfits, z_eq_ok hfits, h.split_eq]
  · rw [z_eq_error hfits, z_eq_error hfits]

theorem SameTree.walkFrom_eq
    (h : SameTree s₁ s₂)
    (names : List CStr) (q : Ptr) :
    s₁.walkFrom names q = s₂.walkFrom names q := by
  have hsplit := congrArg (fun s : State => s.walkFrom names q)
    (h.split_eq [])
  simpa using hsplit

theorem SameTree.anchor_eq
    (h : SameTree s₁ s₂)
    (pathname : CStr) :
    s₁.anchor pathname = s₂.anchor pathname := by
  unfold State.anchor
  rw [h.root, h.cwd]

/-- `nodeP` walks from `start`. -/
theorem nodeP_eq_bind
    (s : State) (pathname : CStr) :
    s.nodeP pathname =
      (tokenize pathname >>= fun nm => s.walkFrom nm (some s.start)) := by
  rfl

/-- Both states walk the pathname from where it says, and find the same nodes. -/
structure Line.Agrees (line : Line) (s₁ s₂ : State) : Prop where
  first : ∀ a ∈ line.start s₁, a = s₁.anchor line.pathname
  second : ∀ a ∈ line.start s₂, a = s₂.anchor line.pathname
  same : line.resolved s₁ = line.resolved s₂

/-- Every command but `cd` agrees with its pathname. -/
theorem SameTree.agrees_of_ne_cd
    (h : SameTree s₁ s₂)
    (hcd : line.user_command ≠ .change .cd) :
    line.Agrees s₁ s₂ := by
  obtain ⟨user_command, pathname, block⟩ := line
  have hstart : ∀ s : State, ∀ a ∈ some (s.split pathname).start,
      a = s.anchor pathname := by
    rintro s a ⟨⟩
    exact start_split s pathname
  cases user_command with
  | change command =>
      cases command with
      | cd => exact absurd rfl hcd
      | mkdir | create | rmdir | rm =>
          refine ⟨hstart s₁, hstart s₂, ?_⟩
          simp only [Line.resolved, h.z_eq]
  | ls =>
      refine ⟨hstart s₁, hstart s₂, ?_⟩
      simp only [Line.resolved, h.z_eq]
  | pwd =>
      exact ⟨fun a ha => (nomatch ha), fun a ha => (nomatch ha), rfl⟩

/-- `cd` agrees with its pathname when it starts at the right node in both
states. -/
theorem SameTree.agrees_cd_iff
    (h : SameTree s₁ s₂)
    (pathname : CStr) (block : Ptr) :
    Line.Agrees ⟨.change .cd, pathname, block⟩ s₁ s₂ ↔
      s₁.start = s₁.anchor pathname ∧ s₂.start = s₂.anchor pathname := by
  constructor
  · intro hagrees
    exact ⟨hagrees.first _ rfl, hagrees.second _ rfl⟩
  · rintro ⟨hfirst, hsecond⟩
    refine ⟨?_, ?_, ?_⟩
    · rintro a ⟨⟩
      exact hfirst
    · rintro a ⟨⟩
      exact hsecond
    · have hsame : s₁.nodeP pathname = s₂.nodeP pathname := by
        rw [nodeP_eq_bind, nodeP_eq_bind, hfirst, hsecond, h.anchor_eq]
        simp only [h.walkFrom_eq]
      simp only [Line.resolved, hsame]

/-- After two histories with the same tree, a line finds the same nodes from where
its pathname says, unless it is a `cd` away from the root whose pathname does not
start like the last one that was split. -/
theorem agrees_iff
    {root₁ root₂ : Nat} {h₁ h₂ : List Line}
    (hs₁ : exec obey (State.initialized root₁) h₁ = some s₁)
    (hs₂ : exec obey (State.initialized root₂) h₂ = some s₂)
    (hsame : SameTree s₁ s₂)
    (line : Line) :
    line.Agrees s₁ s₂ ↔
      (line.user_command = .change .cd → s₁.cwd ≠ s₁.root →
        (Absolute (lastSplit h₁) ↔ Absolute line.pathname) ∧
          (Absolute (lastSplit h₂) ↔ Absolute line.pathname)) := by
  by_cases hcd : line.user_command = .change .cd
  · obtain ⟨user_command, pathname, block⟩ := line
    obtain rfl : user_command = .change .cd := hcd
    rw [hsame.agrees_cd_iff, start_eq_anchor, start_eq_anchor,
      absolute_lastSplit hs₁, absolute_lastSplit hs₂, hsame.root, hsame.cwd,
      ← or_and_left, or_iff_not_imp_left]
    exact ⟨fun h _ => h, fun h => h rfl⟩
  · exact iff_of_true (hsame.agrees_of_ne_cd hcd) (fun h => absurd h hcd)

/-- A directory is made under one of its names, and becomes `cwd`. -/
def entered (pathname : CStr) : List Line :=
  [⟨.change .mkdir, pathname, some 1⟩, ⟨.change .cd, literal "a", none⟩]

/-- Both names lead to the same tree, but only one leaves a `dirname` that starts
at the root. -/
theorem entered_same :
    ∃ s₁ s₂, exec obey (State.initialized 0) (entered (literal "a")) = some s₁ ∧
      exec obey (State.initialized 0) (entered (literal "/a")) = some s₂ ∧
      SameTree s₁ s₂ ∧ s₁.start ≠ s₁.anchor (literal "/a") := by
  have hruns : (exec obey (State.initialized 0) (entered (literal "a"))).any
      (fun s₁ => (exec obey (State.initialized 0) (entered (literal "/a"))).any
        (fun s₂ => decide (s₂.heap = s₁.heap ∧ s₂.root = s₁.root ∧
          s₂.cwd = s₁.cwd ∧ s₁.start ≠ s₁.anchor (literal "/a")))) = true := by
    decide +kernel
  obtain ⟨s₁, hs₁, hrun⟩ := (Option.any_eq_true _ _).mp hruns
  obtain ⟨s₂, hs₂, hrun⟩ := (Option.any_eq_true _ _).mp hrun
  obtain ⟨hheap, hroot, hcwd, hstart⟩ := of_decide_eq_true hrun
  exact ⟨s₁, s₂, hs₁, hs₂, ⟨hheap, hroot, hcwd⟩, hstart⟩

/-- `cd /a` starts at `cwd` after `mkdir a`. -/
theorem cd_not_agrees :
    ∃ s₁ s₂, exec obey (State.initialized 0) (entered (literal "a")) = some s₁ ∧
      exec obey (State.initialized 0) (entered (literal "/a")) = some s₂ ∧
      SameTree s₁ s₂ ∧
      ¬ Line.Agrees ⟨.change .cd, literal "/a", none⟩ s₁ s₂ := by
  obtain ⟨s₁, s₂, hs₁, hs₂, hsame, hstart⟩ := entered_same
  exact ⟨s₁, s₂, hs₁, hs₂, hsame,
    fun hagrees => hstart (hagrees.first _ rfl)⟩

theorem agrees_iff_entered :
    ∃ s₁ s₂, exec obey (State.initialized 0) (entered (literal "a")) = some s₁ ∧
      exec obey (State.initialized 0) (entered (literal "/a")) = some s₂ ∧
      (Line.Agrees ⟨.change .cd, literal "/a", none⟩ s₁ s₂ ↔
        (Cmd.change .cd = .change .cd → s₁.cwd ≠ s₁.root →
          (Absolute (lastSplit (entered (literal "a"))) ↔
              Absolute (literal "/a")) ∧
            (Absolute (lastSplit (entered (literal "/a"))) ↔
              Absolute (literal "/a")))) := by
  obtain ⟨s₁, s₂, hs₁, hs₂, hsame, _⟩ := entered_same
  exact ⟨s₁, s₂, hs₁, hs₂,
    agrees_iff hs₁ hs₂ hsame ⟨.change .cd, literal "/a", none⟩⟩

end Histories

end Filesystem
end PastWork
