import PastWork.Filesystem.Edits
import PastWork.Library.Descents

/-!
# Absolute paths

A path of component names is looked up from the root, one `lookC` after another.
For names other than `.` and `..` this is the loop of `nodeP`.  In a tree it is
the descent along the names.
-/

namespace PastWork
namespace Filesystem

open Links Forests Descents

namespace State

/-- Look the names up one after another. -/
def resolveFrom (s : State) : List CStr → Nat → Result Ptr
  | [], a => .ok (some a)
  | nm :: names, a => do
      match ← s.lookC (some a) nm with
      | none => .ok none
      | some c => resolveFrom s names c

/-- The node at an absolute path. -/
def resolve (s : State) (names : List CStr) : Result Ptr :=
  s.resolveFrom names s.root

/-- The loop of `nodeP` on a path of names. -/
theorem walkFrom_names
    (s : State)
    {names : List CStr}
    (hnames : ∀ nm ∈ names, nm ≠ literal "." ∧ nm ≠ literal "..")
    (a : Nat) :
    s.walkFrom names (some a) = s.resolveFrom names a := by
  induction names generalizing a with
  | nil =>
      rfl
  | cons nm names ih =>
      obtain ⟨hdot, hdots⟩ := hnames nm (by simp)
      rw [walkFrom, if_neg hdot, if_neg hdots, resolveFrom]
      cases hlook : s.lookC (some a) nm with
      | error e =>
          rfl
      | ok chief =>
          simp only [Result.ok_bind]
          cases chief with
          | none =>
              rfl
          | some c =>
              exact ih (fun nm hnm => hnames nm (by simp [hnm])) c

end State

/-- The same nodes and the same `cwd`. -/
structure SameTree (s s' : State) : Prop where
  heap : s'.heap = s.heap
  root : s'.root = s.root
  cwd : s'.cwd = s.cwd

section Split

variable {s : State} {pathname : CStr}

/-- The parts of a pathname play no role in a lookup. -/
@[simp] theorem lookC_split
    (q : Ptr) (nm : CStr) :
    (s.split pathname).lookC q nm = s.lookC q nm := by
  have hfrom : ∀ fuel q, (s.split pathname).lookFrom nm fuel q =
      s.lookFrom nm fuel q := by
    intro fuel
    induction fuel with
    | zero =>
        intro q
        cases q <;> rfl
    | succ fuel ih =>
        intro q
        cases q with
        | none =>
            rfl
        | some a =>
            rw [State.lookFrom, State.lookFrom]
            simp only [ih]
            rfl
  rw [State.lookC, State.lookC]
  simp only [hfrom]
  rfl

@[simp] theorem resolve_split
    (names : List CStr) :
    (s.split pathname).resolve names = s.resolve names := by
  have hfrom : ∀ a, (s.split pathname).resolveFrom names a =
      s.resolveFrom names a := by
    induction names with
    | nil =>
        exact fun _ => rfl
    | cons nm names ih =>
        intro a
        rw [State.resolveFrom, State.resolveFrom, lookC_split]
        simp only [ih]
  exact hfrom s.root

@[simp] theorem walkFrom_split
    (names : List CStr) (q : Ptr) :
    (s.split pathname).walkFrom names q = s.walkFrom names q := by
  induction names generalizing q with
  | nil =>
      rfl
  | cons nm names ih =>
      rw [State.walkFrom, State.walkFrom, lookC_split]
      simp only [ih]
      rfl

theorem sameTree_split
    (s : State) (pathname : CStr) :
    SameTree s (s.split pathname) :=
  ⟨rfl, rfl, rfl⟩

end Split

/-- A walk goes on from where its first part has led. -/
theorem walkFrom_append
    {s : State} {names rest : List CStr} {q : Ptr} {a : Nat}
    (h : s.walkFrom names q = .ok (some a)) :
    s.walkFrom (names ++ rest) q = s.walkFrom rest (some a) := by
  induction names generalizing q with
  | nil =>
      cases h
      rfl
  | cons nm names ih =>
      rw [List.cons_append]
      rw [State.walkFrom] at h ⊢
      split
      next hdot =>
        rw [if_pos hdot] at h
        exact ih h
      next hdot =>
        rw [if_neg hdot] at h
        split
        next hdots =>
          rw [if_pos hdots] at h
          obtain ⟨node, hnode, h⟩ := Result.bind_eq_ok h
          rw [hnode]
          exact ih h
        next hdots =>
          rw [if_neg hdots] at h
          obtain ⟨chief, hchief, h⟩ := Result.bind_eq_ok h
          rw [hchief, Result.ok_bind]
          cases chief with
          | none => cases h
          | some c => exact ih h

/-- The child lists of all nodes and the names in them, whether they form a tree or
not. -/
structure Listed
    (s : State) (kids : Nat → List Nat) (name : Nat → Option CStr) :
    Prop where
  chain : ∀ p ∈ s.heap, Chain s.shape.next (s.shape.first p) (kids p)
  nodup : ∀ p ∈ s.heap, (kids p).Nodup
  mem : ∀ p ∈ s.heap, ∀ a ∈ kids p, a ∈ s.heap
  name : ∀ p ∈ s.heap, ∀ a ∈ kids p, s.nameOf a = name a

namespace Listed

variable {s : State} {kids : Nat → List Nat} {name : Nat → Option CStr}
variable {p : Nat}

theorem lookC_eq
    (h : Listed s kids name)
    (hp : p ∈ s.heap)
    (nm : CStr) :
    s.lookC (some p) nm = .ok (child kids name p nm) := by
  rw [lookC_of_chain hp (h.chain p hp) (h.mem p hp) (h.nodup p hp), child]
  congr 1
  refine List.find?_congr (fun a ha => ?_)
  rw [h.name p hp a ha]

theorem resolveFrom_eq
    (h : Listed s kids name)
    (names : List CStr)
    (hp : p ∈ s.heap) :
    s.resolveFrom names p = .ok (descend kids name names p) := by
  induction names generalizing p with
  | nil =>
      rfl
  | cons nm names ih =>
      rw [State.resolveFrom, h.lookC_eq hp, Result.ok_bind, descend]
      cases hchild : child kids name p nm with
      | none =>
          rfl
      | some c =>
          exact ih (h.mem p hp c (of_child hchild).1)

theorem resolve_eq_ok
    (h : Listed s kids name)
    (hroot : s.root ∈ s.heap)
    {names : List CStr} {q : Ptr} :
    s.resolve names = .ok q ↔ descend kids name names s.root = q := by
  rw [State.resolve, h.resolveFrom_eq names hroot]
  exact ⟨Except.ok.inj, congrArg Except.ok⟩

end Listed

/-- The child lists under planted links. -/
theorem listed_of_labelled
    {s : State} {kids : Nat → List Nat} {depth : Nat → Nat}
    (h : Labelled s.shape kids depth s.nameOf) :
    Listed s kids s.nameOf where
  chain := h.planted.chain
  nodup := h.planted.nodup
  mem := fun _ hp _ ha => h.planted.kid_live hp ha
  name := fun _ _ _ _ => rfl

namespace Tree

variable {s : State} {kids : Nat → List Nat} {depth : Nat → Nat}

theorem labelled
    (h : Tree s kids depth) :
    Labelled s.shape kids depth s.nameOf where
  planted := h.planted
  names := h.names
  named := fun a ha => by
    obtain ⟨node, hnode⟩ := lookup_of_mem ha
    exact ⟨node.nm, by simp [State.nameOf, hnode]⟩

theorem listed
    (h : Tree s kids depth) :
    Listed s kids s.nameOf :=
  listed_of_labelled h.labelled

/-- A path that resolves is a descent from the root. -/
theorem resolve_eq_ok
    (h : Tree s kids depth)
    {names : List CStr} {q : Ptr} :
    s.resolve names = .ok q ↔ descend kids s.nameOf names s.root = q :=
  h.listed.resolve_eq_ok h.root_mem

end Tree

end Filesystem
end PastWork
