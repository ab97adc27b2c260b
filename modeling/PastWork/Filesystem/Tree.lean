import PastWork.Filesystem.Nodes
import PastWork.Library.Forests

/-!
# The directory tree

The links of the allocated nodes as the links of a tree.  In a `Tree` every
lookup ends: it meets a NULL pointer, finds nothing, or leads to an allocated
node.
-/

namespace PastWork
namespace Filesystem

open Links Forests

namespace State

/-- The links between the allocated nodes. -/
def shape (s : State) : Shape Nat where
  root := s.root
  live := fun a => a ∈ s.heap
  first := fun a => (s.heap.lookup a).bind Node.Cptr
  next := fun a => (s.heap.lookup a).bind Node.Sptr
  up := fun a => (s.heap.lookup a).bind Node.Pptr

def nameOf (s : State) (a : Nat) : Option CStr :=
  (s.heap.lookup a).map Node.nm

/-- What `z` leaves when the parts of the pathname fit. -/
def split (s : State) (pathname : CStr) : State :=
  { s with
    dirname := Libgen.dirname pathname
    basename := Libgen.basename pathname }

@[simp] theorem split_basename
    (s : State) (pathname : CStr) :
    (s.split pathname).basename = Libgen.basename pathname := by
  rfl

@[simp] theorem split_root
    (s : State) (pathname : CStr) :
    (s.split pathname).root = s.root := by
  rfl

end State

/-- The links hold a tree of named nodes whose root is its own parent, files have
no children, and `cwd` is a directory. -/
structure Tree
    (s : State) (kids : Nat → List Nat) (depth : Nat → Nat) : Prop where
  planted : Planted s.shape kids depth
  root_up : s.shape.up s.root = some s.root
  names : ∀ p ∈ s.heap, ((kids p).map s.nameOf).Nodup
  files : ∀ a node, s.heap.lookup a = some node → node.type = .G →
    node.Cptr = none
  cwd : ∃ node, s.heap.lookup s.cwd = some node ∧ node.type ≠ .G

/-- The arrays hold the pathname and what it is split into. -/
def FitsSplit (pathname : CStr) : Prop :=
  pathname.length < 130 ∧ (Libgen.dirname pathname).length < 70 ∧
    (Libgen.basename pathname).length < 70

instance (pathname : CStr) : Decidable (FitsSplit pathname) := by
  unfold FitsSplit
  infer_instance

section Access

variable {s : State} {a : Nat} {node : Node} {pathname : CStr}

theorem load_eq
    (h : s.heap.lookup a = some node) :
    s.load (some a) = .ok node := by
  simp [State.load, h]

theorem load_eq_ok
    (h : s.load (some a) = .ok node) :
    s.heap.lookup a = some node := by
  rw [State.load, deref_some, Result.ok_bind] at h
  cases hnode : s.heap.lookup a with
  | none =>
      rw [hnode] at h
      cases h
  | some node' =>
      rw [hnode] at h
      rw [Except.ok.inj h]

theorem lookup_of_mem
    (h : a ∈ s.heap) :
    ∃ node, s.heap.lookup a = some node :=
  Finmap.mem_iff.mp h

theorem mem_of_lookup
    (h : s.heap.lookup a = some node) :
    a ∈ s.heap :=
  Finmap.mem_of_lookup_eq_some h

theorem modify_eq
    {f : Node → Node}
    (h : s.heap.lookup a = some node) :
    s.modify (some a) f =
      .ok { s with heap := s.heap.insert a (f node) } := by
  simp [State.modify, load_eq h]

theorem z_eq_ok
    (h : FitsSplit pathname) :
    s.z pathname = .ok (s.split pathname) := by
  obtain ⟨hpath, hdir, hbase⟩ := h
  simp [State.z, State.split, copied, hpath, hdir, hbase]

theorem z_eq_error
    (h : ¬ FitsSplit pathname) :
    s.z pathname = .error .outOfBounds := by
  unfold FitsSplit at h
  unfold State.z copied
  by_cases hpath : pathname.length < 130
  · by_cases hdir : (Libgen.dirname pathname).length < 70
    · have hbase : ¬ (Libgen.basename pathname).length < 70 :=
        fun hbase => h ⟨hpath, hdir, hbase⟩
      simp [hpath, hdir, hbase]
    · simp [hpath, hdir]
  · simp [hpath]

/-- Different nodes are no more than there are. -/
theorem length_le_size
    {l : List Nat}
    (hnodup : l.Nodup)
    (hmem : ∀ a ∈ l, a ∈ s.heap) :
    l.length ≤ s.size := by
  rw [← List.toFinset_card_of_nodup hnodup]
  apply Finset.card_le_card
  intro a ha
  exact Finmap.mem_keys.mpr (hmem a (List.mem_toFinset.mp ha))

end Access

section Children

variable {s : State} {kids : Nat → List Nat} {depth : Nat → Nat}
variable {p : Nat} {node : Node}

/-- A child list is no longer than the heap. -/
theorem kids_length
    (h : Planted s.shape kids depth)
    (hp : p ∈ s.heap) :
    (kids p).length ≤ s.size :=
  length_le_size (h.nodup p hp) (fun _ ha => h.kid_live hp ha)

theorem cptr_eq
    (h : Planted s.shape kids depth)
    (hnode : s.heap.lookup p = some node) :
    node.Cptr = (kids p).head? := by
  have hfirst : s.shape.first p = node.Cptr := by
    simp [State.shape, hnode]
  rw [← hfirst]
  exact h.first_eq (mem_of_lookup hnode)

end Children

namespace Tree

variable {s s' : State} {kids : Nat → List Nat} {depth : Nat → Nat}
variable {a p c : Nat} {node : Node} {nm : CStr}

/-- The globals that hold the parts of a pathname do not matter. -/
theorem congr
    (h : Tree s kids depth)
    (hheap : s'.heap = s.heap)
    (hroot : s'.root = s.root)
    (hcwd : s'.cwd = s.cwd) :
    Tree s' kids depth := by
  have hshape : s'.shape = s.shape := by
    unfold State.shape
    rw [hheap, hroot]
  have hname : s'.nameOf = s.nameOf := by
    unfold State.nameOf
    rw [hheap]
  refine ⟨hshape ▸ h.planted, ?_, ?_, ?_, ?_⟩
  · rw [hshape, hroot]
    exact h.root_up
  · rw [hheap, hname]
    exact h.names
  · rw [hheap]
    exact h.files
  · rw [hheap, hcwd]
    exact h.cwd

theorem split
    (h : Tree s kids depth)
    (pathname : CStr) :
    Tree (s.split pathname) kids depth :=
  h.congr rfl rfl rfl

theorem root_mem
    (h : Tree s kids depth) :
    s.root ∈ s.heap :=
  h.planted.root_live

theorem cwd_mem
    (h : Tree s kids depth) :
    s.cwd ∈ s.heap := by
  obtain ⟨node, hnode, _⟩ := h.cwd
  exact mem_of_lookup hnode

theorem kids_mem
    (h : Tree s kids depth)
    (hp : p ∈ s.heap)
    (ha : a ∈ kids p) :
    a ∈ s.heap :=
  ((h.planted.mem_iff p a hp).mp ha).1

/-- The parent of a node is allocated. -/
theorem up_mem
    (h : Tree s kids depth)
    (hnode : s.heap.lookup a = some node) :
    ∃ p, node.Pptr = some p ∧ p ∈ s.heap := by
  have hup : s.shape.up a = node.Pptr := by
    simp [State.shape, hnode]
  by_cases hroot : a = s.root
  · subst hroot
    exact ⟨s.root, hup.symm.trans h.root_up, h.root_mem⟩
  · obtain ⟨p, hp, hmem, _⟩ :=
      h.planted.exists_parent (mem_of_lookup hnode) hroot
    exact ⟨p, hup.symm.trans hp, hmem⟩

end Tree

/-- The search through a chain of siblings finds the first of the name. -/
theorem lookFrom_eq
    {s : State} {nm : CStr} {q : Ptr} {l : List Nat} {fuel : Nat}
    (hchain : Chain s.shape.next q l)
    (hmem : ∀ a ∈ l, a ∈ s.heap)
    (hfuel : l.length ≤ fuel) :
    s.lookFrom nm fuel q = .ok (l.find? (fun a => s.nameOf a = some nm)) := by
  induction l generalizing q fuel with
  | nil =>
      cases chain_nil.mp hchain
      cases fuel <;> rfl
  | cons a l ih =>
      obtain ⟨rfl, htail⟩ := chain_cons.mp hchain
      cases fuel with
      | zero =>
          simp at hfuel
      | succ fuel =>
          obtain ⟨node, hnode⟩ := lookup_of_mem (hmem a (by simp))
          have hnext : s.shape.next a = node.Sptr := by
            simp [State.shape, hnode]
          rw [State.lookFrom, load_eq hnode, Result.ok_bind, List.find?_cons]
          by_cases hname : node.nm = nm
          · simp [State.nameOf, hnode, hname]
          · rw [hnext] at htail
            have hrest := ih htail (fun b hb => hmem b (by simp [hb]))
              (Nat.le_of_succ_le_succ hfuel)
            simpa [State.nameOf, hnode, hname] using hrest

/-- `lookC` finds the first child of the name in the chain of the children. -/
theorem lookC_of_chain
    {s : State} {p : Nat} {l : List Nat}
    (hp : p ∈ s.heap)
    (hchain : Chain s.shape.next (s.shape.first p) l)
    (hmem : ∀ a ∈ l, a ∈ s.heap)
    (hnodup : l.Nodup)
    (nm : CStr) :
    s.lookC (some p) nm = .ok (l.find? (fun a => s.nameOf a = some nm)) := by
  obtain ⟨node, hnode⟩ := lookup_of_mem hp
  have hfirst : s.shape.first p = node.Cptr := by
    simp [State.shape, hnode]
  rw [hfirst] at hchain
  rw [State.lookC, load_eq hnode, Result.ok_bind]
  exact lookFrom_eq hchain hmem (length_le_size hnodup hmem)

/-- The last of a chain of siblings. -/
theorem lastFrom_eq
    {s : State} {a : Nat} {l : List Nat} {fuel : Nat}
    (hchain : Chain s.shape.next (some a) (a :: l))
    (hmem : ∀ b ∈ a :: l, b ∈ s.heap)
    (hfuel : l.length < fuel) :
    ∃ y, s.lastFrom fuel a = .ok y ∧ (a :: l).getLast? = some y := by
  induction l generalizing a fuel with
  | nil =>
      cases fuel with
      | zero =>
          simp at hfuel
      | succ fuel =>
          obtain ⟨node, hnode⟩ := lookup_of_mem (hmem a (by simp))
          have hnext : node.Sptr = none := by
            have htail := (chain_cons.mp hchain).2
            simpa [State.shape, hnode] using htail
          refine ⟨a, ?_, rfl⟩
          rw [State.lastFrom, load_eq hnode, Result.ok_bind, hnext]
  | cons b l ih =>
      cases fuel with
      | zero =>
          simp at hfuel
      | succ fuel =>
          obtain ⟨node, hnode⟩ := lookup_of_mem (hmem a (by simp))
          have htail := (chain_cons.mp hchain).2
          have hnext : node.Sptr = some b := by
            have hb := (chain_cons.mp htail).1
            simpa [State.shape, hnode] using hb
          have hb : s.shape.next a = some b := by
            simp [State.shape, hnode, hnext]
          rw [hb] at htail
          obtain ⟨y, hy, hlast⟩ := ih htail
            (fun x hx => hmem x (List.mem_cons_of_mem a hx))
            (Nat.lt_of_succ_lt_succ hfuel)
          refine ⟨y, ?_, by simpa using hlast⟩
          rw [State.lastFrom, load_eq hnode, Result.ok_bind, hnext]
          exact hy

namespace Tree

variable {s : State} {kids : Nat → List Nat} {depth : Nat → Nat}
variable {p : Nat}

theorem lookC_eq
    (h : Tree s kids depth)
    (hp : p ∈ s.heap)
    (nm : CStr) :
    s.lookC (some p) nm =
      .ok ((kids p).find? (fun a => s.nameOf a = some nm)) :=
  lookC_of_chain hp (h.planted.chain p hp) (fun _ ha => h.kids_mem hp ha)
    (h.planted.nodup p hp) nm

/-- A walk ends at a node, or with nothing. -/
theorem walkFrom_eq
    (h : Tree s kids depth)
    (nm : List CStr)
    (hp : p ∈ s.heap) :
    ∃ q, s.walkFrom nm (some p) = .ok q ∧ ∀ a, q = some a → a ∈ s.heap := by
  induction nm generalizing p with
  | nil =>
      refine ⟨some p, rfl, ?_⟩
      rintro a ⟨⟩
      exact hp
  | cons a nm ih =>
      rw [State.walkFrom]
      split
      next =>
        exact ih hp
      next =>
        split
        next =>
          obtain ⟨node, hnode⟩ := lookup_of_mem hp
          obtain ⟨q, hq, hmem⟩ := h.up_mem hnode
          rw [load_eq hnode, Result.ok_bind, hq]
          exact ih hmem
        next =>
          rw [h.lookC_eq hp, Result.ok_bind]
          cases hfind : (kids p).find? (fun b => s.nameOf b = some a) with
          | none =>
              exact ⟨none, rfl, by simp⟩
          | some b =>
              exact ih (h.kids_mem hp (List.mem_of_find?_eq_some hfind))

theorem nodeP_eq
    (h : Tree s kids depth)
    (pathname : CStr)
    (hlength : pathname.length < 130)
    (hcount : (components pathname).length ≤ 40) :
    ∃ q, s.nodeP pathname = .ok q ∧ ∀ a, q = some a → a ∈ s.heap := by
  rw [State.nodeP, tokenize_eq_ok hlength hcount, Result.ok_bind]
  simp only
  split
  · exact h.walkFrom_eq _ h.root_mem
  · exact h.walkFrom_eq _ h.cwd_mem

/-- The two lookups of a command meet a NULL pointer, or find the parent and
maybe one of its children. -/
theorem target_cases
    (h : Tree s kids depth)
    (hdir : s.dirname.length < 70) :
    s.target = .error .nullPointer ∨
    ∃ p ∈ s.heap, s.target =
      .ok (some p,
        (kids p).find? (fun a => s.nameOf a = some s.basename)) := by
  have hcount := components_length s.dirname
  obtain ⟨q, hq, hmem⟩ :=
    h.nodeP_eq s.dirname (by omega) (by omega)
  rw [State.target, hq, Result.ok_bind]
  cases q with
  | none =>
      exact .inl rfl
  | some p =>
      have hp := hmem p rfl
      refine .inr ⟨p, hp, ?_⟩
      rw [h.lookC_eq hp]
      rfl

end Tree

end Filesystem
end PastWork
