import PastWork.Filesystem.Edits
import PastWork.Library.Steps

/-!
# When the directory tree stays well formed

`rmdir` lets the child list of the parent start behind the node it removes, and
`rm` empties it, so that older siblings are lost; `rmdir` does not look whether it
removes `cwd`; `mkdir` and `create` add to a file as well as to a directory.  A
run keeps the tree exactly as long as no command does this, and no pathname
overflows an array.
-/

namespace PastWork
namespace Filesystem

open Links Forests Steps

/-- Every node other than the root is reached in one way, over child and sibling
links; it is in the child list of its parent; siblings have different names; files
have no children; `cwd` is a directory that is reached. -/
structure WellFormed (s : State) : Prop where
  routes : ∀ a ∈ s.heap, a ≠ s.root → ∃! r, Route s.shape r a
  parents : ∀ a ∈ s.heap, a ≠ s.root → ∃ p l,
    s.shape.up a = some p ∧ Chain s.shape.next (s.shape.first p) l ∧ a ∈ l
  names : ∀ p l, Chain s.shape.next (s.shape.first p) l →
    (l.map s.nameOf).Nodup
  directories : ∀ a node, s.heap.lookup a = some node → node.Cptr ≠ none →
    node.type ≠ .G
  cwd : (∃ node, s.heap.lookup s.cwd = some node ∧ node.type ≠ .G) ∧
    ∃ r, Route s.shape r s.cwd

/-- The program between two commands.  After a write outside an array or outside
the allocated nodes nothing is known of it. -/
inductive Session where
  | running (s : State)
  | corrupted

def Session.WellFormed : Session → Prop
  | .running s => Filesystem.WellFormed s
  | .corrupted => False

/-- `malloc` does not hand out an address twice. -/
def Request.Possible (request : Request) (s : State) : Prop :=
  ∀ a ∈ request.block, a ∉ s.heap

instance (request : Request) (s : State) : Decidable (request.Possible s) := by
  unfold Request.Possible
  infer_instance

/-- One command.  A NULL pointer that is followed ends the program. -/
def Session.step : Session → Request → Option Session
  | .corrupted, _ => none
  | .running s, request =>
      if request.Possible s then
        match call request s with
        | .ok (_, s') => some (.running s')
        | .error .outOfBounds => some .corrupted
        | .error _ => none
      else
        none

/-- What `mkdir` and `create` add a node to is not a file. -/
def GrowsDirectory (s : State) (pathname : CStr) : Prop :=
  refused (Libgen.basename pathname) = false →
    ∀ p parent, (s.split pathname).target = .ok (some p, none) →
      s.heap.lookup p = some parent → parent.type ≠ .G

/-- An empty node that `rmdir` removes is the first child of its parent, and not
`cwd`. -/
def RemovesFirst (s : State) (pathname : CStr) : Prop :=
  refused (Libgen.basename pathname) = false →
    ∀ p c parent node,
      (s.split pathname).target = .ok (some p, some c) →
      s.heap.lookup p = some parent → s.heap.lookup c = some node →
      node.Cptr = none → parent.Cptr = some c ∧ c ≠ s.cwd

/-- A file that `rm` removes is the only child of its parent. -/
def RemovesOnly (s : State) (pathname : CStr) : Prop :=
  ∀ p c parent node,
    (s.split pathname).target = .ok (some p, some c) →
    s.heap.lookup p = some parent → s.heap.lookup c = some node →
    node.type = .G → parent.Cptr = some c ∧ node.Sptr = none

/-- The condition on a command: its pathname fits the arrays, and it adds to a
directory or removes a node that no other sibling hangs on. -/
def Request.Keeps (request : Request) (s : State) : Prop :=
  match request.command with
  | .mkdir | .create =>
      FitsSplit request.pathname ∧ GrowsDirectory s request.pathname
  | .rmdir => FitsSplit request.pathname ∧ RemovesFirst s request.pathname
  | .rm => FitsSplit request.pathname ∧ RemovesOnly s request.pathname
  | .cd => request.pathname.length < 130 ∧
      (components request.pathname).length ≤ 40

def KeepsTree : Session → Request → Prop
  | .running s, request => request.Keeps s
  | .corrupted, _ => False

section Trees

variable {s s' : State} {kids : Nat → List Nat} {depth : Nat → Nat}
variable {pathname : CStr}

/-- A tree is well formed. -/
theorem Tree.wellFormed
    (h : Tree s kids depth) :
    WellFormed s where
  routes := fun a ha _ => h.planted.exists_unique_route ha
  parents := fun a ha hroot => by
    obtain ⟨p, hup, hp, hmem⟩ := h.planted.exists_parent ha hroot
    exact ⟨p, kids p, hup, h.planted.chain p hp, hmem⟩
  names := fun p l hl => by
    by_cases hp : p ∈ s.heap
    · obtain rfl := hl.unique (h.planted.chain p hp)
      exact h.names p hp
    · have hfirst : s.shape.first p = none := by
        simp [State.shape, Finmap.lookup_eq_none.mpr hp]
      rw [hfirst] at hl
      cases l with
      | nil => exact List.nodup_nil
      | cons a l => cases (chain_cons.mp hl).1
  directories := fun a node hnode hcptr htype =>
    hcptr (h.files a node hnode htype)
  cwd := ⟨h.cwd, h.planted.exists_route h.cwd_mem⟩

/-- `initialize` plants the root. -/
theorem initialized_tree
    (root : Nat) :
    Tree (State.initialized root) (fun _ => []) (fun _ => 0) := by
  have hmem : ∀ a, a ∈ (State.initialized root).heap ↔ a = root :=
    fun a => Finmap.mem_singleton a root _
  have hlookup : (State.initialized root).heap.lookup root = some _ :=
    Finmap.lookup_singleton_eq
  have hshape : ∀ a, a ∈ (State.initialized root).heap →
      (State.initialized root).shape.first a = none := by
    intro a ha
    obtain rfl := (hmem a).mp ha
    simp [State.shape, hlookup]
  refine ⟨⟨?_, ?_, ?_, ?_, ?_, ?_⟩, ?_, ?_, ?_, ?_⟩
  · exact (hmem root).mpr rfl
  · show ((State.initialized root).heap.lookup root).bind Node.Sptr = none
    simp [hlookup]
  · intro p hp
    rw [hshape p hp]
    rfl
  · intro p _
    exact List.nodup_nil
  · intro p a _
    constructor
    · intro ha
      cases ha
    · rintro ⟨ha, hroot, _⟩
      exact absurd ((hmem a).mp ha) hroot
  · intro a ha hroot
    exact absurd ((hmem a).mp ha) hroot
  · show ((State.initialized root).heap.lookup root).bind Node.Pptr = some root
    simp [hlookup]
  · intro p _
    exact List.nodup_nil
  · intro a node hnode _
    obtain rfl := (hmem a).mp (mem_of_lookup hnode)
    rw [hlookup] at hnode
    cases hnode
    rfl
  · exact ⟨_, hlookup, by simp⟩

/-- What the two lookups find is a node and one of its children. -/
theorem Tree.target_some
    {p : Nat} {chief : Ptr}
    (h : Tree s kids depth)
    (hfits : FitsSplit pathname)
    (htarget : (s.split pathname).target = .ok (some p, chief)) :
    p ∈ s.heap ∧ chief = (kids p).find?
      (fun a => s.nameOf a = some (Libgen.basename pathname)) := by
  rcases (h.split pathname).target_cases hfits.2.1 with hnull | ⟨q, hq, heq⟩
  · rw [hnull] at htarget
    cases htarget
  · rw [heq] at htarget
    cases htarget
    exact ⟨hq, rfl⟩

theorem Tree.target_child
    {p c : Nat}
    (h : Tree s kids depth)
    (hfits : FitsSplit pathname)
    (htarget : (s.split pathname).target = .ok (some p, some c)) :
    p ∈ s.heap ∧ c ∈ kids p := by
  obtain ⟨hp, hfind⟩ := h.target_some hfits htarget
  exact ⟨hp, List.mem_of_find?_eq_some hfind.symm⟩

/-- The lookups meet a NULL pointer, or the name is new, or it is one of a
node. -/
theorem Tree.found_cases
    (h : Tree s kids depth)
    (hfits : FitsSplit pathname) :
    (s.split pathname).target = .error .nullPointer ∨
    (∃ p, (s.split pathname).target = .ok (some p, none)) ∨
    ∃ p c node, (s.split pathname).target = .ok (some p, some c) ∧
      s.heap.lookup c = some node := by
  rcases (h.split pathname).target_cases hfits.2.1 with hnull | ⟨p, hp, heq⟩
  · exact .inl hnull
  · cases hfind : (kids p).find? (fun a =>
        (s.split pathname).nameOf a = some (s.split pathname).basename) with
    | none =>
        rw [hfind] at heq
        exact .inr (.inl ⟨p, heq⟩)
    | some c =>
        rw [hfind] at heq
        obtain ⟨node, hnode⟩ :=
          lookup_of_mem (h.kids_mem hp (List.mem_of_find?_eq_some hfind))
        exact .inr (.inr ⟨p, c, node, heq, hnode⟩)

/-- A new name makes a new node. -/
theorem Tree.make_eq
    {p z : Nat}
    (h : Tree s kids depth)
    (type : NodeType)
    (hfits : FitsSplit pathname)
    (hname : refused (Libgen.basename pathname) = false)
    (htarget : (s.split pathname).target = .ok (some p, none))
    (hz : z ∉ s.heap) :
    ∃ s', make type (some z) pathname s = .ok (0, s') ∧
      Attached (s.split pathname) s' p z
        { nm := Libgen.basename pathname
          type := type
          Cptr := none
          Sptr := none
          Pptr := none } (kids p) := by
  obtain ⟨hp, _⟩ := h.target_some hfits htarget
  obtain ⟨s', hs', hattached⟩ :=
    insert_child_eq (h.split pathname).planted hp hz
      { nm := (s.split pathname).basename
        type := type
        Cptr := none
        Sptr := none
        Pptr := none }
  refine ⟨s', ?_, hattached⟩
  have hcopy : copied 70 (s.split pathname).basename =
      .ok (s.split pathname).basename :=
    if_pos hfits.2.2
  rw [make, z_eq_ok hfits, Result.ok_bind, if_neg (by simp [hname]),
    htarget, Result.ok_bind]
  simp only [deref_some, Result.ok_bind, hcopy, hs']

/-- `mkdir` and `create` meet a NULL pointer, fail, or make a node of a new
name. -/
theorem Tree.make_cases
    (h : Tree s kids depth)
    (type : NodeType)
    (block : Ptr)
    (hfits : FitsSplit pathname) :
    make type block pathname s = .error .nullPointer ∨
    make type block pathname s = .ok (-1, s.split pathname) ∨
    ∃ p z, block = some z ∧ refused (Libgen.basename pathname) = false ∧
      (s.split pathname).target = .ok (some p, none) := by
  by_cases hname : refused (s.split pathname).basename = true
  · right
    left
    rw [make, z_eq_ok hfits, Result.ok_bind, if_pos hname]
  · rw [make, z_eq_ok hfits, Result.ok_bind, if_neg hname]
    rcases h.found_cases hfits with
      hnull | ⟨p, htarget⟩ | ⟨p, c, node, htarget, _⟩
    · rw [hnull]
      exact .inl rfl
    · rw [htarget]
      cases block with
      | none =>
          exact .inl rfl
      | some z =>
          exact .inr (.inr ⟨p, z, rfl, by simpa using hname, rfl⟩)
    · rw [htarget]
      exact .inr (.inl rfl)

/-- A name of an empty node is removed by `rmdir`. -/
theorem Tree.rmdir_eq
    {p c : Nat} {node : Node}
    (h : Tree s kids depth)
    (hfits : FitsSplit pathname)
    (hname : refused (Libgen.basename pathname) = false)
    (htarget : (s.split pathname).target = .ok (some p, some c))
    (hnode : s.heap.lookup c = some node)
    (hempty : node.Cptr = none) :
    ∃ s', rmdir pathname s = .ok (0, s') ∧
      Cut (s.split pathname) s' p c node.Sptr := by
  obtain ⟨hp, hc⟩ := h.target_child hfits htarget
  have hnode₁ : (s.split pathname).heap.lookup c = some node := hnode
  obtain ⟨s₁, hs₁, hcut⟩ :=
    (h.split pathname).cut_eq hp hc hnode₁ node.Sptr
  refine ⟨_, ?_, hcut⟩
  rw [rmdir, z_eq_ok hfits, Result.ok_bind, if_neg (by simp [hname]),
    htarget, Result.ok_bind]
  simp only [load_eq hnode₁, Result.ok_bind, hempty, ne_eq, not_true, if_false,
    hs₁]

theorem Tree.rmdir_cases
    (h : Tree s kids depth)
    (hfits : FitsSplit pathname) :
    rmdir pathname s = .error .nullPointer ∨
    rmdir pathname s = .ok (-1, s.split pathname) ∨
    ∃ p c node, refused (Libgen.basename pathname) = false ∧
      (s.split pathname).target = .ok (some p, some c) ∧
      s.heap.lookup c = some node ∧ node.Cptr = none := by
  by_cases hname : refused (s.split pathname).basename = true
  · right
    left
    rw [rmdir, z_eq_ok hfits, Result.ok_bind, if_pos hname]
  · rw [rmdir, z_eq_ok hfits, Result.ok_bind, if_neg hname]
    rcases h.found_cases hfits with
      hnull | ⟨p, htarget⟩ | ⟨p, c, node, htarget, hnode⟩
    · rw [hnull]
      exact .inl rfl
    · rw [htarget]
      exact .inr (.inl rfl)
    · have hnode₁ : (s.split pathname).heap.lookup c = some node := hnode
      rw [htarget, Result.ok_bind]
      simp only [load_eq hnode₁, Result.ok_bind]
      by_cases hempty : node.Cptr = none
      · exact .inr (.inr ⟨p, c, node, by simpa using hname, rfl, hnode,
          hempty⟩)
      · rw [if_pos hempty]
        exact .inr (.inl rfl)

/-- A name of a file is removed by `rm`. -/
theorem Tree.rm_eq
    {p c : Nat} {node : Node}
    (h : Tree s kids depth)
    (hfits : FitsSplit pathname)
    (htarget : (s.split pathname).target = .ok (some p, some c))
    (hnode : s.heap.lookup c = some node)
    (hfile : node.type = .G) :
    ∃ s', rm pathname s = .ok (0, s') ∧
      Cut (s.split pathname) s' p c none := by
  obtain ⟨hp, hc⟩ := h.target_child hfits htarget
  have hnode₁ : (s.split pathname).heap.lookup c = some node := hnode
  obtain ⟨s₁, hs₁, hcut⟩ := (h.split pathname).cut_eq hp hc hnode₁ none
  refine ⟨_, ?_, hcut⟩
  rw [rm, z_eq_ok hfits, Result.ok_bind, htarget, Result.ok_bind]
  simp only [load_eq hnode₁, Result.ok_bind, hfile, ne_eq, not_true, if_false,
    hs₁]

theorem Tree.rm_cases
    (h : Tree s kids depth)
    (hfits : FitsSplit pathname) :
    rm pathname s = .error .nullPointer ∨
    rm pathname s = .ok (-1, s.split pathname) ∨
    ∃ p c node, (s.split pathname).target = .ok (some p, some c) ∧
      s.heap.lookup c = some node ∧ node.type = .G := by
  rw [rm, z_eq_ok hfits, Result.ok_bind]
  rcases h.found_cases hfits with
    hnull | ⟨p, htarget⟩ | ⟨p, c, node, htarget, hnode⟩
  · rw [hnull]
    exact .inl rfl
  · rw [htarget]
    exact .inr (.inl rfl)
  · have hnode₁ : (s.split pathname).heap.lookup c = some node := hnode
    rw [htarget, Result.ok_bind]
    simp only [load_eq hnode₁, Result.ok_bind]
    by_cases hfile : node.type = .G
    · exact .inr (.inr ⟨p, c, node, rfl, hnode, hfile⟩)
    · rw [if_pos hfile]
      exact .inr (.inl rfl)

/-- `cd` meets a NULL pointer, fails, or goes to a directory. -/
theorem Tree.cd_cases
    (h : Tree s kids depth)
    (hlength : pathname.length < 130)
    (hcount : (components pathname).length ≤ 40) :
    cd pathname s = .error .nullPointer ∨
    cd pathname s = .ok (-1, s) ∨
    ∃ a node, s.heap.lookup a = some node ∧ node.type = .Y ∧
      cd pathname s = .ok (0, { s with cwd := a }) := by
  obtain ⟨q, hq, hmem⟩ := h.nodeP_eq pathname hlength hcount
  rw [cd, hq, Result.ok_bind]
  cases q with
  | none =>
      exact .inl rfl
  | some a =>
      obtain ⟨node, hnode⟩ := lookup_of_mem (hmem a rfl)
      rw [deref_some, Result.ok_bind, load_eq hnode, Result.ok_bind]
      by_cases hdir : node.type = .Y
      · rw [if_pos hdir]
        exact .inr (.inr ⟨a, node, hnode, hdir, rfl⟩)
      · rw [if_neg hdir]
        exact .inr (.inl rfl)

end Trees

/-- The command stays within its arrays, and leads from a tree to a tree. -/
def Safe (r : Result (Int × State)) : Prop :=
  r ≠ .error .outOfBounds ∧
    ∀ n s', r = .ok (n, s') → ∃ kids depth, Tree s' kids depth

theorem safe_null :
    Safe (.error .nullPointer) :=
  ⟨by simp, by simp⟩

theorem safe_ok
    {n : Int} {s' : State} {kids : Nat → List Nat} {depth : Nat → Nat}
    (h : Tree s' kids depth) :
    Safe (.ok (n, s')) := by
  refine ⟨by simp, ?_⟩
  rintro m s'' ⟨⟩
  exact ⟨kids, depth, h⟩

section Conditions

variable {s s' : State} {kids : Nat → List Nat} {depth : Nat → Nat}
variable {pathname : CStr} {block : Ptr} {type : NodeType} {n : Int}

theorem Tree.make_safe
    (h : Tree s kids depth)
    (hblock : ∀ z ∈ block, z ∉ s.heap)
    (hfits : FitsSplit pathname)
    (hgrows : GrowsDirectory s pathname) :
    Safe (make type block pathname s) := by
  rcases h.make_cases type block hfits with
    hnull | hfail | ⟨p, z, hz, hname, htarget⟩
  · rw [hnull]
    exact safe_null
  · rw [hfail]
    exact safe_ok (h.split pathname)
  · subst hz
    have hfresh := hblock z rfl
    obtain ⟨s', hs', hattached⟩ := h.make_eq type hfits hname htarget hfresh
    obtain ⟨hp, hfind⟩ := h.target_some hfits htarget
    obtain ⟨depth', htree⟩ :=
      (h.split pathname).attached hattached hp hfresh
        (fun parent hparent => hgrows hname p parent htarget hparent) (by
          intro a ha
          have hnot := List.find?_eq_none.mp hfind.symm a ha
          rw [decide_eq_true_eq] at hnot
          exact hnot)
    rw [hs']
    exact safe_ok htree

/-- A node under a file is what a well-formed tree does not have. -/
theorem Tree.make_needs
    (h : Tree s kids depth)
    (hblock : ∀ z ∈ block, z ∉ s.heap)
    (hs' : make type block pathname s = .ok (n, s'))
    (hwell : WellFormed s') :
    FitsSplit pathname ∧ GrowsDirectory s pathname := by
  by_cases hfits : FitsSplit pathname
  · refine ⟨hfits, ?_⟩
    intro hname p parent htarget hparent htype
    obtain ⟨hp, _⟩ := h.target_some hfits htarget
    cases block with
    | none =>
        rw [make, z_eq_ok hfits, Result.ok_bind, if_neg (by simp [hname]),
          htarget] at hs'
        cases hs'
    | some z =>
        have hfresh := hblock z rfl
        obtain ⟨s'', hs'', hattached⟩ :=
          h.make_eq type hfits hname htarget hfresh
        rw [hs''] at hs'
        cases hs'
        have hnokids : kids p = [] := by
          have hfirst := cptr_eq h.planted hparent
          rw [h.files p parent hparent htype] at hfirst
          exact List.head?_eq_none_iff.mp hfirst.symm
        have hpz : p ≠ z := fun heq => hfresh (heq ▸ hp)
        have hparent₁ : (s.split pathname).heap.lookup p = some parent :=
          hparent
        have hnew := hattached.old p hpz
        rw [hparent₁, Option.map_some] at hnew
        exact hwell.directories p _ hnew (by simp [hnokids]) htype
  · rw [make, z_eq_error hfits] at hs'
    cases hs'

/-- A sibling that is not behind the start of the child list is lost. -/
theorem Tree.lost
    {p c f : Nat} {first : Ptr} {l : List Nat}
    (h : Tree s kids depth)
    (hcut : Cut s s' p c first)
    (hp : p ∈ s.heap)
    (hf : f ∈ kids p)
    (hfc : f ≠ c)
    (hchain : Chain s.shape.next first l)
    (hc : c ∉ l)
    (hfl : f ∉ l)
    (hcp : p ≠ c) :
    ¬ WellFormed s' := by
  intro hwell
  obtain ⟨hfmem, hroot, hup⟩ := (h.planted.mem_iff p f hp).mp hf
  obtain ⟨node, hnode⟩ := lookup_of_mem hfmem
  obtain ⟨parent, hparent⟩ := lookup_of_mem hp
  have hnew := hcut.old f hfc
  rw [hnode, Option.map_some] at hnew
  obtain ⟨q, l', hq, hl', hmem⟩ :=
    hwell.parents f (mem_of_lookup hnew) (by rw [hcut.root]; exact hroot)
  have hup' : s'.shape.up f = s.shape.up f := by
    simp [State.shape, hnew, hnode]
  rw [hup', hup] at hq
  obtain rfl := Option.some_inj.mp hq
  have hfirst : s'.shape.first p = first := by
    simp [State.shape, hcut.old p hcp, hparent]
  have hchain' : Chain s'.shape.next first l := by
    refine hchain.congr ?_
    intro x hx
    have hxc : x ≠ c := fun heq => hc (heq ▸ hx)
    simp only [State.shape, hcut.old x hxc]
    cases s.heap.lookup x <;> rfl
  rw [hfirst] at hl'
  exact hfl (hl'.unique hchain' ▸ hmem)

/-- The siblings around a child. -/
theorem Tree.siblings
    {p c : Nat} {node : Node}
    (h : Tree s kids depth)
    (hp : p ∈ s.heap)
    (hc : c ∈ kids p)
    (hnode : s.heap.lookup c = some node) :
    ∃ pre post, kids p = pre ++ c :: post ∧ c ∉ pre ∧ c ∉ post ∧
      (∀ f ∈ pre, f ∉ post) ∧ Chain s.shape.next node.Sptr post := by
  obtain ⟨pre, post, hkids⟩ := List.append_of_mem hc
  have hnodup := h.planted.nodup p hp
  rw [hkids, List.nodup_append] at hnodup
  obtain ⟨_, htail, hdisjoint⟩ := hnodup
  refine ⟨pre, post, hkids, ?_, (List.nodup_cons.mp htail).1, ?_, ?_⟩
  · intro hmem
    exact hdisjoint c hmem c (by simp) rfl
  · intro f hf hmem
    exact hdisjoint f hf f (by simp [hmem]) rfl
  · have hchain := h.planted.chain p hp
    rw [hkids] at hchain
    have hnext : s.shape.next c = node.Sptr := by
      simp [State.shape, hnode]
    rw [← hnext]
    exact hchain.after

theorem Tree.rmdir_safe
    (h : Tree s kids depth)
    (hfits : FitsSplit pathname)
    (hremoves : RemovesFirst s pathname) :
    Safe (rmdir pathname s) := by
  rcases h.rmdir_cases hfits with
    hnull | hfail | ⟨p, c, node, hname, htarget, hnode, hempty⟩
  · rw [hnull]
    exact safe_null
  · rw [hfail]
    exact safe_ok (h.split pathname)
  · obtain ⟨hp, hc⟩ := h.target_child hfits htarget
    obtain ⟨parent, hparent⟩ := lookup_of_mem hp
    obtain ⟨hfirst, hcwd⟩ :=
      hremoves hname p c parent node htarget hparent hnode hempty
    obtain ⟨s', hs', hcut⟩ := h.rmdir_eq hfits hname htarget hnode hempty
    obtain ⟨kids', depth', htree⟩ :=
      (h.split pathname).cut hcut hparent hfirst hnode hempty rfl hcwd
    rw [hs']
    exact safe_ok htree

theorem Tree.rmdir_needs
    (h : Tree s kids depth)
    (hs' : rmdir pathname s = .ok (n, s'))
    (hwell : WellFormed s') :
    FitsSplit pathname ∧ RemovesFirst s pathname := by
  by_cases hfits : FitsSplit pathname
  · refine ⟨hfits, ?_⟩
    intro hname p c parent node htarget hparent hnode hempty
    obtain ⟨hp, hc⟩ := h.target_child hfits htarget
    obtain ⟨s'', hs'', hcut⟩ := h.rmdir_eq hfits hname htarget hnode hempty
    rw [hs''] at hs'
    cases hs'
    obtain ⟨pre, post, hkids, hpre, hpost, hdisjoint, hchain⟩ :=
      h.siblings hp hc hnode
    constructor
    · cases pre with
      | nil =>
          rw [cptr_eq h.planted hparent, hkids]
          rfl
      | cons f pre =>
          have hfc : f ≠ c := fun heq => hpre (by simp [heq])
          exact absurd hwell ((h.split pathname).lost hcut hp
            (by simp [hkids]) hfc hchain hpost (hdisjoint f (by simp))
            (h.planted.parent_ne hp hc))
    · intro hcwd
      obtain ⟨⟨_, hlookup, _⟩, _⟩ := hwell.cwd
      have hsame : s'.cwd = c := hcut.cwd.trans hcwd.symm
      rw [hsame, hcut.gone] at hlookup
      cases hlookup
  · rw [rmdir, z_eq_error hfits] at hs'
    cases hs'

theorem Tree.rm_safe
    (h : Tree s kids depth)
    (hfits : FitsSplit pathname)
    (hremoves : RemovesOnly s pathname) :
    Safe (rm pathname s) := by
  rcases h.rm_cases hfits with
    hnull | hfail | ⟨p, c, node, htarget, hnode, hfile⟩
  · rw [hnull]
    exact safe_null
  · rw [hfail]
    exact safe_ok (h.split pathname)
  · obtain ⟨hp, hc⟩ := h.target_child hfits htarget
    obtain ⟨parent, hparent⟩ := lookup_of_mem hp
    obtain ⟨hfirst, honly⟩ :=
      hremoves p c parent node htarget hparent hnode hfile
    obtain ⟨s', hs', hcut⟩ := h.rm_eq hfits htarget hnode hfile
    have hempty := h.files c node hnode hfile
    have hcwd : c ≠ s.cwd := by
      rintro rfl
      obtain ⟨node', hnode', htype⟩ := h.cwd
      rw [hnode] at hnode'
      cases hnode'
      exact htype hfile
    obtain ⟨kids', depth', htree⟩ :=
      (h.split pathname).cut hcut hparent hfirst hnode hempty honly hcwd
    rw [hs']
    exact safe_ok htree

theorem Tree.rm_needs
    (h : Tree s kids depth)
    (hs' : rm pathname s = .ok (n, s'))
    (hwell : WellFormed s') :
    FitsSplit pathname ∧ RemovesOnly s pathname := by
  by_cases hfits : FitsSplit pathname
  · refine ⟨hfits, ?_⟩
    intro p c parent node htarget hparent hnode hfile
    obtain ⟨hp, hc⟩ := h.target_child hfits htarget
    obtain ⟨s'', hs'', hcut⟩ := h.rm_eq hfits htarget hnode hfile
    rw [hs''] at hs'
    cases hs'
    obtain ⟨pre, post, hkids, hpre, hpost, _, hchain⟩ :=
      h.siblings hp hc hnode
    have honly : ∀ f ∈ kids p, f = c := by
      intro f hf
      by_contra hfc
      exact (h.split pathname).lost hcut hp hf hfc (chain_nil.mpr rfl)
        (by simp) (by simp) (h.planted.parent_ne hp hc) hwell
    have hpre_nil : pre = [] := by
      apply List.eq_nil_iff_forall_not_mem.mpr
      intro f hf
      exact hpre (honly f (by simp [hkids, hf]) ▸ hf)
    have hpost_nil : post = [] := by
      apply List.eq_nil_iff_forall_not_mem.mpr
      intro f hf
      exact hpost (honly f (by simp [hkids, hf]) ▸ hf)
    subst hpre_nil hpost_nil
    refine ⟨?_, chain_nil.mp hchain⟩
    rw [cptr_eq h.planted hparent, hkids]
    rfl
  · rw [rm, z_eq_error hfits] at hs'
    cases hs'

theorem Tree.cd_safe
    (h : Tree s kids depth)
    (hlength : pathname.length < 130)
    (hcount : (components pathname).length ≤ 40) :
    Safe (cd pathname s) := by
  rcases h.cd_cases hlength hcount with
    hnull | hfail | ⟨a, node, hnode, hdir, hcd⟩
  · rw [hnull]
    exact safe_null
  · rw [hfail]
    exact safe_ok h
  · have htree : Tree { s with cwd := a } kids depth :=
      ⟨h.planted, h.root_up, h.names, h.files, node, hnode, by simp [hdir]⟩
    rw [hcd]
    exact safe_ok htree

theorem cd_needs
    (hs' : cd pathname s = .ok (n, s')) :
    pathname.length < 130 ∧ (components pathname).length ≤ 40 := by
  by_contra hnot
  rw [cd, State.nodeP, tokenize_eq_error hnot] at hs'
  cases hs'

/-- The condition on a command keeps the tree. -/
theorem Tree.call_safe
    {request : Request}
    (h : Tree s kids depth)
    (hpossible : request.Possible s)
    (hkeeps : request.Keeps s) :
    Safe (call request s) := by
  unfold Request.Keeps at hkeeps
  unfold call
  cases hc : request.command with
  | mkdir | create =>
      rw [hc] at hkeeps
      exact h.make_safe hpossible hkeeps.1 hkeeps.2
  | rmdir =>
      rw [hc] at hkeeps
      exact h.rmdir_safe hkeeps.1 hkeeps.2
  | rm =>
      rw [hc] at hkeeps
      exact h.rm_safe hkeeps.1 hkeeps.2
  | cd =>
      rw [hc] at hkeeps
      exact h.cd_safe hkeeps.1 hkeeps.2

/-- A command that leaves a well-formed tree has met the condition. -/
theorem Tree.call_needs
    {request : Request}
    (h : Tree s kids depth)
    (hpossible : request.Possible s)
    (hs' : call request s = .ok (n, s'))
    (hwell : WellFormed s') :
    request.Keeps s := by
  unfold call at hs'
  unfold Request.Keeps
  cases hc : request.command with
  | mkdir | create =>
      rw [hc] at hs'
      exact h.make_needs hpossible hs' hwell
  | rmdir =>
      rw [hc] at hs'
      exact h.rmdir_needs hs' hwell
  | rm =>
      rw [hc] at hs'
      exact h.rm_needs hs' hwell
  | cd =>
      rw [hc] at hs'
      exact cd_needs hs'

end Conditions

/-- What a command does to the program. -/
theorem step_cases
    {s : State} {request : Request} {session : Session}
    (h : Session.step (.running s) request = some session) :
    request.Possible s ∧
      ((∃ n s', call request s = .ok (n, s') ∧ session = .running s') ∨
        call request s = .error .outOfBounds ∧ session = .corrupted) := by
  simp only [Session.step] at h
  split at h
  next hpossible =>
    refine ⟨hpossible, ?_⟩
    cases hcall : call request s with
    | ok result =>
        rw [hcall] at h
        cases h
        exact .inl ⟨result.1, result.2, rfl, rfl⟩
    | error e =>
        rw [hcall] at h
        cases e <;> cases h
        exact .inr ⟨rfl, rfl⟩
  next =>
    cases h

/-- In a run from `initialize` the tree stays well formed exactly as long as every
command meets the condition. -/
theorem commands_keep_tree
    (root : Nat) (requests : List Request) :
    Always Session.step (.running (State.initialized root)) requests
        Session.WellFormed ↔
      EachStep Session.step (.running (State.initialized root)) requests
        KeepsTree := by
  refine always_iff_eachStep
    (I := fun session => ∃ s kids depth,
      session = .running s ∧ Tree s kids depth) ?_ ?_ ?_ ?_
  · exact ⟨_, _, _, rfl, initialized_tree root⟩
  · rintro session ⟨s, kids, depth, rfl, h⟩
    exact h.wellFormed
  · rintro session request session' ⟨s, kids, depth, rfl, h⟩ hstep hkeeps
    obtain ⟨hpossible, hcall⟩ := step_cases hstep
    have hsafe := h.call_safe hpossible hkeeps
    rcases hcall with ⟨n, s', hs', rfl⟩ | ⟨herror, _⟩
    · obtain ⟨kids', depth', htree⟩ := hsafe.2 n s' hs'
      exact ⟨s', kids', depth', rfl, htree⟩
    · exact absurd herror hsafe.1
  · rintro session request session' ⟨s, kids, depth, rfl, h⟩ hstep hwell
    obtain ⟨hpossible, hcall⟩ := step_cases hstep
    rcases hcall with ⟨n, s', hs', rfl⟩ | ⟨_, rfl⟩
    · exact h.call_needs hpossible hs' hwell
    · cases hwell

/-- What the `pathname[70]` of `main` holds fits every array. -/
theorem fits_of_length
    {pathname : CStr}
    (h : pathname.length < 70) :
    FitsSplit pathname ∧ (components pathname).length ≤ 40 := by
  have hdir := Libgen.dirname_length pathname
  have hbase := Libgen.basename_length pathname
  have hcount := components_length pathname
  exact ⟨⟨by omega, by omega, by omega⟩, by omega⟩

/-- A node whose parent has lost its children. -/
theorem not_wellFormed
    {s : State} {a p : Nat}
    (ha : a ∈ s.heap)
    (hroot : a ≠ s.root)
    (hup : s.shape.up a = some p)
    (hfirst : s.shape.first p = none) :
    ¬ WellFormed s := by
  intro h
  obtain ⟨q, l, hq, hl, hmem⟩ := h.parents a ha hroot
  rw [hup] at hq
  cases hq
  rw [hfirst] at hl
  obtain rfl := hl.unique (chain_nil.mpr rfl)
  cases hmem

/-- Two files are created, and the first of them is removed. -/
def removeOfTwo : List Request :=
  [⟨.create, literal "a", some 1⟩, ⟨.create, literal "b", some 2⟩,
    ⟨.rm, literal "a", none⟩]

/-- The second file is still there, but nothing leads to it. -/
theorem rm_loses_sibling :
    ¬ Always Session.step (.running (State.initialized 0)) removeOfTwo
      Session.WellFormed := by
  intro halways
  have hlost : (exec Session.step (.running (State.initialized 0))
      removeOfTwo).any (fun session =>
        match session with
        | .running s => decide (2 ∈ s.heap ∧ 2 ≠ s.root ∧
            (s.heap.lookup 2).bind Node.Pptr = some 0 ∧
            (s.heap.lookup 0).bind Node.Cptr = none)
        | .corrupted => false) = true := by
    decide +kernel
  obtain ⟨session, hrun, hsession⟩ := (Option.any_eq_true _ _).mp hlost
  have hwell := halways _ (List.prefix_refl _) session hrun
  cases session with
  | corrupted =>
      exact hwell
  | running s =>
      obtain ⟨ha, hroot, hup, hfirst⟩ := of_decide_eq_true hsession
      exact not_wellFormed ha hroot hup hfirst hwell

end Filesystem
end PastWork
