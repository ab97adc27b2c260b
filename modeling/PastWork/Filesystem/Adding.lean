import PastWork.Filesystem.Names
import PastWork.Filesystem.Upkeep

/-!
# What `mkdir` and `create` add

Where the directory part of a pathname leads to a directory, the two commands
either change nothing or add one node, behind the other children and under its own
name.
-/

namespace PastWork
namespace Filesystem

open Links Forests Descents
open Libgen (slash)

/-- `p` has a child of this name. -/
def HasChild (s : State) (p : Nat) (nm : CStr) : Prop :=
  ∃ l, Chain s.shape.next (s.shape.first p) l ∧ ∃ a ∈ l, s.nameOf a = some nm

/-- `s'` is `s` with the new node `z` behind the other children of `p`. -/
structure AddsExactly
    (s s' : State) (p z : Nat) (type : NodeType) (nm : CStr) : Prop where
  root : s'.root = s.root
  cwd : s'.cwd = s.cwd
  fresh : z ∉ s.heap
  node : s'.heap.lookup z = some
    { nm := nm
      type := type
      Cptr := none
      Sptr := none
      Pptr := some p }
  others : ∀ q, q ≠ z →
    (s'.heap.lookup q).map (fun node => (node.nm, node.type, node.Pptr)) =
      (s.heap.lookup q).map (fun node => (node.nm, node.type, node.Pptr))
  children : ∀ l, Chain s.shape.next (s.shape.first p) l →
    Chain s'.shape.next (s'.shape.first p) (l ++ [z])
  siblings : ∀ q ∈ s.heap, q ≠ p → ∀ l,
    Chain s.shape.next (s.shape.first q) l →
      Chain s'.shape.next (s'.shape.first q) l
  paths : ∀ names a, s'.resolve names = .ok (some a) ↔
    s.resolve names = .ok (some a) ∨
      a = z ∧ ∃ front, s.resolve front = .ok (some p) ∧ names = front ++ [nm]
  own : ∃! names, s'.resolve names = .ok (some z)

/-- The command is rejected and changes nothing, exactly when the name is refused
or taken; otherwise it adds a node to which the pathname leads. -/
def AddsNamed
    (command : CStr → State → Result (Int × State)) (type : NodeType)
    (pathname : CStr) (s : State) (p z : Nat) : Prop :=
  let nm := Libgen.basename pathname
  (refused nm = true ∨ HasChild s p nm →
    ∃ s', command pathname s = .ok (-1, s') ∧ SameTree s s') ∧
  (¬ (refused nm = true ∨ HasChild s p nm) →
    ∃ s', command pathname s = .ok (0, s') ∧
      AddsExactly s s' p z type nm ∧
      s'.nodeP pathname = .ok (some z) ∧
      ∃ kids depth, Tree s' kids depth)

section Attaching

variable {s s' : State} {kids : Nat → List Nat} {depth : Nat → Nat}
variable {p z a b : Nat} {node : Node} {names : List CStr} {pathname : CStr}

theorem modify_dirname
    {q : Ptr} {f : Node → Node}
    (h : s.modify q f = .ok s') :
    s'.dirname = s.dirname := by
  obtain ⟨a, _, h⟩ := Result.bind_eq_ok h
  obtain ⟨node, _, h⟩ := Result.bind_eq_ok h
  cases h
  rfl

theorem insert_child_dirname
    {q zero : Ptr}
    (h : s.insert_child q zero = .ok s') :
    s'.dirname = s.dirname := by
  obtain ⟨m, hlink, hmodify⟩ := Result.bind_eq_ok h
  rw [modify_dirname hmodify]
  obtain ⟨parent, _, hlink⟩ := Result.bind_eq_ok hlink
  split at hlink
  next => exact modify_dirname hlink
  next =>
    obtain ⟨chief, _, hlink⟩ := Result.bind_eq_ok hlink
    exact modify_dirname hlink

theorem make_dirname
    {type : NodeType} {block : Ptr} {n : Int}
    (h : make type block pathname s = .ok (n, s')) :
    s'.dirname = Libgen.dirname pathname := by
  by_cases hfits : FitsSplit pathname
  · rw [make, z_eq_ok hfits, Result.ok_bind] at h
    split at h
    next =>
      cases h
      rfl
    next =>
      obtain ⟨⟨sT, chief⟩, _, h⟩ := Result.bind_eq_ok h
      cases chief with
      | some c =>
          cases h
          rfl
      | none =>
          obtain ⟨address, _, h⟩ := Result.bind_eq_ok h
          obtain ⟨nm, _, h⟩ := Result.bind_eq_ok h
          obtain ⟨m, hinsert, h⟩ := Result.bind_eq_ok h
          cases h
          exact insert_child_dirname hinsert
  · rw [make, z_eq_error hfits] at h
    cases h

/-- The child of a name, after a node of a new name has been attached. -/
theorem Attached.child_eq
    (hs' : Attached s s' p z node (kids p))
    (h : Tree s kids depth)
    (hz : z ∉ s.heap)
    (hname : ∀ f ∈ kids p, s.nameOf f ≠ some node.nm)
    (ha : a ∈ s.heap)
    (nm : CStr) :
    child (extended kids p z) s'.nameOf a nm =
      if a = p ∧ nm = node.nm then some z else child kids s.nameOf a nm := by
  refine h.labelled.extended_child ?_ ?_ hname hz ha nm
  · intro q hq
    exact hs'.nameOf_eq (fun heq => hz (heq ▸ hq))
  · simp [State.nameOf, hs'.new]

/-- Walks that have led to a node still lead there. -/
theorem Attached.walkFrom_eq
    {depth' : Nat → Nat}
    (hs' : Attached s s' p z node (kids p))
    (h : Tree s kids depth)
    (h' : Tree s' (extended kids p z) depth')
    (hz : z ∉ s.heap)
    (hname : ∀ f ∈ kids p, s.nameOf f ≠ some node.nm)
    (ha : a ∈ s.heap)
    (hwalk : s.walkFrom names (some a) = .ok (some b)) :
    s'.walkFrom names (some a) = .ok (some b) := by
  induction names generalizing a with
  | nil =>
      exact hwalk
  | cons nm names ih =>
      rw [State.walkFrom] at hwalk ⊢
      split
      next hdot =>
        rw [if_pos hdot] at hwalk
        exact ih ha hwalk
      next hdot =>
        rw [if_neg hdot] at hwalk
        split
        next hdots =>
          rw [if_pos hdots] at hwalk
          obtain ⟨node, hnode⟩ := lookup_of_mem ha
          obtain ⟨q, hq, hqmem⟩ := h.up_mem hnode
          have hnew := hs'.old a (fun heq => hz (heq ▸ ha))
          rw [hnode, Option.map_some] at hnew
          rw [load_eq hnode, Result.ok_bind, hq] at hwalk
          rw [load_eq hnew, Result.ok_bind]
          simp only [hq]
          exact ih hqmem hwalk
        next hdots =>
          rw [if_neg hdots, h.listed.lookC_eq ha, Result.ok_bind] at hwalk
          rw [h'.listed.lookC_eq ((hs'.mem_iff a).mpr (.inl ha)), Result.ok_bind,
            hs'.child_eq h hz hname ha]
          cases hchild : child kids s.nameOf a nm with
          | none =>
              rw [hchild] at hwalk
              cases hwalk
          | some c =>
              rw [hchild] at hwalk
              obtain ⟨hmem, hnm⟩ := of_child hchild
              rw [if_neg]
              · exact ih (h.kids_mem ha hmem) hwalk
              · rintro ⟨rfl, rfl⟩
                exact hname c hmem hnm

/-- What attaching a new node under a new name adds. -/
theorem Attached.addsExactly
    {depth' : Nat → Nat} {type : NodeType} {nm : CStr}
    (hs' : Attached s s' p z
      { nm := nm
        type := type
        Cptr := none
        Sptr := none
        Pptr := none } (kids p))
    (h : Tree s kids depth)
    (h' : Tree s' (extended kids p z) depth')
    (hp : p ∈ s.heap)
    (hz : z ∉ s.heap)
    (hname : ∀ f ∈ kids p, s.nameOf f ≠ some nm) :
    AddsExactly s s' p z type nm := by
  have hne : ∀ q ∈ s.heap, q ≠ z := fun q hq heq => hz (heq ▸ hq)
  have hpaths : ∀ names a, s'.resolve names = .ok (some a) ↔
      s.resolve names = .ok (some a) ∨
        a = z ∧ ∃ front, s.resolve front = .ok (some p) ∧
          names = front ++ [nm] := by
    intro names a
    have hnew : s'.nameOf z = some nm := by
      simp [State.nameOf, hs'.new]
    simp only [h'.resolve_eq_ok, h.resolve_eq_ok]
    rw [hs'.root]
    exact h.labelled.descend_extended
      (fun q hq => hs'.nameOf_eq (hne q hq)) hnew hname hz h.root_mem
  refine ⟨hs'.root, hs'.cwd, hz, hs'.new, ?_, ?_, ?_, hpaths, ?_⟩
  · intro q hq
    rw [hs'.old q hq, Option.map_map]
    rfl
  · intro l hl
    obtain rfl := hl.unique (h.planted.chain p hp)
    have hchain := h'.planted.chain p ((hs'.mem_iff p).mpr (.inl hp))
    rwa [extended, if_neg (hne p hp), if_pos rfl] at hchain
  · intro q hq hqp l hl
    obtain rfl := hl.unique (h.planted.chain q hq)
    have hchain := h'.planted.chain q ((hs'.mem_iff q).mpr (.inl hq))
    rwa [extended, if_neg (hne q hq), if_neg hqp] at hchain
  · obtain ⟨front, hfront⟩ := h.labelled.exists_path hp
    have hown : s'.resolve (front ++ [nm]) = .ok (some z) :=
      (hpaths _ z).mpr (.inr ⟨rfl, front, h.resolve_eq_ok.mpr hfront, rfl⟩)
    refine ⟨front ++ [nm], hown, ?_⟩
    intro names hnames
    exact h'.labelled.path_unique (h'.resolve_eq_ok.mp hnames)
      (h'.resolve_eq_ok.mp hown)

/-- After the node has been attached, the pathname leads to it. -/
theorem Attached.nodeP_eq
    {depth' : Nat → Nat}
    (hs' : Attached (s.split pathname) s' p z node (kids p))
    (h : Tree s kids depth)
    (h' : Tree s' (extended kids p z) depth')
    (hp : p ∈ s.heap)
    (hp' : p ∈ s'.heap)
    (hz : z ∉ s.heap)
    (hname : ∀ f ∈ kids p, s.nameOf f ≠ some node.nm)
    (hnm : node.nm = Libgen.basename pathname)
    (hrefused : refused (Libgen.basename pathname) = false)
    (hdirname : s'.dirname = Libgen.dirname pathname)
    (hfits : FitsSplit pathname)
    (hcount : (components pathname).length ≤ 40)
    (hdir : (s.split pathname).nodeP (Libgen.dirname pathname) =
      .ok (some p)) :
    s'.nodeP pathname = .ok (some z) := by
  simp only [refused, Bool.or_eq_false_iff, decide_eq_false_iff_not] at hrefused
  obtain ⟨⟨hslash, hdot⟩, hdots⟩ := hrefused
  obtain ⟨front, hcomponents, hfront⟩ := components_dirname hslash hdot
  have hshort := components_length (Libgen.dirname pathname)
  obtain ⟨hpathname, hdirlength, _⟩ := hfits
  rw [State.nodeP, tokenize_eq_ok (by omega) (by omega), Result.ok_bind,
    walkFrom_split] at hdir
  rw [State.nodeP, tokenize_eq_ok hpathname hcount, Result.ok_bind,
    hcomponents, hdirname, hs'.root, hs'.cwd]
  -- both walks start at the same node
  obtain ⟨a, ha, hdir, hsame⟩ : ∃ a ∈ s.heap,
      s.walkFrom (components (Libgen.dirname pathname)) (some a) =
        .ok (some p) ∧
      (if (Libgen.dirname pathname).head? = some slash then
        (s.split pathname).root else (s.split pathname).cwd) = a := by
    by_cases hhead : (Libgen.dirname pathname).head? = some slash
    · refine ⟨s.root, h.root_mem, ?_, if_pos hhead⟩
      simpa [State.split, hhead] using hdir
    · refine ⟨s.cwd, h.cwd_mem, ?_, if_neg hhead⟩
      simpa [State.split, hhead] using hdir
  rw [hsame]
  have hwalk : s'.walkFrom front (some a) = .ok (some p) := by
    rcases hfront with hfront | ⟨rfl, hdotted⟩
    · rw [hfront] at hdir
      exact hs'.walkFrom_eq (h.split pathname) h' hz hname ha
        ((walkFrom_split front (some a)).trans hdir)
    · rw [hdotted, State.walkFrom, if_pos rfl] at hdir
      exact hdir
  rw [walkFrom_append hwalk, State.walkFrom, if_neg hdot, if_neg hdots,
    h'.listed.lookC_eq hp', hs'.child_eq (h.split pathname) hz hname hp,
    if_pos ⟨rfl, hnm.symm⟩]
  rfl

theorem addsExactly_split
    {type : NodeType} {nm : CStr}
    (h : AddsExactly (s.split pathname) s' p z type nm) :
    AddsExactly s s' p z type nm :=
  ⟨h.root, h.cwd, h.fresh, h.node, h.others, h.children, h.siblings,
    by simpa using h.paths, h.own⟩

/-- In a tree the search among the children decides whether a name is taken. -/
theorem Tree.hasChild_iff
    (h : Tree s kids depth)
    (hp : p ∈ s.heap)
    (nm : CStr) :
    HasChild s p nm ↔ child kids s.nameOf p nm ≠ none := by
  rw [ne_eq, child_eq_none]
  constructor
  · rintro ⟨l, hl, a, ha, hnm⟩ hfree
    obtain rfl := hl.unique (h.planted.chain p hp)
    exact hfree a ha hnm
  · intro htaken
    simp only [not_forall, not_not, exists_prop] at htaken
    exact ⟨kids p, h.planted.chain p hp, htaken⟩

/-- What `make` finds when the directory of the pathname is there. -/
theorem Tree.target_eq
    (h : Tree s kids depth)
    (hp : p ∈ s.heap)
    (hdir : (s.split pathname).nodeP (Libgen.dirname pathname) =
      .ok (some p)) :
    (s.split pathname).target =
      .ok (some p, child kids s.nameOf p (Libgen.basename pathname)) := by
  have hsame : (s.split pathname).dirname = Libgen.dirname pathname := rfl
  rw [State.target, hsame, hdir, Result.ok_bind, lookC_split,
    h.listed.lookC_eq hp]
  rfl

/-- A name that is refused or taken is rejected. -/
theorem Tree.make_rejects
    {type : NodeType} {block : Ptr}
    (h : Tree s kids depth)
    (hfits : FitsSplit pathname)
    (hp : p ∈ s.heap)
    (hdir : (s.split pathname).nodeP (Libgen.dirname pathname) =
      .ok (some p))
    (hbad : refused (Libgen.basename pathname) = true ∨
      HasChild s p (Libgen.basename pathname)) :
    make type block pathname s = .ok (-1, s.split pathname) := by
  rw [make, z_eq_ok hfits, Result.ok_bind, State.split_basename]
  by_cases hrefused : refused (Libgen.basename pathname) = true
  · rw [if_pos hrefused]
  · have htaken := (h.hasChild_iff hp _).mp (hbad.resolve_left hrefused)
    obtain ⟨c, hc⟩ := Option.ne_none_iff_exists'.mp htaken
    rw [if_neg hrefused, h.target_eq hp hdir, hc]
    rfl

/-- What `mkdir` and `create` have in common. -/
theorem Tree.make_addsNamed
    {parent : Node}
    (h : Tree s kids depth)
    (type : NodeType)
    (hfits : FitsSplit pathname)
    (hcount : (components pathname).length ≤ 40)
    (hdir : (s.split pathname).nodeP (Libgen.dirname pathname) =
      .ok (some p))
    (hparent : s.heap.lookup p = some parent)
    (htype : parent.type ≠ .G)
    (hz : z ∉ s.heap) :
    AddsNamed (make type (some z)) type pathname s p z := by
  have hp := mem_of_lookup hparent
  constructor
  · intro hbad
    exact ⟨_, h.make_rejects hfits hp hdir hbad, sameTree_split s pathname⟩
  · intro hgood
    rw [not_or, Bool.not_eq_true] at hgood
    obtain ⟨hrefused, hfree⟩ := hgood
    rw [h.hasChild_iff hp, not_not] at hfree
    have htarget := h.target_eq hp hdir
    rw [hfree] at htarget
    have hname := child_eq_none.mp hfree
    obtain ⟨s', hs', hattached⟩ :=
      h.make_eq type hfits hrefused htarget hz
    obtain ⟨depth', htree⟩ := (h.split pathname).attached hattached hp hz
      (fun q hq => by
        have hsame : (s.split pathname).heap.lookup p = some parent := hparent
        rw [hsame] at hq
        cases hq
        exact htype) hname
    have hadds := hattached.addsExactly (h.split pathname) htree hp hz hname
    have hp' : p ∈ s'.heap := (hattached.mem_iff p).mpr (.inl hp)
    exact ⟨s', hs', addsExactly_split hadds,
      hattached.nodeP_eq h htree hp hp' hz hname rfl hrefused
        (make_dirname hs') hfits hcount hdir, _, _, htree⟩

/-- `mkdir` and `create` below a directory. -/
theorem additions_exact
    {parent : Node}
    (h : ∃ kids depth, Tree s kids depth)
    (hfits : FitsSplit pathname)
    (hcount : (components pathname).length ≤ 40)
    (hdir : (s.split pathname).nodeP (Libgen.dirname pathname) =
      .ok (some p))
    (hparent : s.heap.lookup p = some parent)
    (htype : parent.type ≠ .G)
    (hz : z ∉ s.heap) :
    AddsNamed (mkdir (some z)) .Y pathname s p z ∧
      AddsNamed (create (some z)) .G pathname s p z := by
  obtain ⟨kids, depth, h⟩ := h
  exact ⟨h.make_addsNamed .Y hfits hcount hdir hparent htype hz,
    h.make_addsNamed .G hfits hcount hdir hparent htype hz⟩

end Attaching

section Example

theorem root_addsNamed :
    AddsNamed (mkdir (some 1)) .Y (literal "/a") (State.initialized 0) 0 1 ∧
      AddsNamed (create (some 1)) .G (literal "/a") (State.initialized 0)
        0 1 :=
  additions_exact ⟨_, _, initialized_tree 0⟩ (by decide) (by decide)
    (by decide +kernel) Finmap.lookup_singleton_eq (by decide) (by decide)

end Example

end Filesystem
end PastWork
