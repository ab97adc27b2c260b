import PastWork.Filesystem.Names
import PastWork.Filesystem.Upkeep

/-!
# What a removal removes

`rmdir` lets the child list of the parent start behind the removed node, and `rm`
empties it.  So `rmdir` removes that node alone exactly when it is the first child,
and `rm` exactly when it is the only one.
-/

namespace PastWork
namespace Filesystem

open Links Forests Descents

/-- The node `c` is gone, and every other absolute path leads where it led before.
A path with `.` and `..` in it must not lead through `c`. -/
structure RemovesExactly (s s' : State) (c : Nat) : Prop where
  nodes : ∀ a, a ∈ s'.heap ↔ a ∈ s.heap ∧ a ≠ c
  paths : ∀ names a, s'.resolve names = .ok (some a) ↔
    s.resolve names = .ok (some a) ∧ a ≠ c
  walks : ∀ nm,
    (∀ k, s.walkFrom (nm.take k) (some s.root) ≠ .ok (some c)) →
      s'.walkFrom nm (some s'.root) = s.walkFrom nm (some s.root)

/-- The command stays within its arrays; it is rejected and changes nothing, or
removes exactly the node that the pathname names. -/
def RemovesNamed
    (command : CStr → State → Result (Int × State))
    (pathname : CStr) (s : State) : Prop :=
  command pathname s ≠ .error .outOfBounds ∧
    ∀ n s', command pathname s = .ok (n, s') →
      (n = -1 ∧ SameTree s s') ∨
        (n = 0 ∧ ∃ p c, (s.split pathname).target = .ok (some p, some c) ∧
          RemovesExactly s s' c)

/-- A childless node that `rmdir` removes is the first child of its parent. -/
def RemovesOldest (s : State) (pathname : CStr) : Prop :=
  refused (Libgen.basename pathname) = false →
    ∀ p c parent node,
      (s.split pathname).target = .ok (some p, some c) →
      s.heap.lookup p = some parent → s.heap.lookup c = some node →
      node.Cptr = none → parent.Cptr = some c

section Cutting

variable {s s' : State} {kids : Nat → List Nat} {depth : Nat → Nat}
variable {p c : Nat} {first : Ptr} {l : List Nat} {names : List CStr}

/-- What is left of the child lists. -/
theorem Cut.listed
    (hcut : Cut s s' p c first)
    (h : Tree s kids depth)
    (hp : p ∈ s.heap)
    (hc : c ∈ kids p)
    (hchain : Chain s.shape.next first l)
    (hl : l.Sublist (kids p))
    (hcl : c ∉ l) :
    Listed s' (replaced kids p l) s.nameOf := by
  have hpc := h.planted.parent_ne hp hc
  have hlive := hcut.mem_iff
  have hnext : ∀ a, a ≠ c → s'.shape.next a = s.shape.next a := by
    intro a hac
    simp only [State.shape, hcut.old a hac]
    cases s.heap.lookup a <;> rfl
  have hmem : ∀ q ∈ s.heap, ∀ a ∈ replaced kids p l q,
      a ∈ s.heap ∧ a ≠ c := by
    intro q hq a ha
    have hkid := replaced_subset hl.subset q ha
    refine ⟨h.kids_mem hq hkid, ?_⟩
    rintro rfl
    have hqp := h.planted.parent_unique hq hp hkid hc
    rw [replaced, if_pos hqp] at ha
    exact hcl ha
  refine ⟨?_, ?_, ?_, ?_⟩
  · intro q hq
    obtain ⟨hq, hqc⟩ := (hlive q).mp hq
    have hfirst : s'.shape.first q =
        if q = p then first else s.shape.first q := by
      obtain ⟨node, hnode⟩ := lookup_of_mem hq
      simp only [State.shape, hcut.old q hqc, hnode]
      split <;> rfl
    have hold : Chain s.shape.next (s'.shape.first q) (replaced kids p l q) := by
      rw [hfirst, replaced]
      split
      next => exact hchain
      next => exact h.planted.chain q hq
    exact hold.congr (fun a ha => hnext a (hmem q hq a ha).2)
  · intro q hq
    rw [replaced]
    split
    next => exact (h.planted.nodup p hp).sublist hl
    next => exact h.planted.nodup q ((hlive q).mp hq).1
  · intro q hq a ha
    exact (hlive a).mpr (hmem q ((hlive q).mp hq).1 a ha)
  · intro q hq a ha
    exact hcut.nameOf_eq (hmem q ((hlive q).mp hq).1 a ha).2

/-- A walk that does not meet the removed node goes on as before. -/
theorem Cut.walkFrom_eq
    {a : Nat}
    (hcut : Cut s s' p c first)
    (h : Tree s kids depth)
    (hp : p ∈ s.heap)
    (hc : c ∈ kids p)
    (hl : ∀ f, f ∈ l ↔ f ∈ kids p ∧ f ≠ c)
    (hlisted : Listed s' (replaced kids p l) s.nameOf)
    (ha : a ∈ s.heap)
    (havoid : ∀ k, s.walkFrom (names.take k) (some a) ≠ .ok (some c)) :
    s'.walkFrom names (some a) = s.walkFrom names (some a) := by
  have hac : a ≠ c := fun heq => havoid 0 (by rw [heq]; rfl)
  induction names generalizing a with
  | nil =>
      rfl
  | cons nm names ih =>
      have htail : ∀ k, s.walkFrom (nm :: names.take k) (some a) ≠
          .ok (some c) := fun k => havoid (k + 1)
      rw [State.walkFrom, State.walkFrom]
      simp only [State.walkFrom] at htail
      split
      next hdot =>
        simp only [if_pos hdot] at htail
        exact ih ha htail hac
      next hdot =>
        simp only [if_neg hdot] at htail
        split
        next hdots =>
          simp only [if_pos hdots] at htail
          obtain ⟨node, hnode⟩ := lookup_of_mem ha
          obtain ⟨q, hq, hqmem⟩ := h.up_mem hnode
          have hnode' := hcut.old a hac
          rw [hnode, Option.map_some] at hnode'
          rw [load_eq hnode']
          simp only [load_eq hnode, Result.ok_bind, hq] at htail ⊢
          have hqc : q ≠ c := fun heq => htail 0 (by rw [heq]; rfl)
          exact ih hqmem htail hqc
        next hdots =>
          simp only [if_neg hdots] at htail
          have hlook := h.listed.lookC_eq ha nm
          have hlook' := hlisted.lookC_eq ((hcut.mem_iff a).mpr ⟨ha, hac⟩) nm
          have hiff := fun b => h.labelled.child_without (k := nm) (b := b)
            hp hc hl ha
          rw [hlook']
          simp only [hlook, Result.ok_bind] at htail ⊢
          cases hchild : child kids s.nameOf a nm with
          | none =>
              have hnone : child (replaced kids p l) s.nameOf a nm = none := by
                rw [Option.eq_none_iff_forall_ne_some]
                intro b hb
                rw [((hiff b).mp hb).1] at hchild
                cases hchild
              rw [hnone]
          | some b =>
              rw [hchild] at htail
              have hbc : b ≠ c := fun heq => htail 0 (by rw [heq]; rfl)
              rw [(hiff b).mpr ⟨hchild, hbc⟩]
              exact ih (h.kids_mem ha (of_child hchild).1) htail hbc

/-- The removed node alone is gone exactly when the list loses it alone. -/
theorem Cut.removesExactly_iff
    (hcut : Cut s s' p c first)
    (h : Tree s kids depth)
    (hp : p ∈ s.heap)
    (hc : c ∈ kids p)
    (hleaf : kids c = [])
    (hchain : Chain s.shape.next first l)
    (hl : l.Sublist (kids p))
    (hcl : c ∉ l) :
    RemovesExactly s s' c ↔ ∀ f ∈ kids p, f ≠ c → f ∈ l := by
  have hlisted := hcut.listed h hp hc hchain hl hcl
  have hroot := ((h.planted.mem_iff p c hp).mp hc).2.1
  have hroot' : s'.root ∈ s'.heap := by
    rw [hcut.root]
    exact (hcut.mem_iff _).mpr ⟨h.root_mem, hroot.symm⟩
  have hpaths : (∀ names a, s'.resolve names = .ok (some a) ↔
      s.resolve names = .ok (some a) ∧ a ≠ c) ↔
        ∀ f ∈ kids p, f ≠ c → f ∈ l := by
    rw [← h.labelled.loses_iff hp hc hleaf hl.subset hcl]
    simp only [hlisted.resolve_eq_ok hroot', h.resolve_eq_ok]
    rw [hcut.root]
    rfl
  constructor
  · intro hexact
    exact hpaths.mp hexact.paths
  · intro hall
    refine ⟨hcut.mem_iff, hpaths.mpr hall, ?_⟩
    intro nm havoid
    rw [hcut.root]
    refine hcut.walkFrom_eq h hp hc ?_ hlisted h.root_mem havoid
    intro f
    constructor
    · exact fun hf => ⟨hl.subset hf, fun hfc => hcl (hfc ▸ hf)⟩
    · exact fun hf => hall f hf.1 hf.2

end Cutting

section Commands

variable {s s' : State} {kids : Nat → List Nat} {depth : Nat → Nat}
variable {pathname : CStr} {p c : Nat} {node : Node}

/-- The parts of the pathname are not part of the tree. -/
theorem removesExactly_split :
    RemovesExactly (s.split pathname) s' c ↔ RemovesExactly s s' c := by
  constructor
  · intro h
    exact ⟨h.nodes, by simpa using h.paths, by simpa using h.walks⟩
  · intro h
    exact ⟨h.nodes, by simpa using h.paths, by simpa using h.walks⟩

theorem Tree.kids_eq_nil
    (h : Tree s kids depth)
    (hnode : s.heap.lookup c = some node)
    (hempty : node.Cptr = none) :
    kids c = [] := by
  have hhead := cptr_eq h.planted hnode
  rw [hempty] at hhead
  exact List.head?_eq_none_iff.mp hhead.symm

/-- What a command that has removed the node has to have left. -/
theorem RemovesNamed.exactly
    {command : CStr → State → Result (Int × State)}
    (h : RemovesNamed command pathname s)
    (hs' : command pathname s = .ok (0, s'))
    (htarget : (s.split pathname).target = .ok (some p, some c)) :
    RemovesExactly s s' c := by
  rcases h.2 0 s' hs' with ⟨hzero, _⟩ | ⟨_, q, x, htarget', hexact⟩
  · cases hzero
  · rw [htarget] at htarget'
    cases htarget'
    exact hexact

/-- A command that meets a NULL pointer, fails, or removes exactly its node. -/
theorem removesNamed_of_cases
    {command : CStr → State → Result (Int × State)}
    (h : command pathname s = .error .nullPointer ∨
      command pathname s = .ok (-1, s.split pathname) ∨
      ∃ p c s', (s.split pathname).target = .ok (some p, some c) ∧
        command pathname s = .ok (0, s') ∧ RemovesExactly s s' c) :
    RemovesNamed command pathname s := by
  rcases h with hnull | hfail | ⟨p, c, s', htarget, hs', hexact⟩
  · rw [RemovesNamed, hnull]
    exact ⟨by simp, by simp⟩
  · rw [RemovesNamed, hfail]
    refine ⟨by simp, ?_⟩
    rintro n s' ⟨⟩
    exact .inl ⟨rfl, sameTree_split s pathname⟩
  · rw [RemovesNamed, hs']
    refine ⟨by simp, ?_⟩
    rintro n s'' ⟨⟩
    exact .inr ⟨rfl, p, c, htarget, hexact⟩

/-- What is behind `c` is all the rest exactly when `c` comes first. -/
theorem behind_iff_head
    {pre post : List Nat}
    (hpre : c ∉ pre)
    (hdisjoint : ∀ f ∈ pre, f ∉ post) :
    (∀ f ∈ pre ++ c :: post, f ≠ c → f ∈ post) ↔
      (pre ++ c :: post).head? = some c := by
  cases pre with
  | nil =>
      simp only [List.nil_append, List.head?_cons, iff_true]
      intro f hf hfc
      exact (List.mem_cons.mp hf).resolve_left hfc
  | cons x pre =>
      have hxc : x ≠ c := fun heq => hpre (by simp [heq])
      constructor
      · intro hall
        exact absurd (hall x (by simp) hxc) (hdisjoint x (by simp))
      · intro hfirst
        exact absurd (by simpa using hfirst) hxc

/-- `c` is alone exactly when it comes first and nothing is behind it. -/
theorem alone_iff_head
    {pre post : List Nat}
    (hpre : c ∉ pre)
    (hpost : c ∉ post) :
    (∀ f ∈ pre ++ c :: post, f ≠ c → f ∈ ([] : List Nat)) ↔
      (pre ++ c :: post).head? = some c ∧ post = [] := by
  constructor
  · intro hall
    have honly : ∀ f ∈ pre ++ c :: post, f = c := by
      intro f hf
      by_contra hfc
      cases hall f hf hfc
    have hpre_nil : pre = [] := by
      apply List.eq_nil_iff_forall_not_mem.mpr
      intro f hf
      exact hpre (honly f (by simp [hf]) ▸ hf)
    have hpost_nil : post = [] := by
      apply List.eq_nil_iff_forall_not_mem.mpr
      intro f hf
      exact hpost (honly f (by simp [hf]) ▸ hf)
    subst hpre_nil hpost_nil
    exact ⟨rfl, rfl⟩
  · rintro ⟨hfirst, rfl⟩
    exact (behind_iff_head hpre (fun _ _ => List.not_mem_nil)).mpr hfirst

/-- The list of the parent goes on behind the removed node. -/
theorem Tree.rmdir_exactly
    {parent : Node}
    (h : Tree s kids depth)
    (hfits : FitsSplit pathname)
    (hname : refused (Libgen.basename pathname) = false)
    (htarget : (s.split pathname).target = .ok (some p, some c))
    (hparent : s.heap.lookup p = some parent)
    (hnode : s.heap.lookup c = some node)
    (hempty : node.Cptr = none) :
    ∃ s', rmdir pathname s = .ok (0, s') ∧
      (RemovesExactly s s' c ↔ parent.Cptr = some c) := by
  obtain ⟨hp, hc⟩ := h.target_child hfits htarget
  obtain ⟨s', hs', hcut⟩ := h.rmdir_eq hfits hname htarget hnode hempty
  obtain ⟨pre, post, hkids, hpre, hpost, hdisjoint, hchain⟩ :=
    h.siblings hp hc hnode
  have hsub : post.Sublist (kids p) := by
    rw [hkids]
    exact (List.sublist_cons_self c post).trans (List.sublist_append_right _ _)
  have hiff := hcut.removesExactly_iff (h.split pathname) hp hc
    (h.kids_eq_nil hnode hempty) hchain hsub hpost
  refine ⟨s', hs', removesExactly_split.symm.trans (hiff.trans ?_)⟩
  rw [cptr_eq h.planted hparent, hkids]
  exact behind_iff_head hpre hdisjoint

/-- Nothing is left of the list of the parent. -/
theorem Tree.rm_exactly
    {parent : Node}
    (h : Tree s kids depth)
    (hfits : FitsSplit pathname)
    (htarget : (s.split pathname).target = .ok (some p, some c))
    (hparent : s.heap.lookup p = some parent)
    (hnode : s.heap.lookup c = some node)
    (hfile : node.type = .G) :
    ∃ s', rm pathname s = .ok (0, s') ∧
      (RemovesExactly s s' c ↔ parent.Cptr = some c ∧ node.Sptr = none) := by
  obtain ⟨hp, hc⟩ := h.target_child hfits htarget
  obtain ⟨s', hs', hcut⟩ := h.rm_eq hfits htarget hnode hfile
  obtain ⟨pre, post, hkids, hpre, hpost, _, hchain⟩ := h.siblings hp hc hnode
  have hiff := hcut.removesExactly_iff (h.split pathname) hp hc
    (h.kids_eq_nil hnode (h.files c node hnode hfile)) (chain_nil.mpr rfl)
    (List.nil_sublist _) List.not_mem_nil
  have hlast : node.Sptr = none ↔ post = [] := by
    constructor
    · intro hnext
      rw [hnext] at hchain
      exact hchain.unique (chain_nil.mpr rfl)
    · rintro rfl
      exact chain_nil.mp hchain
  refine ⟨s', hs', removesExactly_split.symm.trans (hiff.trans ?_)⟩
  rw [cptr_eq h.planted hparent, hkids, hlast]
  exact alone_iff_head hpre hpost

/-- `rmdir` removes one node alone exactly when it is the first child. -/
theorem Tree.rmdir_removesNamed_iff
    (h : Tree s kids depth)
    (pathname : CStr) :
    RemovesNamed rmdir pathname s ↔
      FitsSplit pathname ∧ RemovesOldest s pathname := by
  constructor
  · intro hremoves
    have hfits : FitsSplit pathname := by
      by_contra hfits
      exact hremoves.1 (by rw [rmdir, z_eq_error hfits]; rfl)
    refine ⟨hfits, ?_⟩
    intro hname p c parent node htarget hparent hnode hempty
    obtain ⟨s', hs', hiff⟩ :=
      h.rmdir_exactly hfits hname htarget hparent hnode hempty
    exact hiff.mp (hremoves.exactly hs' htarget)
  · rintro ⟨hfits, holdest⟩
    apply removesNamed_of_cases
    rcases h.rmdir_cases hfits with
      hnull | hfail | ⟨p, c, node, hname, htarget, hnode, hempty⟩
    · exact .inl hnull
    · exact .inr (.inl hfail)
    · obtain ⟨hp, _⟩ := h.target_child hfits htarget
      obtain ⟨parent, hparent⟩ := lookup_of_mem hp
      obtain ⟨s', hs', hiff⟩ :=
        h.rmdir_exactly hfits hname htarget hparent hnode hempty
      exact .inr (.inr ⟨p, c, s', htarget, hs', hiff.mpr
        (holdest hname p c parent node htarget hparent hnode hempty)⟩)

/-- `rm` removes one node alone exactly when it is the only child. -/
theorem Tree.rm_removesNamed_iff
    (h : Tree s kids depth)
    (pathname : CStr) :
    RemovesNamed rm pathname s ↔
      FitsSplit pathname ∧ RemovesOnly s pathname := by
  constructor
  · intro hremoves
    have hfits : FitsSplit pathname := by
      by_contra hfits
      exact hremoves.1 (by rw [rm, z_eq_error hfits]; rfl)
    refine ⟨hfits, ?_⟩
    intro p c parent node htarget hparent hnode hfile
    obtain ⟨s', hs', hiff⟩ := h.rm_exactly hfits htarget hparent hnode hfile
    exact hiff.mp (hremoves.exactly hs' htarget)
  · rintro ⟨hfits, honly⟩
    apply removesNamed_of_cases
    rcases h.rm_cases hfits with
      hnull | hfail | ⟨p, c, node, htarget, hnode, hfile⟩
    · exact .inl hnull
    · exact .inr (.inl hfail)
    · obtain ⟨hp, _⟩ := h.target_child hfits htarget
      obtain ⟨parent, hparent⟩ := lookup_of_mem hp
      obtain ⟨s', hs', hiff⟩ := h.rm_exactly hfits htarget hparent hnode hfile
      exact .inr (.inr ⟨p, c, s', htarget, hs', hiff.mpr
        (honly p c parent node htarget hparent hnode hfile)⟩)

/-- When the two commands remove exactly what they are told to. -/
theorem removals_exact_iff
    (h : ∃ kids depth, Tree s kids depth)
    (pathname : CStr) :
    (RemovesNamed rmdir pathname s ↔
        FitsSplit pathname ∧ RemovesOldest s pathname) ∧
      (RemovesNamed rm pathname s ↔
        FitsSplit pathname ∧ RemovesOnly s pathname) := by
  obtain ⟨kids, depth, h⟩ := h
  exact ⟨h.rmdir_removesNamed_iff pathname, h.rm_removesNamed_iff pathname⟩

end Commands

section Example

variable {s : State} {kids : Nat → List Nat} {depth : Nat → Nat}
variable {request : Request}

/-- The state after a command that returns. -/
def State.after (s : State) (request : Request) : State :=
  match call request s with
  | .ok (_, s') => s'
  | .error _ => s

theorem Tree.after
    (h : Tree s kids depth)
    (hpossible : request.Possible s)
    (hkeeps : request.Keeps s) :
    ∃ kids depth, Tree (s.after request) kids depth := by
  have hsafe := h.call_safe hpossible hkeeps
  unfold State.after
  cases hcall : call request s with
  | error e =>
      exact ⟨kids, depth, h⟩
  | ok result =>
      exact hsafe.2 result.1 result.2 hcall

/-- `create` of a new name in a directory keeps the tree. -/
theorem keeps_create
    {pathname : CStr} {block : Ptr} {p : Nat}
    (hfits : FitsSplit pathname)
    (htarget : (s.split pathname).target = .ok (some p, none))
    (hdir : (s.heap.lookup p).map Node.type ≠ some .G) :
    Request.Keeps ⟨.create, pathname, block⟩ s := by
  refine ⟨hfits, ?_⟩
  intro _ q parent hq hparent htype
  rw [htarget] at hq
  cases hq
  rw [hparent, Option.map_some, htype] at hdir
  exact hdir rfl

def oneFile : State :=
  (State.initialized 0).after ⟨.create, literal "a", some 1⟩

def twoFiles : State :=
  oneFile.after ⟨.create, literal "b", some 2⟩

theorem twoFiles_tree :
    ∃ kids depth, Tree twoFiles kids depth := by
  have hone : ∃ kids depth, Tree oneFile kids depth :=
    (initialized_tree 0).after (by decide)
      (keeps_create (p := 0) (by decide) (by decide +kernel) (by decide +kernel))
  obtain ⟨kids, depth, hone⟩ := hone
  exact hone.after (by decide +kernel)
    (keeps_create (p := 0) (by decide) (by decide +kernel) (by decide +kernel))

theorem twoFiles_removals :
    (RemovesNamed rmdir (literal "a") twoFiles ↔
        FitsSplit (literal "a") ∧ RemovesOldest twoFiles (literal "a")) ∧
      (RemovesNamed rm (literal "a") twoFiles ↔
        FitsSplit (literal "a") ∧ RemovesOnly twoFiles (literal "a")) :=
  removals_exact_iff twoFiles_tree (literal "a")

/-- `rm a` makes `/b` lead nowhere. -/
theorem rm_removes_sibling :
    (∃ kids depth, Tree twoFiles kids depth) ∧
      ¬ RemovesNamed rm (literal "a") twoFiles := by
  refine ⟨twoFiles_tree, ?_⟩
  intro hremoves
  obtain ⟨kids, depth, h⟩ := twoFiles_tree
  obtain ⟨_, honly⟩ := (h.rm_removesNamed_iff (literal "a")).mp hremoves
  have htarget : (twoFiles.split (literal "a")).target =
      .ok (some 0, some 1) := by
    decide +kernel
  have hsecond : ((twoFiles.heap.lookup 0).any fun _ =>
      (twoFiles.heap.lookup 1).any fun node =>
        decide (node.type = .G ∧ node.Sptr ≠ none)) = true := by
    decide +kernel
  obtain ⟨parent, hparent, hsecond⟩ := (Option.any_eq_true _ _).mp hsecond
  obtain ⟨node, hnode, hsecond⟩ := (Option.any_eq_true _ _).mp hsecond
  obtain ⟨htype, hnext⟩ := of_decide_eq_true hsecond
  exact hnext (honly 0 1 parent node htarget hparent hnode htype).2

end Example

end Filesystem
end PastWork
