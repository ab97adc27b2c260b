import PastWork.Filesystem.Lines

/-!
# `pwd` and `cd`

`pwd` climbs the parent links, and `cd` walks down the child lists along the names
that `pwd` has printed.  Where nothing is removed, a node has one path, and the walk
along it ends at the node when it starts at the root.  The root itself is no
directory to `cd`.
-/

namespace PastWork
namespace Filesystem

open Forests Descents Steps
open Libgen (slash Absolute)

/-- A name that a pathname can have as a component. -/
structure Proper (nm : CStr) : Prop where
  nonempty : nm ≠ []
  noSlash : slash ∉ nm
  noDot : nm ≠ literal "."
  noDots : nm ≠ literal ".."

/-- What `mkdir` and `create` can build, also below a file. -/
structure Grown
    (s : State) (kids : Nat → List Nat) (depth : Nat → Nat) : Prop where
  labelled : Labelled s.shape kids depth s.nameOf
  proper : ∀ a nm, s.nameOf a = some nm → a ≠ s.root → Proper nm
  types : ∀ a node, s.heap.lookup a = some node →
    (node.type = .D ↔ a = s.root)

/-- The names from the root, each followed by a slash. -/
def printed (names : List CStr) : CStr :=
  slash :: (names.map (fun nm => nm ++ [slash])).flatten

section Printing

variable {s : State} {kids : Nat → List Nat} {depth : Nat → Nat}
variable {names : List CStr} {d : Nat}

theorem printed_concat
    (names : List CStr) (nm : CStr) :
    printed (names ++ [nm]) = printed names ++ nm ++ [slash] := by
  simp [printed]

/-- The components of what is printed are the names. -/
theorem components_printed
    (h : ∀ nm ∈ names, Proper nm) :
    components (printed names) = names := by
  have hroot : printed names =
      [] ++ slash :: (names.map (fun nm => nm ++ [slash])).flatten := rfl
  have hempty : components [] = [] := by decide
  rw [hroot, components_append, hempty, List.nil_append]
  induction names with
  | nil =>
      exact hempty
  | cons nm names ih =>
      have hnm := h nm List.mem_cons_self
      rw [List.map_cons, List.flatten_cons, List.append_assoc,
        List.singleton_append, components_append,
        components_of_notMem hnm.noSlash hnm.nonempty,
        ih (fun nm' hnm' => h nm' (List.mem_cons_of_mem nm hnm')) rfl]
      rfl

/-- The names along a path are names of nodes. -/
theorem Grown.names_proper
    (h : Grown s kids depth)
    (hd : descend kids s.nameOf names s.root = some d) :
    ∀ nm ∈ names, Proper nm := by
  induction names using List.reverseRecOn generalizing d with
  | nil =>
      simp
  | append_singleton names nm ih =>
      obtain ⟨p, hp, hchild⟩ := descend_concat.mp hd
      obtain ⟨hmem, hname⟩ := of_child hchild
      have hlive := h.labelled.descend_live h.labelled.planted.root_live hp
      have hroot := ((h.labelled.planted.mem_iff p d hlive).mp hmem).2.1
      intro nm' hnm'
      rcases List.mem_append.mp hnm' with hnm' | hnm'
      · exact ih hp nm' hnm'
      · rw [List.mem_singleton.mp hnm']
        exact h.proper d nm hname hroot

/-- `helperFunction` prints the path of a node. -/
theorem Grown.helperFunction_eq
    {fuel : Nat}
    (h : Grown s kids depth)
    (hd : descend kids s.nameOf names s.root = some d)
    (hfuel : names.length < fuel) :
    s.helperFunction fuel (some d) = .ok (printed names) := by
  induction names using List.reverseRecOn generalizing d fuel with
  | nil =>
      cases hd
      cases fuel with
      | zero => simp at hfuel
      | succ fuel =>
          rw [State.helperFunction, if_pos rfl]
          rfl
  | append_singleton names nm ih =>
      obtain ⟨p, hp, hchild⟩ := descend_concat.mp hd
      obtain ⟨hmem, hname⟩ := of_child hchild
      have hlive := h.labelled.descend_live h.labelled.planted.root_live hp
      obtain ⟨hdmem, hroot, hup⟩ :=
        (h.labelled.planted.mem_iff p d hlive).mp hmem
      obtain ⟨node, hnode⟩ := lookup_of_mem hdmem
      have hpptr : node.Pptr = some p := by
        simpa [State.shape, hnode] using hup
      have hnm : node.nm = nm := by
        simpa [State.nameOf, hnode] using hname
      rw [List.length_append, List.length_singleton] at hfuel
      cases fuel with
      | zero => omega
      | succ fuel =>
          have hne : ¬ some d = some s.root := fun heq =>
            hroot (Option.some_inj.mp heq)
          rw [State.helperFunction, if_neg hne, load_eq hnode, Result.ok_bind,
            hpptr, ih hp (by omega), Result.ok_bind, hnm, printed_concat]

/-- `pwd` has enough nodes to climb over. -/
theorem Grown.pwd_eq
    (h : Grown s kids depth)
    (hd : descend kids s.nameOf names s.root = some d)
    (hcwd : s.cwd = d) :
    pwd s = .ok (printed names) := by
  have hshort := h.labelled.path_length_lt
    (fun a ha => Finmap.mem_keys.mpr ha) hd
  rw [pwd, hcwd]
  exact h.helperFunction_eq hd hshort

end Printing

section Walking

variable {s : State} {kids : Nat → List Nat} {depth : Nat → Nat}
variable {names : List CStr} {d : Nat}

theorem Grown.walkFrom_eq
    {a : Nat}
    (h : Grown s kids depth)
    (hnames : ∀ nm ∈ names, Proper nm)
    (ha : a ∈ s.heap) :
    s.walkFrom names (some a) = .ok (descend kids s.nameOf names a) := by
  rw [State.walkFrom_names s
    (fun nm hnm => ⟨(hnames nm hnm).noDot, (hnames nm hnm).noDots⟩)]
  exact (listed_of_labelled h.labelled).resolveFrom_eq names ha

/-- A walk along a name starts at a node. -/
theorem mem_of_walkFrom
    {a : Nat} {nm : CStr} {q : Ptr}
    (hnm : Proper nm)
    (h : s.walkFrom (nm :: names) (some a) = .ok q) :
    a ∈ s.heap := by
  rw [State.walkFrom, if_neg hnm.noDot, if_neg hnm.noDots] at h
  obtain ⟨chief, hchief, _⟩ := Result.bind_eq_ok h
  obtain ⟨parent, hparent, _⟩ := Result.bind_eq_ok hchief
  exact mem_of_lookup (load_eq_ok hparent)

/-- The path of a node leads to it from the root and from nowhere else. -/
theorem Grown.walkFrom_iff
    {a : Nat}
    (h : Grown s kids depth)
    (hd : descend kids s.nameOf names s.root = some d)
    (hroot : d ≠ s.root) :
    s.walkFrom names (some a) = .ok (some d) ↔ a = s.root := by
  have hnames := h.names_proper hd
  constructor
  · intro hwalk
    have ha : a ∈ s.heap := by
      cases names with
      | nil =>
          cases hd
          exact absurd rfl hroot
      | cons nm names =>
          exact mem_of_walkFrom (hnames nm List.mem_cons_self) hwalk
    rw [h.walkFrom_eq hnames ha] at hwalk
    obtain ⟨front, hfront⟩ := h.labelled.exists_path ha
    have hlonger : descend kids s.nameOf (front ++ names) s.shape.root =
        some d := by
      rw [descend_append, hfront, Option.bind_some]
      exact Except.ok.inj hwalk
    have hsame := h.labelled.path_unique hlonger hd
    obtain rfl : front = [] := by simpa using hsame
    exact (Option.some_inj.mp hfront).symm
  · rintro rfl
    have hlive : s.root ∈ s.heap := h.labelled.planted.root_live
    rw [h.walkFrom_eq hnames hlive, hd]

/-- The walk of `cd` starts at the root. -/
theorem start_eq_root
    (s : State) :
    s.start = s.root ↔ Absolute s.dirname ∨ s.cwd = s.root := by
  unfold State.start Absolute
  split_ifs with habs
  · simp [habs]
  · simp [habs]

/-- `cd` goes along a path that it has room for, when it starts at the root. -/
theorem Grown.cd_printed_iff
    {node : Node}
    (h : Grown s kids depth)
    (hd : descend kids s.nameOf names s.root = some d)
    (hnode : s.heap.lookup d = some node)
    (htype : node.type ≠ .G) :
    cd (printed names) s = .ok (0, { s with cwd := d }) ↔
      d ≠ s.root ∧ (printed names).length < 130 ∧ names.length ≤ 40 ∧
        (Absolute s.dirname ∨ s.cwd = s.root) := by
  have hcomponents := components_printed (h.names_proper hd)
  constructor
  · intro hcd
    obtain ⟨a, node', hnodeP, hnode', hresult⟩ := cd_eq_ok hcd
    obtain ⟨hdir, hsame⟩ : node'.type = .Y ∧ a = d := by
      rcases hresult with ⟨hdir, _, hstate⟩ | ⟨_, hn, _⟩
      · exact ⟨hdir, (congrArg State.cwd hstate).symm⟩
      · exact absurd hn (by decide)
    subst hsame
    have hroot : a ≠ s.root := by
      intro heq
      have htop := (h.types a node' hnode').mpr heq
      rw [hdir] at htop
      cases htop
    obtain ⟨nm, htokens, hwalk⟩ := Result.bind_eq_ok hnodeP
    by_cases hfits : (printed names).length < 130 ∧
        (components (printed names)).length ≤ 40
    · rw [tokenize_eq_ok hfits.1 hfits.2, hcomponents] at htokens
      cases htokens
      rw [hcomponents] at hfits
      have hstart := (h.walkFrom_iff hd hroot).mp hwalk
      exact ⟨hroot, hfits.1, hfits.2, (start_eq_root s).mp hstart⟩
    · rw [tokenize_eq_error hfits] at htokens
      cases htokens
  · rintro ⟨hroot, hlength, hcount, hstart⟩
    have hdir : node.type = .Y := by
      have htop := mt (h.types d node hnode).mp hroot
      cases hkind : node.type with
      | D => exact absurd hkind htop
      | Y => rfl
      | G => exact absurd hkind htype
    have hwalk := (h.walkFrom_iff hd hroot).mpr ((start_eq_root s).mpr hstart)
    rw [cd, nodeP_eq_bind, tokenize_eq_ok hlength (by rwa [hcomponents]),
      Result.ok_bind, hcomponents, hwalk, Result.ok_bind, deref_some,
      Result.ok_bind, load_eq hnode, Result.ok_bind, if_pos hdir]

end Walking

section Growing

variable {s s' : State} {kids : Nat → List Nat} {depth : Nat → Nat}
variable {pathname : CStr} {block : Ptr} {type : NodeType} {n : Int}

/-- `Grown` is about the nodes and the root. -/
theorem Grown.congr
    (h : Grown s kids depth)
    (hheap : s'.heap = s.heap)
    (hroot : s'.root = s.root) :
    Grown s' kids depth := by
  have hshape : s'.shape = s.shape := by
    unfold State.shape
    rw [hheap, hroot]
  have hname : s'.nameOf = s.nameOf := by
    unfold State.nameOf
    rw [hheap]
  refine ⟨?_, ?_, ?_⟩
  · rw [hshape, hname]
    exact h.labelled
  · rw [hname, hroot]
    exact h.proper
  · rw [hheap, hroot]
    exact h.types

/-- A name that is not refused is a component. -/
theorem proper_basename
    (h : refused (Libgen.basename pathname) = false) :
    Proper (Libgen.basename pathname) := by
  simp only [refused, Bool.or_eq_false_iff, decide_eq_false_iff_not] at h
  obtain ⟨⟨hslash, hdot⟩, hdots⟩ := h
  obtain ⟨hname, hne⟩ := Libgen.basename_name hslash
  exact ⟨hne, hname, hdot, hdots⟩

theorem grown_initialized
    (root : Nat) :
    Grown (State.initialized root) (fun _ => []) (fun _ => 0) := by
  have hmem : ∀ {a node}, (State.initialized root).heap.lookup a = some node →
      a = root := fun hnode =>
    (Finmap.mem_singleton _ root _).mp (mem_of_lookup hnode)
  refine ⟨(initialized_tree root).labelled, ?_, ?_⟩
  · intro a nm hnm hroot
    obtain ⟨node, hnode, _⟩ := Option.map_eq_some_iff.mp hnm
    exact absurd (hmem hnode) hroot
  · intro a node hnode
    obtain rfl := hmem hnode
    have hlookup : (State.initialized a).heap.lookup a = some _ :=
      Finmap.lookup_singleton_eq
    rw [hlookup] at hnode
    cases hnode
    exact iff_of_true rfl rfl

/-- A node of a new name below any other one. -/
theorem Grown.attached
    {p z : Nat} {node : Node}
    (h : Grown s kids depth)
    (hs' : Attached s s' p z node (kids p))
    (hp : p ∈ s.heap)
    (hz : z ∉ s.heap)
    (hname : ∀ a ∈ kids p, s.nameOf a ≠ some node.nm)
    (hproper : Proper node.nm)
    (htype : node.type ≠ .D) :
    ∃ kids' depth', Grown s' kids' depth' := by
  have hplanted := h.labelled.planted
  have hgrafted := hs'.grafted hp hz (hplanted.first_eq hp)
    (fun a ha => hplanted.kid_live hp ha)
  have hroot : s.root ≠ z := fun heq => hz (heq ▸ hplanted.root_live)
  refine ⟨_, _, ⟨hplanted.graft hgrafted hp hz,
    hs'.names hplanted h.labelled.names hp hz hname, ?_⟩, ?_, ?_⟩
  · intro a ha
    obtain ⟨new, hnew⟩ := lookup_of_mem ha
    exact ⟨new.nm, by simp [State.nameOf, hnew]⟩
  · intro a nm hnm hne
    rw [hs'.root] at hne
    by_cases haz : a = z
    · have hnew : s'.nameOf z = some node.nm := by
        simp [State.nameOf, hs'.new]
      rw [haz, hnew] at hnm
      exact Option.some_inj.mp hnm ▸ hproper
    · rw [hs'.nameOf_eq haz] at hnm
      exact h.proper a nm hnm hne
  · intro a new hnew
    rw [hs'.root]
    by_cases haz : a = z
    · rw [haz, hs'.new] at hnew
      cases hnew
      exact iff_of_false htype (fun heq => hroot (heq.symm.trans haz))
    · rw [hs'.old a haz] at hnew
      obtain ⟨old, hold, rfl⟩ := Option.map_eq_some_iff.mp hnew
      exact h.types a old hold

/-- `mkdir` and `create` build nothing else. -/
theorem Grown.make
    (h : Grown s kids depth)
    (htype : type ≠ .D)
    (hblock : ∀ a ∈ block, a ∉ s.heap)
    (hmake : make type block pathname s = .ok (n, s')) :
    ∃ kids' depth', Grown s' kids' depth' := by
  have hsplit : Grown (s.split pathname) kids depth := h.congr rfl rfl
  obtain ⟨m, hm, hmake⟩ := Result.bind_eq_ok hmake
  obtain rfl := z_eq_split hm
  split at hmake
  next =>
    cases hmake
    exact ⟨kids, depth, hsplit⟩
  next hrefused =>
    obtain ⟨⟨sT, chief⟩, htarget, hmake⟩ := Result.bind_eq_ok hmake
    cases chief with
    | some c =>
        cases hmake
        exact ⟨kids, depth, hsplit⟩
    | none =>
        -- a parent that has been searched is a node
        obtain ⟨q, _, htarget⟩ := Result.bind_eq_ok htarget
        obtain ⟨chief, hlook, htarget⟩ := Result.bind_eq_ok htarget
        cases htarget
        obtain ⟨parent, hload, _⟩ := Result.bind_eq_ok hlook
        cases sT with
        | none => cases hload
        | some p =>
            have hp := mem_of_lookup (load_eq_ok hload)
            rw [(listed_of_labelled hsplit.labelled).lookC_eq hp] at hlook
            have hname := child_eq_none.mp (Except.ok.inj hlook)
            obtain ⟨z, hz, hmake⟩ := Result.bind_eq_ok hmake
            obtain ⟨nm, hnm, hmake⟩ := Result.bind_eq_ok hmake
            obtain ⟨s₁, hinsert, hmake⟩ := Result.bind_eq_ok hmake
            cases hmake
            cases block with
            | none => cases hz
            | some z' =>
                cases hz
                obtain rfl := copied_eq_ok hnm
                obtain ⟨s₂, hs₂, hattached⟩ :=
                  insert_child_eq hsplit.labelled.planted hp (hblock z rfl) _
                rw [hinsert] at hs₂
                cases hs₂
                exact hsplit.attached hattached hp (hblock z rfl) hname
                  (proper_basename (by simpa using hrefused)) htype

/-- A line that removes nothing. -/
def Line.Adds (line : Line) : Prop :=
  line.user_command ≠ .change .rmdir ∧ line.user_command ≠ .change .rm

instance (line : Line) : Decidable line.Adds :=
  inferInstanceAs (Decidable (_ ∧ _))

theorem Grown.obey
    {line : Line}
    (h : Grown s kids depth)
    (hadds : line.Adds)
    (hstep : obey s line = some s') :
    ∃ kids' depth', Grown s' kids' depth' := by
  obtain ⟨hblock, n, hrun⟩ := obey_eq_some hstep
  obtain ⟨user_command, pathname, block⟩ := line
  cases user_command with
  | change command =>
      obtain ⟨⟨k, m⟩, hcall, hrun⟩ := Result.bind_eq_ok hrun
      cases hrun
      cases command with
      | mkdir => exact h.make (by decide) hblock hcall
      | create => exact h.make (by decide) hblock hcall
      | rmdir => exact absurd rfl hadds.1
      | rm => exact absurd rfl hadds.2
      | cd =>
          obtain ⟨a, node, _, _, ⟨_, _, rfl⟩ | ⟨_, _, rfl⟩⟩ := cd_eq_ok hcall
          · exact ⟨kids, depth, h.congr rfl rfl⟩
          · exact ⟨kids, depth, h⟩
  | ls =>
      obtain ⟨⟨printed, m⟩, hls, hrun⟩ := Result.bind_eq_ok hrun
      cases hrun
      rw [ls_eq_ok hls]
      exact ⟨kids, depth, h.congr rfl rfl⟩
  | pwd =>
      obtain ⟨printed, _, hrun⟩ := Result.bind_eq_ok hrun
      cases hrun
      exact ⟨kids, depth, h⟩

/-- What lines that remove nothing can build. -/
theorem grown_of_exec
    {root : Nat} {lines : List Line}
    (h : exec Filesystem.obey (State.initialized root) lines = some s)
    (hadds : ∀ line ∈ lines, line.Adds) :
    ∃ kids depth, Grown s kids depth := by
  induction lines using List.reverseRecOn generalizing s with
  | nil =>
      cases h
      exact ⟨_, _, grown_initialized root⟩
  | append_singleton lines line ih =>
      obtain ⟨m, hm, hlast⟩ := exec_snoc h
      obtain ⟨kids, depth, hgrown⟩ :=
        ih hm (fun l hl => hadds l (List.mem_append_left _ hl))
      exact hgrown.obey (hadds line (by simp)) hlast

/-- In a tree without removals, and from any `cwd` and `dirname`, `cd` goes to a
directory along the path that `pwd` prints for it if and only if the directory is
not the root, the path fits the arrays, and `cd` starts at the root. -/
theorem cd_pwd_iff
    {root : Nat} {lines : List Line} {t : State} {d : Nat} {node : Node}
    (hs : exec obey (State.initialized root) lines = some s)
    (hadds : ∀ line ∈ lines, line.Adds)
    (hheap : t.heap = s.heap)
    (hroot : t.root = s.root)
    (hnode : t.heap.lookup d = some node)
    (htype : node.type ≠ .G) :
    ∃ names, t.resolve names = .ok (some d) ∧
      pwd { t with cwd := d } = .ok (printed names) ∧
      (cd (printed names) t = .ok (0, { t with cwd := d }) ↔
        d ≠ t.root ∧ (printed names).length < 130 ∧ names.length ≤ 40 ∧
          (Absolute t.dirname ∨ t.cwd = t.root)) := by
  obtain ⟨kids, depth, hgrown⟩ := grown_of_exec hs hadds
  have ht : Grown t kids depth := hgrown.congr hheap hroot
  obtain ⟨names, hd⟩ := ht.labelled.exists_path (mem_of_lookup hnode)
  refine ⟨names, ?_, ?_, ht.cd_printed_iff hd hnode htype⟩
  · exact ((listed_of_labelled ht.labelled).resolve_eq_ok
      ht.labelled.planted.root_live).mpr hd
  · have hthere : Grown { t with cwd := d } kids depth := ht.congr rfl rfl
    exact hthere.pwd_eq hd rfl

end Growing

section Example

/-- A directory is made, and becomes `cwd`. -/
theorem cd_pwd_iff_entered :
    ∃ s, exec obey (State.initialized 0) (entered (literal "/a")) = some s ∧
      ∃ names, s.resolve names = .ok (some 1) ∧
        pwd { s with cwd := 1 } = .ok (printed names) ∧
        (cd (printed names) s = .ok (0, { s with cwd := 1 }) ↔
          1 ≠ s.root ∧ (printed names).length < 130 ∧ names.length ≤ 40 ∧
            (Absolute s.dirname ∨ s.cwd = s.root)) := by
  have hrun : (exec obey (State.initialized 0) (entered (literal "/a"))).any
      (fun s => (s.heap.lookup 1).any
        (fun node => decide (node.type ≠ .G))) = true := by
    decide +kernel
  obtain ⟨s, hs, hrun⟩ := (Option.any_eq_true _ _).mp hrun
  obtain ⟨node, hnode, htype⟩ := (Option.any_eq_true _ _).mp hrun
  exact ⟨s, hs, cd_pwd_iff hs (by decide) rfl rfl hnode
    (of_decide_eq_true htype)⟩

/-- `cd /` fails, although `pwd` prints it for the root. -/
theorem cd_root_fails :
    pwd (State.initialized 0) = .ok (literal "/") ∧
      cd (literal "/") (State.initialized 0) ≠
        .ok (0, State.initialized 0) := by
  refine ⟨by decide +kernel, fun hcd => ?_⟩
  have hfails : (cd (literal "/") (State.initialized 0)).toOption.map
      Prod.fst = some (-1) := by
    decide +kernel
  rw [hcd] at hfails
  exact absurd hfails (by decide)

end Example

end Filesystem
end PastWork
