import PastWork.Filesystem.Volume
import PastWork.Library.Sessions

/-!
# The program is a volume

The linked nodes hold a volume: every path of the volume leads to one node, and the
children of a node are, in order, what is below its path.  Each command keeps this
and gives the answer of the volume, so that a whole session of the program is one
of the volume.
-/

namespace PastWork
namespace Filesystem

open Links Forests Descents Sessions
open Libgen (slash Absolute)

/-- What a line returns or gives to `printf`, and the state after it. -/
def Line.reply (line : Line) (s : State) : Result (Reply × State) :=
  match line.user_command with
  | .change command => do
      let (n, s) ← call ⟨command, line.pathname, line.block⟩ s
      .ok (.returned n, s)
  | .ls => do
      let (rows, s) ← ls line.pathname s
      .ok (.listed rows, s)
  | .pwd => do
      let text ← pwd s
      .ok (.printed text, s)

namespace State

/-- The program answers a line, unless it ends with a fault. -/
def answer (s : State) (line : Line) : Option (Reply × State) :=
  if ∀ a ∈ line.block, a ∉ s.heap then (line.reply s).toOption else none

/-- What `malloc` returns is not in use. -/
def Fresh (s : State) (line : Line) : Prop :=
  ∀ a ∈ line.block, a ∉ s.heap

instance (s : State) (line : Line) : Decidable (s.Fresh line) := by
  unfold Fresh
  infer_instance

def typeOf (s : State) (a : Nat) : Option NodeType :=
  (s.heap.lookup a).map Node.type

/-- What `ls` prints of a node. -/
def rowOf (s : State) (a : Nat) : Option (NodeType × CStr) :=
  (s.heap.lookup a).map (fun node => (node.type, node.nm))

end State

/-- The answers are those of the lines. -/
theorem obey_eq_answer
    (s : State) (line : Line) :
    obey s line = (s.answer line).map Prod.snd := by
  have hrun : line.run s = (line.reply s).map
      (fun out => (match out.1 with
        | .returned n => some n
        | _ => none, out.2)) := by
    obtain ⟨user_command, pathname, block⟩ := line
    cases user_command with
    | change command =>
        simp only [Line.run, Line.reply]
        cases call ⟨command, pathname, block⟩ s <;> rfl
    | ls =>
        simp only [Line.run, Line.reply]
        cases ls pathname s <;> rfl
    | pwd =>
        simp only [Line.run, Line.reply]
        cases pwd s <;> rfl
  unfold obey State.answer
  split
  · rw [hrun]
    cases line.reply s <;> rfl
  · rfl

/-- The nodes hold what is in the volume, under the child lists `kids`. -/
structure Lays
    (s : State) (kids : Nat → List Nat) (depth : Nat → Nat) (v : Volume) :
    Prop where
  grown : Grown s kids depth
  root_up : s.shape.up s.root = some s.root
  children : ∀ path a, descend kids s.nameOf path s.root = some a →
    (kids a).map s.rowOf = (v.children path).map some
  fronts : ∀ e ∈ v.entries, ∃ a, descend kids s.nameOf e.front s.root = some a
  cwd : descend kids s.nameOf v.cwd s.root = some s.cwd
  cwd_dir : s.typeOf s.cwd ≠ some .G
  dirname : s.dirname = v.dirname

/-- The nodes hold what is in the volume. -/
def State.Shows (s : State) (v : Volume) : Prop :=
  ∃ kids depth, Lays s kids depth v

/-- The program faults and the volume has no answer, or both answer alike. -/
def Alike {β : Type} (r : Result (β × State)) (o : Option (β × Volume)) : Prop :=
  (∃ e, r = .error e) ∧ o = none ∨
    ∃ b s v, r = .ok (b, s) ∧ o = some (b, v) ∧ s.Shows v

/-- A path of the volume and the node to which it leads, or nothing. -/
def Leads
    (s : State) (kids : Nat → List Nat) (o : Option (List CStr)) (q : Ptr) :
    Prop :=
  o = none ∧ q = none ∨
    ∃ path a, o = some path ∧ q = some a ∧
      descend kids s.nameOf path s.root = some a

/-- Searching a list and searching what its members stand for. -/
theorem find?_of_map_some
    {α β : Type} {f : α → Option β} {l : List α} {m : List β}
    (h : l.map f = m.map some)
    (p : β → Bool) :
    m.find? p = (l.find? (fun a => (f a).any p)).bind f := by
  induction l generalizing m with
  | nil =>
      obtain rfl : m = [] := List.map_eq_nil_iff.mp h.symm
      rfl
  | cons a l ih =>
      cases m with
      | nil =>
          cases h
      | cons b m =>
          obtain ⟨hhead, htail⟩ := List.cons.inj h
          rw [List.find?_cons, List.find?_cons, hhead, Option.any_some]
          cases p b with
          | true => exact hhead.symm
          | false => exact ih htail

namespace Lays

variable {s : State} {kids : Nat → List Nat} {depth : Nat → Nat} {v : Volume}
variable {path : List CStr} {a : Nat}

theorem root_mem
    (h : Lays s kids depth v) :
    s.root ∈ s.heap :=
  h.grown.labelled.planted.root_live

theorem mem_of_descend
    (h : Lays s kids depth v)
    (ha : descend kids s.nameOf path s.root = some a) :
    a ∈ s.heap :=
  h.grown.labelled.descend_live h.root_mem ha

theorem split
    (h : Lays s kids depth v)
    (pathname : CStr) :
    Lays (s.split pathname) kids depth (v.split pathname) where
  grown := h.grown.congr rfl rfl
  root_up := h.root_up
  children := h.children
  fronts := h.fronts
  cwd := h.cwd
  cwd_dir := h.cwd_dir
  dirname := rfl

/-- A name is looked up among the children. -/
theorem lookup_eq
    (h : Lays s kids depth v)
    (ha : descend kids s.nameOf path s.root = some a)
    (nm : CStr) :
    v.lookup path nm = (child kids s.nameOf a nm).bind s.typeOf := by
  have hfind := find?_of_map_some (h.children path a ha)
    (fun row => decide (row.2 = nm))
  have hsame : (kids a).find? (fun c => (s.rowOf c).any
      (fun row => decide (row.2 = nm))) = child kids s.nameOf a nm := by
    refine List.find?_congr (fun c _ => ?_)
    unfold State.rowOf State.nameOf
    cases s.heap.lookup c <;> simp
  rw [Volume.lookup, hfind, hsame]
  cases child kids s.nameOf a nm with
  | none =>
      rfl
  | some c =>
      simp only [Option.bind_some, State.rowOf, State.typeOf, Option.map_map]
      rfl

/-- A name that is there belongs to a node. -/
theorem lookup_isSome
    (h : Lays s kids depth v)
    (ha : descend kids s.nameOf path s.root = some a)
    (nm : CStr) :
    (v.lookup path nm).isSome = (child kids s.nameOf a nm).isSome := by
  rw [h.lookup_eq ha]
  cases hchild : child kids s.nameOf a nm with
  | none =>
      rfl
  | some c =>
      have hc := h.grown.labelled.planted.kid_live (h.mem_of_descend ha)
        (of_child hchild).1
      obtain ⟨node, hnode⟩ := lookup_of_mem hc
      simp [State.typeOf, hnode]

/-- The parent of the node at a path is at the path without its last name. -/
theorem up_eq
    (h : Lays s kids depth v)
    (ha : descend kids s.nameOf path s.root = some a) :
    ∃ node p, s.heap.lookup a = some node ∧ node.Pptr = some p ∧
      descend kids s.nameOf path.dropLast s.root = some p := by
  obtain ⟨node, hnode⟩ := lookup_of_mem (h.mem_of_descend ha)
  have hup : s.shape.up a = node.Pptr := by
    simp [State.shape, hnode]
  refine ⟨node, ?_⟩
  cases path using List.reverseRecOn with
  | nil =>
      obtain rfl : s.root = a := Option.some_inj.mp ha
      exact ⟨s.root, hnode, hup.symm.trans h.root_up, rfl⟩
  | append_singleton front nm =>
      obtain ⟨p, hp, hchild⟩ := descend_concat.mp ha
      have hmem := (of_child hchild).1
      have hlink :=
        ((h.grown.labelled.planted.mem_iff p a (h.mem_of_descend hp)).mp hmem).2.2
      exact ⟨p, hnode, hup.symm.trans hlink, by rwa [List.dropLast_concat]⟩

/-- The loop of `nodeP` follows the components. -/
theorem walkFrom_leads
    (h : Lays s kids depth v)
    (names : List CStr)
    (ha : descend kids s.nameOf path s.root = some a) :
    ∃ q, s.walkFrom names (some a) = .ok q ∧
      Leads s kids (v.follow names path) q := by
  induction names generalizing path a with
  | nil =>
      exact ⟨some a, rfl, .inr ⟨path, a, rfl, rfl, ha⟩⟩
  | cons nm names ih =>
      rw [State.walkFrom, Volume.follow]
      by_cases hdot : nm = literal "."
      · rw [if_pos hdot, if_pos hdot]
        exact ih ha
      · rw [if_neg hdot, if_neg hdot]
        by_cases hdots : nm = literal ".."
        · obtain ⟨node, p, hnode, hpptr, hp⟩ := h.up_eq ha
          rw [if_pos hdots, if_pos hdots, load_eq hnode, Result.ok_bind, hpptr]
          exact ih hp
        · have hlook := (listed_of_labelled h.grown.labelled).lookC_eq
            (h.mem_of_descend ha) nm
          have hsome := h.lookup_isSome ha nm
          rw [if_neg hdots, if_neg hdots, hlook, Result.ok_bind, hsome]
          cases hchild : child kids s.nameOf a nm with
          | none =>
              exact ⟨none, rfl, .inl ⟨rfl, rfl⟩⟩
          | some c =>
              exact ih (descend_concat.mpr ⟨a, ha, hchild⟩)

/-- The walk starts at the path where the walk of the volume starts. -/
theorem anchor_eq
    (h : Lays s kids depth v) :
    descend kids s.nameOf v.anchor s.root = some s.start := by
  unfold Volume.anchor State.start
  rw [h.dirname]
  split
  · rfl
  · exact h.cwd

/-- `nodeP` leads where the pathname leads in the volume. -/
theorem nodeP_leads
    (h : Lays s kids depth v)
    (pathname : CStr) :
    (∃ e, s.nodeP pathname = .error e) ∧ v.locate pathname = none ∨
      ∃ q, s.nodeP pathname = .ok q ∧ Leads s kids (v.locate pathname) q := by
  rw [nodeP_eq_bind]
  unfold Volume.locate
  by_cases hfits : pathname.length < 130 ∧ (components pathname).length ≤ 40
  · rw [if_pos hfits, tokenize_eq_ok hfits.1 hfits.2, Result.ok_bind]
    exact .inr (h.walkFrom_leads (components pathname) h.anchor_eq)
  · rw [if_neg hfits, tokenize_eq_error hfits]
    exact .inl ⟨⟨_, rfl⟩, rfl⟩

/-- The two lookups of a command fail, or find the directory part and maybe a child
of the name. -/
theorem target_leads
    (h : Lays s kids depth v)
    (pathname : CStr) :
    (∃ e, (s.split pathname).target = .error e) ∧ v.parent pathname = none ∨
      ∃ front p, v.parent pathname = some front ∧
        descend kids s.nameOf front s.root = some p ∧
        (s.split pathname).target =
          .ok (some p, child kids s.nameOf p (Libgen.basename pathname)) := by
  have hsplit := h.split pathname
  have hdir : (s.split pathname).dirname = Libgen.dirname pathname := rfl
  rcases hsplit.nodeP_leads (Libgen.dirname pathname) with
    ⟨⟨e, herror⟩, hnone⟩ | ⟨q, hq, ⟨hnone, rfl⟩ | ⟨front, p, hfront, rfl, hp⟩⟩
  · refine .inl ⟨⟨e, ?_⟩, hnone⟩
    rw [State.target, hdir, herror]
    rfl
  · refine .inl ⟨⟨.nullPointer, ?_⟩, hnone⟩
    rw [State.target, hdir, hq]
    rfl
  · refine .inr ⟨front, p, hfront, hp, ?_⟩
    have hlook := (listed_of_labelled hsplit.grown.labelled).lookC_eq
      (hsplit.mem_of_descend hp) (Libgen.basename pathname)
    rw [State.target, hdir, hq, Result.ok_bind, State.split_basename, hlook]
    rfl

/-- The type of the node at a path. -/
theorem typeOf_eq
    (h : Lays s kids depth v)
    (ha : descend kids s.nameOf path s.root = some a) :
    v.typeOf path = s.typeOf a := by
  cases path using List.reverseRecOn with
  | nil =>
      obtain rfl : s.root = a := Option.some_inj.mp ha
      obtain ⟨node, hnode⟩ := lookup_of_mem h.root_mem
      have htop := (h.grown.types s.root node hnode).mpr rfl
      simp [State.typeOf, Volume.typeOf, hnode, htop]
  | append_singleton front nm =>
      obtain ⟨p, hp, hchild⟩ := descend_concat.mp ha
      rw [Volume.typeOf_concat, h.lookup_eq hp, hchild]
      rfl

end Lays

section Looking

variable {s : State} {kids : Nat → List Nat} {depth : Nat → Nat} {v : Volume}

/-- `cd` goes where the volume goes. -/
theorem Lays.cd_alike
    (h : Lays s kids depth v)
    (pathname : CStr) :
    Alike (cd pathname s) (v.cd pathname) := by
  unfold Volume.cd
  rcases h.nodeP_leads pathname with
    ⟨⟨e, herror⟩, hnone⟩ | ⟨q, hq, ⟨hnone, rfl⟩ | ⟨path, a, hpath, rfl, ha⟩⟩
  · refine .inl ⟨⟨e, ?_⟩, by rw [hnone]; rfl⟩
    rw [cd, herror]
    rfl
  · refine .inl ⟨⟨.nullPointer, ?_⟩, by rw [hnone]; rfl⟩
    rw [cd, hq]
    rfl
  · obtain ⟨node, hnode⟩ := lookup_of_mem (h.mem_of_descend ha)
    have htype : s.typeOf a = some node.type := by
      simp [State.typeOf, hnode]
    have hdir : v.typeOf path = some .Y ↔ node.type = .Y := by
      rw [h.typeOf_eq ha, htype, Option.some_inj]
    rw [cd, hq, Result.ok_bind, deref_some, Result.ok_bind, load_eq hnode,
      Result.ok_bind, hpath, Option.map_some]
    by_cases hY : node.type = .Y
    · rw [if_pos hY, if_pos (hdir.mpr hY)]
      refine .inr ⟨0, _, _, rfl, rfl, kids, depth, ?_⟩
      exact
        { grown := h.grown.congr rfl rfl
          root_up := h.root_up
          children := h.children
          fronts := h.fronts
          cwd := ha
          cwd_dir := by
            show s.typeOf a ≠ some .G
            simp [htype, hY]
          dirname := h.dirname }
    · rw [if_neg hY, if_neg (fun hc => hY (hdir.mp hc))]
      exact .inr ⟨-1, s, v, rfl, rfl, kids, depth, h⟩

/-- The loop of `ls` prints the children. -/
theorem listFrom_eq
    {q : Ptr} {l : List Nat} {rows : List (NodeType × CStr)} {fuel : Nat}
    (hchain : Chain s.shape.next q l)
    (hrows : l.map s.rowOf = rows.map some)
    (hfuel : l.length ≤ fuel) :
    s.listFrom fuel q = .ok rows := by
  induction l generalizing q rows fuel with
  | nil =>
      obtain rfl : rows = [] := List.map_eq_nil_iff.mp hrows.symm
      cases chain_nil.mp hchain
      cases fuel <;> rfl
  | cons a l ih =>
      obtain ⟨rfl, htail⟩ := chain_cons.mp hchain
      cases rows with
      | nil =>
          cases hrows
      | cons row rows =>
          obtain ⟨hrow, hrest⟩ := List.cons.inj hrows
          obtain ⟨node, hnode, rfl⟩ := Option.map_eq_some_iff.mp hrow
          have hnext : s.shape.next a = node.Sptr := by
            simp [State.shape, hnode]
          rw [hnext] at htail
          cases fuel with
          | zero =>
              simp at hfuel
          | succ fuel =>
              have hprinted := ih htail hrest (Nat.le_of_succ_le_succ hfuel)
              rw [State.listFrom, load_eq hnode, Result.ok_bind, hprinted]
              rfl

/-- `ls` prints what is below the path. -/
theorem Lays.ls_alike
    (h : Lays s kids depth v)
    {pathname : CStr}
    (hfits : FitsSplit pathname) :
    Alike (ls pathname s)
      (((v.split pathname).locate pathname).map
        (fun path => (v.children path, v.split pathname))) := by
  have hsplit := h.split pathname
  rw [ls, z_eq_ok hfits, Result.ok_bind]
  rcases hsplit.nodeP_leads pathname with
    ⟨⟨e, herror⟩, hnone⟩ | ⟨q, hq, ⟨hnone, rfl⟩ | ⟨path, a, hpath, rfl, ha⟩⟩
  · refine .inl ⟨⟨e, ?_⟩, by rw [hnone]; rfl⟩
    rw [herror]
    rfl
  · refine .inl ⟨⟨.nullPointer, ?_⟩, by rw [hnone]; rfl⟩
    rw [hq]
    rfl
  · have hmem := hsplit.mem_of_descend ha
    obtain ⟨node, hnode⟩ := lookup_of_mem hmem
    have hplanted := hsplit.grown.labelled.planted
    have hchain := hplanted.chain a hmem
    have hfirst : (s.split pathname).shape.first a = node.Cptr := by
      simp [State.shape, hnode]
    rw [hfirst] at hchain
    have hprinted := listFrom_eq hchain (hsplit.children path a ha)
      (kids_length hplanted hmem)
    rw [hq, Result.ok_bind, load_eq hnode, Result.ok_bind, hprinted,
      Result.ok_bind, hpath, Option.map_some]
    exact .inr ⟨_, _, _, rfl, rfl, kids, depth, hsplit⟩

/-- `pwd` prints the path of the current directory. -/
theorem Lays.pwd_eq
    (h : Lays s kids depth v) :
    pwd s = .ok (printed v.cwd) :=
  h.grown.pwd_eq h.cwd rfl

end Looking

section Adding

variable {s s' : State} {kids : Nat → List Nat} {depth : Nat → Nat} {v : Volume}
variable {p z : Nat} {node : Node} {front : List CStr}

theorem Attached.rowOf_eq
    {l : List Nat} {q : Nat}
    (hs' : Attached s s' p z node l)
    (hq : q ≠ z) :
    s'.rowOf q = s.rowOf q := by
  simp only [State.rowOf, hs'.old q hq, Option.map_map]
  rfl

theorem Attached.typeOf_eq
    {l : List Nat} {q : Nat}
    (hs' : Attached s s' p z node l)
    (hq : q ≠ z) :
    s'.typeOf q = s.typeOf q := by
  simp only [State.typeOf, hs'.old q hq, Option.map_map]
  rfl

/-- A new last child is a new last entry. -/
theorem Lays.attached
    (h : Lays s kids depth v)
    (hs' : Attached s s' p z node (kids p))
    (hp : descend kids s.nameOf front s.root = some p)
    (hz : z ∉ s.heap)
    (hfree : child kids s.nameOf p node.nm = none)
    (hproper : Proper node.nm)
    (htype : node.type ≠ .D)
    (hdirname : s'.dirname = s.dirname) :
    s'.Shows (v.add ⟨front, node.nm, node.type⟩) := by
  have hlabelled := h.grown.labelled
  have hplanted := hlabelled.planted
  have hpmem := h.mem_of_descend hp
  have hname := child_eq_none.mp hfree
  have hne : ∀ q, q ∈ s.heap → q ≠ z := fun q hq heq => hz (heq ▸ hq)
  have hgrafted := hs'.grafted hpmem hz (hplanted.first_eq hpmem)
    (fun a ha => hplanted.kid_live hpmem ha)
  have hnew : s'.nameOf z = some node.nm := by
    simp [State.nameOf, hs'.new]
  obtain ⟨_, _, hgrown⟩ :=
    h.grown.attached hs' hpmem hz hname hproper htype
  have hdescend : ∀ path a,
      descend (extended kids p z) s'.nameOf path s'.root = some a ↔
        descend kids s.nameOf path s.root = some a ∨
          a = z ∧ ∃ path', descend kids s.nameOf path' s.root = some p ∧
            path = path' ++ [node.nm] := by
    intro path a
    rw [hs'.root]
    exact hlabelled.descend_extended
      (fun q hq => hs'.nameOf_eq (hne q hq)) hnew hname hz h.root_mem
  refine ⟨extended kids p z, _, ⟨⟨⟨hplanted.graft hgrafted hpmem hz,
    hs'.names hplanted hlabelled.names hpmem hz hname, hgrown.labelled.named⟩,
    hgrown.proper, hgrown.types⟩, ?_, ?_, ?_, ?_, ?_, ?_⟩⟩
  · have hroot : s'.shape.up s.root = some s.root :=
      (hgrafted.up _ h.root_mem).trans h.root_up
    rw [hs'.root]
    exact hroot
  · intro path a ha
    rw [Volume.children_add]
    rcases (hdescend path a).mp ha with hold | ⟨rfl, path', hpath', rfl⟩
    · have hamem := h.mem_of_descend hold
      have hrows : ∀ q, q ∈ s.heap → (kids q).map s'.rowOf = (kids q).map s.rowOf :=
        fun q hq => List.map_congr_left
          (fun f hf => hs'.rowOf_eq (hne f (hplanted.kid_live hq hf)))
      rw [extended, if_neg (hne a hamem), List.map_append, ← h.children path a hold]
      by_cases hap : a = p
      · subst hap
        have hpath : front = path := hlabelled.path_unique hp hold
        have hrow : s'.rowOf z = some (node.type, node.nm) := by
          simp [State.rowOf, hs'.new]
        rw [if_pos rfl, List.map_append, hrows a hamem, if_pos hpath]
        simp [hrow]
      · have hpath : front ≠ path := by
          rintro rfl
          exact hap (Option.some_inj.mp (hold.symm.trans hp))
        rw [if_neg hap, hrows a hamem, if_neg hpath]
        simp
    · -- nothing has been below the new path before
      obtain rfl := hlabelled.path_unique hpath' hp
      have hempty : v.children (path' ++ [node.nm]) = [] := by
        apply Volume.children_eq_nil
        intro e he hfront
        obtain ⟨b, hb⟩ := h.fronts e he
        rw [hfront] at hb
        obtain ⟨p', hp', hchild⟩ := descend_concat.mp hb
        obtain rfl := Option.some_inj.mp (hp'.symm.trans hp)
        rw [hfree] at hchild
        cases hchild
      rw [extended, if_pos rfl, hempty, if_neg (by simp)]
      rfl
  · intro e he
    rcases List.mem_append.mp he with he | he
    · obtain ⟨a, ha⟩ := h.fronts e he
      exact ⟨a, (hdescend _ a).mpr (.inl ha)⟩
    · rw [List.mem_singleton.mp he]
      exact ⟨p, (hdescend _ p).mpr (.inl hp)⟩
  · rw [hs'.cwd]
    exact (hdescend _ _).mpr (.inl h.cwd)
  · rw [hs'.cwd, hs'.typeOf_eq (hne _ (h.mem_of_descend h.cwd))]
    exact h.cwd_dir
  · exact hdirname.trans h.dirname

/-- `mkdir` and `create` make what the volume makes. -/
theorem Lays.make_alike
    {type : NodeType} {block : Ptr} {pathname : CStr}
    (h : Lays s kids depth v)
    (htype : type ≠ .D)
    (hfits : FitsSplit pathname)
    (hblock : ∀ a ∈ block, a ∉ s.heap) :
    Alike (make type block pathname s) (v.make type block pathname) := by
  have hsplit := h.split pathname
  rw [make, z_eq_ok hfits, Result.ok_bind, State.split_basename, Volume.make]
  by_cases hrefused : refused (Libgen.basename pathname) = true
  · rw [if_pos hrefused, if_pos hrefused]
    exact .inr ⟨-1, _, _, rfl, rfl, kids, depth, hsplit⟩
  · rw [if_neg hrefused, if_neg hrefused]
    rcases h.target_leads pathname with
      ⟨⟨e, herror⟩, hnone⟩ | ⟨front, p, hfront, hp, htarget⟩
    · refine .inl ⟨⟨e, ?_⟩, by rw [hnone]; rfl⟩
      rw [herror]
      rfl
    · have hsome := h.lookup_isSome hp (Libgen.basename pathname)
      rw [htarget, Result.ok_bind, hfront, Option.bind_some, hsome]
      cases hchild : child kids s.nameOf p (Libgen.basename pathname) with
      | some c =>
          exact .inr ⟨-1, _, _, rfl, rfl, kids, depth, hsplit⟩
      | none =>
          cases block with
          | none =>
              exact .inl ⟨⟨.nullPointer, rfl⟩, rfl⟩
          | some z =>
              have hz := hblock z rfl
              obtain ⟨s', hs', hattached⟩ := insert_child_eq
                hsplit.grown.labelled.planted (hsplit.mem_of_descend hp) hz
                { nm := Libgen.basename pathname
                  type := type
                  Cptr := none
                  Sptr := none
                  Pptr := none }
              have hdirname := insert_child_dirname hs'
              refine .inr ⟨0, s', _, ?_, rfl, ?_⟩
              · rw [State.split_basename] at hs'
                have hcopied : copied 70 (Libgen.basename pathname) =
                    .ok (Libgen.basename pathname) := by
                  simp [copied, hfits.2.2]
                simp only [deref_some, Result.ok_bind, hcopied, hs']
              · exact hsplit.attached hattached hp hz hchild
                  (proper_basename (by simpa using hrefused)) htype
                  hdirname

end Adding

section Removing

variable {s s' : State} {kids : Nat → List Nat} {depth : Nat → Nat} {v : Volume}
variable {p c : Nat} {node : Node} {first : Ptr} {front : List CStr}
variable {rest : List Nat} {nm : CStr}

theorem Cut.rowOf_eq
    {q : Nat}
    (hs' : Cut s s' p c first)
    (hq : q ≠ c) :
    s'.rowOf q = s.rowOf q := by
  simp only [State.rowOf, hs'.old q hq, Option.map_map]
  rfl

theorem Cut.typeOf_eq
    {q : Nat}
    (hs' : Cut s s' p c first)
    (hq : q ≠ c) :
    s'.typeOf q = s.typeOf q := by
  simp only [State.typeOf, hs'.old q hq, Option.map_map]
  rfl

theorem rowOf_name
    {row : NodeType × CStr}
    (h : s.rowOf c = some row) :
    s.nameOf c = some row.2 := by
  obtain ⟨node, hnode, rfl⟩ := Option.map_eq_some_iff.mp h
  simp [State.nameOf, hnode]

/-- Nothing is below a path exactly when its node has no children. -/
theorem Lays.children_eq_nil
    (h : Lays s kids depth v)
    (hc : descend kids s.nameOf front s.root = some c) :
    v.children front = [] ↔ kids c = [] := by
  have hrows := h.children front c hc
  rw [← List.map_eq_nil_iff (f := some), ← hrows, List.map_eq_nil_iff]

/-- The rows behind the first one have other names. -/
theorem Lays.rows_behind
    (h : Lays s kids depth v)
    (hp : descend kids s.nameOf front s.root = some p)
    (hkids : kids p = c :: rest)
    (hname : s.nameOf c = some nm) :
    ∃ row rows, v.children front = row :: rows ∧ row.2 = nm ∧
      rest.map s.rowOf = rows.map some ∧ ∀ other ∈ rows, other.2 ≠ nm := by
  have hrows := h.children front p hp
  have hnodup := h.grown.labelled.names p (h.mem_of_descend hp)
  rw [hkids, List.map_cons] at hrows hnodup
  cases hchildren : v.children front with
  | nil =>
      rw [hchildren] at hrows
      cases hrows
  | cons row rows =>
      rw [hchildren, List.map_cons] at hrows
      obtain ⟨hrow, hrest⟩ := List.cons.inj hrows
      refine ⟨row, rows, rfl, ?_, hrest, ?_⟩
      · exact Option.some_inj.mp ((rowOf_name hrow).symm.trans hname)
      · intro other hother heq
        have hmem : some other ∈ rest.map s.rowOf :=
          hrest ▸ List.mem_map_of_mem hother
        obtain ⟨f, hf, hother'⟩ := List.mem_map.mp hmem
        have hsame : s.nameOf f = s.nameOf c := by
          rw [rowOf_name hother', hname, heq]
        exact (List.nodup_cons.mp hnodup).1
          (hsame ▸ List.mem_map_of_mem hf)

/-- A node that is cut off is first among its siblings, is a leaf, and is not the
current directory. -/
theorem Lays.cut
    (h : Lays s kids depth v)
    (hs' : Cut s s' p c first)
    (hp : descend kids s.nameOf front s.root = some p)
    (hkids : kids p = c :: rest)
    (hname : s.nameOf c = some nm)
    (hnext : s.shape.next c = first)
    (hleaf : kids c = [])
    (hcwd : c ≠ s.cwd)
    (hdirname : s'.dirname = s.dirname) :
    s'.Shows (v.remove front nm) := by
  have hlabelled := h.grown.labelled
  have hplanted := hlabelled.planted
  have hpmem := h.mem_of_descend hp
  have hc : c ∈ kids p := by simp [hkids]
  have hcmem := hplanted.kid_live hpmem hc
  obtain ⟨_, hroot, _⟩ := (hplanted.mem_iff p c hpmem).mp hc
  have hpath : descend kids s.nameOf (front ++ [nm]) s.root = some c :=
    descend_concat.mpr ⟨p, hp, (hlabelled.child_eq hpmem).mpr ⟨hc, hname⟩⟩
  obtain ⟨row, rows, hchildren, hrow, hrest, hothers⟩ :=
    h.rows_behind hp hkids hname
  have hnodup := hplanted.nodup p hpmem
  rw [hkids] at hnodup
  have hpruned := hs'.pruned hpmem (hplanted.parent_ne hpmem hc) hnext
  have hfirst : s.shape.first c = none := by
    rw [hplanted.first_eq hcmem, hleaf]
    rfl
  have hplanted' := hplanted.prune hpruned hpmem hkids hfirst
  have hkept : ∀ q, s'.shape.live q → ∀ f ∈ replaced kids p rest q,
      s'.shape.live f ∧ s'.nameOf f = s.nameOf f := by
    intro q hq f hf
    have hlive := hplanted'.kid_live hq hf
    exact ⟨hlive, hs'.nameOf_eq ((hs'.mem_iff f).mp hlive).2⟩
  have hsub : ∀ q, (replaced kids p rest q).Sublist (kids q) := by
    intro q
    unfold replaced
    split
    next hqp => rw [hqp, hkids]; exact List.sublist_cons_self _ _
    next => exact List.Sublist.refl _
  have hdescend : ∀ path a,
      descend (replaced kids p rest) s'.nameOf path s'.root = some a ↔
        descend kids s.nameOf path s.root = some a ∧ a ≠ c := by
    intro path a
    have hsame : descend (replaced kids p rest) s'.nameOf path s'.root =
        descend (replaced kids p rest) s.nameOf path s'.root :=
      descend_congr hkept hplanted'.root_live
    rw [hsame, hs'.root]
    refine hlabelled.descend_without hpmem hc ?_ hleaf h.root_mem
      (Ne.symm hroot)
    intro f
    rw [hkids, List.mem_cons]
    constructor
    · exact fun hf => ⟨.inr hf, fun heq => (List.nodup_cons.mp hnodup).1 (heq ▸ hf)⟩
    · exact fun hf => hf.1.resolve_left hf.2
  have hold : ∀ q node', s'.heap.lookup q = some node' → q ≠ c ∧
      ∃ node, s.heap.lookup q = some node ∧ node.type = node'.type := by
    intro q node' hnode'
    have hqc : q ≠ c := by
      rintro rfl
      rw [hs'.gone] at hnode'
      cases hnode'
    rw [hs'.old q hqc] at hnode'
    obtain ⟨node, hnode, rfl⟩ := Option.map_eq_some_iff.mp hnode'
    exact ⟨hqc, node, hnode, rfl⟩
  refine ⟨replaced kids p rest, depth, ⟨⟨⟨hplanted', ?_, ?_⟩, ?_, ?_⟩,
    ?_, ?_, ?_, ?_, ?_, ?_⟩⟩
  · intro q hq
    have hsame : (replaced kids p rest q).map s'.nameOf =
        (replaced kids p rest q).map s.nameOf :=
      List.map_congr_left (fun f hf => (hkept q hq f hf).2)
    rw [hsame]
    exact (hlabelled.names q ((hs'.mem_iff q).mp hq).1).sublist ((hsub q).map _)
  · intro a ha
    obtain ⟨new, hnew⟩ := lookup_of_mem ha
    exact ⟨new.nm, by simp [State.nameOf, hnew]⟩
  · intro a nm' hnm' hne
    obtain ⟨new, hnew, _⟩ := Option.map_eq_some_iff.mp hnm'
    obtain ⟨hac, _⟩ := hold a new hnew
    rw [hs'.nameOf_eq hac] at hnm'
    rw [hs'.root] at hne
    exact h.grown.proper a nm' hnm' hne
  · intro a node' hnode'
    obtain ⟨_, node, hnode, htype⟩ := hold a node' hnode'
    rw [hs'.root, ← htype]
    exact h.grown.types a node hnode
  · rw [hs'.root]
    exact (hpruned.up _ (Ne.symm hroot)).trans h.root_up
  · intro path a ha
    obtain ⟨hthere, hac⟩ := (hdescend path a).mp ha
    have hrows : (replaced kids p rest a).map s'.rowOf =
        (replaced kids p rest a).map s.rowOf := by
      refine List.map_congr_left (fun f hf => hs'.rowOf_eq ?_)
      have halive : s'.shape.live a :=
        (hs'.mem_iff a).mpr ⟨h.mem_of_descend hthere, hac⟩
      exact ((hs'.mem_iff f).mp (hkept a halive f hf).1).2
    rw [hrows, Volume.children_remove]
    by_cases hap : a = p
    · subst hap
      obtain rfl : path = front := hlabelled.path_unique hthere hp
      have hleft : (row :: rows).filter
          (fun child => decide (¬ (path = path ∧ child.2 = nm))) = rows := by
        rw [List.filter_cons_of_neg (by simp [hrow]), List.filter_eq_self]
        intro other hother
        simpa using hothers other hother
      rw [replaced, if_pos rfl, hrest, hchildren, hleft]
    · have hpath : path ≠ front := by
        rintro rfl
        exact hap (Option.some_inj.mp (hthere.symm.trans hp))
      rw [replaced, if_neg hap, h.children path a hthere]
      simp [hpath]
  · intro e he
    have he' : e ∈ v.entries := (List.mem_filter.mp he).1
    obtain ⟨a, ha⟩ := h.fronts e he'
    refine ⟨a, (hdescend _ a).mpr ⟨ha, ?_⟩⟩
    rintro rfl
    -- nothing is below the node that is removed
    have hempty := (h.children_eq_nil ha).mpr hleaf
    have hmem : (e.type, e.nm) ∈ v.children e.front :=
      List.mem_map_of_mem (List.mem_filter.mpr ⟨he', by simp⟩)
    rw [hempty] at hmem
    cases hmem
  · rw [hs'.cwd]
    exact (hdescend _ _).mpr ⟨h.cwd, Ne.symm hcwd⟩
  · rw [hs'.cwd, hs'.typeOf_eq (Ne.symm hcwd)]
    exact h.cwd_dir
  · exact hdirname.trans h.dirname

/-- The child list of the parent is set and the node freed. -/
theorem Lays.cut_eq
    (h : Lays s kids depth v)
    (hp : p ∈ s.heap)
    (hc : c ∈ kids p)
    (hnode : s.heap.lookup c = some node)
    (first : Ptr) :
    ∃ s₁, s.modify node.Pptr (fun zero => { zero with Cptr := first }) = .ok s₁ ∧
      s₁.dirname = s.dirname ∧
      Cut s { s₁ with heap := s₁.heap.erase c } p c first := by
  have hup := ((h.grown.labelled.planted.mem_iff p c hp).mp hc).2.2
  have hpptr : node.Pptr = some p := by
    simpa [State.shape, hnode] using hup
  obtain ⟨parent, hparent⟩ := lookup_of_mem hp
  rw [hpptr, modify_eq hparent]
  refine ⟨_, rfl, rfl, rfl, rfl, Finmap.lookup_erase _ _, ?_⟩
  intro q hq
  simp only
  rw [Finmap.lookup_erase_ne hq]
  by_cases hqp : q = p
  · subst hqp
    simp [hparent]
  · simp [hqp]

/-- The first row of a directory belongs to its first child. -/
theorem Lays.kids_eq_cons
    (h : Lays s kids depth v)
    (hp : descend kids s.nameOf front s.root = some p)
    (hchild : child kids s.nameOf p nm = some c)
    (hhead : (v.children front).head?.map Prod.snd = some nm) :
    ∃ rest, kids p = c :: rest := by
  have hpmem := h.mem_of_descend hp
  have hrows := h.children front p hp
  cases hkids : kids p with
  | nil =>
      rw [hkids] at hrows
      rw [List.map_eq_nil_iff.mp hrows.symm] at hhead
      cases hhead
  | cons f rest =>
      obtain ⟨row, hrow, hnm⟩ := Option.map_eq_some_iff.mp hhead
      obtain ⟨rows, hchildren⟩ := List.head?_eq_some_iff.mp hrow
      rw [hkids, hchildren] at hrows
      have hname := rowOf_name (List.cons.inj hrows).1
      have hf : child kids s.nameOf p nm = some f :=
        (h.grown.labelled.child_eq hpmem).mpr ⟨by simp [hkids], by rw [hname, hnm]⟩
      exact ⟨rest, by rw [Option.some_inj.mp (hf.symm.trans hchild)]⟩

/-- `rmdir` removes what the volume removes. -/
theorem Lays.rmdir_alike
    {pathname : CStr}
    (h : Lays s kids depth v)
    (hfits : FitsSplit pathname)
    (hkeeps : ∀ front ∈ v.parent pathname,
      (v.lookup front (Libgen.basename pathname)).isSome →
        v.children (front ++ [Libgen.basename pathname]) = [] →
          (v.children front).head?.map Prod.snd =
              some (Libgen.basename pathname) ∧
            front ++ [Libgen.basename pathname] ≠ v.cwd) :
    Alike (rmdir pathname s) (v.rmdir pathname) := by
  have hsplit := h.split pathname
  rw [rmdir, z_eq_ok hfits, Result.ok_bind, State.split_basename, Volume.rmdir]
  by_cases hrefused : refused (Libgen.basename pathname) = true
  · rw [if_pos hrefused, if_pos hrefused]
    exact .inr ⟨-1, _, _, rfl, rfl, kids, depth, hsplit⟩
  · rw [if_neg hrefused, if_neg hrefused]
    rcases h.target_leads pathname with
      ⟨⟨e, herror⟩, hnone⟩ | ⟨front, p, hfront, hp, htarget⟩
    · refine .inl ⟨⟨e, ?_⟩, by rw [hnone]; rfl⟩
      rw [herror]
      rfl
    · have hsome := h.lookup_isSome hp (Libgen.basename pathname)
      rw [htarget, Result.ok_bind, hfront, Option.map_some, hsome]
      cases hchild : child kids s.nameOf p (Libgen.basename pathname) with
      | none =>
          exact .inr ⟨-1, _, _, rfl, rfl, kids, depth, hsplit⟩
      | some c =>
          have hpmem := h.mem_of_descend hp
          obtain ⟨hc, hname⟩ := of_child hchild
          have hpath := descend_concat.mpr ⟨p, hp, hchild⟩
          obtain ⟨node, hnode⟩ :=
            lookup_of_mem (h.grown.labelled.planted.kid_live hpmem hc)
          have hnode' : (s.split pathname).heap.lookup c = some node := hnode
          have hempty : node.Cptr = none ↔
              v.children (front ++ [Libgen.basename pathname]) = [] := by
            rw [h.children_eq_nil hpath, cptr_eq h.grown.labelled.planted hnode,
              List.head?_eq_none_iff]
          simp only [load_eq hnode', Result.ok_bind, Option.isSome_some, true_and]
          by_cases hleaf : node.Cptr = none
          · rw [if_neg (not_not.mpr hleaf), if_pos (hempty.mp hleaf)]
            obtain ⟨hhead, hcwd⟩ := hkeeps front hfront
              (by rw [hsome, hchild]; rfl) (hempty.mp hleaf)
            obtain ⟨rest, hkids⟩ := h.kids_eq_cons hp hchild hhead
            obtain ⟨s₁, hs₁, hdirname, hcut⟩ :=
              hsplit.cut_eq hpmem hc hnode' node.Sptr
            rw [hs₁, Result.ok_bind]
            refine .inr ⟨0, _, _, rfl, rfl, hsplit.cut hcut hp hkids hname ?_
              ((h.children_eq_nil hpath).mp (hempty.mp hleaf)) ?_ hdirname⟩
            · simp [State.shape, hnode']
            · rintro rfl
              exact hcwd (h.grown.labelled.path_unique hpath h.cwd)
          · rw [if_pos hleaf, if_neg (fun hnil => hleaf (hempty.mpr hnil))]
            exact .inr ⟨-1, _, _, rfl, rfl, kids, depth, hsplit⟩

/-- `rm` removes what the volume removes. -/
theorem Lays.rm_alike
    {pathname : CStr}
    (h : Lays s kids depth v)
    (hfits : FitsSplit pathname)
    (hkeeps : ∀ front ∈ v.parent pathname,
      v.lookup front (Libgen.basename pathname) = some .G →
        (v.children front).length = 1 ∧
          v.children (front ++ [Libgen.basename pathname]) = []) :
    Alike (rm pathname s) (v.rm pathname) := by
  have hsplit := h.split pathname
  rw [rm, z_eq_ok hfits, Result.ok_bind, Volume.rm]
  rcases h.target_leads pathname with
    ⟨⟨e, herror⟩, hnone⟩ | ⟨front, p, hfront, hp, htarget⟩
  · refine .inl ⟨⟨e, ?_⟩, by rw [hnone]; rfl⟩
    rw [herror]
    rfl
  · have hlookup := h.lookup_eq hp (Libgen.basename pathname)
    rw [htarget, Result.ok_bind, hfront, Option.map_some, hlookup]
    cases hchild : child kids s.nameOf p (Libgen.basename pathname) with
    | none =>
        exact .inr ⟨-1, _, _, rfl, rfl, kids, depth, hsplit⟩
    | some c =>
        have hpmem := h.mem_of_descend hp
        obtain ⟨hc, hname⟩ := of_child hchild
        have hpath := descend_concat.mpr ⟨p, hp, hchild⟩
        obtain ⟨node, hnode⟩ :=
          lookup_of_mem (h.grown.labelled.planted.kid_live hpmem hc)
        have hnode' : (s.split pathname).heap.lookup c = some node := hnode
        have htype : s.typeOf c = some node.type := by
          simp [State.typeOf, hnode]
        simp only [load_eq hnode', Result.ok_bind, Option.bind_some, htype,
          Option.some_inj]
        by_cases hfile : node.type = .G
        · rw [if_neg (not_not.mpr hfile), if_pos hfile]
          obtain ⟨hsingle, hnil⟩ := hkeeps front hfront
            (by rw [hlookup, hchild, Option.bind_some, htype, hfile])
          have hlength := congrArg List.length (h.children front p hp)
          rw [List.length_map, List.length_map, hsingle,
            List.length_eq_one_iff] at hlength
          obtain ⟨f, hkids⟩ := hlength
          obtain rfl : c = f := List.mem_singleton.mp (hkids ▸ hc)
          obtain ⟨s₁, hs₁, hdirname, hcut⟩ := hsplit.cut_eq hpmem hc hnode' none
          rw [hs₁, Result.ok_bind]
          refine .inr ⟨0, _, _, rfl, rfl, hsplit.cut hcut hp hkids hname ?_
            ((h.children_eq_nil hpath).mp hnil) ?_ hdirname⟩
          · have hchain := h.grown.labelled.planted.chain p hpmem
            rw [hkids] at hchain
            exact chain_nil.mp (chain_cons.mp hchain).2
          · intro heq
            have hcwd : c = s.cwd := heq
            exact h.cwd_dir (by rw [← hcwd, htype, hfile])
        · rw [if_pos hfile, if_neg hfile]
          exact .inr ⟨-1, _, _, rfl, rfl, kids, depth, hsplit⟩

end Removing

section Sessions

variable {s : State} {kids : Nat → List Nat} {depth : Nat → Nat} {v : Volume}
variable {line : Line}

/-- The fresh file system is the empty volume. -/
theorem shows_initialized
    (root : Nat) :
    (State.initialized root).Shows Volume.empty := by
  have hlookup : (State.initialized root).heap.lookup root = some _ :=
    Finmap.lookup_singleton_eq
  refine ⟨_, _, grown_initialized root, ?_, fun _ _ _ => rfl, by simp [Volume.empty],
    rfl, ?_, rfl⟩
  · show (State.initialized root).shape.up root = some root
    simp [State.shape, hlookup]
  · show (State.initialized root).typeOf root ≠ some .G
    simp [State.typeOf, hlookup]

/-- A command that splits its pathname faults where the pathname does not fit. -/
theorem alike_of_fits
    {β : Type} {pathname : CStr} {r : Result (β × State)}
    {o : Option (β × Volume)}
    (hfaults : ¬ FitsSplit pathname → ∃ e, r = .error e)
    (h : FitsSplit pathname → Alike r o) :
    Alike r (if FitsSplit pathname then o else none) := by
  by_cases hfits : FitsSplit pathname
  · rw [if_pos hfits]
    exact h hfits
  · rw [if_neg hfits]
    exact .inl ⟨hfaults hfits, rfl⟩

/-- The commands that return a number. -/
theorem Lays.call_alike
    {request : Request}
    (h : Lays s kids depth v)
    (hblock : ∀ a ∈ request.block, a ∉ s.heap)
    (hkeeps : v.Keeps ⟨.change request.command, request.pathname, request.block⟩) :
    Alike (call request s) (v.call request) := by
  obtain ⟨command, pathname, block⟩ := request
  have hsplit : ¬ FitsSplit pathname → s.z pathname = .error .outOfBounds :=
    z_eq_error
  cases command with
  | mkdir =>
      refine alike_of_fits (fun hfits => ⟨.outOfBounds, ?_⟩)
        (fun hfits => h.make_alike (by decide) hfits hblock)
      show make .Y block pathname s = _
      rw [make, hsplit hfits, Result.error_bind]
  | create =>
      refine alike_of_fits (fun hfits => ⟨.outOfBounds, ?_⟩)
        (fun hfits => h.make_alike (by decide) hfits hblock)
      show make .G block pathname s = _
      rw [make, hsplit hfits, Result.error_bind]
  | rmdir =>
      refine alike_of_fits (fun hfits => ⟨.outOfBounds, ?_⟩)
        (fun hfits => h.rmdir_alike hfits hkeeps)
      show rmdir pathname s = _
      rw [rmdir, hsplit hfits, Result.error_bind]
  | rm =>
      refine alike_of_fits (fun hfits => ⟨.outOfBounds, ?_⟩)
        (fun hfits => h.rm_alike hfits hkeeps)
      show rm pathname s = _
      rw [rm, hsplit hfits, Result.error_bind]
  | cd =>
      exact h.cd_alike pathname

/-- A line is answered alike, and what it leaves is alike. -/
theorem Lays.reply_alike
    (h : Lays s kids depth v)
    (hfresh : s.Fresh line)
    (hkeeps : v.Keeps line) :
    Alike (line.reply s) (v.answer line) := by
  obtain ⟨user_command, pathname, block⟩ := line
  cases user_command with
  | change command =>
      rw [Line.reply, Volume.answer]
      have halike : Alike (call ⟨command, pathname, block⟩ s)
          (v.call ⟨command, pathname, block⟩) := h.call_alike hfresh hkeeps
      rcases halike with
        ⟨⟨e, herror⟩, hnone⟩ | ⟨n, s', v', hok, hsome, hshows⟩
      · simp only [herror, hnone, Result.error_bind, Option.map_none]
        exact .inl ⟨⟨e, rfl⟩, rfl⟩
      · simp only [hok, hsome, Result.ok_bind, Option.map_some]
        exact .inr ⟨_, _, _, rfl, rfl, hshows⟩
  | ls =>
      refine alike_of_fits (fun hfits => ⟨.outOfBounds, ?_⟩) (fun hfits => ?_)
      · rw [Line.reply, ls, z_eq_error hfits, Result.error_bind, Result.error_bind]
      · rw [Line.reply]
        rcases h.ls_alike hfits with
          ⟨⟨e, herror⟩, hnone⟩ | ⟨rows, s', v', hok, hsome, hshows⟩
        · rw [Option.map_eq_none_iff] at hnone
          rw [herror, Result.error_bind, hnone]
          exact .inl ⟨⟨e, rfl⟩, rfl⟩
        · obtain ⟨path, hpath, hout⟩ := Option.map_eq_some_iff.mp hsome
          obtain ⟨rfl, rfl⟩ := Prod.mk.inj hout
          rw [hok, Result.ok_bind, hpath, Option.map_some]
          exact .inr ⟨_, _, _, rfl, rfl, hshows⟩
  | pwd =>
      rw [Line.reply, h.pwd_eq, Result.ok_bind]
      exact .inr ⟨_, _, _, rfl, rfl, kids, depth, h⟩

/-- The program and the volume go together. -/
theorem State.Shows.together
    (h : s.Shows v)
    (hfresh : s.Fresh line)
    (hkeeps : v.Keeps line) :
    Together State.Shows (s.answer line) (v.answer line) := by
  obtain ⟨kids, depth, h⟩ := h
  have hfree : ∀ a ∈ line.block, a ∉ s.heap := hfresh
  rw [State.answer, if_pos hfree]
  rcases h.reply_alike hfresh hkeeps with
    ⟨⟨e, herror⟩, hnone⟩ | ⟨b, s', v', hok, hsome, hshows⟩
  · exact .inl ⟨by rw [herror]; rfl, hnone⟩
  · exact .inr ⟨b, s', v', by rw [hok]; rfl, hsome, hshows⟩

/-- In a session in which `malloc` returns fresh nodes, and in which the only
removals are a `rmdir` of a first child other than the current directory and a `rm`
of an only child with nothing below it, the program returns what the volume does, gives
the same names to `printf`, and ends where the volume has no answer. -/
theorem session_refines_volume
    (root : Nat)
    (lines : List Line)
    (hfresh : Along State.answer State.Fresh (.initialized root) lines)
    (hkeeps : Along Volume.answer Volume.Keeps .empty lines) :
    answers State.answer (.initialized root) lines =
      answers Volume.answer .empty lines := by
  apply answers_eq (R := State.Shows) _ (shows_initialized root) hfresh hkeeps
  intro s v line hshows hfresh hkeeps
  exact hshows.together hfresh hkeeps

/-- Two directories and a file are made, listed, and removed again. -/
def visit : List Line :=
  [⟨.change .mkdir, literal "a", some 1⟩,
    ⟨.change .create, literal "a/f", some 2⟩,
    ⟨.change .mkdir, literal "b", some 3⟩,
    ⟨.change .cd, literal "a", none⟩,
    ⟨.pwd, literal "", none⟩,
    ⟨.change .rm, literal "f", none⟩,
    ⟨.ls, literal "/", none⟩,
    ⟨.change .cd, literal "b", none⟩,
    ⟨.change .rmdir, literal "/a", none⟩,
    ⟨.ls, literal "/", none⟩]

theorem visit_refines :
    Along State.answer State.Fresh (.initialized 0) visit ∧
      Along Volume.answer Volume.Keeps .empty visit ∧
      answers State.answer (.initialized 0) visit =
        [.returned 0, .returned 0, .returned 0, .returned 0,
          .printed (literal "/a/"), .returned 0,
          .listed [(.Y, literal "a"), (.Y, literal "b")], .returned 0,
          .returned 0, .listed [(.Y, literal "b")]] := by
  have hfresh : Along State.answer State.Fresh (.initialized 0) visit := by
    decide +kernel
  have hkeeps : Along Volume.answer Volume.Keeps .empty visit := by
    decide +kernel
  refine ⟨hfresh, hkeeps, ?_⟩
  rw [session_refines_volume 0 visit hfresh hkeeps]
  decide +kernel

end Sessions

end Filesystem
end PastWork
