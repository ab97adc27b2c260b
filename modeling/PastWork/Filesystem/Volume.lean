import PastWork.Filesystem.Climbing

/-!
# The file system as a list of paths

What the simulator is for: a volume is the list of what has been made, in this
order, each with the path of its parent.  The commands are stated on paths alone;
`none` is the end of the program.

Two things are the program's own.  `cd` does not split its pathname, so where its walk
starts is decided by the directory part of an earlier pathname; a volume keeps this
part, as the program does.  And the names that `ls` and `pwd` give to `printf` stand in
the source behind `%a`; the replies here are these names.
-/

namespace PastWork
namespace Filesystem

open Libgen (slash)

/-- A file or a directory below the directory `front`. -/
structure Entry where
  front : List CStr
  nm : CStr
  type : NodeType
deriving DecidableEq

/-- What has been made, in order, and the path of the current directory. -/
structure Volume where
  entries : List Entry
  cwd : List CStr
  /-- the directory part of the last pathname that was split, which `cd` still finds -/
  dirname : CStr
deriving DecidableEq

/-- What a line returns, or the names that it gives to `printf`. -/
inductive Reply where
  | returned (n : Int)
  | listed (rows : List (NodeType × CStr))
  | printed (text : CStr)
deriving DecidableEq

namespace Volume

def empty : Volume where
  entries := []
  cwd := []
  dirname := []

/-- What is below a path, the oldest first. -/
def children (v : Volume) (front : List CStr) : List (NodeType × CStr) :=
  (v.entries.filter (fun e => e.front = front)).map (fun e => (e.type, e.nm))

def lookup (v : Volume) (front : List CStr) (nm : CStr) : Option NodeType :=
  ((v.children front).find? (fun child => child.2 = nm)).map Prod.fst

def typeOf (v : Volume) (path : List CStr) : Option NodeType :=
  match path.getLast? with
  | none => some .D
  | some nm => v.lookup path.dropLast nm

/-- Follow the components of a pathname from a path. -/
def follow (v : Volume) : List CStr → List CStr → Option (List CStr)
  | [], path => some path
  | nm :: rest, path =>
      if nm = literal "." then
        follow v rest path
      else if nm = literal ".." then
        follow v rest path.dropLast
      else if (v.lookup path nm).isSome then
        follow v rest (path ++ [nm])
      else
        none

/-- Where a walk starts. -/
def anchor (v : Volume) : List CStr :=
  if v.dirname.head? = some slash then [] else v.cwd

/-- The path to which a pathname leads. -/
def locate (v : Volume) (pathname : CStr) : Option (List CStr) :=
  if pathname.length < 130 ∧ (components pathname).length ≤ 40 then
    v.follow (components pathname) v.anchor
  else
    none

/-- The pathname is split into its directory part and its last component. -/
def split (v : Volume) (pathname : CStr) : Volume :=
  { v with dirname := Libgen.dirname pathname }

/-- The path of the directory part. -/
def parent (v : Volume) (pathname : CStr) : Option (List CStr) :=
  (v.split pathname).locate (Libgen.dirname pathname)

def add (v : Volume) (e : Entry) : Volume :=
  { v with entries := v.entries ++ [e] }

def remove (v : Volume) (front : List CStr) (nm : CStr) : Volume :=
  { v with
    entries := v.entries.filter (fun e => ¬ (e.front = front ∧ e.nm = nm)) }

def make
    (type : NodeType) (block : Ptr) (pathname : CStr) (v : Volume) :
    Option (Int × Volume) :=
  let nm := Libgen.basename pathname
  if refused nm then
    some (-1, v.split pathname)
  else
    (v.parent pathname).bind (fun front =>
      if (v.lookup front nm).isSome then some (-1, v.split pathname)
      else
        block.map (fun _ => (0, (v.split pathname).add ⟨front, nm, type⟩)))

def rmdir (pathname : CStr) (v : Volume) : Option (Int × Volume) :=
  let nm := Libgen.basename pathname
  if refused nm then
    some (-1, v.split pathname)
  else
    (v.parent pathname).map (fun front =>
      if (v.lookup front nm).isSome ∧ v.children (front ++ [nm]) = [] then
        (0, (v.split pathname).remove front nm)
      else
        (-1, v.split pathname))

def rm (pathname : CStr) (v : Volume) : Option (Int × Volume) :=
  let nm := Libgen.basename pathname
  (v.parent pathname).map (fun front =>
    if v.lookup front nm = some .G then
      (0, (v.split pathname).remove front nm)
    else
      (-1, v.split pathname))

def cd (pathname : CStr) (v : Volume) : Option (Int × Volume) :=
  (v.locate pathname).map (fun path =>
    if v.typeOf path = some .Y then (0, { v with cwd := path }) else (-1, v))

/-- The commands that return a number. -/
def call (request : Request) (v : Volume) : Option (Int × Volume) :=
  match request.command with
  | .cd => v.cd request.pathname
  | command =>
      if FitsSplit request.pathname then
        match command with
        | .mkdir => v.make .Y request.block request.pathname
        | .create => v.make .G request.block request.pathname
        | .rmdir => v.rmdir request.pathname
        | _ => v.rm request.pathname
      else
        none

/-- A line, and what the volume answers. -/
def answer (v : Volume) (line : Line) : Option (Reply × Volume) :=
  match line.user_command with
  | .change command =>
      (v.call ⟨command, line.pathname, line.block⟩).map
        (fun out => (.returned out.1, out.2))
  | .ls =>
      if FitsSplit line.pathname then
        ((v.split line.pathname).locate line.pathname).map
          (fun path => (.listed (v.children path), v.split line.pathname))
      else
        none
  | .pwd => some (.printed (printed v.cwd), v)

/-- A removal that the program gets right: `rmdir` of a first child that is not the
current directory, `rm` of an only child that nothing is below. -/
def Keeps (v : Volume) (line : Line) : Prop :=
  let nm := Libgen.basename line.pathname
  match line.user_command with
  | .change .rmdir =>
      ∀ front ∈ v.parent line.pathname, (v.lookup front nm).isSome →
        v.children (front ++ [nm]) = [] →
          (v.children front).head?.map Prod.snd = some nm ∧
            front ++ [nm] ≠ v.cwd
  | .change .rm =>
      ∀ front ∈ v.parent line.pathname, v.lookup front nm = some .G →
        (v.children front).length = 1 ∧ v.children (front ++ [nm]) = []
  | _ => True

instance (v : Volume) (line : Line) : Decidable (v.Keeps line) := by
  unfold Keeps
  dsimp only
  split <;> infer_instance

section Children

variable {v : Volume} {front path : List CStr} {nm : CStr} {e : Entry}

@[simp] theorem children_split
    (pathname : CStr) (path : List CStr) :
    (v.split pathname).children path = v.children path := by
  rfl

@[simp] theorem lookup_split
    (pathname : CStr) (path : List CStr) (nm : CStr) :
    (v.split pathname).lookup path nm = v.lookup path nm := by
  rfl

theorem children_add
    (v : Volume) (e : Entry) (path : List CStr) :
    (v.add e).children path =
      v.children path ++ if e.front = path then [(e.type, e.nm)] else [] := by
  unfold children add
  rw [List.filter_append, List.map_append]
  split
  next hfront => simp [hfront]
  next hfront => simp [hfront]

theorem children_remove
    (v : Volume) (front : List CStr) (nm : CStr) (path : List CStr) :
    (v.remove front nm).children path =
      (v.children path).filter (fun child => ¬ (path = front ∧ child.2 = nm)) := by
  unfold children remove
  rw [List.filter_map, List.filter_filter, List.filter_filter]
  congr 1
  apply List.filter_congr
  intro e _
  by_cases hpath : e.front = path
  · simp [hpath]
  · simp [hpath]

/-- A path below an entry that is gone. -/
theorem children_eq_nil
    (h : ∀ e ∈ v.entries, e.front ≠ path) :
    v.children path = [] := by
  unfold children
  rw [List.map_eq_nil_iff, List.filter_eq_nil_iff]
  intro e he
  simpa using h e he

theorem typeOf_concat
    (v : Volume) (front : List CStr) (nm : CStr) :
    v.typeOf (front ++ [nm]) = v.lookup front nm := by
  simp [typeOf]

end Children

end Volume

end Filesystem
end PastWork
