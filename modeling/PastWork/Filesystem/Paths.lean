import Mathlib.Data.List.DropRight
import PastWork.Library.Strings

/-!
# Pathnames

`dirname` and `basename` of `libgen.h`, and the components that `strtok` finds.
A pathname that fits the `pathname[70]` of `main` fits every array it is copied
to, and has fewer components than the array of their names has room for.
-/

namespace PastWork

namespace Libgen

/-- `'/'` -/
def slash : Byte := 47

def basename (path : CStr) : CStr :=
  if path = [] then
    literal "."
  else
    let stripped := path.rdropWhile (fun c => c = slash)
    if stripped = [] then literal "/"
    else stripped.rtakeWhile (fun c => c ≠ slash)

/-- Some libraries keep a leading `//`, which starts at the root too and has the
same components. -/
def dirname (path : CStr) : CStr :=
  let stripped := path.rdropWhile (fun c => c = slash)
  if stripped = [] then
    if path = [] then literal "." else literal "/"
  else
    let parent := stripped.rdropWhile (fun c => c ≠ slash)
    if parent = [] then
      literal "."
    else
      let stripped := parent.rdropWhile (fun c => c = slash)
      if stripped = [] then literal "/" else stripped

theorem basename_length
    (path : CStr) :
    (basename path).length ≤ max 1 path.length := by
  have hdrop : (path.rdropWhile (fun c => c = slash)).length ≤ path.length :=
    (List.rdropWhile_prefix _ _).length_le
  unfold basename
  simp only
  split_ifs
  · exact le_max_left _ _
  · exact le_max_left _ _
  · exact ((List.rtakeWhile_suffix _ _).length_le.trans hdrop).trans
      (le_max_right _ _)

theorem dirname_length
    (path : CStr) :
    (dirname path).length ≤ max 1 path.length := by
  have hdrop : ∀ (p : Byte → Bool) (l : CStr),
      (l.rdropWhile p).length ≤ l.length :=
    fun p l => (List.rdropWhile_prefix p l).length_le
  unfold dirname
  simp only
  split_ifs
  · exact le_max_left _ _
  · exact le_max_left _ _
  · exact le_max_left _ _
  · exact le_max_left _ _
  · exact (((hdrop _ _).trans (hdrop _ _)).trans (hdrop _ _)).trans
      (le_max_right _ _)

/-- A basename other than the root's is a name between slashes. -/
theorem basename_name
    {path : CStr}
    (h : basename path ≠ literal "/") :
    slash ∉ basename path ∧ basename path ≠ [] := by
  have hlast := List.rdropWhile_last_not (fun c : Byte => c = slash) path
  unfold basename at h ⊢
  simp only at h ⊢
  split_ifs at h ⊢ with hnil hstripped
  · decide
  · exact absurd rfl h
  · constructor
    · intro hmem
      simpa using List.mem_rtakeWhile_imp hmem
    · intro hempty
      exact List.rtakeWhile_eq_nil_iff.mp hempty hstripped
        (by simpa using hlast hstripped)

/-- A pathname that starts at the root. -/
def Absolute (path : CStr) : Prop :=
  path.head? = some slash

instance (path : CStr) : Decidable (Absolute path) :=
  inferInstanceAs (Decidable (_ = _))

theorem absolute_front
    {front path : CStr}
    (h : front <+: path)
    (hne : front ≠ []) :
    Absolute front ↔ Absolute path := by
  obtain ⟨rest, rfl⟩ := h
  unfold Absolute
  rw [List.head?_append_of_ne_nil _ hne]

/-- Only slashes are dropped from the end. -/
theorem absolute_of_rdropWhile
    {path : CStr}
    (h : path.rdropWhile (fun c => c = slash) = [])
    (hne : path ≠ []) :
    Absolute path := by
  obtain ⟨c, rest, rfl⟩ := List.exists_cons_of_ne_nil hne
  have hall := List.rdropWhile_eq_nil_iff.mp h c List.mem_cons_self
  unfold Absolute
  rw [List.head?_cons, of_decide_eq_true hall]

/-- The directory part starts where the pathname starts. -/
theorem absolute_dirname
    (path : CStr) :
    Absolute (dirname path) ↔ Absolute path := by
  have hdot : ¬ Absolute (literal ".") := by decide
  have hroot : Absolute (literal "/") := by decide
  have hstripped : path.rdropWhile (fun c => c = slash) <+: path :=
    List.rdropWhile_prefix _ _
  unfold dirname
  generalize hs : path.rdropWhile (fun c => c = slash) = stripped at *
  have hparent : stripped.rdropWhile (fun c => c ≠ slash) <+: stripped :=
    List.rdropWhile_prefix _ _
  simp only
  split_ifs with hnil hpath hnone hslashes
  · rw [hpath]
    exact iff_of_false hdot (by decide)
  · exact iff_of_true hroot (absolute_of_rdropWhile (hs.trans hnil) hpath)
  · -- the only component is the first one
    rw [← absolute_front hstripped hnil]
    refine iff_of_false hdot (fun habs => ?_)
    obtain ⟨rest, rfl⟩ := List.head?_eq_some_iff.mp habs
    have hall := List.rdropWhile_eq_nil_iff.mp hnone slash List.mem_cons_self
    exact of_decide_eq_true hall rfl
  · refine iff_of_true hroot ?_
    rw [← absolute_front hstripped hnil, ← absolute_front hparent hnone]
    exact absolute_of_rdropWhile hslashes hnone
  · rw [absolute_front (List.rdropWhile_prefix _ _) hslashes,
      absolute_front hparent hnone, absolute_front hstripped hnil]

end Libgen

namespace Filesystem

open Libgen (slash)

/-- What `strtok` finds between slashes. -/
def components (path : CStr) : List CStr :=
  (path.splitOn slash).filter (fun a : CStr => !a.isEmpty)

/-- The components of a pathname, in the `char *nm[40]`. -/
def tokenize (pathname : CStr) : Result (List CStr) := do
  let sHold ← copied 130 pathname
  let nm := components sHold
  if nm.length ≤ 40 then .ok nm else .error .outOfBounds

section Components

/-- Components do not reach over a slash. -/
theorem components_append
    (path rest : CStr) :
    components (path ++ slash :: rest) =
      components path ++ components rest := by
  unfold components
  rw [List.splitOn_append_cons_self, List.filter_append]

theorem components_of_notMem
    {name : CStr}
    (hname : slash ∉ name)
    (hne : name ≠ []) :
    components name = [name] := by
  unfold components
  rw [List.splitOn_eq_singleton hname]
  simp [hne]

/-- Slashes at the end change nothing. -/
theorem components_rdropWhile
    (path : CStr) :
    components (path.rdropWhile (fun c => c = slash)) = components path := by
  induction path using List.reverseRecOn with
  | nil =>
      rfl
  | append_singleton path c ih =>
      by_cases hc : c = slash
      · rw [List.rdropWhile_concat_pos _ _ _ (by simpa using hc), ih, hc,
          components_append]
        simp [components]
      · rw [List.rdropWhile_concat_neg _ _ _ (by simpa using hc)]

/-- A pathname is its directory part and its last component. -/
theorem components_dirname
    {path : CStr}
    (hslash : Libgen.basename path ≠ literal "/")
    (hdot : Libgen.basename path ≠ literal ".") :
    ∃ front, components path = front ++ [Libgen.basename path] ∧
      (components (Libgen.dirname path) = front ∨
        front = [] ∧ components (Libgen.dirname path) = [literal "."]) := by
  obtain ⟨hname, hne⟩ := Libgen.basename_name hslash
  unfold Libgen.basename at hslash hdot hname hne ⊢
  unfold Libgen.dirname
  have hpath : path ≠ [] := by
    rintro rfl
    exact hdot rfl
  simp only [if_neg hpath] at hslash hdot hname hne ⊢
  rw [← components_rdropWhile path]
  generalize path.rdropWhile (fun c => c = slash) = stripped at *
  have hstripped : stripped ≠ [] := by
    rintro rfl
    exact hslash rfl
  simp only [if_neg hstripped] at hname hne ⊢
  -- the last component and what is before it
  have hsplit := List.rdropWhile_append_rtakeWhile
    (p := fun c : Byte => c ≠ slash) (l := stripped)
  have hlast' := List.rdropWhile_last_not (fun c : Byte => c ≠ slash) stripped
  generalize stripped.rtakeWhile (fun c => c ≠ slash) = name at *
  generalize stripped.rdropWhile (fun c => c ≠ slash) = parent at *
  subst hsplit
  refine ⟨components parent, ?_, ?_⟩
  · cases parent using List.reverseRecOn with
    | nil =>
        exact components_of_notMem hname hne
    | append_singleton front c =>
        obtain rfl : c = slash := by simpa using hlast'
        rw [List.append_assoc, List.singleton_append, components_append,
          components_of_notMem hname hne, components_append]
        simp [components]
  · by_cases hparent : parent = []
    · rw [hparent]
      exact .inr ⟨by decide, by decide⟩
    · left
      rw [if_neg hparent, ← components_rdropWhile parent]
      split
      next hroot =>
        rw [hroot]
        decide
      next => rfl

end Components

/-- Between two components there is a slash. -/
theorem components_length
    (path : CStr) :
    2 * (components path).length ≤ path.length + 1 := by
  have key : ∃ head rest, path.splitOn slash = head :: rest ∧
      2 * (rest.filter (fun a : CStr => !a.isEmpty)).length +
        (if head = [] then 0 else 1) ≤ path.length := by
    induction path with
    | nil =>
        exact ⟨[], [], rfl, by simp⟩
    | cons c path ih =>
        obtain ⟨head, rest, hsplit, hle⟩ := ih
        rw [List.splitOn_cons_eq_if_modifyHead, hsplit]
        by_cases hc : c = slash
        · refine ⟨[], head :: rest, by simp [hc], ?_⟩
          by_cases hhead : head = []
          · simp [hhead] at hle ⊢
            omega
          · simp [hhead] at hle ⊢
            omega
        · refine ⟨c :: head, rest, by simp [hc], ?_⟩
          by_cases hhead : head = []
          · simp [hhead] at hle ⊢
            omega
          · simp [hhead] at hle ⊢
            omega
  obtain ⟨head, rest, hsplit, hle⟩ := key
  unfold components
  rw [hsplit]
  by_cases hhead : head = []
  · simp [hhead] at hle ⊢
    omega
  · simp [hhead] at hle ⊢
    omega

/-- A pathname with few components in a string that fits is tokenized. -/
theorem tokenize_eq_ok
    {pathname : CStr}
    (hlength : pathname.length < 130)
    (hcount : (components pathname).length ≤ 40) :
    tokenize pathname = .ok (components pathname) := by
  simp [tokenize, copied, hlength, hcount]

theorem tokenize_eq_error
    {pathname : CStr}
    (h : ¬ (pathname.length < 130 ∧
      (components pathname).length ≤ 40)) :
    tokenize pathname = .error .outOfBounds := by
  by_cases hlength : pathname.length < 130
  · have hcount : ¬ (components pathname).length ≤ 40 :=
      fun hcount => h ⟨hlength, hcount⟩
    simp [tokenize, copied, hlength, hcount]
  · simp [tokenize, copied, hlength]

end Filesystem
end PastWork
