import PastWork.Library.Json

/-!
# The reports file

The view `report` appends to a list of dictionaries that is kept as one JSON
text.  The file that does not exist or is empty counts as the empty list.
-/

namespace PastWork
namespace Campus

open Json

/-- A POST request to `report`: the fields of the form, and the logged-in user. -/
structure Submission where
  user : Nat
  name : Text
  location : Text
  description : Text
  time : Text
deriving DecidableEq

/-- The dictionary `report`. -/
def Submission.report (p : Submission) : Dict :=
  Dict.ofItems
    [("name".toList, p.name),
      ("id".toList, (toString p.user).toList),
      ("location".toList, p.location),
      ("description".toList, p.description),
      ("time".toList, p.time)]

/-- `campus_safe_reports.json`; `none` when there is no such file. -/
abbrev File := Option Text

/-- `os.path.exists(file_path) and os.path.getsize(file_path) > 0` -/
def sized : File → Bool
  | some (_ :: _) => true
  | _ => false

/-- `open(file_path, "r")` and `json.load(file)`; `none` is an exception. -/
def load (file : File) : Option (List Dict) :=
  file.bind loads

/-- `open(file_path, "w")` -/
def truncated : File :=
  some []

/-- `json.dump(reports, file, indent=2)` into a file that has been opened for
writing: from its first byte on, over what is there by now. -/
def dump (reports : List Dict) (file : File) : File :=
  some (dumps reports ++ (file.getD []).drop (dumps reports).length)

/-- The reports that the file holds for a request that runs alone. -/
def contents (file : File) : Option (List Dict) :=
  if sized file then load file else some []

section Files

variable {file : File} {reports reports' : List Dict}

theorem sized_dump
    (reports : List Dict) (file : File) :
    sized (dump reports file) = true := by
  unfold dump
  cases h : dumps reports with
  | nil => exact absurd h (dumps_ne_nil reports)
  | cons c s => rfl

/-- Whatever is left behind a dump, no other list can be loaded. -/
theorem contents_dump_eq
    (h : contents (dump reports file) = some reports') :
    reports' = reports := by
  rw [contents, sized_dump, if_pos rfl, load, dump, Option.bind_some,
    loads_dumps_append] at h
  split at h
  · exact (Option.some_inj.mp h).symm
  · cases h

/-- A dump into the truncated file. -/
theorem contents_dump_truncated
    (reports : List Dict) :
    contents (dump reports truncated) = some reports := by
  rw [contents, sized_dump, if_pos rfl, load, dump, truncated]
  simp [loads_dumps]

theorem contents_of_sized
    (h : sized file = true) :
    contents file = load file := by
  rw [contents, if_pos h]

theorem contents_of_not_sized
    (h : sized file = false) :
    contents file = some [] := by
  rw [contents, h]
  rfl

end Files

end Campus
end PastWork
