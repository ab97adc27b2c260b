import PastWork.Campus.Overlap

/-!
# Report histories

Requests that are handled one at a time: `report` for a submission, and what
`view_report_history` shows to a user.  A user sees the own submissions in their
order, whatever others have submitted.
-/

namespace PastWork
namespace Campus

open Json Steps

/-- A POST request to `report` that runs alone.  An exception of `json.load` leaves
the file as it is. -/
def report (file : File) (p : Submission) : File :=
  match contents file with
  | some reports => dump (reports ++ [p.report]) truncated
  | none => file

/-- `[report for report in reports if report["id"] == id]`; `none` is a
`KeyError`. -/
def reportsOf (id : Text) : List Dict → Option (List Dict)
  | [] => some []
  | report :: reports => do
      let owner ← report.getItem "id".toList
      let user_reports ← reportsOf id reports
      some (if owner = id then report :: user_reports else user_reports)

/-- The reports that are shown to the logged-in user; `none` is an exception. -/
def view_report_history (user : Nat) (file : File) : Option (List Dict) := do
  let reports ← contents file
  reportsOf (toString user).toList reports

namespace Posting

variable {ι : Type*} [DecidableEq ι]
variable {submitted : ι → Submission} {s : Posting ι} {i : ι}

/-- A request that has its list writes it. -/
theorem exec_loaded
    (submitted : ι → Submission)
    {reports : List Dict}
    (hi : s.progress i = .loaded reports) :
    ∃ s', exec (step submitted) s [(i, .truncate), (i, .dump)] = some s' ∧
      s'.file = dump (reports ++ [(submitted i).report]) truncated ∧
      s'.progress i = .done ∧ ∀ j, j ≠ i → s'.progress j = s.progress j := by
  let m : Posting ι :=
    { file := truncated
      progress := s.goto i (.writing (reports ++ [(submitted i).report])) }
  have hm : m.progress i = .writing (reports ++ [(submitted i).report]) :=
    goto_self s i _
  refine ⟨{ file := dump (reports ++ [(submitted i).report]) m.file
            progress := m.goto i .done }, ?_, rfl, goto_self m i _, ?_⟩
  · have htruncate : step submitted s (i, .truncate) = some m := by
      simp only [step, hi]
      rfl
    rw [exec, htruncate, Option.bind_some, exec, step, hm]
    rfl
  · exact fun j hj => (goto_ne hj _).trans (goto_ne hj _)

/-- The steps of a request without another one in between are `report`. -/
theorem exec_alone
    (hi : s.progress i = .start) :
    ∃ (acts : List Act) (s' : Posting ι),
      exec (step submitted) s (acts.map (fun act => (i, act))) = some s' ∧
      s'.file = report s.file (submitted i) ∧
      (s'.progress i).isFinished = true ∧
      ∀ j, j ≠ i → s'.progress j = s.progress j := by
  cases hsized : sized s.file with
  | false =>
      let m : Posting ι := { s with progress := s.goto i (.loaded []) }
      have htest : step submitted s (i, .test) = some m := by
        simp only [step, hi, hsized]
        rfl
      obtain ⟨s', hrun, hfile, hdone, hothers⟩ :=
        exec_loaded submitted (s := m) (goto_self s i _)
      refine ⟨[.test, .truncate, .dump], s', ?_, ?_, by rw [hdone]; rfl, ?_⟩
      · rw [List.map_cons, exec, htest]
        exact hrun
      · rw [hfile, report, contents_of_not_sized hsized]
      · exact fun j hj => (hothers j hj).trans (goto_ne hj _)
  | true =>
      let m : Posting ι := { s with progress := s.goto i .opening }
      have htest : step submitted s (i, .test) = some m := by
        simp only [step, hi, hsized]
        rfl
      have hm : m.progress i = .opening := goto_self s i _
      let m' : Posting ι :=
        { m with progress := m.goto i (afterLoad (load m.file)) }
      have hload : step submitted m (i, .load) = some m' := by
        simp only [step, hm]
        rfl
      have hm' : m'.progress i = afterLoad (load s.file) := goto_self m i _
      have hothers' : ∀ j, j ≠ i → m'.progress j = s.progress j :=
        fun j hj => (goto_ne hj _).trans (goto_ne hj _)
      rw [report, contents_of_sized hsized]
      cases hcontents : load s.file with
      | none =>
          rw [hcontents] at hm'
          refine ⟨[.test, .load], m', ?_, rfl, by rw [hm']; rfl, hothers'⟩
          rw [List.map_cons, exec, htest, Option.bind_some, List.map_cons, exec,
            hload]
          rfl
      | some reports =>
          rw [hcontents] at hm'
          obtain ⟨s', hrun, hfile, hdone, hothers⟩ :=
            exec_loaded submitted hm'
          refine ⟨[.test, .load, .truncate, .dump], s', ?_, hfile,
            by rw [hdone]; rfl, fun j hj => (hothers j hj).trans (hothers' j hj)⟩
          rw [List.map_cons, exec, htest, Option.bind_some, List.map_cons, exec,
            hload]
          exact hrun

end Posting

section Contents

variable {file : File} {reports : List Dict}

/-- A request adds its report behind the stored ones. -/
theorem contents_report
    (h : contents file = some reports)
    (p : Submission) :
    contents (report file p) = some (reports ++ [p.report]) := by
  rw [report, h]
  exact contents_dump_truncated _

/-- After all requests the file holds their reports. -/
theorem contents_foldl
    (h : contents file = some reports)
    (submissions : List Submission) :
    contents (submissions.foldl report file) =
      some (reports ++ submissions.map Submission.report) := by
  induction submissions generalizing file reports with
  | nil =>
      rw [List.foldl_nil, List.map_nil, List.append_nil]
      exact h
  | cons p submissions ih =>
      rw [List.foldl_cons, ih (contents_report h p), List.map_cons,
        List.append_assoc, List.singleton_append]

end Contents

section Histories

/-- A report has the fields that were submitted. -/
structure Submission.Shown (p : Submission) (report : Dict) : Prop where
  name : report.getItem "name".toList = some p.name
  id : report.getItem "id".toList = some (toString p.user).toList
  location : report.getItem "location".toList = some p.location
  description : report.getItem "description".toList = some p.description
  time : report.getItem "time".toList = some p.time

theorem Submission.shown_report
    (p : Submission) :
    p.Shown p.report := by
  constructor
  all_goals
    refine Dict.getItem_ofItems ?_ (by simp)
    simp

/-- Different users have different ids. -/
theorem id_inj
    {u v : Nat} :
    (toString u).toList = (toString v).toList ↔ u = v := by
  constructor
  · intro h
    have hread := congrArg (fun s => Nat.ofDigitChars 10 s 0) h
    simpa [Nat.ofDigitChars_toDigits] using hread
  · rintro rfl
    rfl

/-- The submissions of one user. -/
def submissionsOf (user : Nat) (submissions : List Submission) :
    List Submission :=
  submissions.filter (fun p => p.user = user)

theorem reportsOf_map
    (user : Nat) (submissions : List Submission) :
    reportsOf (toString user).toList (submissions.map Submission.report) =
      some ((submissionsOf user submissions).map Submission.report) := by
  induction submissions with
  | nil =>
      rfl
  | cons p submissions ih =>
      rw [List.map_cons, reportsOf, p.shown_report.id, ih]
      simp only [Option.bind_eq_bind, Option.bind_some, id_inj, submissionsOf,
        List.filter_cons, decide_eq_true_eq]
      split <;> rfl

/-- What a user is shown after requests that were handled one at a time. -/
theorem view_report_history_foldl
    {file : File}
    (h : contents file = some [])
    (user : Nat) (submissions : List Submission) :
    view_report_history user (submissions.foldl report file) =
      some ((submissionsOf user submissions).map Submission.report) := by
  rw [view_report_history, contents_foldl h, Option.bind_eq_bind,
    Option.bind_some, List.nil_append, reportsOf_map]

/-- From no stored reports on, a user is shown exactly the own reports, in their
order and with the fields as submitted; other users have no influence on it. -/
theorem history_isolated
    {file : File}
    (h : contents file = some [])
    (user : Nat) (submissions : List Submission) :
    (∃ shown, view_report_history user (submissions.foldl report file) =
        some shown ∧
      List.Forall₂ Submission.Shown (submissionsOf user submissions) shown) ∧
    ∀ file' submissions', contents file' = some [] →
      submissionsOf user submissions' = submissionsOf user submissions →
      view_report_history user (submissions'.foldl report file') =
        view_report_history user (submissions.foldl report file) := by
  refine ⟨⟨_, view_report_history_foldl h user submissions, ?_⟩, ?_⟩
  · rw [List.forall₂_map_right_iff, List.forall₂_same]
    exact fun p _ => p.shown_report
  · intro file' submissions' h' hsame
    rw [view_report_history_foldl h', view_report_history_foldl h, hsame]

/-- Two users take turns, and there is no file at first. -/
theorem history_isolated_two :
    (∃ shown, view_report_history 1
        ([⟨1, ['a'], [], [], []⟩, ⟨2, ['b'], [], [], []⟩].foldl report none) =
        some shown ∧
      List.Forall₂ Submission.Shown
        (submissionsOf 1 [⟨1, ['a'], [], [], []⟩, ⟨2, ['b'], [], [], []⟩])
        shown) ∧
    ∀ file' submissions', contents file' = some [] →
      submissionsOf 1 submissions' =
        submissionsOf 1 [⟨1, ['a'], [], [], []⟩, ⟨2, ['b'], [], [], []⟩] →
      view_report_history 1 (submissions'.foldl report file') =
        view_report_history 1
          ([⟨1, ['a'], [], [], []⟩, ⟨2, ['b'], [], [], []⟩].foldl report none) :=
  history_isolated rfl 1 _

end Histories

end Campus
end PastWork
