import PastWork.Campus.History

/-!
# Pages that are viewed while reports come in

`dashboard` and `view_report_history` test and read the file while any number of POST
requests to `report` are at work.  Whatever the order of the steps, no report is shown
twice or made up; when the requests take turns, a page shows what has been dumped so
far, except between a truncation and its dump.
-/

namespace PastWork
namespace Campus

open Json Steps

universe u v

/-- A page that lists reports. -/
inductive Page where
  | dashboard
  /-- `view_report_history` for the logged-in user -/
  | history (user : Nat)

/-- The reports that a page shows of those in the file; `none` is a `KeyError`. -/
def Page.select : Page → List Dict → Option (List Dict)
  | .dashboard, reports => some reports
  | .history user, reports => reportsOf (toString user).toList reports

/-- Where a GET request is. -/
inductive View where
  | start
  /-- the test has passed; `json.load` comes next -/
  | opening
  | shown (reports : List Dict)
  /-- an exception has ended the request -/
  | failed

/-- The page for what has been read. -/
def View.ofReports (page : Page) (reports : Option (List Dict)) : View :=
  match reports.bind page.select with
  | some reports => .shown reports
  | none => .failed

/-- The steps of a GET request. -/
inductive Look where
  | test
  | load

/-- The requests to `report` and the GET requests. -/
structure Site (ι : Type u) (κ : Type v) where
  posting : Posting ι
  view : κ → View

namespace Site

variable {ι : Type u} {κ : Type v} [DecidableEq κ]

def start (file : File) : Site ι κ where
  posting := .start file
  view := fun _ => .start

def render (s : Site ι κ) (k : κ) (view : View) : Site ι κ :=
  { s with view := Function.update s.view k view }

@[simp] theorem render_view_self
    (s : Site ι κ) (k : κ) (view : View) :
    (s.render k view).view k = view := by
  simp [render]

theorem render_view_ne
    {s : Site ι κ} {k j : κ}
    (h : j ≠ k) (view : View) :
    (s.render k view).view j = s.view j := by
  simp [render, h]

/-- A GET request is where it was, or has just moved. -/
theorem render_cases
    {s : Site ι κ} {k j : κ} {view after : View}
    (h : (s.render k view).view j = after) :
    (j = k ∧ view = after) ∨ s.view j = after := by
  by_cases hj : j = k
  · subst hj
    rw [render_view_self] at h
    exact .inl ⟨rfl, h⟩
  · rw [render_view_ne hj] at h
    exact .inr h

variable [DecidableEq ι]

/-- One step of a POST request, or of the GET request `k` for the page `page k`. -/
def step (submitted : ι → Submission) (page : κ → Page) (s : Site ι κ) :
    (ι × Act) ⊕ (κ × Look) → Option (Site ι κ)
  | .inl e =>
      (s.posting.step submitted e).map (fun posting => { s with posting := posting })
  | .inr (k, .test) =>
      match s.view k with
      | .start =>
          some
            (s.render k
              (if sized s.posting.file then .opening
              else .ofReports (page k) (some [])))
      | _ => none
  | .inr (k, .load) =>
      match s.view k with
      | .opening => some (s.render k (.ofReports (page k) (load s.posting.file)))
      | _ => none

/-- The requests whose dumps are among the steps, in their order. -/
def dumped (es : List ((ι × Act) ⊕ (κ × Look))) : List ι :=
  es.filterMap (fun e =>
    match e with
    | .inl (i, .dump) => some i
    | _ => none)

/-- The POST requests take turns. -/
def PostsAlone (s : Site ι κ) : (ι × Act) ⊕ (κ × Look) → Prop
  | .inl e => s.posting.Alone e
  | .inr _ => True

instance [Fintype ι] (s : Site ι κ) : ∀ e, Decidable (s.PostsAlone e)
  | .inl e => inferInstanceAs (Decidable (s.posting.Alone e))
  | .inr _ => isTrue trivial

end Site

namespace Posting

variable {ι : Type u} [DecidableEq ι] {submitted : ι → Submission}
  {s s' : Posting ι} {stored : List Dict} {e : ι × Act}

/-- Nothing is made up or repeated: the reports of requests that are done, behind the
stored ones or behind none. -/
def Composed
    (submitted : ι → Submission) (stored : List Dict) (s : Posting ι)
    (reports : List Dict) : Prop :=
  ∃ base order, (base = stored ∨ base = []) ∧ order.Nodup ∧
    (∀ i ∈ order, s.progress i = .done) ∧ reports = listOf submitted base order

/-- What the file holds and what the requests are going to dump. -/
structure Mixed
    (submitted : ι → Submission) (stored : List Dict) (s : Posting ι) : Prop where
  file : ∀ reports, contents s.file = some reports →
    s.Composed submitted stored reports
  loaded : ∀ i reports, s.progress i = .loaded reports →
    s.Composed submitted stored reports
  writing : ∀ i reports, s.progress i = .writing reports →
    ∃ front, reports = front ++ [(submitted i).report] ∧
      s.Composed submitted stored front

/-- A request that is done stays done. -/
theorem done_of_step
    (hstep : s.step submitted e = some s')
    {j : ι}
    (hj : s.progress j = .done) :
    s'.progress j = .done := by
  have hgoto : ∀ {i p}, s.progress i ≠ .done → s.goto i p j = .done := by
    intro i p hi
    have hne : j ≠ i := by
      rintro rfl
      exact hi hj
    rw [goto_ne hne, hj]
  cases step_effect hstep with
  | found hi => exact hgoto (by simp [hi])
  | took hi =>
      refine hgoto (fun hdone => ?_)
      rw [hdone] at hi
      cases hi
  | raised hi => exact hgoto (by simp [hi])
  | cut hi => exact hgoto (by simp [hi])
  | wrote hi => exact hgoto (by simp [hi])

theorem Composed.step
    {reports : List Dict}
    (h : s.Composed submitted stored reports)
    (hstep : s.step submitted e = some s') :
    s'.Composed submitted stored reports := by
  obtain ⟨base, order, hbase, hnodup, hdone, hreports⟩ := h
  exact ⟨base, order, hbase, hnodup, fun i hi => done_of_step hstep (hdone i hi), hreports⟩

omit [DecidableEq ι] in
theorem composed_nil :
    s.Composed submitted stored [] :=
  ⟨[], [], .inr rfl, List.nodup_nil, by simp, rfl⟩

omit [DecidableEq ι] in
/-- The report of a request that has dumped is a new one. -/
theorem Composed.snoc
    {front : List Dict} {i : ι}
    (h : s.Composed submitted stored front)
    (hi : s.progress i ≠ .done)
    (hkeep : ∀ j, s.progress j = .done → s'.progress j = .done)
    (hdone : s'.progress i = .done) :
    s'.Composed submitted stored (front ++ [(submitted i).report]) := by
  obtain ⟨base, order, hbase, hnodup, hall, rfl⟩ := h
  refine ⟨base, order ++ [i], hbase, ?_, ?_, by simp [listOf]⟩
  · refine List.nodup_append.mpr ⟨hnodup, List.nodup_singleton i, ?_⟩
    rintro j hj k hk rfl
    rw [List.mem_singleton.mp hk] at hj
    exact hi (hall i hj)
  · intro j hj
    rcases List.mem_append.mp hj with hj | hj
    · exact hkeep j (hall j hj)
    · rw [List.mem_singleton.mp hj]
      exact hdone

/-- The steps of the requests, in any order. -/
theorem Mixed.step
    (h : s.Mixed submitted stored)
    (hstep : s.step submitted e = some s') :
    s'.Mixed submitted stored := by
  have hfile : ∀ reports, contents s.file = some reports →
      s'.Composed submitted stored reports :=
    fun reports hreports => (h.file reports hreports).step hstep
  have hkeep := fun j => done_of_step (j := j) hstep
  -- the lists of the request that moves and those of the others
  have hloaded : ∀ {i p}, (∀ reports, p = .loaded reports →
      s'.Composed submitted stored reports) → ∀ j reports,
        s.goto i p j = .loaded reports → s'.Composed submitted stored reports := by
    intro i p hp j reports hj
    rcases goto_eq hj with ⟨_, heq⟩ | ⟨_, heq⟩
    · exact hp reports heq
    · exact (h.loaded j reports heq).step hstep
  have hwriting : ∀ {i p}, (∀ reports, p = .writing reports →
      ∃ front, reports = front ++ [(submitted i).report] ∧
        s'.Composed submitted stored front) → ∀ j reports,
          s.goto i p j = .writing reports →
            ∃ front, reports = front ++ [(submitted j).report] ∧
              s'.Composed submitted stored front := by
    intro i p hp j reports hj
    rcases goto_eq hj with ⟨rfl, heq⟩ | ⟨_, heq⟩
    · exact hp reports heq
    · obtain ⟨front, hreports, hfront⟩ := h.writing j reports heq
      exact ⟨front, hreports, hfront.step hstep⟩
  cases step_effect hstep with
  | found => exact ⟨hfile, hloaded (by simp), hwriting (by simp)⟩
  | took _ _ hcontents =>
      refine ⟨hfile, hloaded ?_, hwriting (by simp)⟩
      rintro reports heq
      cases heq
      exact hfile _ hcontents
  | raised => exact ⟨hfile, hloaded (by simp), hwriting (by simp)⟩
  | @cut i front hi =>
      refine ⟨fun reports hreports => ?_, hloaded (by simp), hwriting ?_⟩
      · cases hreports
        exact composed_nil
      · rintro reports heq
        cases heq
        exact ⟨front, rfl, (h.loaded i front hi).step hstep⟩
  | @wrote i reports hi =>
      obtain ⟨front, rfl, hfront⟩ := h.writing i reports hi
      refine ⟨fun reports' hreports => ?_, hloaded (by simp), hwriting (by simp)⟩
      rw [contents_dump_eq hreports]
      exact hfront.snoc (by simp [hi]) hkeep (goto_self s i .done)

/-- A request is between its truncation and its dump. -/
def Truncated (s : Posting ι) : Prop :=
  ∃ i reports, s.progress i = .writing reports

/-- A file with some text keeps some, except for a truncation. -/
theorem sized_or_truncated
    (hstep : s.step submitted e = some s')
    (h : sized s.file = true ∨ s.Truncated) :
    sized s'.file = true ∨ s'.Truncated := by
  have hmoves : ∀ {i p}, (∀ reports, s.progress i ≠ .writing reports) →
      s.Truncated → Truncated { s with progress := s.goto i p } := by
    rintro i p hi ⟨j, reports, hj⟩
    have hne : j ≠ i := by
      rintro rfl
      exact hi reports hj
    exact ⟨j, reports, (goto_ne hne p).trans hj⟩
  cases step_effect hstep with
  | found hi => exact h.imp_right (hmoves (by simp [hi]))
  | took hi =>
      refine h.imp_right (hmoves (fun reports hno => ?_))
      rw [hno] at hi
      cases hi
  | raised hi => exact h.imp_right (hmoves (by simp [hi]))
  | @cut i reports hi => exact .inr ⟨i, _, goto_self s i _⟩
  | wrote hi => exact .inl (sized_dump _ _)

/-- The next dump comes behind those that have been made. -/
theorem Serial.next
    {order : List ι}
    (h : Serial submitted stored s order)
    (hstep : s.step submitted e = some s')
    (halone : s.Alone e) :
    Serial submitted stored s' (order ++ if e.2 = .dump then [e.1] else []) := by
  cases step_effect hstep with
  | found hi hsized => simpa using h.found hi hsized
  | @took i act reports hi hreads hcontents =>
      have hact : act ≠ .dump := by
        rintro rfl
        cases hreads
      simpa [hact] using h.took hi (halone hreads) hcontents
  | raised hi hreads hload =>
      exfalso
      have hidle := halone hreads
      have hfile := h.idle hidle
      rw [contents_of_sized (h.sized _ hi hidle), hload] at hfile
      cases hfile
  | cut hi => simpa using h.cut hi
  | wrote hi => simpa using h.wrote hi

omit [DecidableEq ι] in
/-- Without a request between its truncation and its dump, the file holds the stored
reports and those of the requests in `order`. -/
theorem Serial.contents_eq
    {order : List ι}
    (h : Serial submitted stored s order)
    (hquiet : ¬ s.Truncated) :
    contents s.file = some (listOf submitted stored order) := by
  by_cases hidle : ∀ i, (s.progress i).isActive = false
  · exact h.idle hidle
  · obtain ⟨i, hi⟩ := not_forall.mp hidle
    cases hprogress : s.progress i with
    | loaded reports => exact (h.loaded i reports hprogress).2
    | writing reports => exact absurd ⟨i, reports, hprogress⟩ hquiet
    | start => simp [hprogress, Progress.isActive] at hi
    | opening => simp [hprogress, Progress.isActive] at hi
    | done => simp [hprogress, Progress.isActive] at hi
    | failed => simp [hprogress, Progress.isActive] at hi

end Posting

namespace Site

variable {ι : Type u} {κ : Type v} [DecidableEq ι] [DecidableEq κ]
  {submitted : ι → Submission} {page : κ → Page} {stored : List Dict} {file : File}
  {s s' : Site ι κ} {es : List ((ι × Act) ⊕ (κ × Look))}

/-- What is shown is selected of reports that are not made up or repeated. -/
structure Honest
    (submitted : ι → Submission) (page : κ → Page) (stored : List Dict)
    (s : Site ι κ) : Prop where
  mixed : s.posting.Mixed submitted stored
  shown : ∀ k reports, s.view k = .shown reports →
    ∃ read, s.posting.Composed submitted stored read ∧
      (page k).select read = some reports
  opened : ∀ k, s.view k = .opening →
    sized s.posting.file = true ∨ s.posting.Truncated

theorem ofReports_shown
    {page : Page} {read : Option (List Dict)} {reports : List Dict}
    (h : View.ofReports page read = .shown reports) :
    ∃ list, read = some list ∧ page.select list = some reports := by
  unfold View.ofReports at h
  cases hread : read.bind page.select with
  | none =>
      rw [hread] at h
      cases h
  | some shown =>
      rw [hread] at h
      cases h
      exact Option.bind_eq_some_iff.mp hread

/-- A step of a GET request. -/
theorem view_cases
    {k : κ} {look : Look}
    (hstep : s.step submitted page (.inr (k, look)) = some s') :
    (look = .test ∧ sized s.posting.file = true ∧ s' = s.render k .opening) ∨
      (look = .test ∧ sized s.posting.file = false ∧
        s' = s.render k (.ofReports (page k) (some []))) ∨
      look = .load ∧ s.view k = .opening ∧
        s' = s.render k (.ofReports (page k) (load s.posting.file)) := by
  cases look with
  | test =>
      simp only [step] at hstep
      split at hstep
      · cases hsized : sized s.posting.file with
        | true =>
            rw [hsized] at hstep
            cases hstep
            exact .inl ⟨rfl, rfl, rfl⟩
        | false =>
            rw [hsized] at hstep
            cases hstep
            exact .inr (.inl ⟨rfl, rfl, rfl⟩)
      · cases hstep
  | load =>
      simp only [step] at hstep
      split at hstep
      next hview =>
        cases hstep
        exact .inr (.inr ⟨rfl, hview, rfl⟩)
      next => cases hstep

omit [DecidableEq ι] in
theorem Honest.rendered
    {k : κ} {read : Option (List Dict)}
    (h : s.Honest submitted page stored)
    (hread : ∀ list, read = some list → s.posting.Composed submitted stored list) :
    (s.render k (.ofReports (page k) read)).Honest submitted page stored := by
  refine ⟨h.mixed, fun j reports hj => ?_, fun j hj => ?_⟩
  · rcases render_cases hj with ⟨rfl, hshown⟩ | hold
    · obtain ⟨list, hlist, hselect⟩ := ofReports_shown hshown
      exact ⟨list, hread list hlist, hselect⟩
    · exact h.shown j reports hold
  · rcases render_cases hj with ⟨_, hno⟩ | hold
    · unfold View.ofReports at hno
      split at hno <;> cases hno
    · exact h.opened j hold

theorem Honest.step
    {e : (ι × Act) ⊕ (κ × Look)}
    (h : s.Honest submitted page stored)
    (hstep : s.step submitted page e = some s') :
    s'.Honest submitted page stored := by
  rcases e with e | ⟨k, look⟩
  · obtain ⟨posting, hposting, rfl⟩ := Option.map_eq_some_iff.mp hstep
    refine ⟨h.mixed.step hposting, fun k reports hk => ?_, fun k hk => ?_⟩
    · obtain ⟨read, hread, hselect⟩ := h.shown k reports hk
      exact ⟨read, hread.step hposting, hselect⟩
    · exact Posting.sized_or_truncated hposting (h.opened k hk)
  · rcases view_cases hstep with ⟨_, hsized, rfl⟩ | ⟨_, _, rfl⟩ | ⟨_, _, rfl⟩
    · refine ⟨h.mixed, fun j reports hj => ?_, fun j hj => .inl hsized⟩
      rcases render_cases hj with ⟨_, hno⟩ | hold
      · cases hno
      · exact h.shown j reports hold
    · refine h.rendered ?_
      rintro list heq
      cases heq
      exact Posting.composed_nil
    · refine h.rendered (fun list hlist => h.mixed.file list ?_)
      rw [contents_of_sized (Posting.sized_of_load hlist), hlist]

theorem exec_honest
    (hstart : contents file = some stored)
    (h : exec (step submitted page) (start file) es = some s) :
    s.Honest submitted page stored := by
  have hinit : (start (ι := ι) (κ := κ) file).Honest submitted page stored := by
    refine ⟨⟨?_, ?_, ?_⟩, ?_, ?_⟩
    · intro reports hreports
      rw [show contents file = some reports from hreports] at hstart
      cases hstart
      exact ⟨stored, [], .inl rfl, List.nodup_nil, by simp, by simp [Posting.listOf]⟩
    · intro i reports hi
      cases hi
    · intro i reports hi
      cases hi
    · intro k reports hk
      cases hk
    · intro k hk
      cases hk
  exact exec_invariant hinit (fun _ _ _ hs he => hs.step he) h

theorem exec_serial
    (hstart : contents file = some stored)
    (halone : EachStep (step submitted page) (start file) es PostsAlone)
    (h : exec (step submitted page) (start file) es = some s) :
    Posting.Serial submitted stored s.posting (dumped es) := by
  induction es using List.reverseRecOn generalizing s with
  | nil =>
      cases h
      exact Posting.Serial.init hstart
  | append_singleton es e ih =>
      obtain ⟨m, hm, hlast⟩ := exec_snoc h
      have hfront := ih (fun pre e' hpre =>
        halone pre e' (hpre.trans (List.prefix_append es [e]))) hm
      have hadmit := halone es e (List.prefix_refl _) m s hm hlast
      rcases e with ⟨i, act⟩ | ⟨k, look⟩
      · obtain ⟨posting, hposting, rfl⟩ := Option.map_eq_some_iff.mp hlast
        have hnext := hfront.next hposting hadmit
        cases act <;> simpa [dumped] using hnext
      · have hsame : s.posting = m.posting := by
          rcases view_cases hlast with ⟨_, _, rfl⟩ | ⟨_, _, rfl⟩ | ⟨_, _, rfl⟩ <;> rfl
        rw [hsame]
        simpa [dumped] using hfront

/-- The request `i` to `report` dumps between the views `j` and `k`. -/
def viewedTwice (i : ι) (j k : κ) : List ((ι × Act) ⊕ (κ × Look)) :=
  [.inl (i, .test), .inl (i, .truncate), .inr (j, .test), .inl (i, .dump),
    .inr (k, .test)]

end Site

end Campus
end PastWork
