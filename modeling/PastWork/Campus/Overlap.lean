import PastWork.Campus.Report
import PastWork.Library.ReadersWriters
import PastWork.Library.Steps

/-!
# Requests that overlap

Any number of POST requests to `report`, with their four steps on the file in any
order.  A request that reads the file while another one is between its own read
and the end of its dump costs a report, and nothing else does.
-/

namespace PastWork
namespace Campus

open Json Steps ReadersWriters

universe u

/-- Where a request is. -/
inductive Progress where
  | start
  /-- the test has passed; `json.load` comes next -/
  | opening
  /-- `reports` has been set; `open(file_path, "w")` comes next -/
  | loaded (reports : List Dict)
  /-- the file has been truncated; `json.dump` comes next -/
  | writing (reports : List Dict)
  | done
  /-- an exception has ended the request -/
  | failed
deriving DecidableEq

namespace Progress

/-- The request has its list and has not dumped it yet. -/
def isActive : Progress → Bool
  | .loaded _ => true
  | .writing _ => true
  | _ => false

/-- The request has no list yet. -/
def isPending : Progress → Bool
  | .start => true
  | .opening => true
  | _ => false

def isFinished : Progress → Bool
  | .done => true
  | .failed => true
  | _ => false

/-- The length of the list that the request is going to dump. -/
def toDump : Progress → Nat
  | .loaded reports => reports.length + 1
  | .writing reports => reports.length
  | _ => 0

theorem loaded_active
    {p : Progress} {reports : List Dict}
    (h : p = .loaded reports) :
    p.isActive = true := by
  rw [h]
  rfl

theorem writing_active
    {p : Progress} {reports : List Dict}
    (h : p = .writing reports) :
    p.isActive = true := by
  rw [h]
  rfl

end Progress

/-- The file and the requests. -/
structure Posting (ι : Type u) where
  file : File
  progress : ι → Progress

/-- The steps of a request. -/
inductive Act where
  | test
  | load
  | truncate
  | dump
deriving DecidableEq

namespace Posting

variable {ι : Type u} [DecidableEq ι]

def start (file : File) : Posting ι where
  file := file
  progress := fun _ => .start

def goto (s : Posting ι) (i : ι) (p : Progress) : ι → Progress :=
  Function.update s.progress i p

/-- `reports` after the file has been read. -/
def afterLoad : Option (List Dict) → Progress
  | some reports => .loaded reports
  | none => .failed

/-- One step of the request `i`. -/
def step (submitted : ι → Submission) (s : Posting ι) :
    ι × Act → Option (Posting ι)
  | (i, .test) =>
      match s.progress i with
      | .start =>
          some
            { s with
              progress := s.goto i
                (if sized s.file then .opening else .loaded []) }
      | _ => none
  | (i, .load) =>
      match s.progress i with
      | .opening =>
          some { s with progress := s.goto i (afterLoad (load s.file)) }
      | _ => none
  | (i, .truncate) =>
      match s.progress i with
      | .loaded reports =>
          some
            { file := truncated
              progress := s.goto i
                (.writing (reports ++ [(submitted i).report])) }
      | _ => none
  | (i, .dump) =>
      match s.progress i with
      | .writing reports =>
          some
            { file := dump reports s.file
              progress := s.goto i .done }
      | _ => none

/-- The step gives the request its list, or an exception. -/
def reads (s : Posting ι) : ι × Act → Bool
  | (_, .test) => !sized s.file
  | (_, .load) => true
  | _ => false

variable {submitted : ι → Submission} {s s' : Posting ι} {i j : ι}

@[simp] theorem goto_self
    (s : Posting ι) (i : ι) (p : Progress) :
    s.goto i p i = p := by
  rw [goto, Function.update_self]

theorem goto_ne
    (h : j ≠ i) (p : Progress) :
    s.goto i p j = s.progress j := by
  rw [goto, Function.update_of_ne h]

/-- A request has just moved, or is where it was. -/
theorem goto_eq
    {p q : Progress}
    (h : s.goto i p j = q) :
    j = i ∧ p = q ∨ j ≠ i ∧ s.progress j = q := by
  by_cases hj : j = i
  · rw [hj, goto_self] at h
    exact .inl ⟨hj, h⟩
  · rw [goto_ne hj] at h
    exact .inr ⟨hj, h⟩

/-- A move that does not change whether the request has its list. -/
theorem isActive_goto
    {p : Progress}
    (h : p.isActive = (s.progress i).isActive) (j : ι) :
    (s.goto i p j).isActive = (s.progress j).isActive := by
  by_cases hj : j = i
  · rw [hj, goto_self, h]
  · rw [goto_ne hj]

section Inversion

/-- What a step does: a test that finds some text, a request that gets its list,
one that gets an exception, a truncation, or a dump. -/
inductive Effect (submitted : ι → Submission) (s : Posting ι) :
    ι × Act → Posting ι → Prop
  | found {i : ι}
      (hi : s.progress i = .start)
      (hsized : sized s.file = true) :
      Effect submitted s (i, .test) { s with progress := s.goto i .opening }
  | took {i : ι} {act : Act} {reports : List Dict}
      (hi : (s.progress i).isPending = true)
      (hreads : s.reads (i, act) = true)
      (hcontents : contents s.file = some reports) :
      Effect submitted s (i, act)
        { s with progress := s.goto i (.loaded reports) }
  | raised {i : ι} {act : Act}
      (hi : s.progress i = .opening)
      (hreads : s.reads (i, act) = true)
      (hload : load s.file = none) :
      Effect submitted s (i, act) { s with progress := s.goto i .failed }
  | cut {i : ι} {reports : List Dict}
      (hi : s.progress i = .loaded reports) :
      Effect submitted s (i, .truncate)
        { file := truncated
          progress := s.goto i
            (.writing (reports ++ [(submitted i).report])) }
  | wrote {i : ι} {reports : List Dict}
      (hi : s.progress i = .writing reports) :
      Effect submitted s (i, .dump)
        { file := dump reports s.file
          progress := s.goto i .done }

theorem sized_of_load
    {file : File} {reports : List Dict}
    (h : load file = some reports) :
    sized file = true := by
  rcases file with _ | _ | ⟨c, t⟩
  · cases h
  · cases h
  · rfl

theorem step_effect
    {e : ι × Act}
    (h : step submitted s e = some s') :
    Effect submitted s e s' := by
  obtain ⟨i, act⟩ := e
  cases act with
  | test =>
      cases hi : s.progress i <;> simp only [step, hi] at h <;> cases h
      cases hsized : sized s.file with
      | true => exact .found hi hsized
      | false =>
          refine .took ?_ ?_ (contents_of_not_sized hsized)
          · rw [hi]
            rfl
          · rw [reads, hsized]
            rfl
  | load =>
      cases hi : s.progress i <;> simp only [step, hi] at h <;> cases h
      cases hload : load s.file with
      | some reports =>
          refine .took ?_ rfl ?_
          · rw [hi]
            rfl
          · rw [contents_of_sized (sized_of_load hload), hload]
      | none => exact .raised hi rfl hload
  | truncate =>
      cases hi : s.progress i <;> simp only [step, hi] at h <;> cases h
      exact .cut hi
  | dump =>
      cases hi : s.progress i <;> simp only [step, hi] at h <;> cases h
      exact .wrote hi

end Inversion

section OneAtATime

/-- No other request has its list when one gets its own. -/
def Alone (s : Posting ι) (e : ι × Act) : Prop :=
  s.reads e = true → ∀ j, (s.progress j).isActive = false

instance [Fintype ι] (s : Posting ι) (e : ι × Act) : Decidable (s.Alone e) :=
  inferInstanceAs (Decidable (_ → _))

/-- The stored reports and those of the requests in `order`. -/
def listOf
    (submitted : ι → Submission) (stored : List Dict) (order : List ι) :
    List Dict :=
  stored ++ order.map (fun i => (submitted i).report)

/-- The requests in `order` are done, and at most one has its list. -/
structure Serial
    (submitted : ι → Submission) (stored : List Dict)
    (s : Posting ι) (order : List ι) : Prop where
  nodup : order.Nodup
  mem_order : ∀ i, i ∈ order ↔ s.progress i = .done
  not_failed : ∀ i, s.progress i ≠ .failed
  one : ∀ i j, (s.progress i).isActive = true →
    (s.progress j).isActive = true → i = j
  sized : ∀ i, s.progress i = .opening →
    (∀ j, (s.progress j).isActive = false) → Campus.sized s.file = true
  idle : (∀ i, (s.progress i).isActive = false) →
    contents s.file = some (listOf submitted stored order)
  loaded : ∀ i reports, s.progress i = .loaded reports →
    reports = listOf submitted stored order ∧
      contents s.file = some (listOf submitted stored order)
  writing : ∀ i reports, s.progress i = .writing reports →
    reports = listOf submitted stored order ++ [(submitted i).report] ∧
      s.file = truncated

omit [DecidableEq ι] in
theorem Serial.init
    {stored : List Dict} {file : File}
    (h : contents file = some stored) :
    Serial submitted stored (start file) [] where
  nodup := List.nodup_nil
  mem_order := by
    intro i
    simp [start]
  not_failed := by
    intro i hi
    cases hi
  one := by
    intro i j hi
    cases hi
  sized := by
    intro i hi
    cases hi
  idle := by
    intro _
    simpa [listOf, start] using h
  loaded := by
    intro i reports hi
    cases hi
  writing := by
    intro i reports hi
    cases hi

/-- The requests that are done when another one moves on. -/
theorem Serial.mem_order_goto
    {stored : List Dict} {order : List ι} {p : Progress}
    (h : Serial submitted stored s order)
    (hi : s.progress i ≠ .done)
    (hp : p ≠ .done)
    (j : ι) :
    j ∈ order ↔ s.goto i p j = .done := by
  rw [h.mem_order j]
  by_cases hj : j = i
  · rw [hj, goto_self]
    exact iff_of_false hi hp
  · rw [goto_ne hj]

theorem Serial.not_failed_goto
    {stored : List Dict} {order : List ι} {p : Progress}
    (h : Serial submitted stored s order)
    (hp : p ≠ .failed)
    (j : ι) :
    s.goto i p j ≠ .failed := by
  intro hj
  rcases goto_eq hj with ⟨_, heq⟩ | ⟨_, heq⟩
  · exact hp heq
  · exact h.not_failed j heq

omit [DecidableEq ι] in
/-- A request that has its list is active. -/
theorem not_idle
    {progress : ι → Progress}
    (hi : (progress i).isActive = true) :
    ¬ ∀ j, (progress j).isActive = false := by
  intro hall
  rw [hall i] at hi
  cases hi

theorem Serial.found
    {stored : List Dict} {order : List ι}
    (h : Serial submitted stored s order)
    (hi : s.progress i = .start)
    (hsized : Campus.sized s.file = true) :
    Serial submitted stored { s with progress := s.goto i .opening } order := by
  have hactive : ∀ j, (s.goto i .opening j).isActive =
      (s.progress j).isActive :=
    isActive_goto (by rw [hi]; rfl)
  constructor
  case nodup => exact h.nodup
  case mem_order =>
      exact h.mem_order_goto (hi ▸ Progress.noConfusion) Progress.noConfusion
  case not_failed => exact h.not_failed_goto Progress.noConfusion
  case one =>
      intro j k hj hk
      rw [hactive] at hj hk
      exact h.one j k hj hk
  case sized => exact fun _ _ _ => hsized
  case idle =>
      intro hidle
      exact h.idle (fun j => hactive j ▸ hidle j)
  case loaded =>
      intro j reports hj
      rcases goto_eq hj with ⟨_, hp⟩ | ⟨_, hp⟩
      · cases hp
      · exact h.loaded j reports hp
  case writing =>
      intro j reports hj
      rcases goto_eq hj with ⟨_, hp⟩ | ⟨_, hp⟩
      · cases hp
      · exact h.writing j reports hp

theorem Serial.took
    {stored reports : List Dict} {order : List ι}
    (h : Serial submitted stored s order)
    (hi : (s.progress i).isPending = true)
    (hidle : ∀ j, (s.progress j).isActive = false)
    (hcontents : contents s.file = some reports) :
    Serial submitted stored
      { s with progress := s.goto i (.loaded reports) } order := by
  have hlist := h.idle hidle
  have honly : ∀ j, (s.goto i (.loaded reports) j).isActive = true →
      j = i := by
    intro j hj
    by_contra hne
    rw [goto_ne hne, hidle j] at hj
    cases hj
  have hself : ¬ ∀ j, (s.goto i (.loaded reports) j).isActive = false := by
    apply not_idle
    rw [goto_self]
    rfl
  constructor
  case nodup => exact h.nodup
  case mem_order =>
      refine h.mem_order_goto ?_ Progress.noConfusion
      intro hdone
      rw [hdone] at hi
      cases hi
  case not_failed => exact h.not_failed_goto Progress.noConfusion
  case one =>
      intro j k hj hk
      rw [honly j hj, honly k hk]
  case sized => exact fun _ _ hall => absurd hall hself
  case idle => exact fun hall => absurd hall hself
  case loaded =>
      intro j rs hj
      rcases goto_eq hj with ⟨_, hp⟩ | ⟨_, hp⟩
      · cases hp
        exact ⟨Option.some_inj.mp (hcontents.symm.trans hlist), hlist⟩
      · exact absurd ((hidle j).symm.trans (Progress.loaded_active hp))
          Bool.false_ne_true
  case writing =>
      intro j rs hj
      rcases goto_eq hj with ⟨_, hp⟩ | ⟨_, hp⟩
      · cases hp
      · exact absurd ((hidle j).symm.trans (Progress.writing_active hp))
          Bool.false_ne_true

theorem Serial.cut
    {stored reports : List Dict} {order : List ι}
    (h : Serial submitted stored s order)
    (hi : s.progress i = .loaded reports) :
    Serial submitted stored
      { file := truncated
        progress := s.goto i
          (.writing (reports ++ [(submitted i).report])) } order := by
  obtain ⟨hreports, _⟩ := h.loaded i reports hi
  have hsame : ∀ j, (s.goto i (.writing (reports ++ [(submitted i).report]))
      j).isActive = (s.progress j).isActive :=
    isActive_goto (by rw [hi]; rfl)
  have hactive := Progress.loaded_active hi
  have hself : ¬ ∀ j, (s.goto i (.writing (reports ++ [(submitted i).report]))
      j).isActive = false :=
    not_idle ((hsame i).trans hactive)
  constructor
  case nodup => exact h.nodup
  case mem_order =>
      exact h.mem_order_goto (hi ▸ Progress.noConfusion) Progress.noConfusion
  case not_failed => exact h.not_failed_goto Progress.noConfusion
  case one =>
      intro j k hj hk
      rw [hsame] at hj hk
      exact h.one j k hj hk
  case sized => exact fun _ _ hall => absurd hall hself
  case idle => exact fun hall => absurd hall hself
  case loaded =>
      intro j rs hj
      rcases goto_eq hj with ⟨_, hp⟩ | ⟨hne, hp⟩
      · cases hp
      · exact absurd (h.one j i (Progress.loaded_active hp) hactive) hne
  case writing =>
      intro j rs hj
      rcases goto_eq hj with ⟨rfl, hp⟩ | ⟨hne, hp⟩
      · cases hp
        exact ⟨by rw [hreports], rfl⟩
      · exact absurd (h.one j i (Progress.writing_active hp) hactive) hne

theorem Serial.wrote
    {stored reports : List Dict} {order : List ι}
    (h : Serial submitted stored s order)
    (hi : s.progress i = .writing reports) :
    Serial submitted stored
      { file := dump reports s.file
        progress := s.goto i .done } (order ++ [i]) := by
  obtain ⟨hreports, hfile⟩ := h.writing i reports hi
  have hactive := Progress.writing_active hi
  have hidle : ∀ j, (s.goto i .done j).isActive = false := by
    intro j
    by_cases hj : j = i
    · rw [hj, goto_self]
      rfl
    · rw [goto_ne hj]
      by_contra hne
      exact hj (h.one j i (by simpa using hne) hactive)
  have hnew : i ∉ order := by
    rw [h.mem_order, hi]
    exact Progress.noConfusion
  constructor
  case nodup =>
      refine List.nodup_append.mpr ⟨h.nodup, List.nodup_singleton i, ?_⟩
      rintro j hj k hk rfl
      exact hnew (List.mem_singleton.mp hk ▸ hj)
  case mem_order =>
      intro j
      rw [List.mem_append, List.mem_singleton, h.mem_order j]
      by_cases hj : j = i
      · simp [hj]
      · simp only [goto_ne hj, hj, or_false]
  case not_failed => exact h.not_failed_goto Progress.noConfusion
  case one =>
      intro j k hj
      rw [hidle j] at hj
      cases hj
  case sized => exact fun _ _ _ => sized_dump reports s.file
  case idle =>
      intro _
      rw [hfile, contents_dump_truncated, hreports]
      simp [listOf]
  case loaded =>
      intro j rs hj
      exact absurd ((hidle j).symm.trans (Progress.loaded_active hj))
        Bool.false_ne_true
  case writing =>
      intro j rs hj
      exact absurd ((hidle j).symm.trans (Progress.writing_active hj))
        Bool.false_ne_true

/-- A step that is alone keeps the requests in turn. -/
theorem Serial.step
    {stored : List Dict} {order : List ι} {e : ι × Act}
    (h : Serial submitted stored s order)
    (hstep : Posting.step submitted s e = some s')
    (halone : s.Alone e) :
    ∃ order', Serial submitted stored s' order' := by
  cases step_effect hstep with
  | found hi hsized =>
      exact ⟨order, h.found hi hsized⟩
  | took hi hreads hcontents =>
      exact ⟨order, h.took hi (halone hreads) hcontents⟩
  | @raised i act hi hreads hload =>
      exfalso
      have hidle := halone hreads
      have hfile := h.idle hidle
      rw [contents_of_sized (h.sized i hi hidle), hload] at hfile
      cases hfile
  | cut hi =>
      exact ⟨order, h.cut hi⟩
  | @wrote i _ hi =>
      exact ⟨order ++ [i], h.wrote hi⟩

end OneAtATime

section Shortage

variable [Fintype ι]

/-- How many requests have no list yet. -/
def pending (s : Posting ι) : Nat :=
  number (fun i => (s.progress i).isPending) true

/-- The file and the requests have lists of at most `m` reports. -/
structure Bounded (s : Posting ι) (m : Nat) : Prop where
  file : ∀ reports, contents s.file = some reports → reports.length ≤ m
  toDump : ∀ i, (s.progress i).toDump ≤ m

omit [Fintype ι] in
theorem Bounded.goto
    {m m' : Nat} {p : Progress} {file : File}
    (h : s.Bounded m)
    (hle : m ≤ m')
    (hfile : ∀ reports, contents file = some reports → reports.length ≤ m')
    (hp : p.toDump ≤ m') :
    Bounded { file := file, progress := s.goto i p } m' where
  file := hfile
  toDump := by
    intro j
    dsimp only
    by_cases hj : j = i
    · rw [hj, goto_self]
      exact hp
    · rw [goto_ne hj]
      exact (h.toDump j).trans hle

omit [Fintype ι] in
theorem isPending_goto
    (s : Posting ι) (i : ι) (p : Progress) :
    (fun j => (s.goto i p j).isPending) =
      Function.update (fun j => (s.progress j).isPending) i p.isPending := by
  funext j
  by_cases hj : j = i
  · rw [hj, goto_self, Function.update_self]
  · rw [goto_ne hj, Function.update_of_ne hj]

/-- A request that moves and has no list yet, before or after. -/
theorem pending_goto
    (s : Posting ι) (i : ι) (p : Progress) (file : File) :
    pending { file := file, progress := s.goto i p } +
        (if (s.progress i).isPending = true then 1 else 0) =
      pending s + (if p.isPending = true then 1 else 0) := by
  rw [pending, isPending_goto]
  exact number_update _ i p.isPending true

/-- No list grows by more than one report for each request that reads. -/
theorem Bounded.step
    {m : Nat} {e : ι × Act}
    (h : s.Bounded m)
    (hstep : Posting.step submitted s e = some s') :
    ∃ m', s'.Bounded m' ∧ m' + s'.pending ≤ m + s.pending := by
  cases step_effect hstep with
  | @found i hi hsized =>
      have hcount := pending_goto s i .opening s.file
      rw [hi] at hcount
      refine ⟨m, h.goto le_rfl h.file (Nat.zero_le m), ?_⟩
      exact Nat.add_le_add_left (Nat.le_of_add_le_add_right hcount.le) m
  | @took i act reports hi hreads hcontents =>
      have hcount := pending_goto s i (.loaded reports) s.file
      have hlength := h.file reports hcontents
      rw [if_pos hi] at hcount
      refine ⟨m + 1, h.goto (Nat.le_succ m) ?_ ?_, ?_⟩
      · intro rs hrs
        exact (h.file rs hrs).trans (Nat.le_succ m)
      · exact Nat.succ_le_succ hlength
      · simp only [Progress.isPending, Bool.false_eq_true, if_false] at hcount
        omega
  | @raised i act hi hreads hload =>
      have hcount := pending_goto s i .failed s.file
      refine ⟨m, h.goto le_rfl h.file (Nat.zero_le m), ?_⟩
      simp only [Progress.isPending, Bool.false_eq_true, if_false] at hcount
      omega
  | @cut i reports hi =>
      have hcount := pending_goto s i
        (.writing (reports ++ [(submitted i).report])) truncated
      have hlength := h.toDump i
      rw [hi] at hlength
      refine ⟨m, h.goto le_rfl ?_ ?_, ?_⟩
      · intro rs hrs
        cases hrs
        exact Nat.zero_le m
      · simpa [Progress.toDump] using hlength
      · simp only [Progress.isPending, Bool.false_eq_true, if_false] at hcount
        omega
  | @wrote i reports hi =>
      have hcount := pending_goto s i .done (dump reports s.file)
      have hlength := h.toDump i
      rw [hi] at hlength
      refine ⟨m, h.goto le_rfl ?_ (Nat.zero_le m), ?_⟩
      · intro rs hrs
        rw [contents_dump_eq hrs]
        exact hlength
      · simp only [Progress.isPending, Bool.false_eq_true, if_false] at hcount
        omega

/-- Even when all requests that have no list yet add one report each, there are
fewer than `n`. -/
def Short (n : Nat) (s : Posting ι) : Prop :=
  ∃ m, s.Bounded m ∧ m + s.pending < n

theorem Short.step
    {n : Nat} {e : ι × Act}
    (h : s.Short n)
    (hstep : Posting.step submitted s e = some s') :
    s'.Short n := by
  obtain ⟨m, hbound, hlt⟩ := h
  obtain ⟨m', hbound', hle⟩ := hbound.step hstep
  exact ⟨m', hbound', by omega⟩

/-- The requests that are done, one that has its list, and those that have none
yet are different ones. -/
theorem Serial.count
    {stored : List Dict} {order : List ι}
    (h : Serial submitted stored s order)
    (hj : (s.progress j).isActive = true) :
    order.length + 1 + s.pending ≤ Fintype.card ι := by
  have hnew : j ∉ order.toFinset := by
    rw [List.mem_toFinset, h.mem_order]
    intro hdone
    rw [hdone] at hj
    cases hj
  have hcard : (insert j order.toFinset).card = order.length + 1 := by
    rw [Finset.card_insert_of_notMem hnew, List.toFinset_card_of_nodup h.nodup]
  have hapart : Disjoint (insert j order.toFinset)
      (Finset.univ.filter (fun i => (s.progress i).isPending = true)) := by
    rw [Finset.disjoint_left]
    intro i hi hpending
    have hpending := (Finset.mem_filter.mp hpending).2
    rcases Finset.mem_insert.mp hi with rfl | hi
    · cases hp : s.progress i <;> simp_all [Progress.isPending,
        Progress.isActive]
    · rw [List.mem_toFinset, h.mem_order] at hi
      rw [hi] at hpending
      cases hpending
  have hunion := Finset.card_le_univ (insert j order.toFinset ∪
    Finset.univ.filter (fun i => (s.progress i).isPending = true))
  rwa [Finset.card_union_of_disjoint hapart, hcard] at hunion

omit [Fintype ι] [DecidableEq ι] in
/-- The file never holds more than the list that is due. -/
theorem Serial.contents_length
    {stored reports : List Dict} {order : List ι}
    (h : Serial submitted stored s order)
    (hreports : contents s.file = some reports) :
    reports.length ≤ stored.length + order.length := by
  have hlist : (listOf submitted stored order).length =
      stored.length + order.length := by
    simp [listOf]
  by_cases hidle : ∀ j, (s.progress j).isActive = false
  · rw [h.idle hidle] at hreports
    cases hreports
    exact hlist.le
  · obtain ⟨j, hj⟩ := not_forall.mp hidle
    cases hp : s.progress j with
    | loaded rs =>
        rw [(h.loaded j rs hp).2] at hreports
        cases hreports
        exact hlist.le
    | writing rs =>
        rw [(h.writing j rs hp).2] at hreports
        cases hreports
        exact Nat.zero_le _
    | _ =>
        rw [hp] at hj
        exact absurd rfl hj

omit [Fintype ι] [DecidableEq ι] in
/-- The bound while the requests take turns. -/
theorem Serial.bounded
    {stored : List Dict} {order : List ι}
    (h : Serial submitted stored s order) :
    s.Bounded (stored.length + order.length + 1) where
  file := by
    intro reports hreports
    exact (h.contents_length hreports).trans (Nat.le_succ _)
  toDump := by
    intro i
    cases hp : s.progress i with
    | loaded reports =>
        rw [(h.loaded i reports hp).1]
        simp [Progress.toDump, listOf]
    | writing reports =>
        rw [(h.writing i reports hp).1]
        simp [Progress.toDump, listOf, Nat.add_assoc]
    | _ => exact Nat.zero_le _

/-- A request that reads while another one has its list costs a report. -/
theorem Serial.lose
    {stored : List Dict} {order : List ι} {e : ι × Act}
    (h : Serial submitted stored s order)
    (hstep : Posting.step submitted s e = some s')
    (hmiss : ¬ s.Alone e) :
    s'.Short (stored.length + Fintype.card ι) := by
  obtain ⟨hreads, hbusy⟩ := Classical.not_imp.mp hmiss
  obtain ⟨j, hj⟩ := not_forall.mp hbusy
  have hcount := h.count (Bool.eq_true_of_not_eq_false hj)
  cases step_effect hstep with
  | found hi hsized =>
      rw [reads, hsized] at hreads
      cases hreads
  | @took i act reports hi _ hcontents =>
      have hpending := pending_goto s i (.loaded reports) s.file
      have hlength := h.contents_length hcontents
      rw [if_pos hi] at hpending
      simp only [Progress.isPending, Bool.false_eq_true, if_false] at hpending
      refine ⟨_, h.bounded.goto le_rfl h.bounded.file ?_, ?_⟩
      · exact Nat.succ_le_succ hlength
      · omega
  | @raised i act hi _ hload =>
      have hpending := pending_goto s i .failed s.file
      simp only [hi, Progress.isPending, Bool.false_eq_true, if_false, if_true]
        at hpending
      exact ⟨_, h.bounded.goto le_rfl h.bounded.file (Nat.zero_le _), by omega⟩
  | cut => cases hreads
  | wrote => cases hreads

end Shortage

section Outcome

variable [Fintype ι] {stored : List Dict} {file : File} {es : List (ι × Act)}

/-- The stored reports come first, then each new one once. -/
def Kept
    (submitted : ι → Submission) (stored : List Dict) (s : Posting ι) : Prop :=
  ∃ order : List ι, order.Nodup ∧ (∀ i, i ∈ order) ∧
    contents s.file =
      some (stored ++ order.map (fun i => (submitted i).report))

omit [DecidableEq ι] in
theorem Short.not_kept
    (h : s.Short (stored.length + Fintype.card ι)) :
    ¬ Kept submitted stored s := by
  rintro ⟨order, hnodup, hall, hcontents⟩
  obtain ⟨m, hbound, hlt⟩ := h
  have hlength := hbound.file _ hcontents
  have horder : Fintype.card ι ≤ order.length := by
    classical
    rw [← List.toFinset_card_of_nodup hnodup]
    exact Finset.card_le_card (fun i _ => List.mem_toFinset.mpr (hall i))
  simp only [List.length_append, List.length_map] at hlength
  omega

omit [DecidableEq ι] [Fintype ι] in
theorem Serial.kept
    {order : List ι}
    (h : Serial submitted stored s order)
    (hdone : ∀ i, (s.progress i).isFinished = true) :
    Kept submitted stored s := by
  refine ⟨order, h.nodup, ?_, h.idle ?_⟩
  · intro i
    rw [h.mem_order]
    have hi := hdone i
    have hok := h.not_failed i
    cases hp : s.progress i <;> simp_all [Progress.isFinished]
  · intro i
    have hi := hdone i
    cases hp : s.progress i <;> simp_all [Progress.isFinished, Progress.isActive]

/-- When all requests have ended, no report is lost exactly when each of them has
read the file while no other one was between its own read and its dump. -/
theorem kept_iff
    (hstart : contents file = some stored)
    (h : exec (step submitted) (start file) es = some s)
    (hdone : ∀ i, (s.progress i).isFinished = true) :
    Kept submitted stored s ↔
      EachStep (step submitted) (start file) es Alone := by
  have hinit : ∃ order, Serial submitted stored (start file) order :=
    ⟨[], Serial.init hstart⟩
  constructor
  · intro hkept
    have hor := eachStep_or (I := fun s => ∃ order,
        Serial submitted stored s order) hinit
      (fun _ _ _ ⟨_, hs⟩ he hC => hs.step he hC)
      (fun _ _ _ ⟨_, hs⟩ he hC => hs.lose he hC)
      (fun _ _ _ hs he => hs.step he) h
    rcases hor with heach | hshort
    · exact heach
    · exact absurd hkept hshort.not_kept
  · intro heach
    have hserial : Always (step submitted) (start file) es
        (fun s => ∃ order, Serial submitted stored s order) :=
      heach.invariant hinit (fun _ _ _ ⟨_, hs⟩ he hC => hs.step he hC)
    obtain ⟨order, hs⟩ := hserial es (List.prefix_refl es) s h
    exact hs.kept hdone

end Outcome

section Example

/-- Two submissions with empty texts. -/
def twoPosts (i : Fin 2) : Submission where
  user := i
  name := []
  location := []
  description := []
  time := []

/-- The second request starts when the first one has ended. -/
def inTurn : List (Fin 2 × Act) :=
  [(0, .test), (0, .truncate), (0, .dump),
    (1, .test), (1, .load), (1, .truncate), (1, .dump)]

/-- The second request finds the file that the first one has truncated. -/
def crossing : List (Fin 2 × Act) :=
  [(0, .test), (0, .load), (0, .truncate), (1, .test), (0, .dump),
    (1, .truncate), (1, .dump)]

theorem inTurn_kept :
    ∃ s, exec (step twoPosts) (start none) inTurn = some s ∧
      (Kept twoPosts [] s ↔
        EachStep (step twoPosts) (start none) inTurn Alone) := by
  have hrun : (exec (step twoPosts) (start none) inTurn).any
      (fun s => decide (∀ i, (s.progress i).isFinished = true)) = true := by
    decide +kernel
  obtain ⟨s, hs, hdone⟩ := (Option.any_eq_true _ _).mp hrun
  exact ⟨s, hs, kept_iff rfl hs (of_decide_eq_true hdone)⟩

/-- The report that was stored and that of the first request are lost. -/
theorem crossing_lost :
    ¬ ∀ file stored s, contents file = some stored →
      exec (step twoPosts) (start file) crossing = some s →
        (∀ i, (s.progress i).isFinished = true) → Kept twoPosts stored s := by
  intro hclaim
  have hstored : contents (some (dumps [(twoPosts 0).report])) =
      some [(twoPosts 0).report] := by
    decide +kernel
  have hrun : (exec (step twoPosts)
      (start (some (dumps [(twoPosts 0).report]))) crossing).any
        (fun s => decide ((∀ i, (s.progress i).isFinished = true) ∧
          contents s.file = some [(twoPosts 1).report])) = true := by
    decide +kernel
  obtain ⟨s, hs, hend⟩ := (Option.any_eq_true _ _).mp hrun
  obtain ⟨hdone, hfile⟩ := of_decide_eq_true hend
  obtain ⟨order, _, hall, hkept⟩ := hclaim _ _ _ hstored hs hdone
  rw [hfile] at hkept
  have hlength := congrArg List.length (Option.some_inj.mp hkept)
  have hpos := List.length_pos_of_mem (hall 0)
  rw [List.length_append, List.length_map, List.length_singleton,
    List.length_singleton] at hlength
  omega

end Example

end Posting

end Campus
end PastWork
