import Mathlib.Tactic
import PastWork.Library.Steps

/-!
# The dashboard

The script of `dashboard.html`.  The handlers of the buttons and of the search
inputs show and hide the rows of the table, each on its own: the buttons do not
look at the search texts, and the search does not look at `visibleRows`.
-/

namespace PastWork
namespace Campus

open Steps

section Strings

/-- The code units of a string of JavaScript. -/
abbrev JSString := List UInt16

/-- The code points of a string, each as its code units: a leading and a trailing
surrogate belong together. -/
def codePoints : JSString → List JSString
  | [] => []
  | [c] => [[c]]
  | c :: d :: s =>
      if 0xD800 ≤ c ∧ c < 0xDC00 ∧ 0xDC00 ≤ d ∧ d < 0xE000 then
        [c, d] :: codePoints s
      else
        [c] :: codePoints (d :: s)

/-- Each code point has its upper case, whatever stands around it. -/
def toUpperCase (upper : JSString → JSString) (s : JSString) : JSString :=
  (codePoints s).flatMap upper

def indexOf : JSString → JSString → Int
  | s, t =>
      if t.isPrefixOf s then
        0
      else
        match s with
        | [] => -1
        | _ :: s => if indexOf s t > -1 then indexOf s t + 1 else -1

/-- A string is found exactly when it is a part of the other. -/
theorem indexOf_iff
    (s t : JSString) :
    indexOf s t > -1 ↔ t <:+: s := by
  induction s with
  | nil =>
      rw [indexOf, List.infix_nil]
      cases t <;> simp
  | cons c s ih =>
      rw [indexOf, List.infix_cons_iff, ← List.isPrefixOf_iff_prefix, ← ih]
      by_cases hstart : t.isPrefixOf (c :: s) = true
      · simp [hstart]
      · rw [if_neg hstart]
        by_cases hrest : indexOf s t > -1
        · simp only [hstart, hrest, if_true, or_true, iff_true]
          omega
        · simp [hstart, hrest]

end Strings

/-- A row of the table with the texts of its first two columns. -/
structure Row where
  description : JSString
  location : JSString
  /-- `row.style.display` is not `'none'` -/
  display : Bool
deriving DecidableEq

/-- The test of `filterTable`. -/
def Row.found
    (upper : JSString → JSString) (row : Row)
    (inputLocation inputDisasterType : JSString) : Bool :=
  decide (indexOf (toUpperCase upper row.location) inputLocation > -1) &&
    decide (indexOf (toUpperCase upper row.description) inputDisasterType > -1)

/-- The page, with the values of the two inputs. -/
structure Dashboard where
  rows : List Row
  visibleRows : Nat
  seeMoreButton : Bool
  showLessButton : Bool
  searchLocation : JSString
  searchDisasterType : JSString
deriving DecidableEq

namespace Dashboard

/-- The page that has been loaded. -/
def loaded (reports : List (JSString × JSString)) : Dashboard where
  rows := reports.mapIdx (fun index report =>
    { description := report.1
      location := report.2
      display := decide (index < 5) })
  visibleRows := 5
  seeMoreButton := true
  showLessButton := false
  searchLocation := []
  searchDisasterType := []

def toggleRows (s : Dashboard) : Dashboard :=
  if s.visibleRows < s.rows.length then
    let visibleRows := s.visibleRows + 5
    { s with
      visibleRows := visibleRows
      rows := s.rows.mapIdx (fun i row =>
        if i < visibleRows then { row with display := true } else row)
      seeMoreButton :=
        if visibleRows ≥ s.rows.length then false else s.seeMoreButton
      showLessButton := true }
  else
    s

def showLess (s : Dashboard) : Dashboard :=
  { s with
    visibleRows := 5
    rows := s.rows.mapIdx (fun index row =>
      if index ≥ 5 then { row with display := false } else row)
    seeMoreButton := true
    showLessButton := false }

/-- The rows are those of the table without the one of its head. -/
def filterTable (upper : JSString → JSString) (s : Dashboard) : Dashboard :=
  let inputLocation := toUpperCase upper s.searchLocation
  let inputDisasterType := toUpperCase upper s.searchDisasterType
  { s with
    rows := s.rows.map (fun row =>
      { row with display := row.found upper inputLocation inputDisasterType }) }

end Dashboard

/-- A click on one of the buttons, or a key in one of the inputs with the texts
that are in them then. -/
inductive Input where
  | seeMore
  | showLess
  | search (searchLocation searchDisasterType : JSString)

namespace Dashboard

def step (upper : JSString → JSString) (s : Dashboard) :
    Input → Option Dashboard
  | .seeMore => some s.toggleRows
  | .showLess => some s.showLess
  | .search searchLocation searchDisasterType =>
      some (filterTable upper { s with searchLocation, searchDisasterType })

end Dashboard

/-- The row contains both search texts, in whatever case. -/
def Row.Matches
    (upper : JSString → JSString) (row : Row)
    (searchLocation searchDisasterType : JSString) : Prop :=
  toUpperCase upper searchLocation <:+: toUpperCase upper row.location ∧
    toUpperCase upper searchDisasterType <:+: toUpperCase upper row.description

theorem Row.found_iff
    (upper : JSString → JSString) (row : Row)
    (searchLocation searchDisasterType : JSString) :
    row.found upper (toUpperCase upper searchLocation)
        (toUpperCase upper searchDisasterType) = true ↔
      row.Matches upper searchLocation searchDisasterType := by
  unfold Row.found Row.Matches
  rw [Bool.and_eq_true, decide_eq_true_iff, decide_eq_true_iff, indexOf_iff,
    indexOf_iff]

namespace Dashboard

section Consistency

variable (upper : JSString → JSString)

/-- What is shown agrees with the search texts and with `visibleRows`. -/
structure Consistent (s : Dashboard) : Prop where
  display : ∀ i row, s.rows[i]? = some row →
    (row.display = true ↔
      row.Matches upper s.searchLocation s.searchDisasterType ∧
        i < s.visibleRows)
  button : s.seeMoreButton = true ↔
    ∃ i, i < s.rows.length ∧ s.visibleRows ≤ i

/-- `See More` shows rows that all match, and a search finds no row beyond
`visibleRows`. -/
def Agrees (s : Dashboard) : Input → Prop
  | .seeMore =>
      s.visibleRows < s.rows.length →
        ∀ i row, s.rows[i]? = some row → i < s.visibleRows + 5 →
          row.Matches upper s.searchLocation s.searchDisasterType
  | .showLess => True
  | .search searchLocation searchDisasterType =>
      ∀ i row, s.rows[i]? = some row → s.visibleRows ≤ i →
        ¬ row.Matches upper searchLocation searchDisasterType

/-- The state of a page with more rows than are shown at first. -/
structure Long (s : Dashboard) : Prop where
  consistent : Consistent upper s
  rows : 5 < s.rows.length
  visible : 5 ≤ s.visibleRows

end Consistency

variable {upper : JSString → JSString} {s : Dashboard}

theorem button_iff
    (s : Dashboard) :
    (∃ i, i < s.rows.length ∧ s.visibleRows ≤ i) ↔
      s.visibleRows < s.rows.length := by
  constructor
  · rintro ⟨i, hlt, hle⟩
    exact hle.trans_lt hlt
  · exact fun hlt => ⟨s.visibleRows, hlt, le_rfl⟩

theorem Consistent.lt_iff
    (h : Consistent upper s) :
    s.seeMoreButton = true ↔ s.visibleRows < s.rows.length :=
  h.button.trans (button_iff s)

/-- The loaded page is right when there is a row to be seen later. -/
theorem long_loaded
    {reports : List (JSString × JSString)}
    (h : 5 < reports.length) :
    Long upper (loaded reports) where
  consistent := by
    refine ⟨fun i row hrow => ?_, (iff_true_intro rfl).trans ?_⟩
    · simp only [loaded, List.getElem?_mapIdx, Option.map_eq_some_iff] at hrow
      obtain ⟨report, -, rfl⟩ := hrow
      simp [Row.Matches, loaded, toUpperCase, codePoints]
    · rw [button_iff]
      simpa [loaded] using h
  rows := by simpa [loaded] using h
  visible := le_rfl

/-- The rows after `See More`. -/
theorem toggleRows_consistent_iff
    (h : Long upper s) :
    Consistent upper s.toggleRows ↔ Agrees upper s .seeMore := by
  by_cases hlt : s.visibleRows < s.rows.length
  · have hsee := h.consistent.lt_iff.mpr hlt
    unfold toggleRows
    simp only [if_pos hlt]
    constructor
    · intro hc _ i row hrow hi
      have hget : (s.rows.mapIdx (fun i row =>
          if i < s.visibleRows + 5 then { row with display := true }
          else row))[i]? = some { row with display := true } := by
        rw [List.getElem?_mapIdx, hrow, Option.map_some, if_pos hi]
      exact ((hc.display i _ hget).mp rfl).1
    · intro hagrees
      refine ⟨fun i row' hrow' => ?_, ?_⟩
      · rw [List.getElem?_mapIdx] at hrow'
        obtain ⟨row, hrow, rfl⟩ := Option.map_eq_some_iff.mp hrow'
        by_cases hi : i < s.visibleRows + 5
        · rw [if_pos hi]
          exact iff_of_true rfl ⟨hagrees hlt i row hrow hi, hi⟩
        · rw [if_neg hi, h.consistent.display i row hrow]
          exact iff_of_false (fun hm => by omega) (fun hm => hi hm.2)
      · rw [button_iff]
        simp only [List.length_mapIdx]
        split
        next hall =>
          exact iff_of_false Bool.false_ne_true (by omega)
        next hall =>
          exact iff_of_true hsee (by omega)
  · unfold toggleRows
    rw [if_neg hlt]
    exact iff_of_true h.consistent (fun hlt' => absurd hlt' hlt)

/-- `Show Less` hides what is beyond the first rows and shows nothing. -/
theorem showLess_consistent
    (h : Long upper s) :
    Consistent upper s.showLess := by
  refine ⟨fun i row' hrow' => ?_, ?_⟩
  · simp only [showLess, List.getElem?_mapIdx] at hrow'
    obtain ⟨row, hrow, rfl⟩ := Option.map_eq_some_iff.mp hrow'
    by_cases hi : i ≥ 5
    · rw [if_pos hi]
      exact iff_of_false Bool.false_ne_true
        (fun hm => absurd hm.2 (Nat.not_lt.mpr hi))
    · rw [if_neg hi, h.consistent.display i row hrow]
      have hvisible := h.visible
      exact and_congr_right (fun _ =>
        iff_of_true (by omega) (Nat.not_le.mp hi))
  · rw [button_iff]
    simpa [showLess] using h.rows

/-- The rows after a search. -/
theorem filterTable_consistent_iff
    (h : Long upper s)
    (searchLocation searchDisasterType : JSString) :
    Consistent upper
        (filterTable upper { s with searchLocation, searchDisasterType }) ↔
      Agrees upper s (.search searchLocation searchDisasterType) := by
  constructor
  · intro hc i row hrow hi hmatches
    have hget := congrArg (Option.map (fun row : Row =>
      { row with
        display := row.found upper (toUpperCase upper searchLocation)
          (toUpperCase upper searchDisasterType) })) hrow
    rw [← List.getElem?_map] at hget
    have hfound := (Row.found_iff upper row _ _).mpr hmatches
    exact absurd ((hc.display i _ hget).mp hfound).2 (Nat.not_lt.mpr hi)
  · intro hagrees
    refine ⟨fun i row' hrow' => ?_, ?_⟩
    · simp only [filterTable, List.getElem?_map] at hrow'
      obtain ⟨row, hrow, rfl⟩ := Option.map_eq_some_iff.mp hrow'
      refine (Row.found_iff upper row _ _).trans
        ⟨fun hmatches => ⟨hmatches, ?_⟩, And.left⟩
      exact Nat.lt_of_not_le (fun hle => hagrees i row hrow hle hmatches)
    · rw [button_iff]
      simpa [filterTable] using h.consistent.lt_iff

section Runs

/-- No handler adds or removes a row, or shows less than the first five. -/
theorem step_rows
    {input : Input} {s' : Dashboard}
    (hstep : step upper s input = some s') :
    s'.rows.length = s.rows.length ∧
      (5 ≤ s.visibleRows → 5 ≤ s'.visibleRows) := by
  cases input with
  | seeMore =>
      cases hstep
      unfold toggleRows
      split
      · exact ⟨List.length_mapIdx, fun h => h.trans (Nat.le_add_right _ _)⟩
      · exact ⟨rfl, id⟩
  | showLess =>
      cases hstep
      exact ⟨List.length_mapIdx, fun _ => le_rfl⟩
  | search searchLocation searchDisasterType =>
      cases hstep
      exact ⟨List.length_map _, id⟩

theorem consistent_step_iff
    {input : Input} {s' : Dashboard}
    (h : Long upper s)
    (hstep : step upper s input = some s') :
    Consistent upper s' ↔ Agrees upper s input := by
  cases input with
  | seeMore =>
      cases hstep
      exact toggleRows_consistent_iff h
  | showLess =>
      cases hstep
      exact iff_of_true (showLess_consistent h) trivial
  | search searchLocation searchDisasterType =>
      cases hstep
      exact filterTable_consistent_iff h searchLocation searchDisasterType

/-- The page is right all along if and only if it has more than five rows, `See
More` is used only when all rows it shows match, and a search finds only rows that
may be seen. -/
theorem always_consistent_iff
    (upper : JSString → JSString)
    (reports : List (JSString × JSString)) (inputs : List Input) :
    Always (step upper) (loaded reports) inputs (Consistent upper) ↔
      5 < reports.length ∧
        EachStep (step upper) (loaded reports) inputs (Agrees upper) := by
  have hexact : 5 < reports.length →
      (Always (step upper) (loaded reports) inputs (Consistent upper) ↔
        EachStep (step upper) (loaded reports) inputs (Agrees upper)) :=
    fun hlong => always_iff_eachStep (I := Long upper) (long_loaded hlong)
      (fun _ h => h.consistent)
      (fun s e s' h hstep hagrees =>
        { consistent := (consistent_step_iff h hstep).mpr hagrees
          rows := (step_rows hstep).1 ▸ h.rows
          visible := (step_rows hstep).2 h.visible })
      (fun s e s' h hstep hc => (consistent_step_iff h hstep).mp hc)
  constructor
  · intro halways
    have hstart := halways [] List.nil_prefix (loaded reports) rfl
    have hlong : 5 < reports.length := by
      simpa [loaded] using hstart.lt_iff.mp rfl
    exact ⟨hlong, (hexact hlong).mp halways⟩
  · rintro ⟨hlong, hagrees⟩
    exact (hexact hlong).mpr hagrees

/-- Upper case among the letters of English. -/
def asciiUpper (s : JSString) : JSString :=
  s.map (fun c => if 97 ≤ c ∧ c ≤ 122 then c - 32 else c)

/-- Six reports; a search for `b` shows the last one, although only five rows are
to be seen. -/
theorem search_not_consistent :
    ¬ Always (step asciiUpper)
      (loaded (List.replicate 5 ([70], [65]) ++ [([70], [66])]))
      [.search [98] []] (Consistent asciiUpper) := by
  intro h
  have hc := h [.search [98] []] (List.prefix_refl _) _ rfl
  have hlast := (hc.display 5 ⟨[70], [66], true⟩ rfl).mp rfl
  exact absurd hlast.2 (by decide)

end Runs

end Dashboard

end Campus
end PastWork
