import PastWork.Filesystem.Lines

/-!
# Pathnames that name nothing

A command is to report a pathname that leads nowhere.  None of them tests the
result of `nodeP`, so a report comes from elsewhere: from a basename that is
refused, from the search for it in a parent that is there, or from the type of a
node that the pathname does not name.
-/

namespace PastWork
namespace Filesystem

open Libgen (Absolute)

namespace State

/-- The other one of `anchor`, the root or `cwd`. -/
def elsewhere (s : State) (pathname : CStr) : Nat :=
  if Absolute pathname then s.cwd else s.root

/-- The node that a pathname names. -/
def find (s : State) (pathname : CStr) : Result Ptr := do
  let nm ← tokenize pathname
  s.walkFrom nm (some (s.anchor pathname))

end State

namespace Line

/-- What the command works on does not exist: the parent directory, or what is to
be removed, entered or listed. -/
def Missing (line : Line) (s : State) : Prop :=
  match line.user_command with
  | .change .mkdir | .change .create =>
      s.find (Libgen.dirname line.pathname) = .ok none
  | .change .rmdir | .change .rm =>
      s.find (Libgen.dirname line.pathname) = .ok none ∨
        ∃ p, s.find (Libgen.dirname line.pathname) = .ok (some p) ∧
          s.lookC (some p) (Libgen.basename line.pathname) = .ok none
  | .change .cd | .ls => s.find line.pathname = .ok none
  | .pwd => False

/-- The command fails without a fault, and without a change. -/
def Reports (line : Line) (s : State) : Prop :=
  ∃ s', line.run s = .ok (some (-1), s') ∧ SameTree s s'

/-- The command fails before it looks a parent up, or in a parent that is there;
`cd` fails at a node that the pathname leads to from the wrong start, and that is
no directory to go to. -/
def Caught (line : Line) (s : State) : Prop :=
  match line.user_command with
  | .change .mkdir | .change .create =>
      FitsSplit line.pathname ∧ refused (Libgen.basename line.pathname) = true
  | .change .rmdir =>
      FitsSplit line.pathname ∧
        (refused (Libgen.basename line.pathname) = true ∨
          s.find (Libgen.dirname line.pathname) ≠ .ok none)
  | .change .rm =>
      FitsSplit line.pathname ∧
        s.find (Libgen.dirname line.pathname) ≠ .ok none
  | .change .cd =>
      ¬ (Absolute s.dirname ↔ Absolute line.pathname) ∧
        ∃ a node, s.walkFrom (components line.pathname)
            (some (s.elsewhere line.pathname)) = .ok (some a) ∧
          s.heap.lookup a = some node ∧ node.type ≠ .Y
  | .ls | .pwd => False

end Line

section Lookups

variable {s : State} {pathname : CStr}

/-- The walk to the parent directory. -/
theorem nodeP_split
    (s : State) (pathname : CStr) :
    (s.split pathname).nodeP (Libgen.dirname pathname) =
      s.find (Libgen.dirname pathname) := by
  rw [nodeP_eq_bind, State.find]
  simp only [walkFrom_split]
  rfl

/-- No parent is followed as a NULL pointer. -/
theorem target_of_missing
    (h : s.find (Libgen.dirname pathname) = .ok none) :
    (s.split pathname).target = .error .nullPointer := by
  have hdir : (s.split pathname).dirname = Libgen.dirname pathname := rfl
  rw [State.target, hdir, nodeP_split, h]
  rfl

/-- A parent without a child of the name. -/
theorem target_of_found
    {p : Nat}
    (h : s.find (Libgen.dirname pathname) = .ok (some p))
    (hchild : s.lookC (some p) (Libgen.basename pathname) = .ok none) :
    (s.split pathname).target = .ok (some p, none) := by
  have hdir : (s.split pathname).dirname = Libgen.dirname pathname := rfl
  rw [State.target, hdir, nodeP_split, h, Result.ok_bind, lookC_split,
    State.split_basename, hchild]
  rfl

/-- Without its target, a pathname has no parent to search, or one without the
child. -/
theorem target_of_absent
    (h : s.find (Libgen.dirname pathname) = .ok none ∨
      ∃ p, s.find (Libgen.dirname pathname) = .ok (some p) ∧
        s.lookC (some p) (Libgen.basename pathname) = .ok none) :
    (s.split pathname).target = .error .nullPointer ∧
        s.find (Libgen.dirname pathname) = .ok none ∨
      ∃ p, (s.split pathname).target = .ok (some p, none) ∧
        s.find (Libgen.dirname pathname) ≠ .ok none := by
  rcases h with hnone | ⟨p, hp, hchild⟩
  · exact .inl ⟨target_of_missing hnone, hnone⟩
  · refine .inr ⟨p, target_of_found hp hchild, ?_⟩
    rw [hp]
    simp

/-- `cd` starts at the anchor, or at the other node. -/
theorem start_cases
    (s : State) (pathname : CStr) :
    (Absolute s.dirname ↔ Absolute pathname) ∧ s.start = s.anchor pathname ∨
      ¬ (Absolute s.dirname ↔ Absolute pathname) ∧
        s.start = s.elsewhere pathname := by
  unfold State.start State.anchor State.elsewhere Absolute
  split_ifs <;> simp_all

/-- A pathname that names something, or nothing, is tokenized. -/
theorem find_eq_ok
    {q : Ptr}
    (h : s.find pathname = .ok q) :
    tokenize pathname = .ok (components pathname) ∧
      s.walkFrom (components pathname) (some (s.anchor pathname)) = .ok q := by
  by_cases hfits : pathname.length < 130 ∧ (components pathname).length ≤ 40
  · have htokens := tokenize_eq_ok hfits.1 hfits.2
    rw [State.find, htokens, Result.ok_bind] at h
    exact ⟨htokens, h⟩
  · rw [State.find, tokenize_eq_error hfits] at h
    cases h

end Lookups

section Commands

variable {s : State} {pathname : CStr} {block : Ptr}

/-- A call that returns -1 and changes neither the tree nor `cwd`. -/
def Fails (r : Result (Int × State)) (s : State) : Prop :=
  ∃ s', r = .ok (-1, s') ∧ SameTree s s'

theorem reports_change_iff
    {command : Command} :
    Line.Reports ⟨.change command, pathname, block⟩ s ↔
      Fails (call ⟨command, pathname, block⟩ s) s := by
  constructor
  · rintro ⟨s', hrun, hsame⟩
    obtain ⟨⟨n, m⟩, hcall, h⟩ := Result.bind_eq_ok hrun
    cases h
    exact ⟨s', hcall, hsame⟩
  · rintro ⟨s', hcall, hsame⟩
    refine ⟨s', ?_, hsame⟩
    simp only [Line.run, hcall, Result.ok_bind]

theorem fails_split :
    Fails (.ok (-1, s.split pathname)) s :=
  ⟨_, rfl, sameTree_split s pathname⟩

theorem not_fails_error
    (e : Fault) :
    ¬ Fails (.error e) s := by
  rintro ⟨s', h, _⟩
  cases h

/-- Without the parent, `mkdir` and `create` report a refused name only. -/
theorem make_fails_iff
    (type : NodeType)
    (h : s.find (Libgen.dirname pathname) = .ok none) :
    Fails (make type block pathname s) s ↔
      FitsSplit pathname ∧ refused (Libgen.basename pathname) = true := by
  unfold make
  by_cases hfits : FitsSplit pathname
  · rw [z_eq_ok hfits, Result.ok_bind, State.split_basename,
      target_of_missing h, and_iff_right hfits]
    by_cases hrefused : refused (Libgen.basename pathname) = true
    · rw [if_pos hrefused]
      exact iff_of_true fails_split hrefused
    · rw [if_neg hrefused]
      exact iff_of_false (not_fails_error _) hrefused
  · rw [z_eq_error hfits]
    exact iff_of_false (not_fails_error _) (fun h => hfits h.1)

/-- Without its target, `rmdir` reports a refused name or a parent without the
child. -/
theorem rmdir_fails_iff
    (h : s.find (Libgen.dirname pathname) = .ok none ∨
      ∃ p, s.find (Libgen.dirname pathname) = .ok (some p) ∧
        s.lookC (some p) (Libgen.basename pathname) = .ok none) :
    Fails (rmdir pathname s) s ↔
      FitsSplit pathname ∧ (refused (Libgen.basename pathname) = true ∨
        s.find (Libgen.dirname pathname) ≠ .ok none) := by
  unfold rmdir
  by_cases hfits : FitsSplit pathname
  · rw [z_eq_ok hfits, Result.ok_bind, State.split_basename,
      and_iff_right hfits]
    by_cases hrefused : refused (Libgen.basename pathname) = true
    · rw [if_pos hrefused]
      exact iff_of_true fails_split (.inl hrefused)
    · rw [if_neg hrefused, or_iff_right hrefused]
      rcases target_of_absent h with ⟨hnull, hnone⟩ | ⟨p, htarget, hfound⟩
      · rw [hnull]
        exact iff_of_false (not_fails_error _) (fun hfound => hfound hnone)
      · rw [htarget]
        exact iff_of_true fails_split hfound
  · rw [z_eq_error hfits]
    exact iff_of_false (not_fails_error _) (fun h => hfits h.1)

/-- Without its target, `rm` reports a parent without the child. -/
theorem rm_fails_iff
    (h : s.find (Libgen.dirname pathname) = .ok none ∨
      ∃ p, s.find (Libgen.dirname pathname) = .ok (some p) ∧
        s.lookC (some p) (Libgen.basename pathname) = .ok none) :
    Fails (rm pathname s) s ↔
      FitsSplit pathname ∧
        s.find (Libgen.dirname pathname) ≠ .ok none := by
  unfold rm
  by_cases hfits : FitsSplit pathname
  · rw [z_eq_ok hfits, Result.ok_bind, and_iff_right hfits]
    rcases target_of_absent h with ⟨hnull, hnone⟩ | ⟨p, htarget, hfound⟩
    · rw [hnull]
      exact iff_of_false (not_fails_error _) (fun hfound => hfound hnone)
    · rw [htarget]
      exact iff_of_true fails_split hfound
  · rw [z_eq_error hfits]
    exact iff_of_false (not_fails_error _) (fun h => hfits h.1)

/-- `cd` to nothing reports what the other start leads to. -/
theorem cd_fails_iff
    (h : s.find pathname = .ok none) :
    Fails (cd pathname s) s ↔
      ¬ (Absolute s.dirname ↔ Absolute pathname) ∧
        ∃ a node, s.walkFrom (components pathname)
            (some (s.elsewhere pathname)) = .ok (some a) ∧
          s.heap.lookup a = some node ∧ node.type ≠ .Y := by
  obtain ⟨htokens, hnone⟩ := find_eq_ok h
  have hnodeP : s.nodeP pathname =
      s.walkFrom (components pathname) (some s.start) := by
    rw [nodeP_eq_bind, htokens, Result.ok_bind]
  rcases start_cases s pathname with ⟨hsame, hstart⟩ | ⟨hother, hstart⟩
  · rw [cd, hnodeP, hstart, hnone]
    exact iff_of_false (not_fails_error _) (fun hfound => hfound.1 hsame)
  · rw [and_iff_right hother, ← hstart]
    constructor
    · rintro ⟨s', hcd, _⟩
      obtain ⟨a, node, hwalk, hnode, hresult⟩ := cd_eq_ok hcd
      rw [hnodeP] at hwalk
      rcases hresult with ⟨_, hn, _⟩ | ⟨htype, _, _⟩
      · exact absurd hn (by decide)
      · exact ⟨a, node, hwalk, hnode, htype⟩
    · rintro ⟨a, node, hwalk, hnode, htype⟩
      refine ⟨s, ?_, ⟨rfl, rfl, rfl⟩⟩
      rw [cd, hnodeP, hwalk, Result.ok_bind, deref_some, Result.ok_bind,
        load_eq hnode, Result.ok_bind, if_neg htype]

/-- `ls` of nothing ends in a fault. -/
theorem ls_of_missing
    (h : s.find pathname = .ok none) :
    ∃ e, ls pathname s = .error e := by
  unfold ls
  by_cases hfits : FitsSplit pathname
  · obtain ⟨htokens, hnone⟩ := find_eq_ok h
    have hnodeP : (s.split pathname).nodeP pathname = .ok none := by
      rw [nodeP_eq_bind, htokens, Result.ok_bind, start_split, walkFrom_split,
        hnone]
    rw [z_eq_ok hfits, Result.ok_bind, hnodeP]
    exact ⟨.nullPointer, rfl⟩
  · rw [z_eq_error hfits]
    exact ⟨.outOfBounds, rfl⟩

end Commands

/-- What is missing is reported if and only if it is caught without a test of the
pointer to it. -/
theorem reports_iff
    (line : Line) (s : State) :
    (line.Missing s → line.Reports s) ↔ (line.Missing s → line.Caught s) := by
  refine imp_congr_right (fun hmissing => ?_)
  obtain ⟨user_command, pathname, block⟩ := line
  cases user_command with
  | change command =>
      rw [reports_change_iff]
      cases command with
      | mkdir | create => exact make_fails_iff _ hmissing
      | rmdir => exact rmdir_fails_iff hmissing
      | rm => exact rm_fails_iff hmissing
      | cd => exact cd_fails_iff hmissing
  | ls =>
      refine iff_of_false ?_ not_false
      rintro ⟨s', hrun, _⟩
      obtain ⟨e, hfault⟩ := ls_of_missing hmissing
      rw [Line.run, hfault] at hrun
      cases hrun
  | pwd => exact hmissing.elim

/-- `mkdir x/y` in an empty tree follows a NULL pointer. -/
theorem mkdir_not_reports :
    ¬ (Line.Missing ⟨.change .mkdir, literal "x/y", some 1⟩
        (State.initialized 0) →
      Line.Reports ⟨.change .mkdir, literal "x/y", some 1⟩
        (State.initialized 0)) := by
  intro h
  have hmissing : (State.initialized 0).find
      (Libgen.dirname (literal "x/y")) = .ok none := by
    decide +kernel
  have hfails := reports_change_iff.mp (h hmissing)
  exact absurd ((make_fails_iff .Y hmissing).mp hfails).2 (by decide)

end Filesystem
end PastWork
