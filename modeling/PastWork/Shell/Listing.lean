import PastWork.Library.Scanning
import PastWork.Shell.Diagram
import PastWork.Shell.Resuming

/-!
# What `jobs` prints can be typed back

The text of `jobL`, whose branch for an unknown state is never taken, and the
commands that are typed from it: the pid of a row, or its job ID behind a percent
sign when no earlier row has the same one, resumes the job of this row and no other.
-/

namespace PastWork
namespace Shell

open Steps
open Scanning (printInt printInt_of_nonneg isDigit_printInt printInt_ne_nil)

/-- The text for the state of the slot `beta`. -/
def stateText (beta : Fin MAXJOBS) : JobState → CString
  | .BG => "Running ".toList
  | .FG => "Foreground ".toList
  | .ST => "Stopped ".toList
  | .UNDEF => "jobL: Internal error: job[".toList ++ printInt beta.val ++
      "].state=0 ".toList

/-- The row of a slot. -/
def row (jobs : Table) (beta : Fin MAXJOBS) : CString :=
  "[".toList ++ printInt (jobs beta).mippy ++ "] (".toList ++
    printInt (jobs beta).pid ++ ") ".toList ++
    stateText beta (jobs beta).state ++ (jobs beta).cmdline

/-- What `jobL` prints. -/
def jobL (jobs : Table) : CString :=
  (((List.finRange MAXJOBS).filter (fun beta => (jobs beta).pid ≠ 0)).map
    (row jobs)).flatten

section Numbers

variable {n : Int}

/-- A number that is printed begins with a digit. -/
theorem printInt_at
    (hn : 0 ≤ n) :
    (CString.at (printInt n) 0).isDigit = true := by
  have hdigits := isDigit_printInt hn
  cases hs : printInt n with
  | nil => exact absurd hs (printInt_ne_nil n)
  | cons c rest => exact hdigits c (by simp [hs])

/-- `atoi` reads what `%d` has printed. -/
theorem atoi_printInt
    (hn : 0 ≤ n)
    (hfits : n < 2 ^ 31) :
    atoi (printInt n) = n := by
  have hall : (printInt n).takeWhile Char.isDigit = printInt n :=
    List.takeWhile_eq_self_iff.mpr (isDigit_printInt hn)
  have hvalue : digits (printInt n) = n.natAbs := by
    unfold digits
    rw [hall, printInt_of_nonneg hn]
    exact Nat.ofDigitChars_ten_toDigits
  unfold atoi
  rw [strtol_of_digit (printInt_at hn), hvalue]
  unfold toInt32
  omega

theorem printInt_ne_percent
    (hn : 0 ≤ n) :
    CString.at (printInt n) 0 ≠ '%' := by
  intro hpercent
  have hdigit := printInt_at hn
  rw [hpercent] at hdigit
  exact absurd hdigit (by decide)

end Numbers

/-- A row is typed back: its pid, or its job ID when that of no earlier slot is the
same. -/
inductive Typed (jobs : Table) (k : Fin MAXJOBS) : CString → Prop
  | pid
      (hfits : (jobs k).pid < 2 ^ 31) :
      Typed jobs k (printInt (jobs k).pid)
  | jid
      (hpos : 1 ≤ (jobs k).mippy)
      (hfits : (jobs k).mippy < 2 ^ 31)
      (hfirst : ∀ j < k, (jobs j).mippy ≠ (jobs k).mippy) :
      Typed jobs k ('%' :: printInt (jobs k).mippy)

section Selecting

variable {jobs : Table} {k : Fin MAXJOBS} {text : CString}

/-- The first slot that satisfies `p` is the one that the scan finds. -/
theorem first_eq_of_first
    {p : Job → Bool}
    (hk : p (jobs k) = true)
    (hfirst : ∀ j < k, p (jobs j) = false) :
    jobs.first p = some k := by
  cases h : jobs.first p with
  | none =>
      rw [first_eq_none h k] at hk
      cases hk
  | some j =>
      obtain ⟨hj, front, rest, hsplit, hfront⟩ :=
        List.find?_eq_some_iff_append.mp h
      rcases lt_trichotomy j k with hlt | rfl | hlt
      · simp [hfirst j hlt] at hj
      · rfl
      · -- the slots of the scan come in order
        have hsorted := List.pairwise_lt_finRange MAXJOBS
        have hmem := List.mem_finRange k
        rw [hsplit] at hsorted hmem
        have hin : k ∈ front := by
          rcases List.mem_append.mp hmem with hmem | hmem
          · exact hmem
          · rcases List.mem_cons.mp hmem with rfl | hmem
            · exact absurd hlt (lt_irrefl _)
            · exact absurd ((List.rel_of_pairwise_cons
                (List.pairwise_append.mp hsorted).2.1 hmem).trans hlt)
                (lt_irrefl _)
        have hno := hfront k hin
        simp [hk] at hno

/-- A row that is typed back selects its slot. -/
theorem Typed.selectJob_eq
    (h : Typed jobs k text)
    (hpid : 1 ≤ (jobs k).pid)
    (hdistinct : ∀ j, (jobs j).pid = (jobs k).pid → j = k)
    (command : CString) :
    selectJob [command, text] jobs = .ok k := by
  cases h with
  | pid hfits =>
      have hnonneg : 0 ≤ (jobs k).pid := by omega
      have hfind : getjobpid (jobs k).pid jobs = some k := by
        unfold getjobpid
        rw [if_neg (by omega)]
        exact first_eq_of_unique (by simp) (fun j hj => hdistinct j (by simpa using hj))
      simp only [selectJob, List.getElem?_cons_succ, List.getElem?_cons_zero]
      rw [if_neg (printInt_ne_percent hnonneg), if_pos (printInt_at hnonneg),
        atoi_printInt hnonneg hfits, hfind]
  | jid hpos hfits hfirst =>
      have hnonneg : 0 ≤ (jobs k).mippy := by omega
      have hfind : getjobjid (jobs k).mippy jobs = some k := by
        unfold getjobjid
        rw [if_neg (by omega)]
        exact first_eq_of_first (by simp) (fun j hj => by simpa using hfirst j hj)
      have hdigit : (CString.at ('%' :: printInt (jobs k).mippy) 1).isDigit = true := by
        simpa [CString.at] using printInt_at hnonneg
      simp only [selectJob, List.getElem?_cons_succ, List.getElem?_cons_zero]
      rw [if_pos (by rfl), if_pos hdigit, List.drop_one, List.tail_cons,
        atoi_printInt hnonneg hfits, hfind]

end Selecting

namespace World

variable {w w' : World} {h : Happening} {k : Fin MAXJOBS} {text : CString}

/-- A slot that is in use has a state. -/
def Stated (w : World) : Prop :=
  ∀ k, (w.jobs k).pid ≠ 0 → 1 ≤ (w.jobs k).pid ∧ (w.jobs k).state ≠ .UNDEF

theorem Stated.step
    (hw : w.Stated)
    (hstep : w.step h = some w') :
    w'.Stated := by
  intro k
  have hslot := step_slot hstep k
  generalize w'.jobs k = job at hslot
  cases hslot with
  | stays => exact hw k
  | stopped => exact fun hpid => ⟨(hw k hpid).1, by simp⟩
  | cleared => exact fun hpid => absurd rfl hpid
  | added hfree hpid hstate =>
      refine fun _ => ⟨hpid, ?_⟩
      rcases hstate with rfl | rfl <;> simp
  | marked hc hstate =>
      refine fun hpid => ⟨(hw k hpid).1, ?_⟩
      rcases hstate with rfl | rfl <;> simp

/-- A step of the shell that does not end it, with no handler running. -/
theorem main_eq
    {e : Event} {reason : Exit} {s : Tsh}
    (hended : w.ended = none)
    (hframes : w.frames = [])
    (hs : Shell.step w.toTsh e = some s)
    (hcontrol : s.control ≠ .exited) :
    w.main e reason = some { w with toTsh := s } := by
  rw [World.main, if_pos hframes, hs, Option.map_some, if_neg hcontrol, hended]

theorem proceed_eq
    {s : Tsh}
    (hended : w.ended = none)
    (hframes : w.frames = [])
    (hs : w.toTsh.proceed = some s)
    (hcontrol : s.control ≠ .exited) :
    w.step .proceed = some { w with toTsh := s } := by
  rw [World.step, if_pos hended]
  exact main_eq hended hframes hs hcontrol

section Typing

variable {command : CString}

/-- The command that is typed back comes to its `Kill`. -/
theorem exec_typed
    (hended : w.ended = none)
    (hreading : w.control = .reading)
    (hframes : w.frames = [])
    (hcommand : command = "bg".toList ∨ command = "fg".toList)
    (hselect : selectJob [command, text] w.jobs = .ok k)
    (bg : Bool) (cmdline : CString) :
    exec World.step w [.line [command, text] bg cmdline, .proceed, .proceed, .proceed] =
      some { w with toTsh := w.toTsh.goto (.killing command k (w.jobs k).pid) } := by
  have hline : w.step (.line [command, text] bg cmdline) =
      some { w with toTsh := w.toTsh.goto (.evaluating [command, text] bg cmdline) } := by
    rw [World.step, if_pos hended]
    refine main_eq hended hframes ?_ (by simp [Tsh.goto])
    simp only [Shell.step, hreading]
  have hevaluate : World.step
      { w with toTsh := w.toTsh.goto (.evaluating [command, text] bg cmdline) }
      .proceed = some { w with toTsh := w.toTsh.goto (.looking [command, text]) } := by
    refine proceed_eq hended hframes ?_ (by simp [Tsh.goto])
    rcases hcommand with rfl | rfl <;> rfl
  have hlook : World.step
      { w with toTsh := w.toTsh.goto (.looking [command, text]) } .proceed =
        some { w with toTsh := w.toTsh.goto (.found command k) } := by
    refine proceed_eq hended hframes ?_ (by simp [Tsh.goto])
    have hselect' : selectJob [command, text]
        (w.toTsh.goto (.looking [command, text])).jobs = .ok k := hselect
    show some (Tsh.look [command, text] _) = _
    rw [Tsh.look, hselect']
    rfl
  have haim : World.step { w with toTsh := w.toTsh.goto (.found command k) } .proceed =
      some { w with toTsh := w.toTsh.goto (.killing command k (w.jobs k).pid) } :=
    proceed_eq hended hframes rfl (by simp [Tsh.goto])
  rw [exec, hline, Option.bind_some, exec, hevaluate, Option.bind_some, exec, hlook,
    Option.bind_some, exec, haim]
  rfl

/-- SIGCONT reaches a group that exists. -/
theorem kill_found
    (hended : w.ended = none)
    (hframes : w.frames = [])
    (hgroup : w.groupExists (w.jobs k).pid = true) :
    World.step { w with toTsh := w.toTsh.goto (.killing command k (w.jobs k).pid) }
      .kill = some { w with toTsh := w.toTsh.goto (.resumed command k) } := by
  rw [World.step, if_pos hended]
  refine main_eq hended hframes ?_ (by simp [Tsh.goto])
  have hgroup' : groupExists
      { w with toTsh := w.toTsh.goto (.killing command k (w.jobs k).pid) }
      (w.jobs k).pid = true := hgroup
  show Shell.step _ (.kill (groupExists _ _)) = _
  rw [hgroup']
  rfl

/-- When there is no such group, `Kill` ends the shell. -/
theorem kill_ends
    (hended : w.ended = none)
    (hframes : w.frames = [])
    (hgroup : w.groupExists (w.jobs k).pid = false) :
    World.step { w with toTsh := w.toTsh.goto (.killing command k (w.jobs k).pid) }
      .kill = some
        { w with toTsh := w.toTsh.goto .exited, ended := some .kill } := by
  have hgroup' : groupExists
      { w with toTsh := w.toTsh.goto (.killing command k (w.jobs k).pid) }
      (w.jobs k).pid = false := hgroup
  rw [World.step, if_pos hended]
  show World.main _ (.kill (groupExists _ _)) .kill = _
  rw [hgroup', World.main, if_pos hframes]
  rfl

/-- `bg` marks the job and prints it. -/
theorem exec_background
    (hended : w.ended = none)
    (hframes : w.frames = []) :
    exec World.step { w with toTsh := w.toTsh.goto (.resumed "bg".toList k) }
      [.proceed, .proceed] =
        some
          { w with
            toTsh := (((w.toTsh.setState k .BG).print
              (.job (w.jobs k).mippy (w.jobs k).pid (w.jobs k).cmdline)).goto
                .reading) } := by
  have hmark : World.step { w with toTsh := w.toTsh.goto (.resumed "bg".toList k) }
      .proceed =
        some { w with toTsh := (w.toTsh.setState k .BG).goto (.announcing k) } :=
    proceed_eq hended hframes rfl (by simp [Tsh.goto])
  have hprint : World.step
      { w with toTsh := (w.toTsh.setState k .BG).goto (.announcing k) } .proceed =
        some
          { w with
            toTsh := (((w.toTsh.setState k .BG).print
              (.job (w.jobs k).mippy (w.jobs k).pid (w.jobs k).cmdline)).goto
                .reading) } := by
    refine proceed_eq hended hframes ?_ (by simp [Tsh.goto])
    simp [Tsh.proceed, Tsh.announce, Tsh.goto, Tsh.print, Tsh.setState]
  rw [exec, hmark, Option.bind_some, exec, hprint]
  rfl

/-- `fg` marks the job and waits for it. -/
theorem exec_foreground
    (hended : w.ended = none)
    (hframes : w.frames = [])
    (hno : NoFG w.jobs) :
    exec World.step { w with toTsh := w.toTsh.goto (.resumed "fg".toList k) }
      [.proceed, .proceed, .proceed, .proceed] =
        some
          { w with
            toTsh := (w.toTsh.setState k .FG).goto (.suspended (w.jobs k).pid) } := by
  have hmark : World.step { w with toTsh := w.toTsh.goto (.resumed "fg".toList k) }
      .proceed =
        some { w with toTsh := (w.toTsh.setState k .FG).goto (.fronting k) } :=
    proceed_eq hended hframes rfl (by simp [Tsh.goto])
  have hwait : World.step
      { w with toTsh := (w.toTsh.setState k .FG).goto (.fronting k) } .proceed =
        some
          { w with
            toTsh := (w.toTsh.setState k .FG).goto (.entering (w.jobs k).pid) } := by
    refine proceed_eq hended hframes ?_ (by simp [Tsh.goto])
    simp [Tsh.proceed, Tsh.goto]
  have hblock : World.step
      { w with toTsh := (w.toTsh.setState k .FG).goto (.entering (w.jobs k).pid) }
      .proceed =
        some
          { w with
            toTsh := (w.toTsh.setState k .FG).goto (.testing (w.jobs k).pid) } :=
    proceed_eq hended hframes rfl (by simp [Tsh.goto])
  have hfgpid : fgpid (w.toTsh.setState k .FG).jobs = (w.jobs k).pid := by
    have hk : ((w.toTsh.setState k .FG).jobs k).state = .FG := by simp
    have hone : OneFG (w.toTsh.setState k .FG).jobs := by
      intro i j hi hj
      rw [Tsh.setState_jobs] at hi hj
      rw [hno.set_only hi, hno.set_only hj]
    rw [fgpid_eq hone hk, Tsh.setState_jobs, set_same]
  have hsleep : World.step
      { w with toTsh := (w.toTsh.setState k .FG).goto (.testing (w.jobs k).pid) }
      .proceed =
        some
          { w with
            toTsh := (w.toTsh.setState k .FG).goto (.suspended (w.jobs k).pid) } := by
    refine proceed_eq hended hframes ?_ (by simp [Tsh.goto])
    have htest := hfgpid.symm
    exact congrArg some (if_pos htest)
  rw [exec, hmark, Option.bind_some, exec, hwait, Option.bind_some, exec, hblock,
    Option.bind_some, exec, hsleep]
  rfl

end Typing

theorem exec_stated
    {happenings : List Happening}
    (hw : exec World.step World.start happenings = some w) :
    w.Stated :=
  exec_invariant (fun _ hpid => absurd rfl hpid)
    (fun _ _ _ hw hstep => hw.step hstep) hw

end World

/-- Two jobs run in the background. -/
def twoJobs : List Happening :=
  [.line ["a".toList] true "a &\n".toList, .proceed, .fork 17, .setpgid 17,
    .proceed, .proceed,
    .line ["b".toList] true "b &\n".toList, .proceed, .fork 230, .setpgid 230,
    .proceed, .proceed]

end Shell
end PastWork
