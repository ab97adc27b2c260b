import Mathlib.Data.List.TakeWhile
import Mathlib.Data.Nat.Digits.Defs
import PastWork.Shell.Effects

/-!
# The argument of `bg` and `fg`

`do_bgfg` looks at one character of its argument and leaves the rest to `atoi`,
which reads the digits that it starts with and makes them an `int`.  It acts on
named jobs only, exactly as long as the argument is digits to its end and fits,
or what `atoi` makes of it is the number of no job.
-/

namespace PastWork
namespace Shell

open Steps

/-- `do_bgfg` when nothing interrupts it and its signal arrives: the pid that is
sent SIGCONT, if any is, and the table. -/
def doBgfg (argv : List CString) (jobs : Table) : Option Int × Table :=
  match selectJob argv jobs with
  | .error _ => (none, jobs)
  | .ok piddy =>
      (some (jobs piddy).pid,
        jobs.set piddy
          { jobs piddy with
            state := if argv.getD 0 [] = "bg".toList then .BG else .FG })

section Runs

variable {argv : List CString} {s : Tsh}

/-- A call that has printed a message is over. -/
theorem doBgfg_rejects
    (hlooking : s.control = .looking argv)
    (hnone : (doBgfg argv s.jobs).1 = none) :
    ∃ s', exec step s [.proceed] = some s' ∧
      s'.control = .reading ∧
      s'.jobs = (doBgfg argv s.jobs).2 := by
  unfold doBgfg at hnone ⊢
  cases hselect : selectJob argv s.jobs with
  | error line =>
      refine ⟨(s.print line).goto .reading, ?_, rfl, rfl⟩
      simp [exec, step, Tsh.proceed, hlooking, Tsh.look, hselect]
  | ok piddy =>
      simp [hselect] at hnone

/-- Otherwise the call comes to `kill` and goes on to the state write. -/
theorem doBgfg_resumes
    {target : Int}
    (hlooking : s.control = .looking argv)
    (hsome : (doBgfg argv s.jobs).1 = some target) :
    ∃ command piddy s₁ s₂,
      exec step s [.proceed, .proceed] = some s₁ ∧
      s₁.control = .killing command piddy target ∧
      exec step s₁ [.kill true, .proceed] = some s₂ ∧
      s₂.jobs = (doBgfg argv s.jobs).2 := by
  unfold doBgfg at hsome ⊢
  cases hselect : selectJob argv s.jobs with
  | error line =>
      simp [hselect] at hsome
  | ok piddy =>
      simp only [hselect] at hsome
      obtain rfl := Option.some.inj hsome
      refine ⟨argv.getD 0 [], piddy,
        s.goto (.killing (argv.getD 0 []) piddy (s.jobs piddy).pid),
        s.mark (argv.getD 0 []) piddy, ?_, rfl, rfl, ?_⟩
      · simp [exec, step, Tsh.proceed, hlooking, Tsh.look, hselect, Tsh.goto]
      · unfold Tsh.mark
        split <;> simp [Tsh.goto, *]

end Runs

section Numbers

/-- The digits are those of the number, to the end of the string. -/
structure Numeral (s : CString) (n : Int) : Prop where
  nonempty : s ≠ []
  allDigits : ∀ c ∈ s, c.isDigit = true
  value : n =
    (Nat.ofDigits 10 (s.reverse.map (fun c => c.toNat - 48)) : Nat)

/-- A number that a job can have. -/
def Positive (n : Int) : Prop :=
  1 ≤ n ∧ n < 2 ^ 31

variable {s : CString} {n : Int}

theorem digits_of_all
    (h : ∀ c ∈ s, c.isDigit = true) :
    digits s = Nat.ofDigits 10 (s.reverse.map (fun c => c.toNat - 48)) := by
  have hall : s.takeWhile Char.isDigit = s := List.takeWhile_eq_self_iff.mpr h
  unfold digits
  rw [hall]
  clear h hall
  induction s using List.reverseRecOn with
  | nil =>
      rfl
  | append_singleton s c ih =>
      rw [List.foldl_concat, ih]
      simp [Nat.ofDigits_cons, Nat.add_comm]

theorem digit_bounds
    {c : Char}
    (h : c.isDigit = true) :
    48 ≤ c.toNat ∧ c.toNat ≤ 57 := by
  simp only [Char.isDigit, Bool.and_eq_true, decide_eq_true_eq] at h
  exact ⟨UInt32.le_iff_toNat_le.mp h.1, UInt32.le_iff_toNat_le.mp h.2⟩

/-- A string that starts with a digit has no blanks and no sign. -/
theorem strtol_of_digit
    (h : (CString.at s 0).isDigit = true) :
    strtol s = min (digits s : Int) (2 ^ 63 - 1) := by
  cases s with
  | nil =>
      exact absurd h (by decide)
  | cons c rest =>
      have hdigit : c.isDigit = true := h
      obtain ⟨hlow, hhigh⟩ := digit_bounds hdigit
      have hspace : isspace c = false := by
        have hblank : c ≠ ' ' := by
          rintro rfl
          exact absurd hlow (by decide)
        have htab : ¬ c ≤ '\r' := by
          intro hle
          have := UInt32.le_iff_toNat_le.mp hle
          simp only [Char.toNat] at hlow
          have hr : ('\r' : Char).val.toNat = 13 := by decide
          omega
        simp [isspace, hblank, htab]
      have hminus : c ≠ '-' := by
        rintro rfl
        exact absurd hlow (by decide)
      have hplus : c ≠ '+' := by
        rintro rfl
        exact absurd hlow (by decide)
      have hdrop : (c :: rest).dropWhile isspace = c :: rest := by
        simp [hspace]
      unfold strtol
      rw [hdrop]
      split
      next heq =>
          exact absurd (List.cons.inj heq).1 hminus
      next heq =>
          exact absurd (List.cons.inj heq).1 hplus
      next =>
          show max (-2 ^ 63) (min (digits (c :: rest) : Int) (2 ^ 63 - 1)) = _
          omega

theorem Numeral.first
    (h : Numeral s n) :
    (CString.at s 0).isDigit = true := by
  cases hs : s with
  | nil =>
      exact absurd hs h.nonempty
  | cons c rest =>
      exact h.allDigits c (by simp [hs])

/-- `atoi` gives the number itself when that fits. -/
theorem Numeral.atoi_eq
    (h : Numeral s n)
    (hfits : n < 2 ^ 31) :
    atoi s = n := by
  have hvalue : (digits s : Int) = n := by
    rw [digits_of_all h.allDigits, h.value]
  unfold atoi
  rw [strtol_of_digit h.first, hvalue]
  unfold toInt32
  omega

end Numbers

section Arguments

/-- The part of the argument that is read as a number. -/
def number (arg : CString) : CString :=
  if CString.at arg 0 = '%' then arg.drop 1 else arg

/-- The number that the argument is compared with. -/
def designation (arg : CString) (job : Job) : Int :=
  if CString.at arg 0 = '%' then job.mippy else job.pid

/-- The whole argument is the pid of the job, or `%` and its job ID. -/
def Names (arg : CString) (job : Job) : Prop :=
  (Numeral arg job.pid ∧ Positive job.pid) ∨
    ∃ rest, arg = '%' :: rest ∧ Numeral rest job.mippy ∧ Positive job.mippy

/-- A job is resumed only if the argument names it, and no other is touched. -/
def ResumesOnlyNamed (argv : List CString) (jobs : Table) : Prop :=
  doBgfg argv jobs = (none, jobs) ∨
    ∃ arg piddy state, argv[1]? = some arg ∧ Names arg (jobs piddy) ∧
      doBgfg argv jobs =
        (some (jobs piddy).pid,
          jobs.set piddy { jobs piddy with state := state })

/-- The argument does not begin with a digit, or is a number that fits, or what
`atoi` makes of it belongs to no job. -/
def ReadsToEnd (argv : List CString) (jobs : Table) : Prop :=
  ∀ arg, argv[1]? = some arg →
    (CString.at (number arg) 0).isDigit = false ∨
      (∃ n, Numeral (number arg) n ∧ n < 2 ^ 31) ∨
      atoi (number arg) < 1 ∨
      ∀ k, designation arg (jobs k) ≠ atoi (number arg)

variable {argv : List CString} {arg : CString} {jobs : Table}
variable {piddy : Fin MAXJOBS}

theorem getjobpid_none
    {pid : Int}
    (h : getjobpid pid jobs = none) :
    pid < 1 ∨ ∀ k, (jobs k).pid ≠ pid := by
  unfold getjobpid at h
  split at h
  next hlow =>
      exact .inl hlow
  next =>
      exact .inr (fun k => by simpa using first_eq_none h k)

theorem getjobjid_none
    {mippy : Int}
    (h : getjobjid mippy jobs = none) :
    mippy < 1 ∨ ∀ k, (jobs k).mippy ≠ mippy := by
  unfold getjobjid at h
  split at h
  next hlow =>
      exact .inl hlow
  next =>
      exact .inr (fun k => by simpa using first_eq_none h k)

/-- A slot that is found is the one of the number behind the first character. -/
theorem selectJob_spec
    (h : selectJob argv jobs = .ok piddy) :
    ∃ arg, argv[1]? = some arg ∧
      (CString.at (number arg) 0).isDigit = true ∧
      1 ≤ atoi (number arg) ∧
      designation arg (jobs piddy) = atoi (number arg) := by
  unfold selectJob at h
  cases harg : argv[1]? with
  | none =>
      simp only [harg] at h
      cases h
  | some arg =>
      refine ⟨arg, rfl, ?_⟩
      simp only [harg] at h
      simp only [number, designation]
      split at h
      next hpercent =>
          simp only [if_pos hpercent]
          split at h
          next hdigit =>
              split at h
              · cases h
              next hfind =>
                cases h
                exact ⟨by simpa [CString.at] using hdigit,
                  getjobjid_spec hfind⟩
          next =>
              cases h
      next hpercent =>
          simp only [if_neg hpercent]
          split at h
          next hdigit =>
              split at h
              · cases h
              next hfind =>
                cases h
                exact ⟨hdigit, getjobpid_spec hfind⟩
          next =>
              cases h

/-- An argument with a number is refused only for want of such a job. -/
theorem selectJob_refuses
    {line : Line}
    (harg : argv[1]? = some arg)
    (hdigit : (CString.at (number arg) 0).isDigit = true)
    (h : selectJob argv jobs = .error line) :
    atoi (number arg) < 1 ∨
      ∀ k, designation arg (jobs k) ≠ atoi (number arg) := by
  simp only [selectJob, harg, number, designation] at h hdigit ⊢
  split at h
  next hpercent =>
      rw [if_pos hpercent] at hdigit
      simp only [if_pos hpercent]
      have hfirst : (CString.at arg 1).isDigit = true := by
        simpa [CString.at] using hdigit
      rw [if_pos hfirst] at h
      split at h
      next hnone =>
          exact getjobjid_none hnone
      next =>
          cases h
  next hpercent =>
      rw [if_neg hpercent] at hdigit
      simp only [if_neg hpercent]
      rw [if_pos hdigit] at h
      split at h
      next hnone =>
          exact getjobpid_none hnone
      next =>
          cases h

/-- The number of the argument is then the pid or the job ID. -/
theorem names_iff
    (arg : CString) (job : Job) :
    Names arg job ↔
      Numeral (number arg) (designation arg job) ∧
        Positive (designation arg job) := by
  constructor
  · rintro (⟨hnumeral, hpos⟩ | ⟨rest, rfl, hnumeral, hpos⟩)
    · have hpercent : CString.at arg 0 ≠ '%' := by
        intro hpercent
        have hdigit := hnumeral.first
        rw [hpercent] at hdigit
        exact absurd hdigit (by decide)
      rw [number, designation, if_neg hpercent, if_neg hpercent]
      exact ⟨hnumeral, hpos⟩
    · exact ⟨hnumeral, hpos⟩
  · rintro ⟨hnumeral, hpos⟩
    by_cases hpercent : CString.at arg 0 = '%'
    · rw [number, designation, if_pos hpercent, if_pos hpercent] at *
      refine .inr ⟨arg.drop 1, ?_, hnumeral, hpos⟩
      cases arg with
      | nil =>
          exact absurd hpercent (by decide)
      | cons c rest =>
          have hc : c = '%' := hpercent
          rw [hc]
          rfl
    · rw [number, designation, if_neg hpercent, if_neg hpercent] at *
      exact .inl ⟨hnumeral, hpos⟩

end Arguments

/-- `do_bgfg` keeps to the jobs that its argument names exactly when it reads
the argument to its end or finds no job. -/
theorem doBgfg_names_iff
    (argv : List CString) (jobs : Table) :
    ResumesOnlyNamed argv jobs ↔ ReadsToEnd argv jobs := by
  constructor
  · rintro (hnone | ⟨arg', piddy, state, harg', hnames, _⟩) arg harg
    · cases hdigit : (CString.at (number arg) 0).isDigit with
      | false =>
          exact .inl rfl
      | true =>
          cases hselect : selectJob argv jobs with
          | error line =>
              exact .inr (.inr (selectJob_refuses harg hdigit hselect))
          | ok piddy =>
              simp [doBgfg, hselect] at hnone
    · obtain rfl := Option.some.inj (harg'.symm.trans harg)
      obtain ⟨hnumeral, hpos⟩ := (names_iff _ _).mp hnames
      exact .inr (.inl ⟨_, hnumeral, hpos.2⟩)
  · intro hreads
    cases hselect : selectJob argv jobs with
    | error line =>
        refine .inl ?_
        simp only [doBgfg, hselect]
    | ok piddy =>
        obtain ⟨arg, harg, hdigit, hpos, hdesignation⟩ :=
          selectJob_spec hselect
        rcases hreads arg harg with hnot | ⟨n, hnumeral, hfits⟩ | hlow | hnobody
        · rw [hdigit] at hnot
          cases hnot
        · have hvalue := hnumeral.atoi_eq hfits
          have hnames : Names arg (jobs piddy) := by
            rw [names_iff, hdesignation, hvalue]
            exact ⟨hnumeral, by omega, hfits⟩
          refine .inr ⟨arg, piddy,
            if argv.getD 0 [] = "bg".toList then .BG else .FG,
            harg, hnames, ?_⟩
          simp only [doBgfg, hselect]
        · omega
        · exact absurd hdesignation (hnobody piddy)

/-- A table with one job, whose pid is 5. -/
def jobFive : Table :=
  fun k => if k.val = 0 then ⟨5, 1, .ST, []⟩ else clearjob

/-- `bg 5abc` resumes the job with pid 5. -/
theorem trailing_accepted :
    ¬ ∀ (argv : List CString) (jobs : Table), ResumesOnlyNamed argv jobs := by
  intro hclaim
  rcases hclaim ["bg".toList, "5abc".toList] jobFive with
    hnone | ⟨arg, piddy, state, harg, hnames, _⟩
  · have hsent : (doBgfg ["bg".toList, "5abc".toList] jobFive).1 = some 5 := by
      decide
    rw [hnone] at hsent
    cases hsent
  · obtain rfl : "5abc".toList = arg := Option.some.inj harg
    rcases hnames with ⟨hnumeral, _⟩ | ⟨rest, hpercent, _⟩
    · exact absurd (hnumeral.allDigits 'a' (by decide)) (by decide)
    · exact absurd (List.cons.inj hpercent).1 (by decide)

end Shell
end PastWork
