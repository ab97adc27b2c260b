import Mathlib.Data.List.TakeWhile
import Mathlib.Data.Nat.Digits.Defs
import Mathlib.Tactic.IntervalCases

/-!
# Formatted integers

The conversion `%i` of `printf` and of `scanf` on lists of characters.  What is printed
is scanned as the same number, whatever comes behind it that is not part of a number.
-/

namespace PastWork
namespace Scanning

/-- `isspace` -/
def isSpace (c : Char) : Bool :=
  c = ' ' || (9 ≤ c.toNat && c.toNat ≤ 13)

/-- A blank in a format. -/
def skipSpace (s : List Char) : List Char :=
  s.dropWhile isSpace

/-- The digits of a base. -/
def isDigitOf (base : Nat) (c : Char) : Bool :=
  if base = 16 then
    c.isDigit || (97 ≤ c.toNat && c.toNat ≤ 102) || (65 ≤ c.toNat && c.toNat ≤ 70)
  else
    48 ≤ c.toNat && c.toNat < 48 + base

/-- What a digit stands for. -/
def digitValue (c : Char) : Nat :=
  if c.isDigit then c.toNat - 48
  else if 97 ≤ c.toNat then c.toNat - 87
  else c.toNat - 55

def value (base : Nat) (digits : List Char) : Nat :=
  digits.foldl (fun n c => base * n + digitValue c) 0

/-- Whether a number begins with a minus, and what comes behind its sign. -/
def signOf (s : List Char) : Bool × List Char :=
  if s.head? = some '-' then (true, s.tail)
  else if s.head? = some '+' then (false, s.tail)
  else (false, s)

/-- The base of a number, and what comes behind the mark of base 16. -/
def baseOf (s : List Char) : Nat × List Char :=
  if s.head? = some '0' then
    if s[1]? = some 'x' ∨ s[1]? = some 'X' then (16, s.drop 2) else (8, s)
  else
    (10, s)

/-- A `long` that is out of range is cut off. -/
def clamp (n : Int) : Int :=
  max (-2 ^ 63) (min n (2 ^ 63 - 1))

/-- The digits of a number and what is left; `none` when there is no digit. -/
def scanDigits (negative : Bool) (base : Nat) (s : List Char) :
    Option (Int × List Char) :=
  let digits := s.takeWhile (isDigitOf base)
  let n : Int := value base digits
  if digits = [] then
    none
  else
    some (clamp (if negative then -n else n), s.dropWhile (isDigitOf base))

/-- `%i` of `scanf`: the number and what is left; `none` when there is no number. -/
def scanInt (s : List Char) : Option (Int × List Char) :=
  let signed := signOf (skipSpace s)
  let based := baseOf signed.2
  scanDigits signed.1 based.1 based.2

/-- `%i` of `printf` -/
def printInt (n : Int) : List Char :=
  if n < 0 then '-' :: Nat.toDigits 10 n.natAbs else Nat.toDigits 10 n.natAbs

section Spaces

variable {gap rest : List Char} {c : Char}

/-- Blanks in front are passed over. -/
theorem skipSpace_append
    (hgap : ∀ c ∈ gap, isSpace c = true) :
    skipSpace (gap ++ rest) = skipSpace rest :=
  List.dropWhile_append_of_pos hgap

theorem scanInt_append
    (hgap : ∀ c ∈ gap, isSpace c = true) :
    scanInt (gap ++ rest) = scanInt rest := by
  rw [scanInt, scanInt, skipSpace_append hgap]

theorem skipSpace_cons
    (hc : isSpace c = false) :
    skipSpace (c :: rest) = c :: rest := by
  simp [skipSpace, hc]

theorem scanInt_skipSpace
    (s : List Char) :
    scanInt (skipSpace s) = scanInt s := by
  have hgap : ∀ c ∈ s.takeWhile isSpace, isSpace c = true :=
    fun _ hc => List.mem_takeWhile_imp hc
  calc
    scanInt (skipSpace s)
        = scanInt (s.takeWhile isSpace ++ skipSpace s) := (scanInt_append hgap).symm
    _ = scanInt s := by rw [skipSpace, List.takeWhile_append_dropWhile]

end Spaces

section Digits

variable {n : Nat} {c : Char}

theorem isDigit_range
    (hc : c.isDigit = true) :
    48 ≤ c.toNat ∧ c.toNat ≤ 57 := by
  simp only [Char.isDigit, Bool.and_eq_true, decide_eq_true_eq] at hc
  exact hc

theorem isSpace_of_isDigit
    (hc : c.isDigit = true) :
    isSpace c = false := by
  have hrange := isDigit_range hc
  have hblank : c ≠ ' ' := by
    rintro rfl
    revert hc
    decide
  simp only [isSpace, hblank, decide_false, Bool.false_or, Bool.and_eq_false_iff,
    decide_eq_false_iff_not]
  omega

theorem isDigitOf_ten
    (hc : c.isDigit = true) :
    isDigitOf 10 c = true := by
  have hrange := isDigit_range hc
  simp only [isDigitOf, Nat.reduceEqDiff, if_false, Bool.and_eq_true, decide_eq_true_eq]
  omega

theorem isDigit_toDigits :
    ∀ c ∈ Nat.toDigits 10 n, c.isDigit = true :=
  fun _ hc => Nat.isDigit_of_mem_toDigits (by decide) (by decide) hc

theorem printInt_of_nonneg
    {y : Int}
    (hy : 0 ≤ y) :
    printInt y = Nat.toDigits 10 y.natAbs := by
  rw [printInt, if_neg (by omega)]

theorem isDigit_printInt
    {y : Int}
    (hy : 0 ≤ y) :
    ∀ c ∈ printInt y, c.isDigit = true := by
  rw [printInt_of_nonneg hy]
  exact isDigit_toDigits

theorem printInt_ne_nil
    (y : Int) :
    printInt y ≠ [] := by
  rw [printInt]
  split
  · exact List.cons_ne_nil _ _
  · exact Nat.toDigits_ne_nil

/-- A positive number has no leading zero. -/
theorem toDigits_cons
    (hn : 0 < n) :
    ∃ c ds, Nat.toDigits 10 n = c :: ds ∧ c ≠ '0' := by
  induction n using Nat.strong_induction_on with
  | _ n ih =>
      by_cases hsmall : n < 10
      · refine ⟨n.digitChar, [], Nat.toDigits_of_lt_base hsmall, ?_⟩
        interval_cases n <;> decide
      · obtain ⟨c, ds, hds, hc⟩ := ih (n / 10) (by omega) (by omega)
        refine ⟨c, ds ++ [(n % 10).digitChar], ?_, hc⟩
        rw [Nat.toDigits_of_base_le (by decide) (by omega), hds]
        rfl

theorem foldl_digitValue
    {ds : List Char}
    (hds : ∀ c ∈ ds, c.isDigit = true)
    (m : Nat) :
    ds.foldl (fun n c => 10 * n + digitValue c) m = Nat.ofDigitChars 10 ds m := by
  induction ds generalizing m with
  | nil => rfl
  | cons c ds ih =>
      have hc : digitValue c = c.toNat - '0'.toNat := by
        rw [digitValue, if_pos (hds c List.mem_cons_self)]
        rfl
      rw [List.foldl_cons, hc, Nat.ofDigitChars_cons,
        ih (fun c' hc' => hds c' (List.mem_cons_of_mem c hc'))]

theorem value_toDigits
    (n : Nat) :
    value 10 (Nat.toDigits 10 n) = n := by
  rw [value, foldl_digitValue isDigit_toDigits, Nat.ofDigitChars_ten_toDigits]

end Digits

/-- What can come behind a number. -/
def Ends (rest : List Char) : Prop :=
  ∀ c, rest.head? = some c → c.isDigit = false ∧ c ≠ 'x' ∧ c ≠ 'X'

section Scans

variable {rest : List Char}

theorem ends_cons
    {c : Char} :
    Ends (c :: rest) ↔ c.isDigit = false ∧ c ≠ 'x' ∧ c ≠ 'X' := by
  simp [Ends]

/-- What is behind a number does not belong to its digits. -/
theorem Ends.isDigitOf
    (h : Ends rest)
    {base : Nat}
    (hbase : base ≤ 10) :
    ∀ c, rest.head? = some c → isDigitOf base c = false := by
  intro c hc
  have hno := (h c hc).1
  by_contra hdigit
  simp only [Scanning.isDigitOf, Bool.not_eq_false] at hdigit
  rw [if_neg (by omega), Bool.and_eq_true, decide_eq_true_eq, decide_eq_true_eq] at hdigit
  have hchar : c.isDigit = true := by
    simp only [Char.isDigit, Bool.and_eq_true, decide_eq_true_eq]
    exact ⟨hdigit.1, show c.toNat ≤ 57 by omega⟩
  rw [hchar] at hno
  cases hno

/-- Digits are taken up to the first other character. -/
theorem scanDigits_append
    {negative : Bool} {base : Nat} {ds : List Char}
    (hne : ds ≠ [])
    (hds : ∀ c ∈ ds, isDigitOf base c = true)
    (hrest : ∀ c, rest.head? = some c → isDigitOf base c = false) :
    scanDigits negative base (ds ++ rest) =
      some (clamp (if negative then -(value base ds : Int) else value base ds), rest) := by
  have hnil : rest.takeWhile (isDigitOf base) = [] ∧
      rest.dropWhile (isDigitOf base) = rest := by
    cases rest with
    | nil => exact ⟨rfl, rfl⟩
    | cons c rest =>
        have hc := hrest c rfl
        simp [hc]
  have htake : (ds ++ rest).takeWhile (isDigitOf base) = ds := by
    rw [List.takeWhile_append_of_pos hds, hnil.1, List.append_nil]
  have hdrop : (ds ++ rest).dropWhile (isDigitOf base) = rest := by
    rw [List.dropWhile_append_of_pos hds, hnil.2]
  simp only [scanDigits, htake, hdrop, if_neg hne]

/-- The digits of a number are scanned as this number: a zero as an octal one. -/
theorem scanDigits_toDigits
    {negative : Bool}
    (h : Ends rest) (n : Nat) :
    scanDigits negative (baseOf (Nat.toDigits 10 n ++ rest)).1
        (baseOf (Nat.toDigits 10 n ++ rest)).2 =
      some (clamp (if negative then -(n : Int) else n), rest) := by
  rcases Nat.eq_zero_or_pos n with rfl | hpos
  · have hmark : ¬ (('0' :: rest)[1]? = some 'x' ∨ ('0' :: rest)[1]? = some 'X') := by
      rw [List.getElem?_cons_succ, ← List.head?_eq_getElem?]
      rintro (hx | hX)
      · exact (h _ hx).2.1 rfl
      · exact (h _ hX).2.2 rfl
    have hbase : baseOf ('0' :: rest) = (8, ['0'] ++ rest) := by
      rw [baseOf, List.head?_cons, if_pos rfl, if_neg hmark]
      rfl
    show scanDigits negative (baseOf ('0' :: rest)).1 (baseOf ('0' :: rest)).2 = _
    rw [hbase]
    have hds : ∀ c ∈ ['0'], isDigitOf 8 c = true :=
      List.forall_mem_singleton.mpr rfl
    have hrest : ∀ c, rest.head? = some c → isDigitOf 8 c = false :=
      h.isDigitOf (by decide)
    exact scanDigits_append (by simp) hds hrest
  · obtain ⟨c, ds, hcons, hc⟩ := toDigits_cons hpos
    have hbase : baseOf (Nat.toDigits 10 n ++ rest) =
        (10, Nat.toDigits 10 n ++ rest) := by
      rw [baseOf, hcons, if_neg (by simpa using hc)]
    rw [hbase, scanDigits_append Nat.toDigits_ne_nil
      (fun c hc => isDigitOf_ten (isDigit_toDigits c hc)) (h.isDigitOf (by decide)),
      value_toDigits]

/-- A printed `long` is scanned as the same number. -/
theorem scanInt_printInt
    {n : Int}
    (hmin : -2 ^ 63 ≤ n)
    (hmax : n < 2 ^ 63)
    (h : Ends rest) :
    scanInt (printInt n ++ rest) = some (n, rest) := by
  obtain ⟨c, ds, hcons⟩ := List.exists_cons_of_ne_nil
    (Nat.toDigits_ne_nil : Nat.toDigits 10 n.natAbs ≠ [])
  have hdigit : c.isDigit = true :=
    isDigit_toDigits c (by rw [hcons]; exact List.mem_cons_self)
  have hdigits : ∀ negative,
      scanDigits negative (baseOf (Nat.toDigits 10 n.natAbs ++ rest)).1
          (baseOf (Nat.toDigits 10 n.natAbs ++ rest)).2 =
        some (clamp (if negative then -(n.natAbs : Int) else n.natAbs), rest) :=
    fun _ => scanDigits_toDigits h n.natAbs
  rw [printInt]
  split
  next hneg =>
    have hsigned : signOf (skipSpace ('-' :: Nat.toDigits 10 n.natAbs ++ rest)) =
        (true, Nat.toDigits 10 n.natAbs ++ rest) := by
      rw [List.cons_append, skipSpace_cons (by decide)]
      rfl
    simp only [scanInt, hsigned, hdigits, if_true, clamp]
    congr 2
    omega
  next hnonneg =>
    have hminus : c ≠ '-' := by
      rintro rfl
      revert hdigit
      decide
    have hplus : c ≠ '+' := by
      rintro rfl
      revert hdigit
      decide
    have hsigned : signOf (skipSpace (Nat.toDigits 10 n.natAbs ++ rest)) =
        (false, Nat.toDigits 10 n.natAbs ++ rest) := by
      rw [hcons, List.cons_append, skipSpace_cons (isSpace_of_isDigit hdigit), signOf,
        if_neg (by simpa using hminus), if_neg (by simpa using hplus)]
    simp only [scanInt, hsigned, hdigits, Bool.false_eq_true, if_false, clamp]
    congr 2
    omega

end Scans

end Scanning
end PastWork
