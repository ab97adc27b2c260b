import Mathlib.Data.Nat.Digits.Lemmas
import PastWork.Library.Buffers

/-!
# Decimal numerals

The value of a string of digits, and the numeral of each integer: a minus in
front of a negative one, and no zero in front of other digits.
-/

namespace PastWork
namespace Decimals

/-- `'-'` -/
def minus : Byte := 45

/-- `'0'` -/
def zero : Byte := 48

/-- One of `'0'` to `'9'`. -/
def IsDigit (c : Byte) : Prop :=
  48 ≤ c.toNat ∧ c.toNat ≤ 57

instance (c : Byte) : Decidable (IsDigit c) :=
  inferInstanceAs (Decidable (_ ∧ _))

/-- The number that some digits stand for. -/
def value (s : CStr) : Nat :=
  s.foldl (fun n c => 10 * n + (c.toNat - 48)) 0

/-- The number that digits with an optional minus stand for. -/
def signedValue (s : CStr) : Int :=
  if s.head? = some minus then -(value s.tail : Int) else value s

/-- Digits without a leading zero. -/
structure Plain (s : CStr) : Prop where
  nonempty : s ≠ []
  digits : ∀ c ∈ s, IsDigit c
  leading : s.head? = some zero → s = [zero]

/-- `s` is the numeral of `y`. -/
def Canonical (y : Int) (s : CStr) : Prop :=
  ∃ front, Plain front ∧ value front = y.natAbs ∧
    s = if y < 0 then minus :: front else front

/-- The byte of a digit. -/
def digit (d : Nat) : Byte :=
  UInt8.ofNat (48 + d)

/-- The digits of a number, the last one first. -/
def backwards (n : Nat) : CStr :=
  if n = 0 then [zero] else (Nat.digits 10 n).map digit

section Digits

variable {d n : Nat}

theorem digit_toNat
    (hd : d < 10) :
    (digit d).toNat = 48 + d := by
  unfold digit
  rw [UInt8.toNat_ofNat', Nat.mod_eq_of_lt (by omega)]

theorem isDigit_digit
    (hd : d < 10) :
    IsDigit (digit d) := by
  unfold IsDigit
  rw [digit_toNat hd]
  omega

/-- What one division by ten adds. -/
theorem backwards_step
    (n : Nat) :
    backwards n =
      digit (n % 10) :: if n / 10 = 0 then [] else backwards (n / 10) := by
  unfold backwards
  by_cases hn : n = 0
  · subst hn
    rfl
  · rw [if_neg hn, Nat.digits_def' (by omega) (by omega), List.map_cons]
    by_cases hdiv : n / 10 = 0
    · rw [if_pos hdiv, hdiv, Nat.digits_zero, List.map_nil]
    · rw [if_neg hdiv, if_neg hdiv]

theorem backwards_length
    {k : Nat}
    (hn : n < 10 ^ (k + 1)) :
    (backwards n).length ≤ k + 1 := by
  unfold backwards
  split
  · simp
  · rw [List.length_map]
    exact (Nat.digits_length_le_iff (by omega) n).mpr hn

theorem isDigit_backwards
    {c : Byte}
    (hc : c ∈ backwards n) :
    IsDigit c := by
  unfold backwards at hc
  split at hc
  · obtain rfl := List.mem_singleton.mp hc
    exact ⟨le_rfl, by decide⟩
  · obtain ⟨d, hd, rfl⟩ := List.mem_map.mp hc
    exact isDigit_digit (Nat.digits_lt_base (by omega) hd)

/-- The digits in their order are a numeral. -/
theorem plain_backwards
    (n : Nat) :
    Plain (backwards n).reverse := by
  refine ⟨?_, fun c hc => isDigit_backwards (List.mem_reverse.mp hc), ?_⟩
  · rw [backwards_step]
    simp
  · unfold backwards
    by_cases hn : n = 0
    · rw [if_pos hn]
      exact fun _ => rfl
    · -- the last digit of `Nat.digits` is not zero
      have hne : Nat.digits 10 n ≠ [] := Nat.digits_ne_nil_iff_ne_zero.mpr hn
      have hlt := Nat.digits_lt_base (b := 10) (by omega)
        (List.getLast_mem hne)
      have hlast := Nat.getLast_digit_ne_zero 10 hn
      rw [if_neg hn, List.head?_reverse, List.getLast?_map,
        List.getLast?_eq_some_getLast hne, Option.map_some]
      intro hzero
      have hnat := congrArg UInt8.toNat (Option.some.inj hzero)
      rw [digit_toNat hlt] at hnat
      change _ = 48 at hnat
      omega

end Digits

section Values

theorem value_concat
    (s : CStr) (c : Byte) :
    value (s ++ [c]) = 10 * value s + (c.toNat - 48) := by
  unfold value
  rw [List.foldl_concat]

theorem value_backwards
    (n : Nat) :
    value (backwards n).reverse = n := by
  induction n using Nat.strong_induction_on with
  | _ n ih =>
      rw [backwards_step, List.reverse_cons, value_concat,
        digit_toNat (Nat.mod_lt n (by omega))]
      split
      next hdiv =>
        have hnil : value ([] : CStr).reverse = 0 := rfl
        omega
      next hdiv =>
        rw [ih (n / 10) (by omega)]
        omega

theorem isDigit_ne_minus
    {c : Byte}
    (hc : IsDigit c) :
    c ≠ minus := by
  rintro rfl
  exact absurd hc.1 (by decide)

variable {y : Int} {s : CStr}

/-- The digits that were produced last first are the numeral. -/
theorem canonical_backwards
    (y : Int) :
    Canonical y (backwards y.natAbs ++ if y < 0 then [minus] else []).reverse := by
  refine ⟨(backwards y.natAbs).reverse, plain_backwards _, value_backwards _, ?_⟩
  split <;> simp

/-- The numeral of an integer, as `%d` prints it. -/
def numeral (y : Int) : CStr :=
  (backwards y.natAbs ++ if y < 0 then [minus] else []).reverse

theorem canonical_numeral
    (y : Int) :
    Canonical y (numeral y) :=
  canonical_backwards y

/-- An `int` has at most ten digits. -/
theorem numeral_length
    (hy : y.natAbs ≤ 2 ^ 31) :
    (numeral y).length ≤ 11 := by
  have hdigits : (backwards y.natAbs).length ≤ 9 + 1 :=
    backwards_length (hy.trans_lt (by norm_num))
  rw [numeral, List.length_reverse, List.length_append]
  split
  · rw [List.length_singleton]
    omega
  · rw [List.length_nil]
    omega

/-- A numeral is read back as its number. -/
theorem Canonical.signedValue_eq
    (h : Canonical y s) :
    signedValue s = y := by
  obtain ⟨front, hplain, hvalue, rfl⟩ := h
  unfold signedValue
  split
  next hneg =>
    rw [List.head?_cons, if_pos rfl, List.tail_cons, hvalue]
    omega
  next hneg =>
    have hhead : front.head? ≠ some minus := by
      intro hhead
      exact isDigit_ne_minus
        (hplain.digits minus (List.mem_of_head? hhead)) rfl
    rw [if_neg hhead, hvalue]
    omega

theorem numeral_injective
    {x y : Int}
    (h : numeral x = numeral y) :
    x = y := by
  rw [← (canonical_numeral x).signedValue_eq, h, (canonical_numeral y).signedValue_eq]

section Nonnegative

variable {n : Nat}

/-- Without a sign there are only digits. -/
theorem numeral_natCast
    (n : Nat) :
    numeral n = (backwards n).reverse := by
  have hsign : ¬ (n : Int) < 0 := by omega
  rw [numeral, if_neg hsign, List.append_nil, Int.natAbs_natCast]

theorem plain_numeral
    (n : Nat) :
    Plain (numeral n) := by
  rw [numeral_natCast]
  exact plain_backwards n

theorem value_numeral
    (n : Nat) :
    value (numeral n) = n := by
  rw [numeral_natCast, value_backwards]

theorem length_numeral_le
    {k : Nat}
    (hn : n < 10 ^ (k + 1)) :
    (numeral n).length ≤ k + 1 := by
  rw [numeral_natCast, List.length_reverse]
  exact backwards_length hn

/-- What is no digit does not occur. -/
theorem notMem_numeral
    {c : Byte}
    (hc : ¬ IsDigit c) :
    c ∉ numeral n :=
  fun hmem => hc ((plain_numeral n).digits c hmem)

end Nonnegative

end Values

end Decimals
end PastWork
