import Mathlib.Tactic
import PastWork.Library.Decimals
import PastWork.Library.Strings

/-!
# Printing numbers in signal handlers

`push` writes the digits of a `long` to a string, the last one first, and `back`
turns the string around in place.  `sio_putl` calls it for an array of 130 bytes.
Arithmetic wraps: the lowest `long` is its own negation.
-/

namespace PastWork

namespace Shell

open Decimals

section Code

variable {size : Nat}

/-- The loop of `back`. -/
def swapFrom : Nat → Nat → Nat → Buffer size → Result (Buffer size)
  | 0, _, _, _ => .error .endless
  | fuel + 1, beta, gamma, s =>
      if beta < gamma then do
        let alpha ← s.fetch beta
        let c ← s.fetch gamma
        let s ← s.store beta [c]
        let s ← s.store gamma [alpha]
        swapFrom fuel (beta + 1) (gamma - 1) s
      else
        .ok s

def back (s : Buffer size) : Result (Buffer size) := do
  let t ← cstr s.bytes
  swapFrom (t.length + 1) 0 (t.length - 1) s

/-- The character of a remainder: from ten on they count from `'y'`. -/
def figure (alpha : Int32) : Byte :=
  (if alpha < 10 then alpha + 48 else alpha - 10 + 121).toInt8.toUInt8

/-- The `do`-`while` of `push`; the result is `beta` and `s` after it. -/
def pushFrom (z : Int32) :
    Nat → Int64 → Nat → Buffer size → Result (Nat × Buffer size)
  | 0, _, _, _ => .error .endless
  | fuel + 1, y, beta, s =>
      if z = 0 then
        .error .divisionByZero
      else do
        let s ← s.store beta [figure (y % z.toInt64).toInt32]
        if 0 < y / z.toInt64 then
          pushFrom z fuel (y / z.toInt64) (beta + 1) s
        else
          .ok (beta + 1, s)

/-- Every turn of the loop stores a byte, so it leaves the array or ends. -/
def push (y : Int64) (s : Buffer size) (z : Int32) :
    Result (Buffer size) := do
  let (beta, s) ← pushFrom z (size + 1) (if y < 0 then -y else y) 0 s
  if y < 0 then
    let s ← s.store beta [minus]
    let s ← s.store (beta + 1) [0]
    back s
  else
    let s ← s.store beta [0]
    back s

end Code

section Reversal

variable {size : Nat}

/-- A turn of the loop swaps the two bytes and goes inwards. -/
theorem swapFrom_swap
    {s : Buffer size} {front inner rest : List Byte} {alpha c : Byte}
    (hbytes : s.bytes = front ++ (alpha :: inner ++ [c]) ++ rest)
    (fuel : Nat) :
    ∃ s', swapFrom (fuel + 1) front.length (front.length + inner.length + 1) s =
        swapFrom fuel (front.length + 1) (front.length + inner.length) s' ∧
      s'.bytes = (front ++ [c]) ++ inner ++ alpha :: rest := by
  have hfirst : s.bytes = front ++ alpha :: (inner ++ c :: rest) := by
    rw [hbytes]
    simp
  have hlast : s.bytes = (front ++ alpha :: inner) ++ c :: rest := by
    rw [hbytes]
    simp
  have hgamma : (front ++ alpha :: inner).length =
      front.length + inner.length + 1 := by
    rw [List.length_append, List.length_cons, Nat.add_assoc]
  obtain ⟨s₁, hstore₁, hbytes₁⟩ := Buffer.store_byte hfirst c
  have hlast₁ : s₁.bytes = (front ++ c :: inner) ++ c :: rest := by
    rw [hbytes₁]
    simp
  have hgamma₁ : (front ++ c :: inner).length =
      front.length + inner.length + 1 := by
    rw [List.length_append, List.length_cons, Nat.add_assoc]
  obtain ⟨s₂, hstore₂, hbytes₂⟩ := Buffer.store_byte hlast₁ alpha
  have hfetch := Buffer.fetch_ok hlast
  rw [hgamma] at hfetch
  rw [hgamma₁] at hstore₂
  refine ⟨s₂, ?_, ?_⟩
  · rw [swapFrom, if_pos (by omega), Buffer.fetch_ok hfirst, Result.ok_bind,
      hfetch, Result.ok_bind, hstore₁, Result.ok_bind, hstore₂, Result.ok_bind,
      Nat.add_sub_cancel]
  · rw [hbytes₂]
    simp

/-- The bytes between the two indices are turned around. -/
theorem swapFrom_ok
    {fuel : Nat} {s : Buffer size} {front middle rest : List Byte}
    (hbytes : s.bytes = front ++ middle ++ rest)
    (hfuel : middle.length < fuel) :
    ∃ s', swapFrom fuel front.length (front.length + middle.length - 1) s =
        .ok s' ∧
      s'.bytes = front ++ middle.reverse ++ rest := by
  induction fuel generalizing s front middle rest with
  | zero =>
      omega
  | succ fuel ih =>
      by_cases hlong : 2 ≤ middle.length
      · obtain ⟨alpha, tail, rfl⟩ : ∃ alpha tail, middle = alpha :: tail :=
          List.exists_cons_of_length_pos (by omega)
        obtain ⟨inner, c, rfl⟩ : ∃ inner c, tail = inner ++ [c] := by
          cases tail using List.reverseRecOn with
          | nil => simp at hlong
          | append_singleton inner c => exact ⟨inner, c, rfl⟩
        have hlength : (alpha :: (inner ++ [c])).length = inner.length + 2 := by
          simp
        obtain ⟨s₁, hswap, hbytes₁⟩ := swapFrom_swap hbytes fuel
        obtain ⟨s', hrun, hafter⟩ := ih hbytes₁ (by omega)
        have hbeta : (front ++ [c]).length = front.length + 1 := by
          simp
        have hgamma : front.length + 1 + inner.length - 1 =
            front.length + inner.length := by
          omega
        rw [hbeta, hgamma] at hrun
        refine ⟨s', ?_, ?_⟩
        · rw [hlength]
          exact hswap.trans hrun
        · rw [hafter]
          simp
      · rw [swapFrom, if_neg (by omega)]
        refine ⟨s, rfl, ?_⟩
        have hshort : middle.reverse = middle := by
          match middle with
          | [] => rfl
          | [c] => rfl
          | _ :: _ :: _ => simp at hlong
        rw [hbytes, hshort]

/-- The string of an array is turned around. -/
theorem back_ok
    {s : Buffer size} {t rest : List Byte}
    (hbytes : s.bytes = t ++ 0 :: rest)
    (ht : 0 ∉ t) :
    ∃ s', back s = .ok s' ∧ s'.bytes = t.reverse ++ 0 :: rest := by
  have hcstr : cstr s.bytes = .ok t := by
    rw [hbytes]
    exact cstr_append ht rest
  rw [back, hcstr, Result.ok_bind]
  have hwhole : s.bytes = [] ++ t ++ 0 :: rest := hbytes
  obtain ⟨s', hrun, hafter⟩ :=
    swapFrom_ok hwhole (Nat.lt_succ_self t.length)
  rw [List.length_nil, Nat.zero_add] at hrun
  exact ⟨s', hrun, by simpa using hafter⟩

end Reversal

section Digits

theorem figure_digit
    {d : Nat}
    (hd : d < 10) :
    figure (Int32.ofNat d) = digit d := by
  have hall : ∀ d : Fin 10, figure (Int32.ofNat d) = digit d := by
    decide
  exact hall ⟨d, hd⟩

variable {y : Int64} {n : Nat}

theorem remainder_ten
    (hy : y.toInt = n) :
    (y % (10 : Int32).toInt64).toInt32 = Int32.ofNat (n % 10) := by
  have hlt : n % 10 < 2 ^ 31 := by
    omega
  rw [← Int32.toInt_inj, Int64.toInt_toInt32, Int64.toInt_mod, hy,
    Int32.toInt_ofNat_of_lt hlt]
  have hten : (10 : Int32).toInt64.toInt = ((10 : Nat) : Int) := by
    decide
  rw [hten, Int.tmod_eq_emod_of_nonneg (by omega), ← Int.natCast_mod]
  exact Int.bmod_eq_of_le (by omega) (by omega)

theorem quotient_ten
    (hy : y.toInt = n) :
    (y / (10 : Int32).toInt64).toInt = (n / 10 : Nat) := by
  rw [Int64.toInt_div_of_ne_right _ _ (by decide), hy]
  have hten : (10 : Int32).toInt64.toInt = ((10 : Nat) : Int) := by
    decide
  rw [hten]
  rfl

theorem quotient_pos
    (hy : y.toInt = n) :
    0 < y / (10 : Int32).toInt64 ↔ n / 10 ≠ 0 := by
  have hzero : (0 : Int64).toInt = 0 := rfl
  rw [Int64.lt_iff_toInt_lt, quotient_ten hy, hzero]
  omega

variable {size : Nat}

/-- The loop writes the digits of a number that is not negative. -/
theorem pushFrom_ok
    {fuel : Nat} {s : Buffer size} {front old rest : List Byte}
    (hy : y.toInt = n)
    (hbytes : s.bytes = front ++ old ++ rest)
    (hold : old.length = (backwards n).length)
    (hfuel : old.length < fuel) :
    ∃ s', pushFrom 10 fuel y front.length s =
        .ok ((front ++ backwards n).length, s') ∧
      s'.bytes = front ++ backwards n ++ rest := by
  induction fuel generalizing y n s front old with
  | zero =>
      omega
  | succ fuel ih =>
      rw [backwards_step, List.length_cons] at hold
      obtain ⟨c, old, rfl⟩ := List.exists_cons_of_length_eq_add_one hold
      rw [List.length_cons, Nat.add_right_cancel_iff] at hold
      have hfirst : s.bytes = front ++ c :: (old ++ rest) := by
        rw [hbytes]
        simp
      obtain ⟨s₁, hstore, hbytes₁⟩ :=
        Buffer.store_byte hfirst (digit (n % 10))
      have hdigit := figure_digit (Nat.mod_lt n (y := 10) (by omega))
      rw [pushFrom, if_neg (by decide), remainder_ten hy, hdigit, hstore,
        Result.ok_bind, backwards_step n]
      by_cases hdiv : n / 10 = 0
      · rw [if_pos hdiv] at hold ⊢
        rw [if_neg (fun hpos => (quotient_pos hy).mp hpos hdiv)]
        obtain rfl := List.eq_nil_of_length_eq_zero hold
        refine ⟨s₁, by simp, ?_⟩
        rw [hbytes₁]
        simp
      · rw [if_neg hdiv] at hold ⊢
        rw [if_pos ((quotient_pos hy).mpr hdiv)]
        have hnext : s₁.bytes =
            (front ++ [digit (n % 10)]) ++ old ++ rest := by
          rw [hbytes₁]
          simp
        have hfuel' : old.length < fuel := by
          rw [List.length_cons] at hfuel
          omega
        obtain ⟨s', hrun, hafter⟩ :=
          ih (quotient_ten hy) hnext hold hfuel'
        rw [List.length_append, List.length_singleton] at hrun
        refine ⟨s', ?_, ?_⟩
        · rw [hrun]
          simp [Nat.add_comm]
        · rw [hafter]
          simp

end Digits

section Strings

variable {size : Nat}

/-- The sign and the NUL go behind what the loop has written. -/
theorem push_of_digits
    {y : Int64} {s s₁ : Buffer size} {t rest : List Byte} {c d : Byte}
    (hloop : pushFrom 10 (size + 1) (if y < 0 then -y else y) 0 s =
      .ok (t.length, s₁))
    (hbytes : s₁.bytes = t ++ c :: d :: rest)
    (ht : 0 ∉ t) :
    ∃ s', push y s 10 = .ok s' ∧
      cstr s'.bytes = .ok (t ++ if y < 0 then [minus] else []).reverse := by
  rw [push, hloop, Result.ok_bind]
  by_cases hneg : y < 0
  · simp only [if_pos hneg]
    obtain ⟨s₂, hsign, hbytes₂⟩ := Buffer.store_byte hbytes minus
    have hnext : s₂.bytes = (t ++ [minus]) ++ d :: rest := by
      rw [hbytes₂]
      simp
    obtain ⟨s₃, hnul, hbytes₃⟩ := Buffer.store_byte hnext 0
    rw [List.length_append, List.length_singleton] at hnul
    have hclean : 0 ∉ t ++ [minus] := by
      rw [List.mem_append, not_or]
      exact ⟨ht, by decide⟩
    obtain ⟨s', hback, hafter⟩ := back_ok hbytes₃ hclean
    refine ⟨s', by rw [hsign, Result.ok_bind, hnul]; exact hback, ?_⟩
    rw [hafter]
    exact cstr_append (fun h => hclean (List.mem_reverse.mp h)) rest
  · simp only [if_neg hneg, List.append_nil]
    obtain ⟨s₂, hnul, hbytes₂⟩ := Buffer.store_byte hbytes 0
    obtain ⟨s', hback, hafter⟩ := back_ok hbytes₂ ht
    refine ⟨s', by rw [hnul]; exact hback, ?_⟩
    rw [hafter]
    exact cstr_append (fun h => ht (List.mem_reverse.mp h)) (d :: rest)

/-- An array with room for the digits, a sign and a NUL gets the digits of a
number that has a negation. -/
theorem push_ok
    {y : Int64}
    (s : Buffer size)
    (hy : y ≠ Int64.minValue)
    (hfits : (backwards y.toInt.natAbs).length + 2 ≤ size) :
    ∃ s', push y s 10 = .ok s' ∧
      cstr s'.bytes = .ok
        (backwards y.toInt.natAbs ++
          if y.toInt < 0 then [minus] else []).reverse := by
  have hzero : (0 : Int64).toInt = 0 := rfl
  have hsign : y < 0 ↔ y.toInt < 0 := by
    rw [Int64.lt_iff_toInt_lt, hzero]
  have habs : (if y < 0 then -y else y).toInt = (y.toInt.natAbs : Nat) := by
    have hlow : y.toInt ≠ -2 ^ 63 := by
      intro hmin
      exact hy (Int64.toInt_inj.mp hmin)
    have hle := Int64.le_toInt y
    have hlt := Int64.toInt_lt y
    by_cases hneg : y < 0
    · have hneg' := hsign.mp hneg
      rw [if_pos hneg, Int64.toInt_neg, Int.bmod_eq_of_le (by omega) (by omega)]
      omega
    · have hneg' : ¬ y.toInt < 0 := fun h => hneg (hsign.mpr h)
      rw [if_neg hneg]
      omega
  have hsplit : s.bytes =
      [] ++ s.bytes.take (backwards y.toInt.natAbs).length ++
        s.bytes.drop (backwards y.toInt.natAbs).length := by
    rw [List.nil_append, List.take_append_drop]
  have hlength := s.length_bytes
  have hfuel : (s.bytes.take (backwards y.toInt.natAbs).length).length <
      size + 1 := by
    rw [List.length_take]
    omega
  obtain ⟨s₁, hloop, hbytes⟩ :=
    pushFrom_ok habs hsplit (by rw [List.length_take]; omega) hfuel
  rw [List.nil_append] at hloop hbytes
  obtain ⟨c, d, rest, hrest⟩ : ∃ c d rest,
      s.bytes.drop (backwards y.toInt.natAbs).length = c :: d :: rest := by
    match hdrop : s.bytes.drop (backwards y.toInt.natAbs).length with
    | c :: d :: rest =>
        exact ⟨c, d, rest, rfl⟩
    | [_] | [] =>
        have := congrArg List.length hdrop
        simp only [List.length_drop, List.length_cons, List.length_nil] at this
        omega
  rw [hrest] at hbytes
  have hclean : 0 ∉ backwards y.toInt.natAbs := by
    intro hmem
    exact absurd (isDigit_backwards hmem).1 (by decide)
  simp only [← hsign]
  exact push_of_digits hloop hbytes hclean

/-- The lowest number stays negative: its only digit is counted down from
`'0'`. -/
theorem push_minValue
    (s : Buffer size)
    (hfits : 3 ≤ size) :
    ∃ s', push Int64.minValue s 10 = .ok s' ∧
      cstr s'.bytes = .ok (literal "-(") := by
  obtain ⟨b, c, d, rest, hbytes⟩ : ∃ b c d rest,
      s.bytes = [] ++ b :: c :: d :: rest := by
    have hlength := s.length_bytes
    match hs : s.bytes with
    | b :: c :: d :: rest =>
        exact ⟨b, c, d, rest, rfl⟩
    | [_, _] | [_] | [] =>
        rw [hs] at hlength
        simp only [List.length_cons, List.length_nil] at hlength
        omega
  obtain ⟨s₁, hstore, hbytes₁⟩ :=
    Buffer.store_byte hbytes 40
  have hloop : pushFrom 10 (size + 1)
      (if Int64.minValue < 0 then -Int64.minValue else Int64.minValue) 0 s =
      .ok ([(40 : Byte)].length, s₁) := by
    have hfigure : figure
        ((if Int64.minValue < 0 then -Int64.minValue else Int64.minValue) %
          (10 : Int32).toInt64).toInt32 = 40 := by
      decide
    rw [pushFrom, if_neg (by decide), hfigure]
    rw [List.length_nil] at hstore
    rw [hstore, Result.ok_bind, if_neg (by decide)]
    rfl
  exact push_of_digits hloop (by simpa using hbytes₁) (by decide)

/-- What the lowest number becomes is no numeral. -/
theorem not_canonical_minValue
    (y : Int) :
    ¬ Canonical y (literal "-(") := by
  rintro ⟨front, hplain, -, hfront⟩
  have hmem : (40 : Byte) ∈ front := by
    split at hfront
    next =>
      obtain rfl := (List.cons.inj hfront).2
      decide
    next =>
      subst hfront
      decide
  exact absurd (hplain.digits 40 hmem).1 (by decide)

theorem minValue_not_printed
    (s : Buffer 130) :
    ¬ ∃ s' out, push Int64.minValue s 10 = .ok s' ∧ cstr s'.bytes = .ok out ∧
      Canonical Int64.minValue.toInt out ∧
      signedValue out = Int64.minValue.toInt ∧ out.length < 130 := by
  rintro ⟨s', out, hpush, hout, hcanonical, -⟩
  obtain ⟨s'', hpush', hout'⟩ := push_minValue s (by omega)
  rw [hpush] at hpush'
  cases hpush'
  rw [hout] at hout'
  cases hout'
  exact not_canonical_minValue _ hcanonical

/-- A number is printed as its numeral, in an array with room for it, if and only
if it is not the lowest one. -/
theorem push_canonical_iff
    (y : Int64) (s : Buffer 130) :
    (∃ s' out, push y s 10 = .ok s' ∧ cstr s'.bytes = .ok out ∧
      Canonical y.toInt out ∧ signedValue out = y.toInt ∧
      out.length < 130) ↔
      y ≠ Int64.minValue := by
  constructor
  · rintro hprinted rfl
    exact minValue_not_printed s hprinted
  · intro hy
    have hshort : (backwards y.toInt.natAbs).length ≤ 18 + 1 := by
      have hle := Int64.le_toInt y
      have hlt := Int64.toInt_lt y
      refine backwards_length ?_
      omega
    obtain ⟨s', hpush, hout⟩ := push_ok s hy (by omega)
    have hcanonical := canonical_backwards y.toInt
    refine ⟨s', _, hpush, hout, hcanonical, hcanonical.signedValue_eq, ?_⟩
    rw [List.length_reverse, List.length_append]
    split
    · rw [List.length_singleton]
      omega
    · rw [List.length_nil]
      omega

/-- `LONG_MIN` is printed as `-(`. -/
theorem push_minValue_not_canonical :
    ¬ ∃ s' out,
      push Int64.minValue ⟨List.replicate 130 0, List.length_replicate⟩ 10 =
        .ok s' ∧
      cstr s'.bytes = .ok out ∧ Canonical Int64.minValue.toInt out ∧
      signedValue out = Int64.minValue.toInt ∧ out.length < 130 :=
  minValue_not_printed _

end Strings

end Shell
end PastWork
