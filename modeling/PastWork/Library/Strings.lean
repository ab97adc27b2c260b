import PastWork.Library.Buffers

/-!
# Searching C strings

`strstr` gives the offset of the first occurrence.  For a needle of one byte it
splits the string at the first such byte.
-/

namespace PastWork

/-- The bytes of a literal of ASCII characters. -/
def literal (s : String) : CStr :=
  s.toList.map (fun c => UInt8.ofNat c.toNat)

/-- `strstr(s, needle)`, as an offset into `s`. -/
def strstr : CStr → CStr → Option Nat
  | [], needle => if needle = [] then some 0 else none
  | c :: s, needle =>
      if needle <+: c :: s then some 0
      else (strstr s needle).map (fun i => i + 1)

/-- `strcpy` into an array of `size` bytes that holds the string from then on. -/
def copied (size : Nat) (s : CStr) : Result CStr :=
  if s.length < size then .ok s else .error .outOfBounds

section Searching

variable {s needle rest : CStr} {c : Byte} {i : Nat}

/-- What is found at the very start is a prefix. -/
theorem strstr_eq_zero :
    strstr s needle = some 0 ↔ needle <+: s := by
  cases s with
  | nil =>
      simp [strstr, List.prefix_nil]
  | cons c s =>
      rw [strstr]
      split
      next h => simp [h]
      next h => simp [h]

theorem strstr_cons_self :
    strstr (c :: s) [c] = some 0 := by
  simp [strstr]

theorem strstr_cons_ne
    {d : Byte}
    (hne : d ≠ c) :
    strstr (d :: s) [c] = (strstr s [c]).map (fun i => i + 1) := by
  rw [strstr, if_neg]
  simpa using hne.symm

/-- A byte is found at its first occurrence. -/
theorem strstr_byte_append
    (hs : c ∉ s) :
    strstr (s ++ c :: rest) [c] = some s.length := by
  induction s with
  | nil =>
      exact strstr_cons_self
  | cons d s ih =>
      rw [List.mem_cons, not_or] at hs
      rw [List.cons_append, strstr_cons_ne (Ne.symm hs.1), ih hs.2]
      rfl

/-- A byte that does not occur is not found. -/
theorem strstr_byte_none
    (hs : c ∉ s) :
    strstr s [c] = none := by
  induction s with
  | nil =>
      rfl
  | cons d s ih =>
      rw [List.mem_cons, not_or] at hs
      rw [strstr_cons_ne (Ne.symm hs.1), ih hs.2]
      rfl

/-- The string splits at the first occurrence of a byte. -/
theorem strstr_byte
    (h : strstr s [c] = some i) :
    ∃ before after, c ∉ before ∧ s = before ++ c :: after ∧
      i = before.length := by
  by_cases hmem : c ∈ s
  · obtain ⟨before, after, rfl, hbefore⟩ := List.eq_append_cons_of_mem hmem
    rw [strstr_byte_append hbefore] at h
    cases h
    exact ⟨before, after, hbefore, rfl, rfl⟩
  · rw [strstr_byte_none hmem] at h
    cases h

/-- There is one way to split a string at the first occurrence of a byte. -/
theorem split_unique
    {t rest' : CStr}
    (hs : c ∉ s) (ht : c ∉ t)
    (h : s ++ c :: rest = t ++ c :: rest') :
    s = t ∧ rest = rest' := by
  have hlength : some s.length = some t.length := by
    rw [← strstr_byte_append hs, h, strstr_byte_append ht]
  obtain ⟨heq, hrest⟩ := List.append_inj h (Option.some_inj.mp hlength)
  exact ⟨heq, (List.cons.inj hrest).2⟩

/-- The first occurrence of a byte, or none. -/
theorem strstr_cases
    (s : CStr) (c : Byte) :
    (c ∉ s ∧ strstr s [c] = none) ∨
      ∃ before after, c ∉ before ∧ s = before ++ c :: after ∧
        strstr s [c] = some before.length := by
  by_cases hmem : c ∈ s
  · obtain ⟨before, after, rfl, hbefore⟩ := List.eq_append_cons_of_mem hmem
    exact .inr ⟨before, after, hbefore, rfl, strstr_byte_append hbefore⟩
  · exact .inl ⟨hmem, strstr_byte_none hmem⟩

/-- What is found stands where it is found. -/
theorem strstr_split
    (h : strstr s needle = some i) :
    s = s.take i ++ needle ++ s.drop (i + needle.length) := by
  induction s generalizing i with
  | nil =>
      rw [strstr] at h
      split at h
      next hneedle => simp [hneedle]
      next => cases h
  | cons c s ih =>
      rw [strstr] at h
      split at h
      next hat =>
          cases h
          obtain ⟨rest, hrest⟩ := hat
          rw [← hrest]
          simp
      next =>
          obtain ⟨j, hj, rfl⟩ := Option.map_eq_some_iff.mp h
          have htail := ih hj
          rw [Nat.add_right_comm, List.take_succ_cons, List.drop_succ_cons,
            List.cons_append, List.cons_append, ← htail]

/-- In front of the first occurrence there is none. -/
theorem strstr_take
    (hne : needle ≠ [])
    (h : strstr s needle = some i) :
    strstr (s.take i) needle = none := by
  induction s generalizing i with
  | nil =>
      rw [List.take_nil, strstr, if_neg hne]
  | cons c s ih =>
      rw [strstr] at h
      split at h
      next =>
          cases h
          rw [List.take_zero, strstr, if_neg hne]
      next hat =>
          obtain ⟨j, hj, rfl⟩ := Option.map_eq_some_iff.mp h
          have hshort : ¬ needle <+: c :: s.take j := by
            intro htake
            refine hat (htake.trans ?_)
            exact List.cons_prefix_cons.mpr ⟨rfl, List.take_prefix j s⟩
          rw [List.take_succ_cons, strstr, if_neg hshort, ih hj]
          rfl

theorem copied_ok
    {size : Nat}
    (h : s.length < size) :
    copied size s = .ok s :=
  if_pos h

theorem copied_outOfBounds
    {size : Nat}
    (h : size ≤ s.length) :
    copied size s = .error .outOfBounds :=
  if_neg (Nat.not_lt.mpr h)

theorem copied_eq_ok
    {size : Nat} {t : CStr}
    (h : copied size s = .ok t) :
    t = s := by
  unfold copied at h
  split at h
  next => exact (Except.ok.inj h).symm
  next => cases h

end Searching

end PastWork
