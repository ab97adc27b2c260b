import Mathlib.Data.List.TakeWhile
import PastWork.Library.Faults

/-!
# Byte arrays of C programs

A `char` array is a list of bytes of a fixed length.  A store that does not fit
and the search for a NUL that is not there stop at a fault.  The rules say what a
`strcpy` leaves in its destination.
-/

namespace PastWork

abbrev Byte := UInt8

/-- A C string without its terminating NUL. -/
abbrev CStr := List Byte

/-- `char a[size]` -/
structure Buffer (size : Nat) where
  bytes : List Byte
  length_bytes : bytes.length = size

/-- The C string at the start of some bytes; they have to contain a NUL. -/
def cstr (bytes : List Byte) : Result CStr :=
  if 0 ∈ bytes then .ok (bytes.takeWhile (fun c => c ≠ 0))
  else .error .outOfBounds

section CStrings

variable {bytes s : List Byte}

theorem cstr_noNul
    (h : cstr bytes = .ok s) :
    0 ∉ s := by
  unfold cstr at h
  split at h
  next =>
      cases h
      intro hmem
      simpa using List.mem_takeWhile_imp hmem
  next =>
      cases h

/-- A string ends at the first NUL. -/
theorem cstr_append
    (hs : 0 ∉ s) (rest : List Byte) :
    cstr (s ++ 0 :: rest) = .ok s := by
  unfold cstr
  rw [if_pos (by simp), List.takeWhile_append_of_pos]
  · simp
  · intro c hc
    have hne : c ≠ 0 := fun heq => hs (heq ▸ hc)
    simpa using hne

/-- The string of some bytes with a NUL behind them. -/
def stored (bytes : List Byte) : CStr :=
  bytes.takeWhile (fun c => c ≠ 0)

/-- What has been terminated is a string up to its first NUL. -/
theorem cstr_stored
    (bytes : List Byte) :
    cstr (bytes ++ [0]) = .ok (stored bytes) := by
  rw [cstr, if_pos (by simp), stored]
  induction bytes with
  | nil =>
      rfl
  | cons c bytes ih =>
      by_cases hc : c = 0
      · simp [hc]
      · simpa [hc] using ih

theorem stored_noNul
    (bytes : List Byte) :
    0 ∉ stored bytes := by
  intro hmem
  simpa using List.mem_takeWhile_imp hmem

theorem stored_front
    (bytes : List Byte) :
    stored bytes <+: bytes :=
  List.takeWhile_prefix _

/-- What stands behind counts only by its own string. -/
theorem stored_append_congr
    {t t' : List Byte}
    (h : stored t = stored t') (bytes : List Byte) :
    stored (bytes ++ t) = stored (bytes ++ t') := by
  unfold stored at h ⊢
  rw [List.takeWhile_append, List.takeWhile_append, h]

/-- What stands behind a NUL does not count. -/
theorem stored_append_nul
    (bytes t : List Byte) :
    stored (bytes ++ 0 :: t) = stored bytes := by
  have hnul : stored (0 :: t) = stored [] := by
    simp [stored]
  rw [stored_append_congr hnul, List.append_nil]

theorem cstr_eq_stored
    (h : 0 ∈ bytes) :
    cstr bytes = .ok (stored bytes) := by
  rw [cstr, if_pos h, stored]

/-- Bytes with a NUL start with a string. -/
theorem cstr_of_mem
    (h : 0 ∈ bytes) :
    ∃ s rest, cstr bytes = .ok s ∧ bytes = s ++ 0 :: rest := by
  obtain ⟨s, rest, rfl, hs⟩ := List.eq_append_cons_of_mem h
  exact ⟨s, rest, cstr_append hs rest, rfl⟩

/-- Bytes are their string, or the string and a NUL in front of the rest. -/
theorem stored_cases
    (bytes : List Byte) :
    stored bytes = bytes ∨ ∃ rest, bytes = stored bytes ++ 0 :: rest := by
  by_cases hmem : 0 ∈ bytes
  · obtain ⟨s, rest, hs, hbytes⟩ := cstr_of_mem hmem
    rw [cstr, if_pos hmem] at hs
    have hstored : stored bytes = s := Except.ok.inj hs
    exact .inr ⟨rest, by rw [hstored]; exact hbytes⟩
  · refine .inl (List.takeWhile_eq_self_iff.mpr ?_)
    intro c hc
    have hne : c ≠ 0 := fun heq => hmem (heq ▸ hc)
    simpa using hne

/-- A string stands in front of a NUL. -/
theorem cstr_split
    (h : cstr bytes = .ok s) :
    ∃ rest, bytes = s ++ 0 :: rest := by
  by_cases hmem : 0 ∈ bytes
  · obtain ⟨t, rest, ht, hbytes⟩ := cstr_of_mem hmem
    rw [h] at ht
    cases ht
    exact ⟨rest, hbytes⟩
  · rw [cstr, if_neg hmem] at h
    cases h

end CStrings

namespace Buffer

variable {size : Nat}

/-- Write some bytes from an offset on. -/
def store
    (a : Buffer size) (offset : Nat) (data : List Byte) :
    Result (Buffer size) :=
  if h : offset + data.length ≤ size then
    .ok
      { bytes :=
          a.bytes.take offset ++ data ++ a.bytes.drop (offset + data.length)
        length_bytes := by
          have := a.length_bytes
          simp only [List.length_append, List.length_take, List.length_drop]
          omega }
  else
    .error .outOfBounds

section Stores

variable {offset : Nat} {data : List Byte}

theorem store_ok
    (a : Buffer size)
    (h : offset + data.length ≤ size) :
    ∃ a', a.store offset data = .ok a' ∧
      a'.bytes =
        a.bytes.take offset ++ data ++ a.bytes.drop (offset + data.length) := by
  unfold store
  rw [dif_pos h]
  exact ⟨_, rfl, rfl⟩

/-- One byte is stored in the place of another. -/
theorem store_byte
    {a : Buffer size} {front rest : List Byte} {old : Byte}
    (hbytes : a.bytes = front ++ old :: rest)
    (new : Byte) :
    ∃ a', a.store front.length [new] = .ok a' ∧
      a'.bytes = front ++ new :: rest := by
  have hlength := a.length_bytes
  rw [hbytes, List.length_append, List.length_cons] at hlength
  have hfit : front.length + [new].length ≤ size := by
    rw [List.length_singleton]
    omega
  obtain ⟨a', hstore, hafter⟩ := a.store_ok hfit
  refine ⟨a', hstore, ?_⟩
  rw [hafter, hbytes, List.take_left, List.length_singleton, ← List.drop_drop,
    List.drop_left, List.append_assoc]
  rfl

theorem store_outOfBounds
    (a : Buffer size)
    (h : size < offset + data.length) :
    a.store offset data = .error .outOfBounds := by
  unfold store
  rw [dif_neg (Nat.not_le.mpr h)]

end Stores

/-- Read one byte. -/
def fetch (a : Buffer size) (offset : Nat) : Result Byte :=
  match a.bytes[offset]? with
  | some c => .ok c
  | none => .error .outOfBounds

theorem fetch_ok
    {a : Buffer size} {front rest : List Byte} {c : Byte}
    (hbytes : a.bytes = front ++ c :: rest) :
    a.fetch front.length = .ok c := by
  unfold fetch
  rw [hbytes, List.getElem?_append_right le_rfl]
  simp

/-- Read some bytes from an offset on. -/
def load (a : Buffer size) (offset length : Nat) : Result (List Byte) :=
  if offset + length ≤ size then
    .ok ((a.bytes.drop offset).take length)
  else
    .error .outOfBounds

theorem load_ok
    {offset length : Nat}
    (a : Buffer size)
    (h : offset + length ≤ size) :
    a.load offset length = .ok ((a.bytes.drop offset).take length) := by
  rw [load, if_pos h]

/-- `strcpy(a + offset, s)` -/
def strcpy (a : Buffer size) (offset : Nat) (s : CStr) :
    Result (Buffer size) :=
  a.store offset (s ++ [0])

section Copies

variable {a a' : Buffer size} {offset : Nat} {s : CStr}

theorem strcpy_ok
    (a : Buffer size)
    (h : offset + s.length < size) :
    ∃ a', a.strcpy offset s = .ok a' := by
  have hfit : offset + (s ++ [0]).length ≤ size := by
    rw [List.length_append, List.length_singleton]
    omega
  obtain ⟨a', ha', _⟩ := a.store_ok hfit
  exact ⟨a', ha'⟩

/-- The bytes before the offset stay, then comes the string with its NUL. -/
theorem strcpy_bytes
    (h : a.strcpy offset s = .ok a') :
    offset + s.length < size ∧
      ∃ rest, a'.bytes = a.bytes.take offset ++ s ++ 0 :: rest := by
  unfold strcpy store at h
  split at h
  next hfit =>
      cases h
      rw [List.length_append, List.length_singleton] at hfit
      refine ⟨by omega, a.bytes.drop (offset + (s ++ [0]).length), ?_⟩
      simp
  next =>
      cases h

/-- What has been copied to the start is the string of the array. -/
theorem cstr_strcpy
    (h : a.strcpy 0 s = .ok a')
    (hs : 0 ∉ s) :
    cstr a'.bytes = .ok s := by
  obtain ⟨_, rest, hbytes⟩ := strcpy_bytes h
  rw [hbytes, List.take_zero, List.nil_append]
  exact cstr_append hs rest

/-- A string that does not fit is not copied. -/
theorem strcpy_outOfBounds
    (a : Buffer size)
    (h : size ≤ offset + s.length) :
    a.strcpy offset s = .error .outOfBounds := by
  refine a.store_outOfBounds ?_
  rw [List.length_append, List.length_singleton]
  omega

end Copies

/-- A `sprintf` for each of the strings, at a moving offset. -/
def strcpyAll : Buffer size → Nat → List CStr → Result (Buffer size)
  | a, _, [] => .ok a
  | a, offset, s :: ss => do
      let a ← a.strcpy offset s
      strcpyAll a (offset + s.length) ss

section Printing

variable {a a' : Buffer size} {offset : Nat} {s : CStr} {ss : List CStr}

/-- All strings are printed when the last one fits. -/
theorem strcpyAll_ok
    (a : Buffer size)
    (h : offset + ss.flatten.length < size) :
    ∃ a', a.strcpyAll offset ss = .ok a' := by
  induction ss generalizing a offset with
  | nil =>
      exact ⟨a, rfl⟩
  | cons s ss ih =>
      rw [List.flatten_cons, List.length_append] at h
      have hfirst : offset + s.length < size := by
        omega
      obtain ⟨m, hm⟩ := strcpy_ok a hfirst
      rw [strcpyAll, hm, Result.ok_bind]
      exact ih m (by omega)

/-- Otherwise one of them is the first that does not fit. -/
theorem strcpyAll_outOfBounds
    (a : Buffer size)
    (hne : ss ≠ [])
    (h : size ≤ offset + ss.flatten.length) :
    a.strcpyAll offset ss = .error .outOfBounds := by
  induction ss generalizing a offset with
  | nil =>
      exact absurd rfl hne
  | cons s ss ih =>
      rw [List.flatten_cons, List.length_append] at h
      rw [strcpyAll]
      by_cases hfirst : offset + s.length < size
      · obtain ⟨m, hm⟩ := strcpy_ok a hfirst
        have hrest : ss ≠ [] := by
          rintro rfl
          simp only [List.flatten_nil, List.length_nil] at h
          omega
        rw [hm, Result.ok_bind]
        exact ih m hrest (by omega)
      · rw [strcpy_outOfBounds a (by omega)]
        rfl

/-- The strings stand one after another, with a NUL behind the last one. -/
theorem strcpyAll_bytes
    (hne : ss ≠ [])
    (h : a.strcpyAll offset ss = .ok a') :
    ∃ rest, a'.bytes = a.bytes.take offset ++ ss.flatten ++ 0 :: rest := by
  induction ss generalizing a offset with
  | nil =>
      exact absurd rfl hne
  | cons s ss ih =>
      rw [strcpyAll] at h
      obtain ⟨m, hm, hrest⟩ := Result.bind_eq_ok h
      obtain ⟨hfit, tail, hbytes⟩ := strcpy_bytes hm
      cases ss with
      | nil =>
          cases hrest
          exact ⟨tail, by simpa using hbytes⟩
      | cons t ss =>
          obtain ⟨rest, hrest⟩ := ih (by simp) hrest
          have hlength := a.length_bytes
          have htake : m.bytes.take (offset + s.length) =
              a.bytes.take offset ++ s := by
            rw [hbytes]
            refine List.take_left' ?_
            rw [List.length_append, List.length_take]
            omega
          refine ⟨rest, ?_⟩
          rw [hrest, htake]
          simp only [List.flatten_cons, List.append_assoc]

end Printing

/-- `sprintf(a + strlen(a), "%s", s)` -/
def strcat (a : Buffer size) (s : CStr) : Result (Buffer size) := do
  let t ← cstr a.bytes
  a.strcpy t.length s

/-- Strings that are appended one after another are printed at a moving
offset. -/
theorem foldlM_strcat
    {a : Buffer size} {t : CStr} {ss : List CStr}
    (ht : cstr a.bytes = .ok t)
    (hss : ∀ s ∈ ss, 0 ∉ s) :
    ss.foldlM strcat a = a.strcpyAll t.length ss := by
  induction ss generalizing a t with
  | nil =>
      rfl
  | cons s ss ih =>
      rw [List.foldlM_cons, strcat, ht, Result.ok_bind, strcpyAll]
      cases hcopy : a.strcpy t.length s with
      | error e =>
          rfl
      | ok m =>
          obtain ⟨_, rest, hbytes⟩ := strcpy_bytes hcopy
          obtain ⟨tail, hbefore⟩ := cstr_split ht
          have hnul : 0 ∉ t ++ s := by
            simp [cstr_noNul ht, hss s List.mem_cons_self]
          have hnext : cstr m.bytes = .ok (t ++ s) := by
            rw [hbytes, hbefore, List.take_left]
            exact cstr_append hnul rest
          have htail := ih hnext (fun u hu => hss u (List.mem_cons_of_mem s hu))
          rw [List.length_append] at htail
          exact htail

end Buffer

end PastWork
