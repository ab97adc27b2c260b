import Mathlib.Data.List.FinRange
import Mathlib.Logic.Function.Basic
import PastWork.Library.Buffers
import PastWork.Library.Recency

/-!
# The cache of the proxy

The ten cache lines of `proxy.c` with `usedcnt` and `gtime`, and what `reader`
and `writer` do between their semaphore operations.  A name is read as a C string
only, and is given without the bytes behind its NUL; of a payload all bytes
count, since a hit writes all of them.
-/

namespace PastWork
namespace Proxy

abbrev MAXLINE : Nat := 8192
abbrev MAX_OBJECT_SIZE : Nat := 102400
abbrev NUM_CACHE_LINE : Nat := 10

/-- `cache_line`; the timestamp is an `unsigned long`. -/
structure CacheLine where
  name : CStr
  payload : Buffer MAX_OBJECT_SIZE
  timestamp : Nat

/-- The globals `cache`, `usedcnt` and `gtime`. -/
structure Cache where
  cache : Fin NUM_CACHE_LINE → CacheLine
  usedcnt : Nat
  gtime : Nat
  usedcnt_le : usedcnt ≤ NUM_CACHE_LINE

/-- The lines keep what `Malloc` has returned, but for the timestamps. -/
def initializeCache (memory : Fin NUM_CACHE_LINE → CacheLine) : Cache where
  cache := fun i => { memory i with timestamp := 2 ^ 64 - 1 }
  usedcnt := 0
  gtime := 0
  usedcnt_le := Nat.zero_le _

namespace Cache

/-- The scan of `reader`: the first line in use with this name. -/
def reader (c : Cache) (uri : CStr) : Option (Fin NUM_CACHE_LINE) :=
  (List.finRange NUM_CACHE_LINE).find?
    (fun i => i < c.usedcnt && (c.cache i).name = uri)

/-- `cache[i] = line; gtime++` -/
def put
    (c : Cache) (i : Fin NUM_CACHE_LINE) (line : CacheLine)
    (usedcnt : Nat) (h : usedcnt ≤ NUM_CACHE_LINE) :
    Cache where
  cache := Function.update c.cache i line
  usedcnt := usedcnt
  gtime := (c.gtime + 1) % 2 ^ 64
  usedcnt_le := h

section Put

variable {c : Cache} {i j : Fin NUM_CACHE_LINE} {line : CacheLine}
  {usedcnt : Nat} {h : usedcnt ≤ NUM_CACHE_LINE}

@[simp] theorem put_same :
    (c.put i line usedcnt h).cache i = line :=
  Function.update_self _ _ _

@[simp] theorem put_ne
    (hne : j ≠ i) :
    (c.put i line usedcnt h).cache j = c.cache j :=
  Function.update_of_ne hne _ _

end Put

/-- `lru_i` after the loop that looks for the least timestamp. -/
def lru (c : Cache) : Fin NUM_CACHE_LINE :=
  ((List.finRange NUM_CACHE_LINE).tail.foldl
    (Recency.older (fun i => (c.cache i).timestamp))
    (0, (c.cache 0).timestamp)).1

/-- The two `strcpy`s to a line. -/
def copy
    (uri : CStr) (buf : Buffer MAX_OBJECT_SIZE) (line : CacheLine) :
    Result CacheLine :=
  if uri.length < MAXLINE then do
    let s ← cstr buf.bytes
    let payload ← line.payload.strcpy 0 s
    .ok { line with name := uri, payload := payload }
  else
    .error .outOfBounds

/-- `writer` between `P(&w)` and `V(&w)`; `cache_i` is `none` for -1. -/
def writer
    (c : Cache) (uri : CStr) (buf : Buffer MAX_OBJECT_SIZE)
    (cache_i : Option (Fin NUM_CACHE_LINE)) :
    Result Cache :=
  match cache_i with
  | some i =>
      .ok (c.put i { c.cache i with timestamp := c.gtime } c.usedcnt
        c.usedcnt_le)
  | none =>
      if h : c.usedcnt < NUM_CACHE_LINE then do
        let line ← copy uri buf (c.cache ⟨c.usedcnt, h⟩)
        .ok (c.put ⟨c.usedcnt, h⟩ { line with timestamp := c.gtime }
          (c.usedcnt + 1) h)
      else do
        let line ← copy uri buf (c.cache c.lru)
        .ok (c.put c.lru { line with timestamp := c.gtime } c.usedcnt
          c.usedcnt_le)

/-- The line that `writer` fills. -/
def victim (c : Cache) : Fin NUM_CACHE_LINE :=
  if h : c.usedcnt < NUM_CACHE_LINE then ⟨c.usedcnt, h⟩ else c.lru

section Specifications

variable {c c' : Cache} {uri : CStr} {buf : Buffer MAX_OBJECT_SIZE}
  {line line' : CacheLine} {i : Fin NUM_CACHE_LINE}

theorem reader_eq_some
    (h : c.reader uri = some i) :
    i < c.usedcnt ∧ (c.cache i).name = uri := by
  simpa using List.find?_some h

theorem reader_eq_none
    (h : c.reader uri = none)
    (hi : i < c.usedcnt) :
    (c.cache i).name ≠ uri := by
  have := List.find?_eq_none.mp h i (List.mem_finRange i)
  simpa [hi] using this

/-- The line that is found is the first one. -/
theorem reader_first
    {j : Fin NUM_CACHE_LINE}
    (h : c.reader uri = some i)
    (hj : j < i)
    (hused : j < c.usedcnt) :
    (c.cache j).name ≠ uri := by
  obtain ⟨_, front, rest, hsplit, hfront⟩ :=
    List.find?_eq_some_iff_append.mp h
  have hsorted := List.pairwise_lt_finRange NUM_CACHE_LINE
  have hmem := List.mem_finRange j
  rw [hsplit] at hsorted hmem
  have hin : j ∈ front := by
    rcases List.mem_append.mp hmem with hmem | hmem
    · exact hmem
    · have hle : i ≤ j := by
        rcases List.mem_cons.mp hmem with rfl | hmem
        · exact le_rfl
        · exact (List.rel_of_pairwise_cons
            (List.pairwise_append.mp hsorted).2.1 hmem).le
      exact absurd hj hle.not_gt
  simpa [hused] using hfront j hin

theorem reader_eq_some_of_first
    (hi : i < c.usedcnt)
    (hname : (c.cache i).name = uri)
    (hfirst : ∀ j : Fin NUM_CACHE_LINE, j < i → j < c.usedcnt →
      (c.cache j).name ≠ uri) :
    c.reader uri = some i := by
  cases h : c.reader uri with
  | none => exact absurd hname (reader_eq_none h hi)
  | some j =>
      obtain ⟨hj, hnamej⟩ := reader_eq_some h
      rcases lt_trichotomy i j with hlt | rfl | hgt
      · exact absurd hname (reader_first h hlt hi)
      · rfl
      · exact absurd hnamej (hfirst j hgt hj)

theorem reader_eq_none_of_all
    (h : ∀ j : Fin NUM_CACHE_LINE, j < c.usedcnt → (c.cache j).name ≠ uri) :
    c.reader uri = none := by
  cases hread : c.reader uri with
  | none => rfl
  | some j =>
      obtain ⟨hj, hname⟩ := reader_eq_some hread
      exact absurd hname (h j hj)

/-- A name in use is found. -/
theorem reader_of_name
    (hi : i < c.usedcnt) :
    ∃ j, c.reader (c.cache i).name = some j := by
  cases h : c.reader (c.cache i).name with
  | none => exact absurd rfl (reader_eq_none h hi)
  | some j => exact ⟨j, rfl⟩

/-- No timestamp is less than that of the line that the loop has found. -/
theorem lru_le
    (c : Cache) (i : Fin NUM_CACHE_LINE) :
    (c.cache c.lru).timestamp ≤ (c.cache i).timestamp := by
  have hall : (0 : Fin NUM_CACHE_LINE) :: (List.finRange NUM_CACHE_LINE).tail =
      List.finRange NUM_CACHE_LINE := by
    decide
  have hscan : ∀ j ∈ (0 : Fin NUM_CACHE_LINE) ::
      (List.finRange NUM_CACHE_LINE).tail,
      (c.cache c.lru).timestamp ≤ (c.cache j).timestamp :=
    (Recency.foldl_older (fun i => (c.cache i).timestamp) _ 0).2
  rw [hall] at hscan
  exact hscan i (List.mem_finRange i)

theorem copy_spec
    (h : copy uri buf line = .ok line') :
    line'.name = uri ∧ ∃ s, cstr buf.bytes = .ok s ∧
      cstr line'.payload.bytes = .ok s := by
  unfold copy at h
  split at h
  next =>
      obtain ⟨s, hs, h⟩ := Result.bind_eq_ok h
      obtain ⟨payload, hpayload, h⟩ := Result.bind_eq_ok h
      cases h
      exact ⟨rfl, s, hs, Buffer.cstr_strcpy hpayload (cstr_noNul hs)⟩
  next =>
      cases h

/-- A string that ends inside its array can be copied to a line. -/
theorem copy_ok
    (huri : uri.length < MAXLINE)
    (hbuf : 0 ∈ buf.bytes)
    (line : CacheLine) :
    ∃ line', copy uri buf line = .ok line' := by
  obtain ⟨s, rest, hs, hbytes⟩ := cstr_of_mem hbuf
  have hlength : s.length < MAX_OBJECT_SIZE := by
    have := buf.length_bytes
    rw [hbytes, List.length_append, List.length_cons] at this
    omega
  have hfit : 0 + s.length < MAX_OBJECT_SIZE := by
    omega
  obtain ⟨payload, hpayload⟩ := Buffer.strcpy_ok line.payload hfit
  refine ⟨{ line with name := uri, payload := payload }, ?_⟩
  rw [copy, if_pos huri, hs, Result.ok_bind, hpayload]
  rfl

/-- A miss that returns fills the victim and counts it. -/
theorem writer_none
    (h : c.writer uri buf none = .ok c') :
    ∃ line, copy uri buf (c.cache c.victim) = .ok line ∧
      c' = c.put c.victim { line with timestamp := c.gtime }
        (min (c.usedcnt + 1) NUM_CACHE_LINE) (Nat.min_le_right _ _) := by
  have hle := c.usedcnt_le
  unfold writer at h
  simp only at h
  split at h
  next hlt =>
      obtain ⟨line, hline, h⟩ := Result.bind_eq_ok h
      cases h
      have hv : c.victim = ⟨c.usedcnt, hlt⟩ := dif_pos hlt
      refine ⟨line, hv ▸ hline, ?_⟩
      simp only [hv, Nat.min_eq_left hlt]
  next hfull =>
      obtain ⟨line, hline, h⟩ := Result.bind_eq_ok h
      cases h
      have hv : c.victim = c.lru := dif_neg hfull
      have hmin : min (c.usedcnt + 1) NUM_CACHE_LINE = c.usedcnt := by
        omega
      refine ⟨line, hv ▸ hline, ?_⟩
      simp only [hv, hmin]

/-- The line that has been filled is in use. -/
theorem victim_lt
    (c : Cache) :
    c.victim < min (c.usedcnt + 1) NUM_CACHE_LINE := by
  unfold victim
  split
  next hlt => exact lt_min (Nat.lt_succ_self _) hlt
  next hfull =>
      have := c.lru.isLt
      omega

/-- The other lines in use were in use before. -/
theorem lt_of_ne_victim
    (hi : i < min (c.usedcnt + 1) NUM_CACHE_LINE)
    (hne : i ≠ c.victim) :
    i < c.usedcnt := by
  unfold victim at hne
  split at hne
  next hlt =>
      have hother : (i : Nat) ≠ c.usedcnt := fun heq => hne (Fin.ext heq)
      omega
  next hfull => omega

/-- `writer` returns when it can copy. -/
theorem writer_none_ok
    (huri : uri.length < MAXLINE)
    (hbuf : 0 ∈ buf.bytes)
    (c : Cache) :
    ∃ c', c.writer uri buf none = .ok c' := by
  unfold writer
  simp only
  split
  next hlt =>
      obtain ⟨line, hline⟩ := copy_ok huri hbuf (c.cache ⟨c.usedcnt, hlt⟩)
      rw [hline]
      exact ⟨_, rfl⟩
  next =>
      obtain ⟨line, hline⟩ := copy_ok huri hbuf (c.cache c.lru)
      rw [hline]
      exact ⟨_, rfl⟩

end Specifications

end Cache

end Proxy
end PastWork
