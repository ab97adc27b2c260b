import Mathlib.Logic.Function.Basic
import PastWork.Library.Strings
import PastWork.Library.Words

/-!
# The command line

`parseline` and what `eval` does before it calls it.  Pointers are offsets into
the array that they point to.  The tokenizer puts a NUL where a word ends, so that
the words of a line are the C strings at the entries of `argv`; the words
themselves are those of `Library/Words`.
-/

namespace PastWork
namespace Shell

open Words

abbrev MAXLINE : Nat := 1024
abbrev MAXARGS : Nat := 128

abbrev space : Byte := 32

/-- `'` -/
abbrev quote : Byte := 39

/-- `&` -/
abbrev ampersand : Byte := 38

abbrev newline : Byte := 10

/-- `char *argv[MAXARGS]`: offsets into `array`, and `none` for `NULL`. -/
abbrev Argv := Nat → Option Nat

def Argv.store (argv : Argv) (i : Nat) (p : Option Nat) : Result Argv :=
  if i < MAXARGS then .ok (Function.update argv i p) else .error .outOfBounds

/-- `a[strlen(a) - 1] = ' '` -/
def replaceLast (a : Buffer MAXLINE) : Result (Buffer MAXLINE) := do
  let s ← cstr a.bytes
  -- the index of an empty string is -1
  if s = [] then .error .outOfBounds
  else a.store (s.length - 1) [space]

/-- `while (*buf && (*buf == ' ')) buf++;`, as the number of steps. -/
def skipSpaces : List Byte → Result Nat
  | [] => .error .outOfBounds
  | c :: bytes =>
      if c ≠ 0 ∧ c = space then do
        let n ← skipSpaces bytes
        .ok (n + 1)
      else
        .ok 0

/-- The search for the next word, from `buf` on: `buf` and `delim` after it. -/
def scan (array : Buffer MAXLINE) (buf : Nat) : Result (Nat × Option Nat) := do
  let n ← skipSpaces (array.bytes.drop buf)
  let buf := buf + n
  let s ← cstr (array.bytes.drop buf)
  if s.head? = some quote then do
    let buf := buf + 1
    let s ← cstr (array.bytes.drop buf)
    .ok (buf, (strstr s [quote]).map (fun i => buf + i))
  else
    .ok (buf, (strstr s [space]).map (fun i => buf + i))

/-- The static array of `parseline`, `argv` and `argc`. -/
structure Parse where
  array : Buffer MAXLINE
  argv : Argv
  argc : Nat

/-- `while (delim)` -/
def fill : Nat → Parse → Nat → Option Nat → Result Parse
  | 0, _, _, _ => .error .endless
  | _ + 1, t, _, none => .ok t
  | fuel + 1, t, buf, some delim => do
      let argv ← t.argv.store t.argc (some buf)
      let array ← t.array.store delim [0]
      let (buf, delim) ← scan array (delim + 1)
      fill fuel { array := array, argv := argv, argc := t.argc + 1 } buf delim

/-- `parseline` behind the loop, with what it returns. -/
def finish (t : Parse) : Result (Parse × Int) := do
  let argv ← t.argv.store t.argc none
  if t.argc = 0 then
    .ok ({ t with argv := argv }, 1)
  else do
    let last ← deref (argv (t.argc - 1))
    let s ← cstr (t.array.bytes.drop last)
    if s.head? = some ampersand then do
      let argv ← argv.store (t.argc - 1) none
      .ok ({ t with argv := argv, argc := t.argc - 1 }, 1)
    else
      .ok ({ t with argv := argv }, 0)

def parseline
    (array : Buffer MAXLINE) (argv : Argv) (cmdline : CStr) :
    Result (Parse × Int) := do
  let array ← array.strcpy 0 cmdline
  let array ← replaceLast array
  let (buf, delim) ← scan array 0
  let t ← fill (MAXLINE + 1) { array := array, argv := argv, argc := 0 } buf delim
  finish t

/-- What the arrays hold when `eval` is called. -/
structure Memory where
  buf : Buffer MAXLINE
  array : Buffer MAXLINE
  argv : Argv

/-- `eval` up to the test of `argv[0]`; `cmdline` is what `fgets` has stored, with
a NUL behind it. -/
def evalLine (m : Memory) (cmdline : List Byte) : Result (Parse × Int) := do
  let s ← cstr (cmdline ++ [0])
  let buf ← m.buf.strcpy 0 s
  let buf ← replaceLast buf
  let s ← cstr buf.bytes
  parseline m.array m.argv s

/-- `argv` lists these words and ends with `NULL`. -/
structure Parse.Lists (t : Parse) (ws : List CStr) : Prop where
  word : ∀ k w, ws[k]? = some w →
    ∃ p, t.argv k = some p ∧ cstr (t.array.bytes.drop p) = .ok w
  null : t.argv ws.length = none

section Scan

variable {array : Buffer MAXLINE} {front text junk : List Byte}

/-- The words of a command line. -/
def lineWords (text : CStr) : List CStr :=
  words space quote text

/-- The spaces at the start of a text. -/
theorem skipSpaces_text
    (text junk : List Byte) :
    ∃ n rest, text = List.replicate n space ++ rest ∧
      rest.head? ≠ some space ∧ skipSpaces (text ++ 0 :: junk) = .ok n := by
  induction text with
  | nil =>
      exact ⟨0, [], rfl, by simp, rfl⟩
  | cons c text ih =>
      by_cases hc : c = space
      · subst hc
        obtain ⟨n, rest, rfl, hhead, hskip⟩ := ih
        refine ⟨n + 1, rest, rfl, hhead, ?_⟩
        rw [List.cons_append, skipSpaces, if_pos ⟨by decide, rfl⟩, hskip]
        rfl
      · refine ⟨0, c :: text, rfl, by simpa using hc, ?_⟩
        rw [List.cons_append, skipSpaces, if_neg (fun h => hc h.2)]

/-- A scan finds the next word of the text, or that there is none. -/
theorem scan_spec
    (hbytes : array.bytes = front ++ (text ++ 0 :: junk))
    (hnul : 0 ∉ text) :
    (lineWords text = [] ∧
      ∃ buf, scan array front.length = .ok (buf, none)) ∨
    ∃ skipped w stop s, text = skipped ++ (w ++ stop :: s) ∧
      lineWords text = w :: lineWords s ∧
      scan array front.length =
        .ok (front.length + skipped.length,
          some (front.length + skipped.length + w.length)) := by
  obtain ⟨n, rest, rfl, hhead, hskip⟩ := skipSpaces_text text junk
  have hrest : 0 ∉ rest := fun h => hnul (List.mem_append_right _ h)
  have hwords : lineWords (List.replicate n space ++ rest) =
      lineWords rest := words_spaces n rest
  have hdrop : array.bytes.drop front.length =
      List.replicate n space ++ rest ++ 0 :: junk := by
    rw [hbytes, List.drop_left]
  have hdrop' : array.bytes.drop (front.length + n) = rest ++ 0 :: junk := by
    rw [← List.drop_drop, hdrop, List.append_assoc]
    exact List.drop_left' (List.length_replicate)
  rw [hwords, scan, hdrop, hskip]
  simp only [Result.ok_bind, hdrop', cstr_append hrest]
  cases rest with
  | nil =>
      exact .inl ⟨rfl, _, rfl⟩
  | cons c v =>
      rw [List.mem_cons, not_or] at hrest
      have hspace : c ≠ space := by
        simpa using hhead
      by_cases hquote : c = quote
      · subst hquote
        have hdrop'' : array.bytes.drop (front.length + n + 1) =
            v ++ 0 :: junk := by
          rw [← List.drop_drop, hdrop']
          rfl
        simp only [List.head?_cons, if_true, hdrop'', cstr_append hrest.2,
          Result.ok_bind]
        have hstep : lineWords (quote :: v) =
            wordsFrom space quote (.inside quote []) v :=
          words_quote (by decide)
        rw [hstep]
        rcases strstr_cases v quote with
          ⟨hnone, hfind⟩ | ⟨w, s, hw, rfl, hfind⟩
        · exact .inl ⟨wordsFrom_unended hnone, _, by rw [hfind]; rfl⟩
        · refine .inr ⟨List.replicate n space ++ [quote], w, quote, s, by simp,
            wordsFrom_inside hw, ?_⟩
          rw [hfind]
          simp [Nat.add_assoc]
      · have hne : (c :: v).head? ≠ some quote := by
          simpa using hquote
        have hstep : lineWords (c :: v) =
            wordsFrom space quote (.inside space [c]) v :=
          words_bare hspace hquote
        simp only [if_neg hne]
        rw [hstep]
        rcases strstr_cases (c :: v) space with
          ⟨hnone, hfind⟩ | ⟨w, s, hw, heq, hfind⟩
        · rw [List.mem_cons, not_or] at hnone
          exact .inl ⟨wordsFrom_unended hnone.2, _, by rw [hfind]; rfl⟩
        · cases w with
          | nil =>
              exact absurd (List.cons.inj heq).1 hspace
          | cons d w =>
              obtain ⟨rfl, rfl⟩ := List.cons.inj heq
              rw [List.mem_cons, not_or] at hw
              refine .inr ⟨List.replicate n space, c :: w, space, s, rfl,
                wordsFrom_inside hw.2, ?_⟩
              rw [hfind]
              simp

end Scan

section Filling

variable {t t' : Parse} {front text junk : List Byte} {buf : Nat}
  {delim : Option Nat} {fuel : Nat}

/-- `front` has been read, and the scan has been made for the rest of the text. -/
structure Parse.Reads
    (t : Parse) (front text junk : List Byte) (buf : Nat) (delim : Option Nat) :
    Prop where
  bytes : t.array.bytes = front ++ (text ++ 0 :: junk)
  noNul : 0 ∉ text
  scan : scan t.array front.length = .ok (buf, delim)

/-- A scan of a text returns. -/
theorem scan_ok
    {array : Buffer MAXLINE}
    (front : List Byte)
    (hbytes : array.bytes = front ++ (text ++ 0 :: junk))
    (hnul : 0 ∉ text) :
    ∃ buf delim, scan array front.length = .ok (buf, delim) := by
  rcases scan_spec hbytes hnul with ⟨_, buf, h⟩ | ⟨_, _, _, _, _, _, h⟩
  · exact ⟨buf, none, h⟩
  · exact ⟨_, _, h⟩

theorem Parse.Reads.end_of_words
    (h : t.Reads front text junk buf delim)
    (hwords : lineWords text = []) :
    delim = none := by
  have hscan := h.scan
  rcases scan_spec h.bytes h.noNul with ⟨_, buf', h'⟩ | ⟨_, _, _, _, _, h', _⟩
  · rw [h'] at hscan
    cases hscan
    rfl
  · rw [hwords] at h'
    cases h'

/-- The state after a round that has found the word `w`. -/
structure Parse.Takes
    (t t' : Parse) (front text junk : List Byte) (w : CStr) (front' s : List Byte) :
    Prop where
  argv : ∃ p, t'.argv = Function.update t.argv t.argc (some p) ∧
    ∀ more array : List Byte, array = front' ++ more →
      cstr (array.drop p) = .ok w
  argc : t'.argc = t.argc + 1
  front : ∃ more, front' = front ++ more
  words : lineWords text = w :: lineWords s
  shorter : s.length < text.length

/-- One round stores a pointer to the next word and ends it with a NUL. -/
theorem fill_round
    (fuel : Nat)
    (h : t.Reads front text junk buf delim)
    (hwords : lineWords text ≠ [])
    (hargc : t.argc < MAXARGS) :
    ∃ t' w front' s buf' delim', t.Takes t' front text junk w front' s ∧
      t'.Reads front' s junk buf' delim' ∧
      fill (fuel + 1) t buf delim = fill fuel t' buf' delim' := by
  obtain ⟨hbytes, hnul, hscan⟩ := h
  rcases scan_spec hbytes hnul with
    ⟨hnil, _⟩ | ⟨skipped, w, stop, s, rfl, hcons, hfound⟩
  · exact absurd hnil hwords
  · rw [hscan] at hfound
    cases hfound
    have hw : 0 ∉ w := fun h => hnul (by simp [h])
    have hs : 0 ∉ s := fun h => hnul (by simp [h])
    have hfront : (front ++ skipped ++ w).length =
        front.length + skipped.length + w.length := by
      simp only [List.length_append]
    have hsplit : t.array.bytes =
        (front ++ skipped ++ w) ++ stop :: (s ++ 0 :: junk) := by
      rw [hbytes]
      simp only [List.append_assoc, List.cons_append]
    obtain ⟨array, hstore, hafter⟩ := Buffer.store_byte hsplit 0
    rw [hfront] at hstore
    have hbytes' : array.bytes =
        (front ++ skipped ++ w ++ [0]) ++ (s ++ 0 :: junk) := by
      rw [hafter, List.append_assoc _ [0]]
      rfl
    obtain ⟨buf', delim', hscan'⟩ := scan_ok _ hbytes' hs
    have hnext : (front ++ skipped ++ w ++ [0]).length =
        front.length + skipped.length + w.length + 1 := by
      simp only [List.length_append, List.length_singleton]
    refine ⟨{ array := array
              argv := Function.update t.argv t.argc
                (some (front.length + skipped.length))
              argc := t.argc + 1 }, w, front ++ skipped ++ w ++ [0], s, buf',
      delim', ?_, ⟨hbytes', hs, hscan'⟩, ?_⟩
    · refine
        { argv := ⟨_, rfl, ?_⟩
          argc := rfl
          front := ⟨skipped ++ w ++ [0], by simp⟩
          words := hcons
          shorter := ?_ }
      · rintro more array rfl
        have hdrop : (front ++ skipped ++ w ++ [0] ++ more).drop
            (front.length + skipped.length) = w ++ 0 :: more := by
          have hword : front ++ skipped ++ w ++ [0] ++ more =
              (front ++ skipped) ++ (w ++ 0 :: more) := by
            simp
          rw [hword]
          exact List.drop_left' (List.length_append)
        rw [hdrop]
        exact cstr_append hw more
      · simp only [List.length_append, List.length_cons]
        omega
    · rw [hnext] at hscan'
      rw [fill, Argv.store, if_pos hargc, Result.ok_bind, hstore, Result.ok_bind,
        hscan']
      rfl

/-- The loop lists the words that fit in `argv`. -/
theorem fill_ok
    (h : t.Reads front text junk buf delim)
    (hfuel : text.length < fuel)
    (hfits : t.argc + (lineWords text).length ≤ MAXARGS) :
    ∃ t', fill fuel t buf delim = .ok t' ∧
      t'.argc = t.argc + (lineWords text).length ∧
      (∃ more, t'.array.bytes = front ++ more) ∧
      (∀ k < t.argc, t'.argv k = t.argv k) ∧
      ∀ k w, (lineWords text)[k]? = some w →
        ∃ p, t'.argv (t.argc + k) = some p ∧
          cstr (t'.array.bytes.drop p) = .ok w := by
  induction fuel generalizing t front text buf delim with
  | zero =>
      omega
  | succ fuel ih =>
      by_cases hwords : lineWords text = []
      · obtain rfl := h.end_of_words hwords
        refine ⟨t, rfl, by simp [hwords], ⟨_, h.bytes⟩, fun _ _ => rfl, ?_⟩
        simp [hwords]
      · have hpos := List.length_pos_iff.mpr hwords
        obtain ⟨t', w, front', s, buf', delim', htakes, hreads, hround⟩ :=
          fill_round fuel h hwords (by omega)
        obtain ⟨p, hargv, hword⟩ := htakes.argv
        have hshorter := htakes.shorter
        have hargc := htakes.argc
        rw [htakes.words, List.length_cons] at hfits
        obtain ⟨t'', hfill, hargc', ⟨more, hbytes⟩, hkeep, hlist⟩ :=
          ih hreads (by omega) (by omega)
        obtain ⟨more', hfront⟩ := htakes.front
        refine ⟨t'', hround.trans hfill, ?_, ⟨more' ++ more, ?_⟩, ?_, ?_⟩
        · rw [hargc', hargc, htakes.words, List.length_cons]
          omega
        · rw [hbytes, hfront, List.append_assoc]
        · intro k hk
          rw [hkeep k (by omega), hargv]
          exact Function.update_of_ne hk.ne _ _
        · intro k v hk
          rw [htakes.words] at hk
          cases k with
          | zero =>
              cases hk
              refine ⟨p, ?_, hword more _ hbytes⟩
              rw [Nat.add_zero, hkeep t.argc (by omega), hargv,
                Function.update_self]
          | succ k =>
              obtain ⟨q, hq, hcstr⟩ := hlist k v hk
              rw [hargc] at hq
              exact ⟨q, by rw [← hq]; congr 1; omega, hcstr⟩

/-- A word for which there is no entry is stored behind the end of `argv`. -/
theorem fill_outOfBounds
    (h : t.Reads front text junk buf delim)
    (hfuel : text.length < fuel)
    (hargc : t.argc ≤ MAXARGS)
    (hmany : MAXARGS < t.argc + (lineWords text).length) :
    fill fuel t buf delim = .error .outOfBounds := by
  induction fuel generalizing t front text buf delim with
  | zero =>
      omega
  | succ fuel ih =>
      have hwords : lineWords text ≠ [] := by
        intro hnil
        rw [hnil, List.length_nil] at hmany
        omega
      by_cases hlt : t.argc < MAXARGS
      · obtain ⟨t', w, front', s, buf', delim', htakes, hreads, hround⟩ :=
          fill_round fuel h hwords hlt
        have hshorter := htakes.shorter
        have hnext := htakes.argc
        rw [htakes.words, List.length_cons] at hmany
        rw [hround]
        exact ih hreads (by omega) (by omega) (by omega)
      · rcases scan_spec h.bytes h.noNul with
          ⟨hnil, _⟩ | ⟨skipped, w, stop, s, _, _, hfound⟩
        · exact absurd hnil hwords
        · have hscan := h.scan
          rw [hfound] at hscan
          cases hscan
          rw [fill, Argv.store, if_neg hlt]
          rfl

end Filling

section Results

variable {a : Buffer MAXLINE} {s rest : List Byte} {ws : List CStr} {t : Parse}

/-- The line asks for a background job, or it is blank. -/
def background (ws : List CStr) : Bool :=
  match ws.getLast? with
  | none => true
  | some w => w.head? = some ampersand

/-- The words that are left in `argv`. -/
def arguments (ws : List CStr) : List CStr :=
  if background ws then ws.dropLast else ws

theorem replaceLast_spec
    (hbytes : a.bytes = s ++ 0 :: rest)
    (hnul : 0 ∉ s)
    (hne : s ≠ []) :
    ∃ a', replaceLast a = .ok a' ∧
      a'.bytes = s.dropLast ++ [space] ++ 0 :: rest := by
  have hlast : a.bytes = s.dropLast ++ s.getLast hne :: (0 :: rest) := by
    rw [hbytes, List.append_cons s.dropLast, List.dropLast_concat_getLast]
  obtain ⟨a', hstore, hafter⟩ := Buffer.store_byte hlast space
  refine ⟨a', ?_, ?_⟩
  · rw [replaceLast, hbytes, cstr_append hnul, Result.ok_bind, if_neg hne,
      ← List.length_dropLast, hstore]
  · rw [hafter, List.append_cons]

theorem space_noNul
    (hnul : 0 ∉ s) :
    0 ∉ s.dropLast ++ [space] := by
  intro hmem
  rcases List.mem_append.mp hmem with hmem | hmem
  · exact hnul (List.mem_of_mem_dropLast hmem)
  · exact absurd (List.mem_singleton.mp hmem) (by decide)

/-- The empty string has no last byte. -/
theorem replaceLast_empty
    (hbytes : a.bytes = 0 :: rest) :
    replaceLast a = .error .outOfBounds := by
  have hempty : cstr a.bytes = .ok [] := by
    rw [hbytes]
    exact cstr_append List.not_mem_nil rest
  rw [replaceLast, hempty]
  rfl

/-- `strcpy` to an array and the store behind the last byte. -/
theorem strcpy_replaceLast
    (a : Buffer MAXLINE)
    (hnul : 0 ∉ s)
    (hne : s ≠ [])
    (hlength : s.length < MAXLINE) :
    ∃ a' a'' rest, a.strcpy 0 s = .ok a' ∧ replaceLast a' = .ok a'' ∧
      a''.bytes = s.dropLast ++ [space] ++ 0 :: rest := by
  rw [← Nat.zero_add s.length] at hlength
  obtain ⟨a', hcopy⟩ := Buffer.strcpy_ok a hlength
  obtain ⟨_, rest, hbytes⟩ := Buffer.strcpy_bytes hcopy
  rw [List.take_zero, List.nil_append] at hbytes
  obtain ⟨a'', hreplace, hafter⟩ := replaceLast_spec hbytes hnul hne
  exact ⟨a', a'', rest, hcopy, hreplace, hafter⟩

/-- `NULL` behind the words. -/
theorem lists_store
    {array : Buffer MAXLINE} {argv : Argv}
    (argc : Nat)
    (hlist : ∀ k w, ws[k]? = some w →
      ∃ p, argv k = some p ∧ cstr (array.bytes.drop p) = .ok w) :
    Parse.Lists
      { array := array
        argv := Function.update argv ws.length none
        argc := argc }
      ws where
  word := by
    intro k w hk
    obtain ⟨p, hp, hw⟩ := hlist k w hk
    obtain ⟨hlt, _⟩ := List.getElem?_eq_some_iff.mp hk
    refine ⟨p, ?_, hw⟩
    rw [← hp]
    exact Function.update_of_ne hlt.ne _ _
  null := Function.update_self _ _ _

/-- A line is finished as its last word asks for. -/
theorem finish_ok
    (hargc : t.argc = ws.length)
    (hlist : ∀ k w, ws[k]? = some w →
      ∃ p, t.argv k = some p ∧ cstr (t.array.bytes.drop p) = .ok w)
    (hfew : ws.length < MAXARGS) :
    ∃ t', finish t = .ok (t', if background ws then 1 else 0) ∧
      t'.Lists (arguments ws) := by
  have hlists := lists_store ws.length hlist
  rw [finish, hargc, Argv.store, if_pos hfew, Result.ok_bind]
  rcases List.eq_nil_or_concat ws with rfl | ⟨front, w, rfl⟩
  · exact ⟨_, rfl, hlists⟩
  · rw [List.concat_eq_append] at *
    have hlength : (front ++ [w]).length = front.length + 1 := by
      simp
    have hlast : (front ++ [w])[front.length]? = some w := by
      simp
    obtain ⟨p, hp, hw⟩ := hlists.word front.length w hlast
    have hbackground : background (front ++ [w]) =
        decide (w.head? = some ampersand) := by
      simp [background]
    dsimp only at hp hw
    rw [if_neg (by omega), hlength, Nat.add_sub_cancel]
    rw [hlength] at hp hfew
    rw [hp, deref_some, Result.ok_bind, hw, Result.ok_bind]
    by_cases hhead : w.head? = some ampersand
    · have hflag : background (front ++ [w]) = true := by
        rw [hbackground, decide_eq_true hhead]
      have hroom : front.length < MAXARGS := by
        omega
      rw [arguments, hflag, if_pos hhead, Argv.store, if_pos hroom,
        Result.ok_bind, if_pos rfl, List.dropLast_concat]
      refine ⟨_, rfl, lists_store front.length ?_⟩
      intro k v hk
      obtain ⟨hlt, _⟩ := List.getElem?_eq_some_iff.mp hk
      obtain ⟨q, hq, hv⟩ := hlists.word k v
        (by rwa [List.getElem?_append_left hlt])
      rw [hlength] at hq
      exact ⟨q, hq, hv⟩
    · have hflag : background (front ++ [w]) = false := by
        rw [hbackground, decide_eq_false hhead]
      rw [hlength] at hlists
      rw [arguments, hflag, if_neg hhead, if_neg Bool.false_ne_true]
      exact ⟨_, rfl, hlists⟩

/-- The loop of `parseline` begins on the line with a space for its last byte. -/
theorem parseline_reads
    (array : Buffer MAXLINE) (argv : Argv)
    (hnul : 0 ∉ s)
    (hne : s ≠ [])
    (hlength : s.length < MAXLINE) :
    ∃ t junk buf delim,
      parseline array argv s =
        fill (MAXLINE + 1) t buf delim >>= finish ∧
      t.Reads [] (s.dropLast ++ [space]) junk buf delim ∧ t.argc = 0 := by
  obtain ⟨a', a'', rest, hcopy, hreplace, hbytes⟩ :=
    strcpy_replaceLast array hnul hne hlength
  have hnul' := space_noNul hnul
  obtain ⟨buf, delim, hscan⟩ := scan_ok [] hbytes hnul'
  rw [List.length_nil] at hscan
  refine ⟨{ array := a'', argv := argv, argc := 0 }, rest, buf, delim, ?_,
    ⟨hbytes, hnul', hscan⟩, rfl⟩
  rw [parseline, hcopy, Result.ok_bind, hreplace, Result.ok_bind, hscan]
  rfl

/-- `parseline` lists the words of the line, as long as there are fewer than
`MAXARGS`. -/
theorem parseline_ok
    (array : Buffer MAXLINE) (argv : Argv)
    (hnul : 0 ∉ s)
    (hne : s ≠ [])
    (hlength : s.length < MAXLINE)
    (hwords : lineWords (s.dropLast ++ [space]) = ws)
    (hfew : ws.length < MAXARGS) :
    ∃ t, parseline array argv s =
        .ok (t, if background ws then 1 else 0) ∧
      t.Lists (arguments ws) := by
  obtain ⟨t, junk, buf, delim, hparse, hreads, hargc⟩ :=
    parseline_reads array argv hnul hne hlength
  have hfuel : (s.dropLast ++ [space]).length < MAXLINE + 1 := by
    rw [List.length_append, List.length_dropLast, List.length_singleton]
    omega
  obtain ⟨t', hfill, hargc', _, _, hlist⟩ := fill_ok hreads hfuel
    (by rw [hargc, hwords]; omega)
  rw [hargc, hwords, Nat.zero_add] at hargc'
  simp only [hargc, hwords, Nat.zero_add] at hlist
  rw [hparse, hfill, Result.ok_bind]
  exact finish_ok hargc' hlist hfew

/-- With more words an entry behind the end of `argv` is written: a pointer to a
word, or the `NULL`. -/
theorem parseline_outOfBounds
    (array : Buffer MAXLINE) (argv : Argv)
    (hnul : 0 ∉ s)
    (hne : s ≠ [])
    (hlength : s.length < MAXLINE)
    (hwords : lineWords (s.dropLast ++ [space]) = ws)
    (hmany : MAXARGS ≤ ws.length) :
    parseline array argv s = .error .outOfBounds := by
  obtain ⟨t, junk, buf, delim, hparse, hreads, hargc⟩ :=
    parseline_reads array argv hnul hne hlength
  have hfuel : (s.dropLast ++ [space]).length < MAXLINE + 1 := by
    rw [List.length_append, List.length_dropLast, List.length_singleton]
    omega
  rw [hparse]
  rcases Nat.lt_or_eq_of_le hmany with hlt | heq
  · rw [fill_outOfBounds hreads hfuel (by omega) (by rw [hargc, hwords]; omega)]
    rfl
  · obtain ⟨t', hfill, hargc', _⟩ := fill_ok hreads hfuel
      (by rw [hargc, hwords]; omega)
    rw [hargc, hwords, Nat.zero_add, ← heq] at hargc'
    rw [hfill, Result.ok_bind, finish, Argv.store, hargc', if_neg (lt_irrefl _)]
    rfl

end Results

end Shell
end PastWork
