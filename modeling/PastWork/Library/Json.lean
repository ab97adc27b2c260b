import Mathlib.Tactic

/-!
# JSON texts of lists of string dictionaries

`dumps` writes a list of dictionaries from strings to strings the way Python's
`json.dump` does with `indent=2`: ASCII only, everything else escaped.  `loads`
reads any JSON text of such a list, with white space wherever JSON allows it.
Strings are lists of Unicode scalar values, so an unpaired surrogate is refused.

What has been dumped is loaded back, and text after it makes the load fail.
-/

namespace PastWork
namespace Json

abbrev Text := List Char

section Dictionaries

/-- `d[key] = value` on the items of a dictionary, in the order of insertion. -/
def setItem (key value : Text) : List (Text × Text) → List (Text × Text)
  | [] => [(key, value)]
  | item :: items =>
      if item.1 = key then (item.1, value) :: items
      else item :: setItem key value items

theorem keys_setItem
    (key value : Text) (items : List (Text × Text)) :
    (setItem key value items).map Prod.fst =
      if key ∈ items.map Prod.fst then items.map Prod.fst
      else items.map Prod.fst ++ [key] := by
  induction items with
  | nil =>
      rfl
  | cons item items ih =>
      rw [setItem]
      by_cases hkey : item.1 = key
      · simp [hkey]
      · have hne : key ≠ item.1 := Ne.symm hkey
        rw [if_neg hkey, List.map_cons, ih, List.map_cons]
        by_cases hmem : key ∈ items.map Prod.fst
        · rw [if_pos hmem, if_pos (List.mem_cons_of_mem _ hmem)]
        · have hnew : key ∉ item.1 :: items.map Prod.fst := by
            rw [List.mem_cons, not_or]
            exact ⟨hne, hmem⟩
          rw [if_neg hmem, if_neg hnew, List.cons_append]

/-- A `dict` of strings. -/
structure Dict where
  items : List (Text × Text)
  nodup : (items.map Prod.fst).Nodup
deriving DecidableEq

namespace Dict

@[ext] theorem ext
    {d e : Dict}
    (h : d.items = e.items) :
    d = e := by
  cases d
  cases e
  cases h
  rfl

def empty : Dict where
  items := []
  nodup := List.nodup_nil

/-- `d[key] = value` -/
def set (d : Dict) (key value : Text) : Dict where
  items := setItem key value d.items
  nodup := by
    rw [keys_setItem]
    split
    · exact d.nodup
    next hmem =>
        refine List.nodup_append.mpr ⟨d.nodup, List.nodup_singleton key, ?_⟩
        rintro a ha b hb rfl
        exact hmem (List.mem_singleton.mp hb ▸ ha)

/-- `dict(items)` -/
def ofItems (items : List (Text × Text)) : Dict :=
  items.foldl (fun d item => d.set item.1 item.2) empty

theorem setItem_new
    {key value : Text} {items : List (Text × Text)}
    (hnew : key ∉ items.map Prod.fst) :
    setItem key value items = items ++ [(key, value)] := by
  induction items with
  | nil =>
      rfl
  | cons item items ih =>
      rw [List.map_cons, List.mem_cons, not_or] at hnew
      rw [setItem, if_neg (Ne.symm hnew.1), ih hnew.2, List.cons_append]

theorem foldl_set_items
    (items : List (Text × Text)) (d : Dict)
    (h : ((d.items ++ items).map Prod.fst).Nodup) :
    (items.foldl (fun d item => d.set item.1 item.2) d).items =
      d.items ++ items := by
  induction items generalizing d with
  | nil =>
      simp
  | cons item items ih =>
      have hnew : item.1 ∉ d.items.map Prod.fst := by
        intro hmem
        rw [List.map_append, List.nodup_append] at h
        exact h.2.2 item.1 hmem item.1 (by simp) rfl
      have hset : (d.set item.1 item.2).items = d.items ++ [item] :=
        setItem_new hnew
      rw [List.foldl_cons, ih]
      · rw [hset, List.append_assoc, List.singleton_append]
      · rwa [hset, List.append_assoc, List.singleton_append]

/-- Different keys are all kept, in order. -/
theorem ofItems_items
    (d : Dict) :
    ofItems d.items = d := by
  ext1
  exact foldl_set_items d.items empty d.nodup

/-- `d[key]`; `none` is a `KeyError`. -/
def getItem (d : Dict) (key : Text) : Option Text :=
  d.items.lookup key

/-- Each key of different ones has its own value. -/
theorem getItem_ofItems
    {items : List (Text × Text)} {key value : Text}
    (hnodup : (items.map Prod.fst).Nodup)
    (hmem : (key, value) ∈ items) :
    (ofItems items).getItem key = some value := by
  have hdict : ofItems items = ⟨items, hnodup⟩ := ofItems_items ⟨items, hnodup⟩
  rw [hdict, getItem]
  clear hdict
  induction items with
  | nil =>
      cases hmem
  | cons item items ih =>
      obtain ⟨hnew, hnodup⟩ := List.nodup_cons.mp hnodup
      rcases List.mem_cons.mp hmem with rfl | hmem
      · exact List.lookup_cons_self
      · have hne : (key == item.1) = false := by
          rw [beq_eq_false_iff_ne]
          rintro rfl
          exact hnew (List.mem_map.mpr ⟨_, hmem, rfl⟩)
        rw [List.lookup_cons, hne]
        exact ih hnodup hmem

end Dict

end Dictionaries

section Escapes

/-- The characters with an escape of one letter. -/
def escapes : List (Char × Char) :=
  [('\\', '\\'), ('"', '"'), ('\x08', 'b'), ('\x0c', 'f'), ('\n', 'n'),
    ('\r', 'r'), ('\t', 't')]

def hexDigit (d : Nat) : Char :=
  Char.ofNat (if d < 10 then 48 + d else 87 + d)

/-- Four hexadecimal digits. -/
def hex4 (n : Nat) : Text :=
  [hexDigit (n / 4096), hexDigit (n / 256 % 16), hexDigit (n / 16 % 16),
    hexDigit (n % 16)]

/-- `\uXXXX` -/
def unicode (n : Nat) : Text :=
  '\\' :: 'u' :: hex4 n

/-- `py_encode_basestring_ascii` on a character. -/
def escape (c : Char) : Text :=
  match escapes.lookup c with
  | some letter => ['\\', letter]
  | none =>
      if 32 ≤ c.toNat ∧ c.toNat ≤ 126 then [c]
      else if c.toNat < 0x10000 then unicode c.toNat
      else
        unicode (0xd800 + (c.toNat - 0x10000) / 1024) ++
          unicode (0xdc00 + (c.toNat - 0x10000) % 1024)

def hexValue (c : Char) : Option Nat :=
  if 48 ≤ c.toNat ∧ c.toNat ≤ 57 then some (c.toNat - 48)
  else if 97 ≤ c.toNat ∧ c.toNat ≤ 102 then some (c.toNat - 87)
  else if 65 ≤ c.toNat ∧ c.toNat ≤ 70 then some (c.toNat - 55)
  else none

def scanHex : Text → Option (Nat × Text)
  | a :: b :: c :: d :: s => do
      let a ← hexValue a
      let b ← hexValue b
      let c ← hexValue c
      let d ← hexValue d
      some (a * 4096 + b * 256 + c * 16 + d, s)
  | _ => none

/-- The next character is `c`. -/
def expect (c : Char) : Text → Option Text
  | [] => none
  | d :: s => if d = c then some s else none

/-- The rest of an escape after `\u`: a character, or the first of a pair of
surrogates with the second one after it. -/
def scanUnicode (s : Text) : Option (Char × Text) := do
  let (n, s) ← scanHex s
  if 0xd800 ≤ n ∧ n ≤ 0xdbff then
    let s ← expect '\\' s
    let s ← expect 'u' s
    let (m, s) ← scanHex s
    if 0xdc00 ≤ m ∧ m ≤ 0xdfff then
      some (Char.ofNat (0x10000 + (n - 0xd800) * 1024 + (m - 0xdc00)), s)
    else
      none
  else if 0xdc00 ≤ n ∧ n ≤ 0xdfff then
    none
  else
    some (Char.ofNat n, s)

def unescape (letter : Char) : Option Char :=
  (('/', '/') :: escapes.map Prod.swap).lookup letter

def scanEscape : Text → Option (Char × Text)
  | [] => none
  | letter :: s =>
      if letter = 'u' then scanUnicode s
      else (unescape letter).map (fun c => (c, s))

/-- The rest of a string after its opening quote. -/
def scanChars : Nat → Text → Option (Text × Text)
  | 0, _ => none
  | _, [] => none
  | fuel + 1, c :: s =>
      if c = '"' then
        some ([], s)
      else do
        let (c, s) ←
          if c = '\\' then scanEscape s
          else if c.toNat < 32 then none
          else some (c, s)
        let (t, s) ← scanChars fuel s
        some (c :: t, s)

theorem hexValue_hexDigit :
    ∀ d, d < 16 → hexValue (hexDigit d) = some d := by
  decide

theorem scanHex_hex4
    {n : Nat}
    (hn : n < 0x10000) (s : Text) :
    scanHex (hex4 n ++ s) = some (n, s) := by
  have hsum : n / 4096 * 4096 + n / 256 % 16 * 256 + n / 16 % 16 * 16 + n % 16 =
      n := by
    omega
  have hdigit := hexValue_hexDigit (n / 4096) (by omega)
  simp [hex4, scanHex, hdigit, hexValue_hexDigit _ (Nat.mod_lt _ _), hsum]

theorem unescape_escapes :
    ∀ p ∈ escapes, p.2 ≠ 'u' ∧ unescape p.2 = some p.1 := by
  decide

theorem not_surrogate
    (c : Char) :
    c.toNat < 0xd800 ∨ 0xdfff < c.toNat ∧ c.toNat < 0x110000 := by
  have h := c.valid
  simpa [UInt32.isValidChar, Nat.isValidChar] using h

/-- A character in the basic plane. -/
theorem scanUnicode_basic
    {c : Char}
    (hc : c.toNat < 0x10000) (s : Text) :
    scanUnicode (hex4 c.toNat ++ s) = some (c, s) := by
  have hvalid := not_surrogate c
  have hhigh : ¬ (0xd800 ≤ c.toNat ∧ c.toNat ≤ 0xdbff) := by
    omega
  have hlow : ¬ (0xdc00 ≤ c.toNat ∧ c.toNat ≤ 0xdfff) := by
    omega
  rw [scanUnicode, scanHex_hex4 hc]
  simp only [Option.bind_eq_bind, Option.bind_some, if_neg hhigh, if_neg hlow,
    Char.ofNat_toNat]

/-- A pair of surrogates. -/
theorem scanUnicode_surrogates
    {n m : Nat}
    (hhigh : 0xd800 ≤ n ∧ n ≤ 0xdbff)
    (hlow : 0xdc00 ≤ m ∧ m ≤ 0xdfff) (s : Text) :
    scanUnicode (hex4 n ++ (unicode m ++ s)) =
      some (Char.ofNat (0x10000 + (n - 0xd800) * 1024 + (m - 0xdc00)), s) := by
  have hn : n < 0x10000 := by
    omega
  have hm : m < 0x10000 := by
    omega
  rw [scanUnicode, scanHex_hex4 hn]
  simp only [Option.bind_eq_bind, Option.bind_some, if_pos hhigh, unicode,
    List.cons_append, expect, if_true, scanHex_hex4 hm, if_pos hlow]

/-- The two surrogates of a character beyond the basic plane. -/
theorem surrogates_spec
    {c : Char} {n m : Nat}
    (hc : 0x10000 ≤ c.toNat)
    (hn : n = 0xd800 + (c.toNat - 0x10000) / 1024)
    (hm : m = 0xdc00 + (c.toNat - 0x10000) % 1024) :
    (0xd800 ≤ n ∧ n ≤ 0xdbff) ∧ (0xdc00 ≤ m ∧ m ≤ 0xdfff) ∧
      Char.ofNat (0x10000 + (n - 0xd800) * 1024 + (m - 0xdc00)) = c := by
  have hvalid := not_surrogate c
  have hsum : 0x10000 + (n - 0xd800) * 1024 + (m - 0xdc00) = c.toNat := by
    omega
  refine ⟨by omega, by omega, ?_⟩
  rw [hsum, Char.ofNat_toNat]

theorem scanChars_backslash
    (fuel : Nat) (s : Text) :
    scanChars (fuel + 1) ('\\' :: s) =
      (scanEscape s).bind (fun p =>
        (scanChars fuel p.2).map (fun q => (p.1 :: q.1, q.2))) := by
  have hne : '\\' ≠ '"' := by
    decide
  rw [scanChars, if_neg hne, if_pos rfl]
  cases scanEscape s with
  | none => rfl
  | some p =>
      cases h : scanChars fuel p.2 with
      | none => simp [h]
      | some q => simp [h]

theorem scanChars_plain
    {c : Char}
    (hquote : c ≠ '"') (hback : c ≠ '\\') (hc : 32 ≤ c.toNat)
    (fuel : Nat) (s : Text) :
    scanChars (fuel + 1) (c :: s) =
      (scanChars fuel s).map (fun q => (c :: q.1, q.2)) := by
  rw [scanChars, if_neg hquote, if_neg hback, if_neg (by omega)]
  cases h : scanChars fuel s with
  | none => simp [h]
  | some q => simp [h]

/-- An escaped character is the first one that is read. -/
theorem scanChars_escape
    (fuel : Nat) (c : Char) (s : Text) :
    scanChars (fuel + 1) (escape c ++ s) =
      (scanChars fuel s).map (fun q => (c :: q.1, q.2)) := by
  unfold escape
  cases hletter : escapes.lookup c with
  | some letter =>
      have hmem : (c, letter) ∈ escapes := by
        obtain ⟨before, after, heq, _⟩ := List.lookup_eq_some_iff.mp hletter
        rw [heq]
        simp
      obtain ⟨hu, hback⟩ := unescape_escapes _ hmem
      have hescape : scanEscape (letter :: s) = some (c, s) := by
        rw [scanEscape, if_neg hu, hback]
        rfl
      simp only [List.cons_append, List.nil_append]
      rw [scanChars_backslash, hescape]
      rfl
  | none =>
      dsimp only
      split
      next hplain =>
          have hquote : c ≠ '"' := by
            rintro rfl
            revert hletter
            decide
          have hback : c ≠ '\\' := by
            rintro rfl
            revert hletter
            decide
          exact scanChars_plain hquote hback hplain.1 fuel s
      next =>
          split
          next hbasic =>
              have hescape : scanEscape ('u' :: (hex4 c.toNat ++ s)) =
                  some (c, s) := by
                rw [scanEscape, if_pos rfl, scanUnicode_basic hbasic]
              rw [unicode, List.cons_append, List.cons_append,
                scanChars_backslash, hescape]
              rfl
          next hpair =>
              have hspec := surrogates_spec (not_lt.mp hpair) rfl rfl
              obtain ⟨hhigh, hlow, hchar⟩ := hspec
              have hread := scanUnicode_surrogates hhigh hlow s
              rw [hchar] at hread
              rw [List.append_assoc, unicode, List.cons_append,
                List.cons_append, scanChars_backslash, scanEscape, if_pos rfl,
                hread]
              rfl

end Escapes

section Strings

/-- A string in quotes. -/
def quoted (t : Text) : Text :=
  '"' :: (t.flatMap escape ++ ['"'])

def scanString (s : Text) : Option (Text × Text) := do
  let s ← expect '"' s
  scanChars s.length s

theorem scanChars_flatMap
    {fuel : Nat} {t : Text}
    (hfuel : t.length < fuel) (s : Text) :
    scanChars fuel (t.flatMap escape ++ '"' :: s) = some (t, s) := by
  induction t generalizing fuel with
  | nil =>
      obtain ⟨m, rfl⟩ := Nat.exists_eq_add_of_lt hfuel
      rfl
  | cons c t ih =>
      obtain ⟨m, rfl⟩ := Nat.exists_eq_add_of_lt hfuel
      rw [List.flatMap_cons, List.append_assoc, scanChars_escape, ih]
      · rfl
      · simp only [List.length_cons]
        omega

theorem escape_ne_nil
    (c : Char) :
    escape c ≠ [] := by
  unfold escape
  split
  · exact List.cons_ne_nil _ _
  · split
    · exact List.cons_ne_nil _ _
    · split
      · exact List.cons_ne_nil _ _
      · exact List.cons_ne_nil _ _

theorem length_le_length_flatMap
    {α : Type} {f : α → Text} {l : List α}
    (h : ∀ a, f a ≠ []) :
    l.length ≤ (l.flatMap f).length := by
  induction l with
  | nil =>
      exact Nat.zero_le _
  | cons a l ih =>
      have hpos := List.length_pos_iff.mpr (h a)
      rw [List.length_cons, List.flatMap_cons, List.length_append]
      omega

/-- A string is read back. -/
theorem scanString_quoted
    (t s : Text) :
    scanString (quoted t ++ s) = some (t, s) := by
  have hopen : expect '"' (quoted t ++ s) =
      some (t.flatMap escape ++ '"' :: s) := by
    simp [quoted, expect]
  have hlength : t.length ≤ (t.flatMap escape).length :=
    length_le_length_flatMap escape_ne_nil
  rw [scanString, hopen]
  refine scanChars_flatMap ?_ s
  rw [List.length_append, List.length_cons]
  omega

end Strings

section Listings

variable {α : Type}

def isSpace (c : Char) : Bool :=
  c = ' ' || c = '\t' || c = '\n' || c = '\r'

/-- The text after white space. -/
def skip (s : Text) : Text :=
  s.dropWhile isSpace

/-- A new line with the indent of a level. -/
def newline (level : Nat) : Text :=
  '\n' :: List.replicate (2 * level) ' '

/-- `_iterencode_list` and `_iterencode_dict` with an indent of 2. -/
def listing (opening closing : Char) (level : Nat) : List Text → Text
  | [] => [opening, closing]
  | part :: parts =>
      opening :: (newline (level + 1) ++ part ++
        parts.flatMap (fun p => ',' :: (newline (level + 1) ++ p)) ++
          newline level ++ [closing])

/-- The rest of a listing from an item on. -/
def scanItems
    (closing : Char) (item : Text → Option (α × Text)) :
    Nat → Text → Option (List α × Text)
  | 0, _ => none
  | fuel + 1, s => do
      let (x, s) ← item s
      match skip s with
      | [] => none
      | c :: s =>
          if c = closing then
            some ([x], s)
          else if c = ',' then do
            let (xs, s) ← scanItems closing item fuel (skip s)
            some (x :: xs, s)
          else
            none

def scanListing
    (opening closing : Char) (item : Text → Option (α × Text)) (s : Text) :
    Option (List α × Text) := do
  let s ← expect opening s
  match expect closing (skip s) with
  | some s => some ([], s)
  | none => scanItems closing item s.length (skip s)

@[simp] theorem skip_nil :
    skip [] = [] := by
  rfl

theorem skip_cons
    {c : Char}
    (hc : isSpace c = false) (s : Text) :
    skip (c :: s) = c :: s := by
  simp [skip, hc]

@[simp] theorem skip_newline
    (level : Nat) (s : Text) :
    skip (newline level ++ s) = skip s := by
  unfold skip newline
  induction 2 * level with
  | zero =>
      rfl
  | succ n ih =>
      simpa [List.replicate_succ, isSpace] using ih

/-- What `part` writes is read back by `item`, and starts with `first`. -/
structure Reads
    (part : α → Text) (item : Text → Option (α × Text)) (first : Char) :
    Prop where
  read : ∀ x s, item (part x ++ s) = some (x, s)
  starts : ∀ x, ∃ t, part x = first :: t

variable {part : α → Text} {item : Text → Option (α × Text)} {first : Char}

/-- The text of the items after the first one, up to the end of the listing. -/
def remaining
    (closing : Char) (level : Nat) (part : α → Text) (xs : List α) (s : Text) :
    Text :=
  (xs.map part).flatMap (fun p => ',' :: (newline (level + 1) ++ p)) ++
    (newline level ++ closing :: s)

theorem scanItems_remaining
    {closing : Char} {level fuel : Nat} {x : α} {xs : List α}
    (h : Reads part item first)
    (hfirst : isSpace first = false)
    (hclosing : isSpace closing = false ∧ closing ≠ ',')
    (hfuel : xs.length < fuel) (s : Text) :
    scanItems closing item fuel (part x ++ remaining closing level part xs s) =
      some (x :: xs, s) := by
  induction xs generalizing x fuel with
  | nil =>
      obtain ⟨m, rfl⟩ := Nat.exists_eq_add_of_lt hfuel
      rw [scanItems, h.read]
      simp [remaining, skip_cons hclosing.1]
  | cons y ys ih =>
      obtain ⟨m, rfl⟩ := Nat.exists_eq_add_of_lt hfuel
      obtain ⟨t, ht⟩ := h.starts y
      have hcomma : isSpace ',' = false := by
        decide
      have hnext : remaining closing level part (y :: ys) s =
          ',' :: (newline (level + 1) ++
            (part y ++ remaining closing level part ys s)) := by
        simp [remaining]
      have hskip : skip (part y ++ remaining closing level part ys s) =
          part y ++ remaining closing level part ys s := by
        rw [ht, List.cons_append, skip_cons hfirst]
      have hlt : ys.length < (y :: ys).length + m := by
        rw [List.length_cons]
        omega
      have hrest := ih (x := y) hlt
      rw [scanItems, h.read]
      simp only [hnext, skip_cons hcomma, skip_newline, hskip, hrest,
        Option.bind_eq_bind, Option.bind_some, if_neg (Ne.symm hclosing.2),
        if_true]

/-- A listing is read back. -/
theorem scanListing_listing
    {opening closing : Char}
    (h : Reads part item first)
    (hfirst : isSpace first = false ∧ first ≠ closing)
    (hclosing : isSpace closing = false ∧ closing ≠ ',')
    (level : Nat) (xs : List α) (s : Text) :
    scanListing opening closing item
      (listing opening closing level (xs.map part) ++ s) = some (xs, s) := by
  cases xs with
  | nil =>
      simp [scanListing, listing, expect, skip_cons hclosing.1]
  | cons x xs =>
      obtain ⟨t, ht⟩ := h.starts x
      have hskip : skip (part x ++ remaining closing level part xs s) =
          part x ++ remaining closing level part xs s := by
        rw [ht, List.cons_append, skip_cons hfirst.1]
      have hopen : listing opening closing level ((x :: xs).map part) ++ s =
          opening :: (newline (level + 1) ++
            (part x ++ remaining closing level part xs s)) := by
        simp [listing, remaining]
      have hclosed : expect closing
          (part x ++ remaining closing level part xs s) = none := by
        rw [ht, List.cons_append, expect, if_neg hfirst.2]
      have hlength : xs.length ≤ (remaining closing level part xs s).length := by
        have hparts : (xs.map part).length ≤
            ((xs.map part).flatMap
              (fun p => ',' :: (newline (level + 1) ++ p))).length :=
          length_le_length_flatMap (fun _ => List.cons_ne_nil _ _)
        rw [List.length_map] at hparts
        rw [remaining, List.length_append]
        omega
      rw [scanListing, hopen, expect, if_pos rfl]
      simp only [Option.bind_eq_bind, Option.bind_some, skip_newline, hskip,
        hclosed]
      refine scanItems_remaining h hfirst.1 hclosing ?_ s
      simp only [newline, List.length_append, List.length_cons]
      omega

end Listings

section Documents

/-- A member of a dictionary. -/
def member (item : Text × Text) : Text :=
  quoted item.1 ++ ':' :: ' ' :: quoted item.2

def scanMember (s : Text) : Option ((Text × Text) × Text) := do
  let (key, s) ← scanString s
  let s ← expect ':' (skip s)
  let (value, s) ← scanString (skip s)
  some ((key, value), s)

def dict (d : Dict) : Text :=
  listing '{' '}' 1 (d.items.map member)

def scanDict (s : Text) : Option (Dict × Text) := do
  let (items, s) ← scanListing '{' '}' scanMember s
  some (Dict.ofItems items, s)

/-- `json.dump` with `indent=2` -/
def dumps (ds : List Dict) : Text :=
  listing '[' ']' 0 (ds.map dict)

/-- `json.load`; `none` is a `JSONDecodeError`. -/
def loads (s : Text) : Option (List Dict) := do
  let (ds, s) ← scanListing '[' ']' scanDict (skip s)
  if skip s = [] then some ds else none

theorem member_reads :
    Reads member scanMember '"' where
  read := by
    intro item s
    have hcolon : isSpace ':' = false := by
      decide
    have hquote : isSpace '"' = false := by
      decide
    have hspace : skip (' ' :: (quoted item.2 ++ s)) = quoted item.2 ++ s := by
      simp [skip, quoted, isSpace]
    rw [member, List.append_assoc, scanMember, scanString_quoted]
    simp only [List.cons_append, Option.bind_eq_bind, Option.bind_some,
      skip_cons hcolon, expect, if_true, hspace, scanString_quoted]
  starts := fun item => ⟨_, rfl⟩

theorem listing_starts
    (opening closing : Char) (level : Nat) (parts : List Text) :
    ∃ t, listing opening closing level parts = opening :: t := by
  cases parts with
  | nil => exact ⟨_, rfl⟩
  | cons part parts => exact ⟨_, rfl⟩

theorem dict_reads :
    Reads dict scanDict '{' where
  read := by
    intro d s
    rw [dict, scanDict,
      scanListing_listing member_reads (by decide) (by decide) 1 d.items s]
    simp [Dict.ofItems_items]
  starts := fun d => listing_starts '{' '}' 1 _

/-- Text that follows a dump makes the load fail, unless it is white space. -/
theorem loads_dumps_append
    (ds : List Dict) (s : Text) :
    loads (dumps ds ++ s) = if skip s = [] then some ds else none := by
  obtain ⟨t, ht⟩ := listing_starts '[' ']' 0 (ds.map dict)
  have hskip : skip (dumps ds ++ s) = dumps ds ++ s := by
    rw [dumps, ht, List.cons_append, skip_cons (by decide)]
  rw [loads, hskip, dumps,
    scanListing_listing dict_reads (by decide) (by decide) 0 ds s]
  rfl

/-- What has been dumped is loaded back. -/
theorem loads_dumps
    (ds : List Dict) :
    loads (dumps ds) = some ds := by
  have h := loads_dumps_append ds []
  rwa [List.append_nil, skip_nil, if_pos rfl] at h

theorem dumps_ne_nil
    (ds : List Dict) :
    dumps ds ≠ [] := by
  obtain ⟨t, ht⟩ := listing_starts '[' ']' 0 (ds.map dict)
  rw [dumps, ht]
  exact List.cons_ne_nil _ _

end Documents

end Json
end PastWork
