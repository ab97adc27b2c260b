import PastWork.Proxy.Lines
import PastWork.Proxy.Uri

/-!
# Parsing a request

`parse_request` reads the request line and then a header a line, up to the line
CRLF.  At the end of the stream `Rio_readlineb` leaves the array as it is, and
`parse_header` has cut it at the `": "`, so that the loop comes to an `exit(0)`.
What the loop does depends on the strings of the lines only, and is followed over
the list of them.
-/

namespace PastWork
namespace Proxy

abbrev MAX_HEADERNAME_LEN : Nat := 32
abbrev MAX_HEADER_LEN : Nat := 64

/-- `header_line headers[20]` -/
abbrev NUM_HEADERS : Nat := 20

/-- `header_line` -/
structure HeaderLine where
  headername : CStr
  header : CStr
deriving DecidableEq, Repr

def isspace (c : Byte) : Bool :=
  c = 32 || (9 ≤ c && c ≤ 13)

/-- `%s` of `sscanf`: the next word and what is behind it; `none` at the end of
the string. -/
def scanString (s : CStr) : Option (CStr × CStr) :=
  let s := s.dropWhile isspace
  if s = [] then none
  else some (s.takeWhile (fun c => !isspace c), s.dropWhile (fun c => !isspace c))

/-- What `sscanf(buf, "%s %s %s", method, uri, version)` writes to `uri`; `none`
is nothing. -/
def scanUri (buf : CStr) : Option CStr := do
  let (_, s) ← scanString buf
  let (uri, _) ← scanString s
  some uri

/-- `": "` -/
def separator : CStr :=
  [colon, 32]

/-- The line that ends the headers. -/
def crlf : CStr :=
  [13, newline]

/-- `parse_header`; `none` is the `exit(0)` for an invalid header. -/
def parseHeader (buf : CStr) : Result (Option HeaderLine) :=
  match strstr buf separator with
  | none => .ok none
  | some c => do
      let headername ← copied MAX_HEADERNAME_LEN (buf.take c)
      let header ← copied MAX_HEADER_LEN (buf.drop (c + 2))
      .ok (some { headername := headername, header := header })

/-- How `parse_request` ends. -/
inductive Parsed where
  /-- `exit(0)` -/
  | exits
  /-- it returns and has set none of `line`, `headers` and `num_headers` -/
  | nothing
  /-- `parse_uri` is called although `uri` has not been set -/
  | noUri
  | request (line : RequestLine) (headers : List HeaderLine)
deriving DecidableEq

/-- `while (strcmp(buf, "\r\n"))`, for a stream that has been read up to the line
in `buf`. -/
def readHeaders (line : RequestLine) :
    Nat → List Byte → CStr → List HeaderLine → Result Parsed
  | 0, _, _, _ => .error .endless
  | fuel + 1, stream, buf, headers =>
      if buf = crlf then
        .ok (.request line headers)
      else do
        match ← parseHeader buf with
        | none => .ok .exits
        | some h =>
            if headers.length < NUM_HEADERS then
              match readlineb MAXLINE stream with
              -- `buf` keeps what `parse_header` has left of it
              | ([], rest) =>
                  readHeaders line fuel rest h.headername (headers ++ [h])
              | (buf, rest) =>
                  readHeaders line fuel rest (stored buf) (headers ++ [h])
            else
              .error .outOfBounds

/-- `parse_request` -/
def parseRequest (stream : List Byte) : Result Parsed :=
  match readlineb MAXLINE stream with
  | ([], _) => .ok .nothing
  | (buf, rest) =>
      match scanUri (stored buf) with
      | none => .ok .noUri
      | some uri => do
          match ← parseUri uri with
          | none => .ok .exits
          | some line =>
              match readlineb MAXLINE rest with
              -- the request line is still in `buf`
              | ([], rest) =>
                  readHeaders line (stream.length + 2) rest (stored buf) []
              | (buf, rest) =>
                  readHeaders line (stream.length + 2) rest (stored buf) []

section Headers

variable {buf s : CStr} {h : HeaderLine} {i : Nat}

/-- The text of a header. -/
def HeaderLine.text (h : HeaderLine) : CStr :=
  h.headername ++ separator ++ h.header

/-- A header that is split at its first `": "`, with parts that fit. -/
def HeaderFits (s : CStr) : Prop :=
  ∃ i, strstr s separator = some i ∧ i < MAX_HEADERNAME_LEN ∧
    s.length - (i + 2) < MAX_HEADER_LEN

theorem length_take_of_strstr
    (hi : strstr s separator = some i) :
    (s.take i).length = i ∧ i + 2 ≤ s.length := by
  have hsplit := congrArg List.length (strstr_split hi)
  simp only [List.length_append, List.length_take, List.length_drop,
    separator, List.length_cons, List.length_nil] at hsplit ⊢
  omega

/-- A header that fits is split, and the parts are its text. -/
theorem parseHeader_fits
    (hfits : HeaderFits s) :
    ∃ h, parseHeader s = .ok (some h) ∧ h.text = s ∧
      h.headername.length < MAX_HEADERNAME_LEN ∧
      strstr h.headername separator = none ∧
      ∃ rest, rest ≠ [] ∧ s = h.headername ++ rest := by
  obtain ⟨i, hi, hname, hvalue⟩ := hfits
  obtain ⟨hlength, _⟩ := length_take_of_strstr hi
  have hsplit := strstr_split hi
  refine ⟨{ headername := s.take i, header := s.drop (i + 2) }, ?_, hsplit.symm,
    hlength.symm ▸ hname, strstr_take (by decide) hi,
    separator ++ s.drop (i + 2), by simp [separator], ?_⟩
  · have hname' : (s.take i).length < MAX_HEADERNAME_LEN := by
      omega
    have hvalue' : (s.drop (i + 2)).length < MAX_HEADER_LEN := by
      rwa [List.length_drop]
    rw [parseHeader, hi]
    simp only [copied_ok hname', copied_ok hvalue', Result.ok_bind]
  · rw [← List.append_assoc]
    exact hsplit

/-- Otherwise one of the copies runs past the end. -/
theorem parseHeader_outOfBounds
    (hi : strstr s separator = some i)
    (hfits : ¬ HeaderFits s) :
    parseHeader s = .error .outOfBounds := by
  obtain ⟨hlength, _⟩ := length_take_of_strstr hi
  rw [parseHeader, hi]
  dsimp only
  by_cases hname : i < MAX_HEADERNAME_LEN
  · have hname' : (s.take i).length < MAX_HEADERNAME_LEN := by
      omega
    have hvalue : MAX_HEADER_LEN ≤ (s.drop (i + 2)).length := by
      rw [List.length_drop]
      by_contra hvalue
      exact hfits ⟨i, hi, hname, not_le.mp hvalue⟩
    rw [copied_ok hname', Result.ok_bind, copied_outOfBounds hvalue]
    rfl
  · have hname' : MAX_HEADERNAME_LEN ≤ (s.take i).length := by
      omega
    rw [copied_outOfBounds hname']
    rfl

theorem parseHeader_none
    (hi : strstr s separator = none) :
    parseHeader s = .ok none := by
  rw [parseHeader, hi]

/-- A header that is stored fits. -/
theorem parseHeader_some
    (hparse : parseHeader s = .ok (some h)) :
    HeaderFits s := by
  by_contra hfits
  cases hi : strstr s separator with
  | none =>
      rw [parseHeader_none hi] at hparse
      cases hparse
  | some i =>
      rw [parseHeader_outOfBounds hi hfits] at hparse
      cases hparse

end Headers

/-- The strings of the lines of a stream. -/
def texts (stream : List Byte) : List CStr :=
  (lines stream).map stored

/-- The loop over the headers, for the strings of the lines; when there is no
further line it ends with an `exit(0)`. -/
def takeHeaders (line : RequestLine) :
    List HeaderLine → List CStr → Result Parsed
  | _, [] => .ok .exits
  | headers, s :: ss =>
      if s = crlf then
        .ok (.request line headers)
      else do
        match ← parseHeader s with
        | none => .ok .exits
        | some h =>
            if headers.length < NUM_HEADERS then
              takeHeaders line (headers ++ [h]) ss
            else
              .error .outOfBounds

section Reading

variable {line line' : RequestLine} {stream buf : List Byte} {s : CStr}
  {ss : List CStr} {headers headers' : List HeaderLine} {fuel : Nat}

/-- The string of a line has a newline at its end only. -/
theorem newline_of_front
    (hfront : s <+: buf)
    (hbuf : newline ∉ buf.dropLast) :
    newline ∉ s.dropLast := by
  intro hmem
  obtain ⟨rest, rfl⟩ := hfront
  cases rest with
  | nil =>
      rw [List.append_nil] at hbuf
      exact hbuf hmem
  | cons c rest =>
      rw [List.dropLast_append_cons] at hbuf
      exact hbuf (List.mem_append_left _ (List.mem_of_mem_dropLast hmem))

/-- What `parse_header` leaves of a line is not CRLF. -/
theorem ne_crlf_of_cut
    {name rest : CStr}
    (hs : s = name ++ rest)
    (hrest : rest ≠ [])
    (hnewline : newline ∉ s.dropLast) :
    name ≠ crlf := by
  rintro rfl
  refine hnewline ?_
  rw [hs, List.dropLast_append_of_ne_nil hrest]
  simp [crlf]

/-- The loop depends on the strings of the lines that are left. -/
theorem readHeaders_eq
    (line : RequestLine) (headers : List HeaderLine)
    (hnewline : newline ∉ s.dropLast)
    (hfuel : stream.length + 1 < fuel) :
    readHeaders line fuel stream s headers =
      takeHeaders line headers (s :: texts stream) := by
  induction fuel generalizing stream s headers with
  | zero =>
      omega
  | succ fuel ih =>
      rw [readHeaders, takeHeaders]
      by_cases hcrlf : s = crlf
      · rw [if_pos hcrlf, if_pos hcrlf]
      · rw [if_neg hcrlf, if_neg hcrlf]
        cases hparse : parseHeader s with
        | error e =>
            rfl
        | ok found =>
            cases found with
            | none =>
                rfl
            | some h =>
                simp only [Result.ok_bind]
                split
                next =>
                    obtain ⟨h', hparse', _, _, hnone, rest, hrest, hcut⟩ :=
                      parseHeader_fits (parseHeader_some hparse)
                    rw [hparse] at hparse'
                    cases hparse'
                    rcases lines_cases stream with
                      ⟨rfl, hread, hlines⟩ |
                      ⟨buf, rest, hne, hread, _, hlt, hlines⟩
                    · -- the name is the whole string now, and has no separator
                      have hname := ne_crlf_of_cut hcut hrest hnewline
                      obtain ⟨fuel, rfl⟩ : ∃ n, fuel = n + 1 :=
                        Nat.exists_eq_succ_of_ne_zero (by omega)
                      rw [hread, texts, hlines, List.map_nil, takeHeaders]
                      simp only [readHeaders, if_neg hname,
                        parseHeader_none hnone, Result.ok_bind]
                    · have hpiece := newline_of_readlineb MAXLINE stream
                      rw [hread] at hpiece
                      have hnext := ih (headers ++ [h])
                        (newline_of_front (stored_front buf) hpiece)
                        (by omega : rest.length + 1 < fuel)
                      rw [hread, texts, hlines, List.map_cons]
                      cases buf with
                      | nil => exact absurd rfl hne
                      | cons c buf => exact hnext
                next =>
                    rfl

/-- A round of the loop. -/
theorem takeHeaders_cases
    (line : RequestLine) (headers : List HeaderLine) (s : CStr) (ss : List CStr) :
    (s = crlf ∧ takeHeaders line headers (s :: ss) =
      .ok (.request line headers)) ∨
    (s ≠ crlf ∧ strstr s separator = none ∧
      takeHeaders line headers (s :: ss) = .ok .exits) ∨
    (s ≠ crlf ∧ (strstr s separator).isSome ∧
      (¬ HeaderFits s ∨ NUM_HEADERS ≤ headers.length) ∧
        takeHeaders line headers (s :: ss) = .error .outOfBounds) ∨
    s ≠ crlf ∧ (strstr s separator).isSome ∧ HeaderFits s ∧
      headers.length < NUM_HEADERS ∧
        ∃ h, h.text = s ∧ takeHeaders line headers (s :: ss) =
          takeHeaders line (headers ++ [h]) ss := by
  rw [takeHeaders]
  by_cases hcrlf : s = crlf
  · exact .inl ⟨hcrlf, if_pos hcrlf⟩
  · rw [if_neg hcrlf]
    cases hi : strstr s separator with
    | none =>
        rw [parseHeader_none hi]
        exact .inr (.inl ⟨hcrlf, rfl, rfl⟩)
    | some i =>
        by_cases hfits : HeaderFits s
        · obtain ⟨h, hparse, htext, _⟩ := parseHeader_fits hfits
          simp only [hparse, Result.ok_bind]
          by_cases hroom : headers.length < NUM_HEADERS
          · exact .inr (.inr (.inr ⟨hcrlf, rfl, hfits, hroom, h, htext,
              if_pos hroom⟩))
          · exact .inr (.inr (.inl ⟨hcrlf, rfl, .inr (not_lt.mp hroom),
              if_neg hroom⟩))
        · rw [parseHeader_outOfBounds hi hfits]
          exact .inr (.inr (.inl ⟨hcrlf, rfl, .inl hfits, rfl⟩))

/-- A loop that ends with a request has stored every line up to CRLF. -/
theorem takeHeaders_request
    (h : takeHeaders line headers ss = .ok (.request line' headers')) :
    line' = line ∧ ∃ front rest, ss = front ++ crlf :: rest ∧
      headers.length + front.length ≤ max headers.length NUM_HEADERS ∧
      (∀ s ∈ front, s ≠ crlf ∧ HeaderFits s) ∧
      headers'.map HeaderLine.text = headers.map HeaderLine.text ++ front := by
  induction ss generalizing headers with
  | nil =>
      cases h
  | cons s ss ih =>
      rcases takeHeaders_cases line headers s ss with
        ⟨rfl, hrun⟩ | ⟨_, _, hrun⟩ | ⟨_, _, _, hrun⟩ |
        ⟨hcrlf, _, hfits, hroom, header, htext, hrun⟩
      · rw [hrun] at h
        cases h
        exact ⟨rfl, [], ss, rfl, by simp, by simp, by simp⟩
      · rw [hrun] at h
        cases h
      · rw [hrun] at h
        cases h
      · rw [hrun] at h
        obtain ⟨hline, front, rest, rfl, hcount, hall, hmap⟩ := ih h
        rw [List.length_append, List.length_singleton] at hcount
        refine ⟨hline, s :: front, rest, rfl, ?_, ?_, ?_⟩
        · rw [List.length_cons]
          omega
        · rintro t (_ | ⟨_, ht⟩)
          · exact ⟨hcrlf, hfits⟩
          · exact hall t ht
        · rw [hmap, List.map_append, List.map_singleton, htext,
            List.append_assoc]
          rfl

/-- Lines that fit, then CRLF, are a request. -/
theorem takeHeaders_ok
    {front : List CStr}
    (line : RequestLine) (rest : List CStr)
    (hcount : headers.length + front.length ≤ NUM_HEADERS)
    (hall : ∀ s ∈ front, s ≠ crlf ∧ HeaderFits s) :
    ∃ headers', takeHeaders line headers (front ++ crlf :: rest) =
      .ok (.request line headers') := by
  induction front generalizing headers with
  | nil =>
      exact ⟨headers, if_pos rfl⟩
  | cons s front ih =>
      obtain ⟨hcrlf, hfits⟩ := hall s List.mem_cons_self
      rw [List.length_cons] at hcount
      rcases takeHeaders_cases line headers s (front ++ crlf :: rest) with
        ⟨heq, _⟩ | ⟨_, hnone, _⟩ | ⟨_, _, hfault, _⟩ |
        ⟨_, _, _, _, header, _, hrun⟩
      · exact absurd heq hcrlf
      · obtain ⟨i, hi, _⟩ := hfits
        rw [hnone] at hi
        cases hi
      · rcases hfault with hfault | hfull
        · exact absurd hfits hfault
        · omega
      · have hcount' : (headers ++ [header]).length + front.length ≤
            NUM_HEADERS := by
          rw [List.length_append, List.length_singleton]
          omega
        obtain ⟨headers', hrest⟩ := ih hcount'
          (fun t ht => hall t (List.mem_cons_of_mem s ht))
        exact ⟨headers', hrun.trans hrest⟩

/-- The lines that are split: those up to the first one that is CRLF or has no
separator. -/
def split (ss : List CStr) : List CStr :=
  ss.takeWhile (fun s => s ≠ crlf && (strstr s separator).isSome)

/-- The loop stays inside its arrays exactly when the lines that are split fit and
are not too many. -/
theorem takeHeaders_inside
    (line : RequestLine) (ss : List CStr)
    (hcount : headers.length ≤ NUM_HEADERS) :
    (headers.length + (split ss).length ≤ NUM_HEADERS ∧
      (∀ s ∈ split ss, HeaderFits s) →
        ∃ out, takeHeaders line headers ss = .ok out) ∧
    (¬ (headers.length + (split ss).length ≤ NUM_HEADERS ∧
      ∀ s ∈ split ss, HeaderFits s) →
        takeHeaders line headers ss = .error .outOfBounds) := by
  induction ss generalizing headers with
  | nil =>
      exact ⟨fun _ => ⟨_, rfl⟩, fun h => absurd ⟨hcount, by simp [split]⟩ h⟩
  | cons s ss ih =>
      have hlength (h : HeaderLine) : (headers ++ [h]).length =
          headers.length + 1 := by
        rw [List.length_append, List.length_singleton]
      rcases takeHeaders_cases line headers s ss with
        ⟨rfl, hrun⟩ | ⟨hcrlf, hnone, hrun⟩ | ⟨hcrlf, hsome, hfault, hrun⟩ |
        ⟨hcrlf, hsome, hfits, hroom, header, _, hrun⟩
      · have hsplit : split (crlf :: ss) = [] := by
          simp [split]
        rw [hsplit, hrun]
        exact ⟨fun _ => ⟨_, rfl⟩, fun h => absurd ⟨hcount, by simp⟩ h⟩
      · have hsplit : split (s :: ss) = [] := by
          simp [split, hnone]
        rw [hsplit, hrun]
        exact ⟨fun _ => ⟨_, rfl⟩, fun h => absurd ⟨hcount, by simp⟩ h⟩
      · have hsplit : split (s :: ss) = s :: split ss := by
          simp [split, hcrlf, hsome]
        rw [hsplit, hrun]
        refine ⟨fun h => ?_, fun _ => rfl⟩
        rcases hfault with hfault | hfull
        · exact absurd (h.2 s List.mem_cons_self) hfault
        · have := h.1
          rw [List.length_cons] at this
          omega
      · have hsplit : split (s :: ss) = s :: split ss := by
          simp [split, hcrlf, hsome]
        have hcount' : (headers ++ [header]).length ≤ NUM_HEADERS := by
          rw [hlength]
          omega
        obtain ⟨hinside, houtside⟩ := ih hcount'
        rw [hlength, Nat.add_right_comm] at hinside houtside
        rw [hsplit, hrun, List.length_cons, List.forall_mem_cons]
        exact ⟨fun h => hinside ⟨h.1, h.2.2⟩,
          fun h => houtside (fun hrest => h ⟨hrest.1, hfits, hrest.2⟩)⟩

end Reading

section Requests

variable {stream : List Byte} {first uri : CStr} {rest : List CStr}

/-- The strings that the loop over the headers gets: those behind the request
line, or the request line itself when the stream ends there. -/
def headerTexts (first : CStr) (rest : List CStr) : List CStr :=
  if rest = [] then [first] else rest

/-- `parse_request`, for the strings of the lines. -/
def parseTexts : List CStr → Result Parsed
  | [] => .ok .nothing
  | first :: rest =>
      match scanUri first with
      | none => .ok .noUri
      | some uri => do
          match ← parseUri uri with
          | none => .ok .exits
          | some line => takeHeaders line [] (headerTexts first rest)

/-- A request depends on the strings of its lines. -/
theorem parseRequest_eq
    (stream : List Byte) :
    parseRequest stream = parseTexts (texts stream) := by
  have hline : ∀ {stream buf rest : List Byte},
      readlineb MAXLINE stream = (buf, rest) → newline ∉ (stored buf).dropLast := by
    intro stream buf rest hread
    have hpiece := newline_of_readlineb MAXLINE stream
    rw [hread] at hpiece
    exact newline_of_front (stored_front buf) hpiece
  rcases lines_cases stream with
    ⟨rfl, hread, hlines⟩ | ⟨buf, rest, hne, hread, _, hlt, hlines⟩
  · rw [parseRequest, hread, texts, hlines]
    rfl
  · have hfirst := hline hread
    rw [texts, hlines, List.map_cons, parseTexts, parseRequest, hread]
    cases buf with
    | nil => exact absurd rfl hne
    | cons c buf =>
        dsimp only
        cases hscan : scanUri (stored (c :: buf)) with
        | none => rfl
        | some uri =>
            dsimp only
            cases hparse : parseUri uri with
            | error e => rfl
            | ok found =>
                cases found with
                | none => rfl
                | some line =>
                    simp only [Result.ok_bind]
                    rcases lines_cases rest with
                      ⟨rfl, hread', hlines'⟩ |
                      ⟨buf', rest', hne', hread', _, hlt', hlines'⟩
                    · rw [hread', hlines']
                      exact readHeaders_eq line [] hfirst (by simp)
                    · have hsecond := hline hread'
                      have hrun := readHeaders_eq line [] hsecond
                        (by omega : rest'.length + 1 < stream.length + 2)
                      rw [hread', hlines', List.map_cons]
                      cases buf' with
                      | nil => exact absurd rfl hne'
                      | cons c' buf' => exact hrun

/-- The URI spells a request line whose fields fit in their arrays. -/
def UriFits (uri : CStr) : Prop :=
  ∃ line : RequestLine, line.Spells uri ∧
    line.hostname.length < MAX_HOSTNAME_LEN ∧
      line.port.length < MAX_PORT_LEN ∧ line.path.length < MAXLINE

theorem uriFits_iff :
    UriFits uri ↔ ∃ line, parseUri uri = .ok (some line) := by
  constructor
  · rintro ⟨line, hspells, hhost, hport, hpath⟩
    exact ⟨line, parseUri_of_spells hspells hhost hport hpath⟩
  · rintro ⟨line, hline⟩
    exact ⟨line, parseUri_spells hline⟩

/-- A request line with a URI that fits, at most `NUM_HEADERS` headers that fit,
and CRLF. -/
def WellFormed (stream : List Byte) : Prop :=
  ∃ first uri front rest, texts stream = first :: (front ++ crlf :: rest) ∧
    scanUri first = some uri ∧ UriFits uri ∧ front.length ≤ NUM_HEADERS ∧
      ∀ s ∈ front, s ≠ crlf ∧ HeaderFits s

theorem parseTexts_cases
    (first : CStr) (rest : List CStr) :
    (scanUri first = none ∧ parseTexts (first :: rest) = .ok .noUri) ∨
    ∃ uri, scanUri first = some uri ∧
      ((∃ e, parseUri uri = .error e ∧
          parseTexts (first :: rest) = .error e) ∨
      (parseUri uri = .ok none ∧ parseTexts (first :: rest) = .ok .exits) ∨
      ∃ line, parseUri uri = .ok (some line) ∧
        parseTexts (first :: rest) =
          takeHeaders line [] (headerTexts first rest)) := by
  rw [parseTexts]
  cases scanUri first with
  | none => exact .inl ⟨rfl, rfl⟩
  | some uri =>
      refine .inr ⟨uri, rfl, ?_⟩
      dsimp only
      cases parseUri uri with
      | error e => exact .inl ⟨e, rfl, rfl⟩
      | ok found =>
          cases found with
          | none => exact .inr (.inl ⟨rfl, rfl⟩)
          | some line => exact .inr (.inr ⟨line, rfl, rfl⟩)

/-- Behind a request line that is accepted there is the loop over the headers. -/
theorem parseRequest_line
    {line : RequestLine}
    (htexts : texts stream = first :: rest)
    (hscan : scanUri first = some uri)
    (hline : parseUri uri = .ok (some line)) :
    parseRequest stream = takeHeaders line [] (headerTexts first rest) := by
  rw [parseRequest_eq, htexts, parseTexts, hscan]
  simp only [hline, Result.ok_bind]

/-- What is known of a request that has been parsed. -/
theorem parseTexts_request
    {line : RequestLine} {headers : List HeaderLine}
    (h : parseTexts (first :: rest) = .ok (.request line headers)) :
    ∃ uri front rest', scanUri first = some uri ∧
      parseUri uri = .ok (some line) ∧ rest = front ++ crlf :: rest' ∧
      front.length ≤ NUM_HEADERS ∧ (∀ s ∈ front, s ≠ crlf ∧ HeaderFits s) ∧
      headers.map HeaderLine.text = front := by
  rcases parseTexts_cases first rest with
    ⟨_, hrun⟩ | ⟨uri, hscan, ⟨_, _, hrun⟩ | ⟨_, hrun⟩ | ⟨line', hline, hrun⟩⟩
  · rw [hrun] at h
    cases h
  · rw [hrun] at h
    cases h
  · rw [hrun] at h
    cases h
  · rw [hrun] at h
    obtain ⟨rfl, front, rest', htexts, hcount, hall, hmap⟩ :=
      takeHeaders_request h
    have hne : rest ≠ [] := by
      rintro rfl
      rw [headerTexts, if_pos rfl] at htexts
      cases front with
      | nil =>
          -- the request line has two words, and CRLF has none
          obtain ⟨rfl, _⟩ := List.cons.inj htexts
          have hblank : scanUri crlf = none := by decide
          rw [hblank] at hscan
          cases hscan
      | cons s front =>
          have hlength := congrArg List.length htexts
          simp at hlength
    rw [headerTexts, if_neg hne] at htexts
    exact ⟨uri, front, rest', hscan, hline, htexts, by simpa using hcount, hall,
      by simpa using hmap⟩

theorem takeHeaders_error
    {line : RequestLine} {ss : List CStr} {e : Fault}
    (h : takeHeaders line [] ss = .error e) :
    e = .outOfBounds := by
  have hcount : ([] : List HeaderLine).length ≤ NUM_HEADERS := Nat.zero_le _
  obtain ⟨hinside, houtside⟩ := takeHeaders_inside line ss hcount
  by_cases hfits : ([] : List HeaderLine).length + (split ss).length ≤
      NUM_HEADERS ∧ ∀ s ∈ split ss, HeaderFits s
  · obtain ⟨out, hout⟩ := hinside hfits
    rw [h] at hout
    cases hout
  · have hfault := houtside hfits
    rw [h] at hfault
    cases hfault
    rfl

theorem takeHeaders_result
    {line : RequestLine} {headers : List HeaderLine} {ss : List CStr}
    {out : Parsed}
    (h : takeHeaders line headers ss = .ok out) :
    out = .exits ∨ ∃ headers', out = .request line headers' := by
  induction ss generalizing headers with
  | nil =>
      cases h
      exact .inl rfl
  | cons s ss ih =>
      rcases takeHeaders_cases line headers s ss with
        ⟨_, hrun⟩ | ⟨_, _, hrun⟩ | ⟨_, _, _, hrun⟩ | ⟨_, _, _, _, _, _, hrun⟩
      · rw [hrun] at h
        cases h
        exact .inr ⟨headers, rfl⟩
      · rw [hrun] at h
        cases h
        exact .inl rfl
      · rw [hrun] at h
        cases h
      · rw [hrun] at h
        exact ih h

/-- `parse_request` ends, whatever the stream is. -/
theorem parseTexts_ne_endless
    (ss : List CStr) :
    parseTexts ss ≠ .error .endless := by
  intro h
  cases ss with
  | nil =>
      cases h
  | cons first rest =>
      rcases parseTexts_cases first rest with
        ⟨_, hrun⟩ | ⟨uri, _, ⟨e, herror, hrun⟩ | ⟨_, hrun⟩ | ⟨line, _, hrun⟩⟩
      · rw [hrun] at h
        cases h
      · rw [hrun] at h
        cases h
        exact parseUri_ne_endless uri herror
      · rw [hrun] at h
        cases h
      · rw [hrun] at h
        cases takeHeaders_error h

/-- Every stream is parsed to its end, and the outputs of `parse_request` are set
exactly when it begins with a request whose parts fit. -/
theorem parseRequest_sets_iff
    (stream : List Byte) :
    parseRequest stream ≠ .error .endless ∧
      ((∃ line headers, parseRequest stream = .ok (.request line headers)) ↔
        WellFormed stream) := by
  rw [parseRequest_eq]
  refine ⟨parseTexts_ne_endless _, ?_⟩
  constructor
  · rintro ⟨line, headers, h⟩
    cases htexts : texts stream with
    | nil =>
        rw [htexts] at h
        cases h
    | cons first rest =>
        rw [htexts] at h
        obtain ⟨uri, front, rest', hscan, hline, rfl, hcount, hall, _⟩ :=
          parseTexts_request h
        exact ⟨first, uri, front, rest', htexts, hscan,
          uriFits_iff.mpr ⟨line, hline⟩, hcount, hall⟩
  · rintro ⟨first, uri, front, rest, htexts, hscan, hfits, hcount, hall⟩
    obtain ⟨line, hline⟩ := uriFits_iff.mp hfits
    have hcount' : ([] : List HeaderLine).length + front.length ≤
        NUM_HEADERS := by
      rwa [List.length_nil, Nat.zero_add]
    obtain ⟨headers, hheaders⟩ := takeHeaders_ok line rest hcount' hall
    refine ⟨line, headers, ?_⟩
    have hne : front ++ crlf :: rest ≠ [] := by
      simp
    rw [← parseRequest_eq, parseRequest_line htexts hscan hline, headerTexts,
      if_neg hne, hheaders]

end Requests

section Example

/-- A request that is cut off behind its first line. -/
def truncated : List Byte :=
  literal "GET http://h:80/ HTTP/1.0" ++ crlf

theorem truncated_exits :
    parseRequest truncated = .ok .exits := by
  decide

theorem truncated_unset :
    ¬ ∀ stream, ∃ line headers,
      parseRequest stream = .ok (.request line headers) := by
  intro hclaim
  obtain ⟨line, headers, h⟩ := hclaim truncated
  rw [truncated_exits] at h
  cases h

end Example

end Proxy
end PastWork
