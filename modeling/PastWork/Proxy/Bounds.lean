import PastWork.Proxy.Sending

/-!
# The copies of a connection

The whole of `doit`: `parse_request`, `reader`, and on a miss `send_to_server`, the
relay and `writer`.  Every copy to an array of fixed size is followed, and the
connections whose copies all stay inside are known exactly.
-/

namespace PastWork
namespace Proxy

/-- What becomes of a connection. -/
inductive Handled where
  /-- the process has ended -/
  | exits
  /-- it goes on with variables that have not been set -/
  | unset
  | served (out : Served) (c : Cache)

/-- The call of `send_to_server`, which follows a miss. -/
def fetch
    (buf : Buffer MAXLINE) (line : RequestLine) (headers : List HeaderLine) :
    Option (Fin NUM_CACHE_LINE) → Result (List Byte)
  | some _ => .ok []
  | none => sendToServer buf line headers

/-- `doit`; `buf` is the array of `send_to_server`, and the server answers with
`response`. -/
def handle
    (buf : Buffer MAXLINE) (object_buf : Buffer MAX_OBJECT_SIZE)
    (stream response : List Byte) (c : Cache) :
    Result Handled := do
  match ← parseRequest stream with
  | .exits => .ok .exits
  | .nothing => .ok .unset
  | .noUri => .ok .unset
  | .request line headers => do
      let _ ← fetch buf line headers (c.reader line.key)
      let (out, c) ← doit
        { line := line, response := response, object_buf := object_buf } c
      .ok (.served out c)

section Serving

variable {req : Request} {c : Cache} {uri : CStr}
  {buf : Buffer MAX_OBJECT_SIZE}

/-- An array without a NUL is read past its end. -/
theorem writer_outOfBounds
    (hnul : 0 ∉ buf.bytes)
    (c : Cache) :
    c.writer uri buf none = .error .outOfBounds := by
  have hcopy : ∀ line, Cache.copy uri buf line = .error .outOfBounds := by
    intro line
    unfold Cache.copy
    split
    · rw [cstr, if_neg hnul]
      rfl
    · rfl
  unfold Cache.writer
  dsimp only
  split
  · rw [hcopy]
    rfl
  · rw [hcopy]
    rfl

/-- What has to hold for the response of a miss. -/
def Fetches (req : Request) : Prop :=
  Collects 0 (lines req.response) ∧
    (req.response.length < MAX_OBJECT_SIZE →
      req.response ≠ [] ∨ 0 ∈ req.object_buf.bytes)

/-- A miss is served, or a copy to `object_buf` or from it runs past its end. -/
theorem doit_fetches
    (req : Request)
    (hkey : req.line.key.length < MAXLINE)
    (hread : c.reader req.line.key = none) :
    (Fetches req → ∃ out, doit req c = .ok out) ∧
      (¬ Fetches req → doit req c = .error .outOfBounds) := by
  obtain ⟨hinside, houtside⟩ := relay_collects req.response
    { sent := [], object_buf := req.object_buf, total_size := 0 }
    (Nat.lt_succ_self _)
  dsimp only at hinside houtside
  unfold doit
  simp only [if_pos hkey, hread]
  by_cases hcollects : Collects 0 (lines req.response)
  · obtain ⟨r, hr⟩ := hinside hcollects
    obtain ⟨_, htotal, hnul⟩ := relay_spec hr
    rw [Nat.zero_add] at htotal
    rw [hr, Result.ok_bind, htotal]
    by_cases hshort : req.response.length < MAX_OBJECT_SIZE
    · rw [if_pos hshort]
      by_cases hbuf : req.response ≠ [] ∨ 0 ∈ req.object_buf.bytes
      · obtain ⟨c', hc'⟩ := Cache.writer_none_ok hkey (hnul hbuf) c
        rw [hc']
        exact ⟨fun _ => ⟨_, rfl⟩, fun h => absurd ⟨hcollects, fun _ => hbuf⟩ h⟩
      · rw [not_or, not_not] at hbuf
        rw [hbuf.1] at hr
        cases hr
        rw [writer_outOfBounds hbuf.2]
        refine ⟨fun h => ?_, fun _ => rfl⟩
        exact absurd (h.2 hshort) (not_or.mpr ⟨not_not.mpr hbuf.1, hbuf.2⟩)
    · rw [if_neg hshort]
      exact ⟨fun _ => ⟨_, rfl⟩,
        fun h => absurd ⟨hcollects, fun h => absurd h hshort⟩ h⟩
  · rw [houtside hcollects]
    exact ⟨fun h => absurd h.1 hcollects, fun _ => rfl⟩

end Serving

section Limits

variable {stream : List Byte} {first uri : CStr} {rest : List CStr}
  {line : RequestLine}

/-- The hostname and the port of a URI fit, as far as they are copied. -/
def UriInside (uri : CStr) : Prop :=
  ∀ text, uri = literal "http://" ++ text →
    ∀ i, strstr text [colon] = some i → i < MAX_HOSTNAME_LEN ∧
      ∀ j, strstr (text.drop (i + 1)) [slash] = some j → j < MAX_PORT_LEN

/-- The lines of a request are shorter than `MAXLINE`. -/
theorem length_of_texts
    (htexts : texts stream = first :: rest) :
    first.length < MAXLINE := by
  rcases lines_cases stream with
    ⟨_, _, hlines⟩ | ⟨buf, rest', _, hread, _, _, hlines⟩
  · rw [texts, hlines] at htexts
    cases htexts
  · rw [texts, hlines] at htexts
    obtain ⟨rfl, _⟩ := List.cons.inj htexts
    have hlength := length_readlineb MAXLINE stream
    have hstored := (stored_front buf).length_le
    rw [hread] at hlength
    dsimp only at hlength
    have hpos : 0 < MAXLINE := by decide
    omega

/-- The copies of `parse_uri`. -/
theorem parseUri_inside
    (hlength : uri.length < MAXLINE) :
    parseUri uri ≠ .error .outOfBounds ↔ UriInside uri := by
  rcases parseUri_cases uri with ⟨hscheme, hout⟩ | ⟨text, rfl, hcases⟩
  · rw [hout]
    refine ⟨fun _ text heq => absurd ⟨text, heq.symm⟩ hscheme, fun _ => by simp⟩
  · have hinside : UriInside (literal "http://" ++ text) ↔
        ∀ i, strstr text [colon] = some i → i < MAX_HOSTNAME_LEN ∧
          ∀ j, strstr (text.drop (i + 1)) [slash] = some j →
            j < MAX_PORT_LEN := by
      constructor
      · intro h
        exact h text rfl
      · rintro h text' heq
        rwa [← List.append_cancel_left heq]
    rw [hinside]
    rcases hcases with ⟨hnone, hout⟩ | ⟨host, after, hcolon, rfl, hcases⟩
    · rw [hout, hnone]
      refine ⟨?_, fun _ => by simp⟩
      intro _ i hi
      cases hi
    · have hfind : strstr (host ++ colon :: after) [colon] = some host.length :=
        strstr_byte_append hcolon
      have hafter : (host ++ colon :: after).drop (host.length + 1) = after := by
        simp
      rw [hfind]
      simp only [Option.some_inj, forall_eq', hafter]
      rcases hcases with ⟨hlong, hout⟩ | ⟨hhost, hnone, hout⟩ |
        ⟨hhost, port, rest, hslash, rfl, hcases⟩
      · rw [hout]
        exact ⟨fun h => absurd rfl h, fun h => absurd h.1 (by omega)⟩
      · rw [hout, hnone]
        exact ⟨fun _ => ⟨hhost, fun j hj => by cases hj⟩, fun _ => by simp⟩
      · rw [strstr_byte_append hslash]
        simp only [Option.some_inj, forall_eq']
        simp only [List.length_append, List.length_cons] at hlength
        rcases hcases with ⟨hlong, hout⟩ | ⟨hport, _, hout⟩
        · rw [hout]
          refine ⟨fun h => absurd rfl h, fun h => absurd ⟨h.2, ?_⟩ hlong⟩
          rw [List.length_cons]
          omega
        · rw [hout]
          exact ⟨fun _ => ⟨hhost, hport⟩, fun _ => by simp⟩

/-- A line that is spelled has parts that are shorter than the URI. -/
theorem RequestLine.Spells.length_le
    (h : line.Spells uri) :
    line.path.length ≤ uri.length ∧ line.key.length ≤ uri.length := by
  have hlength := congrArg List.length h.uri_eq
  simp only [List.length_append, List.length_cons] at hlength
  rw [RequestLine.key, List.length_append]
  omega

/-- A URI that spells a line is accepted when its parts fit. -/
theorem UriInside.accepts
    (h : UriInside uri)
    (hlength : uri.length < MAXLINE)
    (hspells : line.Spells uri) :
    parseUri uri = .ok (some line) := by
  obtain ⟨text, htext, hcolon, _, hafter, hslash⟩ := hspells.found
  obtain ⟨hhost, hbehind⟩ := h text htext _ hcolon
  rw [hafter] at hbehind
  exact parseUri_of_spells hspells hhost (hbehind _ hslash)
    (hspells.length_le.1.trans_lt hlength)

end Limits

section Handling

variable {buf : Buffer MAXLINE} {object_buf : Buffer MAX_OBJECT_SIZE}
  {stream response : List Byte} {c : Cache} {line : RequestLine}
  {headers : List HeaderLine} {first uri : CStr} {rest : List CStr}

/-- `front` are the header lines in front of CRLF. -/
def Headed (rest front : List CStr) : Prop :=
  (∃ rest', rest = front ++ crlf :: rest') ∧
    ∀ s ∈ front, s ≠ crlf ∧ (strstr s separator).isSome

/-- What a request line `line` needs of the other lines, of the response and of
what `object_buf` holds. -/
def RestBounded
    (object_buf : Buffer MAX_OBJECT_SIZE) (response : List Byte) (c : Cache)
    (first : CStr) (rest : List CStr) (line : RequestLine) : Prop :=
  (split (headerTexts first rest)).length ≤ NUM_HEADERS ∧
    (∀ s ∈ split (headerTexts first rest), HeaderFits s) ∧
      ∀ front, Headed rest front → c.reader line.key = none →
        (requestBytes line.path front).length < MAXLINE ∧
          Fetches { line := line, response := response, object_buf := object_buf }

/-- There is a URI, the parts of the request fit as far as they are copied, and a
request that is not in the cache fits in its array, as the response does in
`object_buf`. -/
def Bounded
    (object_buf : Buffer MAX_OBJECT_SIZE) (stream response : List Byte)
    (c : Cache) : Prop :=
  ∃ first rest uri, texts stream = first :: rest ∧ scanUri first = some uri ∧
    UriInside uri ∧ ∀ line : RequestLine, line.Spells uri →
      RestBounded object_buf response c first rest line

/-- No copy runs past the end of its array or starts from a variable that has not
been set, and what is relayed is the whole response, which is not cached when it is
too large. -/
def StaysInside
    (result : Result Handled) (response : List Byte) (c : Cache) : Prop :=
  result ≠ .error .outOfBounds ∧ result ≠ .ok .unset ∧
    ∀ bytes c', result = .ok (.served (.miss bytes) c') →
      bytes = response ∧ (MAX_OBJECT_SIZE ≤ response.length → c' = c)

/-- A miss relays the response, and caches it only when it is short. -/
theorem handle_miss
    {bytes : List Byte} {c' : Cache}
    (h : handle buf object_buf stream response c =
      .ok (.served (.miss bytes) c')) :
    bytes = response ∧ (MAX_OBJECT_SIZE ≤ response.length → c' = c) := by
  unfold handle at h
  obtain ⟨parsed, _, h⟩ := Result.bind_eq_ok h
  cases parsed with
  | exits => cases h
  | nothing => cases h
  | noUri => cases h
  | request line headers =>
      obtain ⟨_, _, h⟩ := Result.bind_eq_ok h
      obtain ⟨⟨out, c''⟩, hdoit, h⟩ := Result.bind_eq_ok h
      cases h
      rcases doit_cases hdoit with ⟨_, _, hout, _⟩ | ⟨_, hout, r, _, hcached⟩
      · cases hout
      · cases hout
        refine ⟨rfl, fun hlong => ?_⟩
        rcases hcached with ⟨hshort, _⟩ | ⟨_, hsame⟩
        · exact absurd hshort (not_lt.mpr hlong)
        · exact hsame

/-- What the proxy does with a request that has been parsed. -/
theorem handle_request
    (buf : Buffer MAXLINE) (object_buf : Buffer MAX_OBJECT_SIZE)
    (response : List Byte) (c : Cache)
    (hparse : parseRequest stream = .ok (.request line headers))
    (hkey : line.key.length < MAXLINE) :
    ((c.reader line.key = none →
      (requestBytes line.path ((headerLines stream).map stored)).length <
          MAXLINE ∧
        Fetches { line := line, response := response, object_buf := object_buf }) →
      ∃ out c', handle buf object_buf stream response c =
        .ok (.served out c')) ∧
    (¬ (c.reader line.key = none →
      (requestBytes line.path ((headerLines stream).map stored)).length <
          MAXLINE ∧
        Fetches { line := line, response := response, object_buf := object_buf }) →
      handle buf object_buf stream response c = .error .outOfBounds) := by
  unfold handle
  rw [hparse]
  simp only [Result.ok_bind]
  cases hread : c.reader line.key with
  | some i =>
      obtain ⟨out, hhit⟩ : ∃ out, doit ⟨line, response, object_buf⟩ c = .ok out :=
        ⟨_, doit_hit hkey hread⟩
      simp only [fetch, Result.ok_bind, hhit]
      exact ⟨fun _ => ⟨_, _, rfl⟩, fun h => absurd (fun hnone => by cases hnone) h⟩
  | none =>
      obtain ⟨hserves, hfaults⟩ :=
        doit_fetches ⟨line, response, object_buf⟩ hkey hread
      simp only [fetch]
      rcases sendToServer_cases buf hparse with
        ⟨hfits, sent, _, hsent, _⟩ | ⟨hlong, hfault⟩
      · simp only [hsent, Result.ok_bind]
        constructor
        · intro h
          obtain ⟨⟨out, c'⟩, hout⟩ := hserves (h trivial).2
          exact ⟨out, c', by rw [hout]; rfl⟩
        · intro h
          rw [hfaults (fun hfetches => h (fun _ => ⟨hfits, hfetches⟩))]
          rfl
      · simp only [hfault]
        exact ⟨fun h => absurd (h trivial).1 (not_lt.mpr hlong), fun _ => rfl⟩

/-- The lines in front of CRLF are the ones that are split. -/
theorem Headed.split_eq
    {front : List CStr}
    (h : Headed rest front) :
    split rest = front := by
  obtain ⟨⟨rest', rfl⟩, hall⟩ := h
  rw [split, List.takeWhile_append_of_pos]
  · simp
  · intro s hs
    simpa using hall s hs

/-- When the parts of a request fit, it is one exactly when its header lines end
with CRLF. -/
theorem parse_headed
    (htexts : texts stream = first :: rest)
    (hscan : scanUri first = some uri)
    (hline : parseUri uri = .ok (some line))
    (hcount : (split (headerTexts first rest)).length ≤ NUM_HEADERS)
    (hfits : ∀ s ∈ split (headerTexts first rest), HeaderFits s) :
    (parseRequest stream = .ok .exits ∧ ∀ front, ¬ Headed rest front) ∨
      ∃ headers, parseRequest stream = .ok (.request line headers) ∧
        ∀ front, Headed rest front ↔ (headerLines stream).map stored = front := by
  have hrun := parseRequest_line htexts hscan hline
  have hcount' : ([] : List HeaderLine).length +
      (split (headerTexts first rest)).length ≤ NUM_HEADERS := by
    rwa [List.length_nil, Nat.zero_add]
  obtain ⟨out, hout⟩ :=
    (takeHeaders_inside line _ (Nat.zero_le _)).1 ⟨hcount', hfits⟩
  rcases takeHeaders_result hout with rfl | ⟨headers, rfl⟩
  · refine .inl ⟨hrun.trans hout, ?_⟩
    -- with such lines the loop would have come to CRLF
    intro front hheaded
    have hsplit := hheaded.split_eq
    obtain ⟨⟨rest', rfl⟩, hall⟩ := hheaded
    have hne : front ++ crlf :: rest' ≠ [] := by
      simp
    rw [headerTexts, if_neg hne] at hout hcount' hfits
    rw [hsplit] at hcount' hfits
    obtain ⟨headers, hheaders⟩ :=
      takeHeaders_ok line rest' hcount' (fun s hs => ⟨(hall s hs).1, hfits s hs⟩)
    rw [hheaders] at hout
    cases hout
  · have hparse := hrun.trans hout
    refine .inr ⟨headers, hparse, ?_⟩
    obtain ⟨_, _, hsent⟩ := parseRequest_texts hparse
    rw [parseRequest_eq, htexts] at hparse
    obtain ⟨_, front, rest', _, _, rfl, _, hall, hmap⟩ :=
      parseTexts_request hparse
    have hheaded : Headed (front ++ crlf :: rest') front := by
      refine ⟨⟨rest', rfl⟩, fun s hs => ⟨(hall s hs).1, ?_⟩⟩
      obtain ⟨i, hi, _⟩ := (hall s hs).2
      rw [hi]
      rfl
    rw [← hsent, hmap]
    intro front'
    constructor
    · intro hheaded'
      exact hheaded.split_eq.symm.trans hheaded'.split_eq
    · rintro rfl
      exact hheaded

/-- A connection that is neither left unset nor at a fault of an array. -/
theorem StaysInside.of_ok
    {out : Handled}
    (hrun : handle buf object_buf stream response c = .ok out)
    (hout : out ≠ .unset) :
    StaysInside (handle buf object_buf stream response c) response c := by
  refine ⟨?_, ?_, fun _ _ h => handle_miss h⟩
  · rw [hrun]
    simp
  · rw [hrun]
    simpa using hout

theorem not_staysInside
    {result : Result Handled}
    (hrun : result = .error .outOfBounds ∨ result = .ok .unset) :
    ¬ StaysInside result response c := by
  rintro ⟨hinside, hset, _⟩
  exact hrun.elim hinside hset

/-- The copies behind a request line that is accepted. -/
theorem handle_line
    (buf : Buffer MAXLINE)
    (htexts : texts stream = first :: rest)
    (hscan : scanUri first = some uri)
    (hline : parseUri uri = .ok (some line))
    (hkey : line.key.length < MAXLINE) :
    StaysInside (handle buf object_buf stream response c) response c ↔
      RestBounded object_buf response c first rest line := by
  by_cases hfits : (split (headerTexts first rest)).length ≤ NUM_HEADERS ∧
      ∀ s ∈ split (headerTexts first rest), HeaderFits s
  · rcases parse_headed htexts hscan hline hfits.1 hfits.2 with
      ⟨hexits, hnone⟩ | ⟨headers, hparse, hfront⟩
    · have hrun : handle buf object_buf stream response c = .ok .exits := by
        rw [handle, hexits]
        rfl
      refine iff_of_true (StaysInside.of_ok hrun (by simp)) ?_
      exact ⟨hfits.1, hfits.2, fun front h => absurd h (hnone front)⟩
    · obtain ⟨hserves, hfaults⟩ :=
        handle_request buf object_buf response c hparse hkey
      constructor
      · intro hstays
        refine ⟨hfits.1, hfits.2, ?_⟩
        intro front hheaded
        rw [← (hfront front).mp hheaded]
        by_contra hlong
        exact not_staysInside (.inl (hfaults hlong)) hstays
      · rintro ⟨_, _, hsends⟩
        obtain ⟨out, c', hrun⟩ := hserves (hsends _ ((hfront _).mpr rfl))
        exact StaysInside.of_ok hrun (by simp)
  · have hfault : handle buf object_buf stream response c =
        .error .outOfBounds := by
      rw [handle, parseRequest_line htexts hscan hline,
        (takeHeaders_inside line _ (Nat.zero_le _)).2
        (by simpa only [List.length_nil, Nat.zero_add] using hfits)]
      rfl
    refine iff_of_false (not_staysInside (.inl hfault)) ?_
    exact fun h => hfits ⟨h.1, h.2.1⟩

/-- A URI that is not accepted spells no line, once its copies stay inside. -/
theorem UriInside.vacuous
    {P : RequestLine → Prop}
    (hinside : UriInside uri)
    (hlength : uri.length < MAXLINE)
    (hreject : ∀ line, parseUri uri ≠ .ok (some line)) :
    ∀ line : RequestLine, line.Spells uri → P line := by
  intro line hspells
  exact absurd (hinside.accepts hlength hspells) (hreject line)

/-- The copies of a request with a URI. -/
theorem handle_uri
    (buf : Buffer MAXLINE)
    (htexts : texts stream = first :: rest)
    (hscan : scanUri first = some uri) :
    StaysInside (handle buf object_buf stream response c) response c ↔
      UriInside uri ∧ ∀ line : RequestLine, line.Spells uri →
        RestBounded object_buf response c first rest line := by
  have hlength : uri.length < MAXLINE :=
    (scanUri_inside hscan).length_le.trans_lt (length_of_texts htexts)
  have hinside := parseUri_inside hlength
  have hparse := parseRequest_eq stream
  rw [htexts] at hparse
  rcases parseTexts_cases first rest with ⟨hnone, _⟩ | ⟨uri', hscan', hcases⟩
  · cases hnone.symm.trans hscan
  · cases hscan.symm.trans hscan'
    rcases hcases with ⟨e, herror, hrun⟩ | ⟨hnone, hrun⟩ | ⟨line, hline, _⟩
    · have hfault : handle buf object_buf stream response c = .error e := by
        rw [handle, hparse, hrun]
        rfl
      rw [herror] at hinside
      by_cases he : e = .outOfBounds
      · rw [he] at hfault hinside
        refine iff_of_false (not_staysInside (.inl hfault)) ?_
        exact fun h => hinside.mpr h.1 rfl
      · have huri : UriInside uri := hinside.mp (by simpa using he)
        refine iff_of_true ?_ ⟨huri, huri.vacuous hlength (by simp [herror])⟩
        rw [hfault]
        refine ⟨by simpa using he, by simp, ?_⟩
        intro _ _ h
        cases h
    · have hexits : handle buf object_buf stream response c = .ok .exits := by
        rw [handle, hparse, hrun]
        rfl
      have huri : UriInside uri := hinside.mp (by simp [hnone])
      exact iff_of_true (StaysInside.of_ok hexits (by simp))
        ⟨huri, huri.vacuous hlength (by simp [hnone])⟩
    · have huri : UriInside uri := hinside.mp (by simp [hline])
      obtain ⟨hspells, _⟩ := parseUri_spells hline
      have hkey : line.key.length < MAXLINE :=
        hspells.length_le.2.trans_lt hlength
      rw [handle_line buf htexts hscan hline hkey]
      constructor
      · intro h
        refine ⟨huri, fun line' hspells' => ?_⟩
        rwa [hspells'.unique hspells]
      · rintro ⟨_, h⟩
        exact h line hspells

/-- The copies of a connection all stay inside their arrays exactly when its parts
fit. -/
theorem handle_inside_iff
    (buf : Buffer MAXLINE) (object_buf : Buffer MAX_OBJECT_SIZE)
    (stream response : List Byte) (c : Cache) :
    StaysInside (handle buf object_buf stream response c) response c ↔
      Bounded object_buf stream response c := by
  have hparse := parseRequest_eq stream
  cases htexts : texts stream with
  | nil =>
      have hrun : handle buf object_buf stream response c = .ok .unset := by
        rw [handle, hparse, htexts]
        rfl
      refine iff_of_false (not_staysInside (.inr hrun)) ?_
      rintro ⟨first, rest, uri, htexts', _⟩
      cases htexts.symm.trans htexts'
  | cons first rest =>
      cases hscan : scanUri first with
      | none =>
          have hrun : handle buf object_buf stream response c =
              .ok .unset := by
            rw [handle, hparse, htexts, parseTexts, hscan]
            rfl
          refine iff_of_false (not_staysInside (.inr hrun)) ?_
          rintro ⟨first', rest', uri, htexts', hscan', _⟩
          cases htexts.symm.trans htexts'
          cases hscan.symm.trans hscan'
      | some uri =>
          rw [handle_uri buf htexts hscan]
          constructor
          · intro h
            exact ⟨first, rest, uri, htexts, hscan, h⟩
          · rintro ⟨first', rest', uri', htexts', hscan', h⟩
            cases htexts.symm.trans htexts'
            cases hscan.symm.trans hscan'
            exact h

end Handling

section Example

/-- A request with a header of `MAX_HEADER_LEN` bytes. -/
def longHeader : List Byte :=
  literal "GET http://h:80/ HTTP/1.0" ++ crlf ++ literal "Host: " ++
    List.replicate MAX_HEADER_LEN 104 ++ crlf ++ crlf

theorem longHeader_outOfBounds :
    parseRequest longHeader = .error .outOfBounds := by
  decide

theorem longHeader_overruns :
    ¬ ∀ buf object_buf stream response c,
      StaysInside (handle buf object_buf stream response c) response c := by
  intro hclaim
  obtain ⟨hinside, _⟩ := hclaim clearLine zeros longHeader [] freshCache
  refine hinside ?_
  rw [handle, longHeader_outOfBounds]
  rfl

end Example

end Proxy
end PastWork
