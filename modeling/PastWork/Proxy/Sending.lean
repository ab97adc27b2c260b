import PastWork.Proxy.Parsing

/-!
# The request to the server

`send_to_server` joins the headers again, each at the end of the string so far, and
writes the whole array.  The text is the one of the client, up to the NUL bytes in
its lines, but what stands behind its NUL is written, too.
-/

namespace PastWork
namespace Proxy

/-- `"GET %s HTTP/1.0\r\n"` -/
def getLine (path : CStr) : CStr :=
  literal "GET " ++ path ++ literal " HTTP/1.0" ++ crlf

/-- `send_to_server` after it has connected; `buf` is what the array holds before,
and the result is what is written. -/
def sendToServer
    (buf : Buffer MAXLINE) (line : RequestLine) (headers : List HeaderLine) :
    Result (List Byte) := do
  let buf ← buf.strcpy 0 (getLine line.path)
  let buf ← (headers.map HeaderLine.text).foldlM Buffer.strcat buf
  let buf ← buf.strcat crlf
  .ok buf.bytes

/-- The lines that the client has sent between its request line and CRLF. -/
def headerLines (stream : List Byte) : List (List Byte) :=
  (lines stream).tail.takeWhile (fun buf => stored buf ≠ crlf)

/-- The request with these header lines. -/
def requestBytes (path : CStr) (headerLines : List (List Byte)) : List Byte :=
  getLine path ++ headerLines.flatten ++ crlf

section Sending

variable {buf : Buffer MAXLINE} {line : RequestLine} {headers : List HeaderLine}

theorem getLine_noNul
    {path : CStr}
    (hpath : 0 ∉ path) :
    0 ∉ getLine path := by
  have hget : (0 : Byte) ∉ literal "GET " := by decide
  have hversion : (0 : Byte) ∉ literal " HTTP/1.0" := by decide
  have hcrlf : (0 : Byte) ∉ crlf := by decide
  simp [getLine, hpath, hget, hversion, hcrlf]

/-- The parts are printed one after another. -/
theorem sendToServer_eq
    (buf : Buffer MAXLINE)
    (hpath : 0 ∉ line.path)
    (hheaders : ∀ h ∈ headers, 0 ∉ h.text) :
    sendToServer buf line headers = (do
      let buf ← buf.strcpyAll 0
        (getLine line.path :: (headers.map HeaderLine.text ++ [crlf]))
      .ok buf.bytes) := by
  have hall : ∀ s ∈ headers.map HeaderLine.text ++ [crlf], 0 ∉ s := by
    intro s hs
    rcases List.mem_append.mp hs with hs | hs
    · obtain ⟨h, hh, rfl⟩ := List.mem_map.mp hs
      exact hheaders h hh
    · rw [List.mem_singleton.mp hs]
      decide
  rw [sendToServer, Buffer.strcpyAll, Nat.zero_add]
  cases hcopy : buf.strcpy 0 (getLine line.path) with
  | error e =>
      rfl
  | ok buf' =>
      have hcstr := Buffer.cstr_strcpy hcopy (getLine_noNul hpath)
      have hfold := Buffer.foldlM_strcat hcstr hall
      rw [List.foldlM_append] at hfold
      simp only [List.foldlM_cons, List.foldlM_nil] at hfold
      simp only [Result.ok_bind]
      rw [← hfold]
      cases (headers.map HeaderLine.text).foldlM Buffer.strcat buf' with
      | error e => rfl
      | ok buf'' =>
          simp only [Result.ok_bind]
          cases buf''.strcat crlf <;> rfl

theorem flatten_parts
    (path : CStr) (parts : List CStr) :
    (getLine path :: (parts ++ [crlf])).flatten = requestBytes path parts := by
  simp [requestBytes]

/-- A text that fits is written, and the rest of the array with it. -/
theorem sendToServer_ok
    (buf : Buffer MAXLINE)
    (hpath : 0 ∉ line.path)
    (hheaders : ∀ h ∈ headers, 0 ∉ h.text)
    (hfits : (requestBytes line.path
      (headers.map HeaderLine.text)).length < MAXLINE) :
    ∃ sent stale, sendToServer buf line headers = .ok sent ∧
      sent = requestBytes line.path (headers.map HeaderLine.text) ++ 0 :: stale ∧
        sent.length = MAXLINE := by
  rw [← flatten_parts] at hfits
  rw [← Nat.zero_add (List.length _)] at hfits
  obtain ⟨buf', hprint⟩ := Buffer.strcpyAll_ok buf hfits
  obtain ⟨stale, hbytes⟩ := Buffer.strcpyAll_bytes (by simp) hprint
  rw [List.take_zero, List.nil_append, flatten_parts] at hbytes
  refine ⟨buf'.bytes, stale, ?_, hbytes, buf'.length_bytes⟩
  rw [sendToServer_eq buf hpath hheaders, hprint]
  rfl

/-- A text that does not fit is written past the end of the array. -/
theorem sendToServer_outOfBounds
    (buf : Buffer MAXLINE)
    (hpath : 0 ∉ line.path)
    (hheaders : ∀ h ∈ headers, 0 ∉ h.text)
    (hlong : MAXLINE ≤ (requestBytes line.path
      (headers.map HeaderLine.text)).length) :
    sendToServer buf line headers = .error .outOfBounds := by
  rw [← flatten_parts] at hlong
  rw [sendToServer_eq buf hpath hheaders,
    Buffer.strcpyAll_outOfBounds buf (by simp) (by rwa [Nat.zero_add])]
  rfl

end Sending

section Lines

variable {stream buf : List Byte} {line : RequestLine}
  {headers : List HeaderLine} {s uri : CStr}

theorem noNul_of_mem_texts
    (hs : s ∈ texts stream) :
    0 ∉ s := by
  obtain ⟨buf, _, rfl⟩ := List.mem_map.mp hs
  exact stored_noNul buf

/-- The words that are scanned are parts of the string. -/
theorem scanUri_inside
    (h : scanUri s = some uri) :
    uri <:+: s := by
  have hword : ∀ {s w rest : CStr}, scanString s = some (w, rest) →
      w <:+: s ∧ rest <:+: s := by
    intro s w rest h
    unfold scanString at h
    dsimp only at h
    split at h
    next => cases h
    next =>
        cases h
        have hdrop := (List.dropWhile_suffix (l := s) isspace).isInfix
        exact ⟨(List.takeWhile_prefix _).isInfix.trans hdrop,
          (List.dropWhile_suffix _).isInfix.trans hdrop⟩
  unfold scanUri at h
  obtain ⟨⟨_, rest⟩, hfirst, h⟩ := Option.bind_eq_some_iff.mp h
  obtain ⟨⟨w, _⟩, hsecond, h⟩ := Option.bind_eq_some_iff.mp h
  cases h
  exact (hword hsecond).1.trans (hword hfirst).2

theorem path_inside
    (h : line.Spells uri) :
    line.path <:+: uri := by
  refine ⟨literal "http://" ++ line.hostname ++ [colon] ++ line.port, [], ?_⟩
  rw [h.uri_eq]
  simp

/-- A request that has been parsed has the text of the lines of the client. -/
theorem parseRequest_texts
    (h : parseRequest stream = .ok (.request line headers)) :
    0 ∉ line.path ∧ (∀ h ∈ headers, 0 ∉ h.text) ∧
      headers.map HeaderLine.text = (headerLines stream).map stored := by
  rw [parseRequest_eq] at h
  cases htexts : texts stream with
  | nil =>
      rw [htexts] at h
      cases h
  | cons first rest =>
      rw [htexts] at h
      obtain ⟨uri, front, rest', hscan, hline, rfl, _, hall, hmap⟩ :=
        parseTexts_request h
      have hnul : ∀ s ∈ texts stream, 0 ∉ s := fun s hs => noNul_of_mem_texts hs
      rw [htexts] at hnul
      have hfirst : 0 ∉ first := hnul first List.mem_cons_self
      have hpath := (path_inside (parseUri_spells hline).1).trans
        (scanUri_inside hscan)
      refine ⟨fun hmem => hfirst (hpath.subset hmem), ?_, ?_⟩
      · intro header hheader
        refine hnul header.text ?_
        have hmem : header.text ∈ front := hmap ▸ List.mem_map_of_mem hheader
        simp [hmem]
      · have htail : ((lines stream).tail).map stored =
            front ++ crlf :: rest' := by
          rw [List.map_tail]
          exact congrArg List.tail htexts
        have hfront : (front ++ crlf :: rest').takeWhile
            (fun s => s ≠ crlf) = front := by
          rw [List.takeWhile_append_of_pos]
          · simp
          · intro s hs
            simpa using (hall s hs).1
        rw [hmap, headerLines, ← hfront, ← htail, List.takeWhile_map]
        rfl

/-- A text with a NUL behind it is not the text with the lines in full. -/
theorem text_ne_lines
    (raw : List (List Byte)) (stale : List Byte) :
    (raw.map stored).flatten ++ crlf ++ 0 :: stale ≠ raw.flatten ++ crlf := by
  induction raw with
  | nil =>
      intro heq
      have hlength := congrArg List.length heq
      simp at hlength
  | cons buf raw ih =>
      intro heq
      simp only [List.map_cons, List.flatten_cons, List.append_assoc] at heq ih
      rcases stored_cases buf with hsame | ⟨rest, hrest⟩
      · rw [hsame] at heq
        exact ih (List.append_cancel_left heq)
      · generalize stored buf = text at heq hrest
        subst hrest
        rw [List.append_assoc] at heq
        -- behind this string there is text on one side, and a NUL on the other
        have htail := List.append_cancel_left heq
        rw [List.cons_append, ← List.append_assoc] at htail
        have htext : 0 ∉ (raw.map stored).flatten ++ crlf := by
          intro hmem
          rcases List.mem_append.mp hmem with hmem | hmem
          · obtain ⟨s, hs, hmem⟩ := List.mem_flatten.mp hmem
            obtain ⟨buf, _, rfl⟩ := List.mem_map.mp hs
            exact stored_noNul buf hmem
          · exact absurd hmem (by decide)
        cases hstart : (raw.map stored).flatten ++ crlf with
        | nil =>
            simp [crlf] at hstart
        | cons c rest' =>
            rw [hstart, List.cons_append] at htail
            rw [hstart] at htext
            exact htext ((List.cons.inj htail).1 ▸ List.mem_cons_self)

/-- What is written is the text of the request, a NUL and the rest of the array,
or the text is too long for the array. -/
theorem sendToServer_cases
    (buf : Buffer MAXLINE)
    (h : parseRequest stream = .ok (.request line headers)) :
    ((requestBytes line.path ((headerLines stream).map stored)).length <
        MAXLINE ∧
      ∃ sent stale, sendToServer buf line headers = .ok sent ∧
        sent.length = MAXLINE ∧
        sent = requestBytes line.path ((headerLines stream).map stored) ++
          0 :: stale) ∨
    (MAXLINE ≤
        (requestBytes line.path ((headerLines stream).map stored)).length ∧
      sendToServer buf line headers = .error .outOfBounds) := by
  obtain ⟨hpath, hheaders, htexts⟩ := parseRequest_texts h
  rw [← htexts]
  by_cases hfits :
      (requestBytes line.path (headers.map HeaderLine.text)).length < MAXLINE
  · obtain ⟨sent, stale, hsent, hbytes, hlength⟩ :=
      sendToServer_ok buf hpath hheaders hfits
    exact .inl ⟨hfits, sent, stale, hsent, hlength, hbytes⟩
  · exact .inr ⟨not_lt.mp hfits,
      sendToServer_outOfBounds buf hpath hheaders (not_lt.mp hfits)⟩

theorem sendToServer_ne
    (buf : Buffer MAXLINE)
    (h : parseRequest stream = .ok (.request line headers)) :
    sendToServer buf line headers ≠
      .ok (requestBytes line.path (headerLines stream)) := by
  intro hexact
  rcases sendToServer_cases buf h with
    ⟨_, sent, stale, hsent, _, hbytes⟩ | ⟨_, hfault⟩
  · rw [hsent] at hexact
    have heq := (Except.ok.inj hexact).symm.trans hbytes
    rw [requestBytes, requestBytes] at heq
    simp only [List.append_assoc] at heq
    have htail := List.append_cancel_left heq
    have hne := text_ne_lines (headerLines stream) stale
    simp only [List.append_assoc] at hne
    exact hne htail.symm
  · rw [hfault] at hexact
    cases hexact

/-- For no request that is accepted does the server get the request line, the
header lines of the client and CRLF: the NUL behind them and the rest of the
array are sent too, or the text does not fit in the array. -/
theorem sendToServer_inexact
    (buf : Buffer MAXLINE)
    (h : parseRequest stream = .ok (.request line headers)) :
    sendToServer buf line headers ≠
        .ok (requestBytes line.path (headerLines stream)) ∧
      ∀ sent, sendToServer buf line headers = .ok sent →
        sent.length = MAXLINE ∧ ∃ stale, sent =
          requestBytes line.path ((headerLines stream).map stored) ++
            0 :: stale := by
  refine ⟨sendToServer_ne buf h, ?_⟩
  intro sent hsent
  rcases sendToServer_cases buf h with
    ⟨_, sent', stale, hsent', hlength, hbytes⟩ | ⟨_, hfault⟩
  · rw [hsent] at hsent'
    cases hsent'
    exact ⟨hlength, stale, hbytes⟩
  · rw [hsent] at hfault
    cases hfault

end Lines

section Example

/-- `GET http://h:80/ HTTP/1.0` with one header. -/
def hostRequest : List Byte :=
  literal "GET http://h:80/ HTTP/1.0" ++ crlf ++ literal "Host: h" ++ crlf ++ crlf

def hostLine : HeaderLine where
  headername := literal "Host"
  header := literal "h" ++ crlf

theorem hostRequest_parsed :
    parseRequest hostRequest = .ok (.request hiRequest.line [hostLine]) := by
  decide

/-- An array that is all NUL. -/
def clearLine : Buffer MAXLINE where
  bytes := List.replicate MAXLINE 0
  length_bytes := List.length_replicate

theorem hostRequest_inexact :
    sendToServer clearLine hiRequest.line [hostLine] ≠
      .ok (requestBytes (literal "/") (headerLines hostRequest)) :=
  (sendToServer_inexact clearLine hostRequest_parsed).1

theorem hostRequest_padded :
    ¬ ∀ stream line headers buf,
      parseRequest stream = .ok (.request line headers) →
        sendToServer buf line headers =
          .ok (requestBytes line.path (headerLines stream)) := by
  intro hclaim
  exact sendToServer_ne clearLine hostRequest_parsed
    (hclaim hostRequest hiRequest.line [hostLine] clearLine hostRequest_parsed)

end Example

end Proxy
end PastWork
