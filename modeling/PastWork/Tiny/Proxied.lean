import PastWork.Proxy.Delivery
import PastWork.Tiny.Server

/-!
# Tiny behind the proxy

What the proxy sends for a request is a request to Tiny for the path of the URI.
The page goes back through the relay, so that the client gets from the proxy what
Tiny answers for that path.
-/

namespace PastWork
namespace Tiny

open Proxy (MAXLINE MAX_OBJECT_SIZE Cache RequestLine HeaderLine Parsed Handled
  Whole parseRequest requestBytes headerLines getLine sendToServer asked handle
  isspace scanString scanUri crlf newline slash lines texts)

section Words

variable {s w rest uri path : CStr} {c : Byte}

theorem scanString_skip
    (hc : isspace c = true)
    (s : CStr) :
    scanString (c :: s) = scanString s := by
  rw [scanString, List.dropWhile_cons_of_pos hc, ← scanString]

/-- A word with a blank behind it is scanned. -/
theorem scanString_word
    (hne : w ≠ [])
    (hw : ∀ d ∈ w, isspace d = false)
    (hc : isspace c = true)
    (rest : CStr) :
    scanString (w ++ c :: rest) = some (w, c :: rest) := by
  have hfirst : (w ++ c :: rest).dropWhile isspace = w ++ c :: rest := by
    obtain ⟨d, w, rfl⟩ := List.exists_cons_of_ne_nil hne
    exact List.dropWhile_cons_of_neg (by simp [hw d List.mem_cons_self])
  have hinside : ∀ d ∈ w, (!isspace d) = true := by
    intro d hd
    rw [hw d hd]
    rfl
  rw [scanString, hfirst, if_neg (by simp [hne]),
    List.takeWhile_append_of_pos hinside, List.dropWhile_append_of_pos hinside,
    List.takeWhile_cons_of_neg (by simp [hc]),
    List.dropWhile_cons_of_neg (by simp [hc]), List.append_nil]

/-- A word that has been scanned has no blanks. -/
theorem noBlank_of_scanUri
    (h : scanUri s = some uri) :
    ∀ d ∈ uri, isspace d = false := by
  obtain ⟨⟨_, rest⟩, _, h⟩ := Option.bind_eq_some_iff.mp h
  obtain ⟨⟨w, after⟩, hsecond, h⟩ := Option.bind_eq_some_iff.mp h
  cases h
  unfold scanString at hsecond
  dsimp only at hsecond
  split at hsecond
  next => cases hsecond
  next =>
      obtain ⟨rfl, _⟩ := Prod.mk.inj (Option.some.inj hsecond)
      intro d hd
      simpa using List.mem_takeWhile_imp hd

/-- The method and the URI of the line that the proxy sends. -/
theorem scanString_getLine
    (hne : path ≠ [])
    (hpath : ∀ d ∈ path, isspace d = false) :
    ∃ words words', scanString (getLine path) = some (literal "GET", words) ∧
      scanString words = some (path, words') := by
  have hblank : isspace 32 = true := by decide
  have hline : getLine path =
      literal "GET" ++ 32 :: (path ++ 32 :: (literal "HTTP/1.0" ++ crlf)) := by
    have hget : literal "GET " = literal "GET" ++ [32] := by decide
    have hversion : literal " HTTP/1.0" = 32 :: literal "HTTP/1.0" := by decide
    rw [getLine, hget, hversion]
    simp
  have hmethod : ∀ d ∈ literal "GET", isspace d = false := by
    simp [literal, isspace]
  have hfirst := scanString_word (by simp [literal]) hmethod hblank
    (path ++ 32 :: (literal "HTTP/1.0" ++ crlf))
  have hsecond := scanString_word hne hpath hblank (literal "HTTP/1.0" ++ crlf)
  rw [← scanString_skip hblank] at hsecond
  rw [← hline] at hfirst
  exact ⟨_, _, hfirst, hsecond⟩

end Words

section Requests

variable {stream text : List Byte} {line : RequestLine}
  {headers : List HeaderLine}

/-- The path of an accepted request is one word. -/
theorem path_of_request
    (h : parseRequest stream = .ok (.request line headers)) :
    line.path ≠ [] ∧ ∀ d ∈ line.path, isspace d = false := by
  rw [Proxy.parseRequest_eq] at h
  cases htexts : texts stream with
  | nil =>
      rw [htexts] at h
      cases h
  | cons first rest =>
      rw [htexts] at h
      obtain ⟨uri, _, _, hscan, hline, _⟩ := Proxy.parseTexts_request h
      have hspells := (Proxy.parseUri_spells hline).1
      refine ⟨?_, fun d hd => ?_⟩
      · obtain ⟨rest', hpath⟩ := hspells.path
        simp [hpath]
      · exact noBlank_of_scanUri hscan d
          ((Proxy.path_inside hspells).subset hd)

theorem stored_eq_self
    {buf : List Byte}
    (hbuf : 0 ∉ buf) :
    stored buf = buf := by
  refine List.takeWhile_eq_self_iff.mpr fun c hc => ?_
  have hne : c ≠ 0 := fun hzero => hbuf (hzero ▸ hc)
  simpa using hne

/-- Without NUL bytes the lines are their strings. -/
theorem lines_eq_texts
    (hnul : 0 ∉ stream) :
    lines stream = texts stream := by
  have hall : ∀ buf ∈ lines stream, stored buf = buf := by
    intro buf hbuf
    refine stored_eq_self fun hzero => hnul ?_
    exact Proxy.mem_of_mem_lines hbuf hzero
  rw [texts, List.map_congr_left hall, List.map_id']

/-- The header lines of an accepted request without NUL bytes are whole lines. -/
theorem whole_headerLines
    (hnul : 0 ∉ stream)
    (h : parseRequest stream = .ok (.request line headers)) :
    ∀ buf ∈ headerLines stream, Whole buf := by
  rw [Proxy.parseRequest_eq] at h
  cases htexts : texts stream with
  | nil =>
      rw [htexts] at h
      cases h
  | cons first rest =>
      have hstored : ∀ s ∈ texts stream, stored s = s := fun s hs =>
        stored_eq_self (Proxy.noNul_of_mem_texts hs)
      rw [htexts] at h hstored
      obtain ⟨_, front, rest', _, _, rfl, _, hall, _⟩ :=
        Proxy.parseTexts_request h
      have hlines : lines stream = (first :: front) ++ crlf :: rest' :=
        (lines_eq_texts hnul).trans htexts
      have hheaders : headerLines stream = front := by
        rw [headerLines, hlines, List.cons_append, List.tail_cons,
          List.takeWhile_append_of_pos]
        · simp [stored_eq_self (show 0 ∉ crlf by decide)]
        · intro s hs
          rw [hstored s (by simp [hs])]
          simpa using (hall s hs).1
      rw [hheaders]
      intro buf hbuf
      refine (Proxy.whole_of_lines hlines
        (List.mem_cons_of_mem _ hbuf)).resolve_right ?_
      -- a header that fits is shorter than the longest piece
      obtain ⟨i, _, hname, hvalue⟩ := (hall buf hbuf).2
      simp only [MAXLINE, Proxy.MAX_HEADERNAME_LEN,
        Proxy.MAX_HEADER_LEN] at hname hvalue ⊢
      omega

theorem stored_headerLines
    (hnul : 0 ∉ stream) :
    (headerLines stream).map stored = headerLines stream := by
  have hall : ∀ buf ∈ headerLines stream, stored buf = buf := by
    intro buf hbuf
    have hmem : buf ∈ lines stream :=
      List.mem_of_mem_tail ((List.takeWhile_prefix _).subset hbuf)
    exact stored_eq_self fun hzero =>
      hnul (Proxy.mem_of_mem_lines hmem hzero)
  rw [List.map_congr_left hall, List.map_id']

theorem whole_crlf :
    Whole crlf :=
  ⟨[13], by decide, by decide, rfl⟩

theorem whole_getLine
    {path : CStr}
    (hpath : ∀ d ∈ path, isspace d = false)
    (hlength : (getLine path).length < MAXLINE) :
    Whole (getLine path) := by
  refine ⟨literal "GET " ++ path ++ literal " HTTP/1.0" ++ [13], ?_, ?_, ?_⟩
  · have hother : newline ∉ literal "GET " ∧ newline ∉ literal " HTTP/1.0" ∧
        newline ≠ 13 := by
      decide
    have hnewline : newline ∉ path := by
      intro hmem
      have hblank := hpath newline hmem
      revert hblank
      decide
    simp [hother, hnewline]
  · simp only [getLine, List.length_append, crlf, List.length_cons] at hlength ⊢
    omega
  · simp [getLine, crlf]

/-- The strings of the lines that the server reads. -/
theorem texts_requestBytes
    {path : CStr} {bufs : List (List Byte)}
    (hpath : Whole (getLine path))
    (hbufs : ∀ buf ∈ bufs, Whole buf)
    (hnul : 0 ∉ path)
    (stale : List Byte) :
    ∃ rest, texts (requestBytes path bufs ++ stale) = getLine path :: rest ∧
      crlf ∈ rest := by
  have hall : ∀ buf ∈ getLine path :: (bufs ++ [crlf]), Whole buf := by
    intro buf hbuf
    simp only [List.mem_cons, List.mem_append, List.not_mem_nil, or_false] at hbuf
    rcases hbuf with rfl | hbuf | rfl
    · exact hpath
    · exact hbufs buf hbuf
    · exact whole_crlf
  have hlines := Proxy.lines_flatten hall stale
  rw [Proxy.flatten_parts] at hlines
  refine ⟨((bufs ++ [crlf]) ++ lines stale).map stored, ?_, ?_⟩
  · rw [texts, hlines, List.cons_append, List.map_cons,
      stored_eq_self (Proxy.getLine_noNul hnul)]
  · exact List.mem_map.mpr ⟨crlf, by simp, stored_eq_self (by decide)⟩

end Requests

section Serving

variable {stream : List Byte} {line : RequestLine} {headers : List HeaderLine}
  {c : Cache}

/-- Tiny takes the text of the proxy for a request for the path. -/
theorem answered_requestBytes
    {path : CStr} {text : List Byte} {rest : List CStr}
    (host : Host)
    (htexts : texts text = getLine path :: rest)
    (hcrlf : crlf ∈ rest)
    (hne : path ≠ [])
    (hpath : ∀ d ∈ path, isspace d = false)
    (reply : List Byte) :
    Answered host text reply ↔ ∃ target, parseUri path = .ok target ∧
      (host.page target).Complete ∧ reply = (host.page target).bytes := by
  obtain ⟨words, words', hmethod, huri⟩ := scanString_getLine hne hpath
  constructor
  · intro h
    obtain ⟨_, _, hscan, hcase⟩ := h.of_line htexts
    cases hmethod.symm.trans hscan
    obtain ⟨hother, _⟩ | ⟨_, _, _, _, target, huri', htarget, hcomplete, hreply⟩ :=
      hcase
    · exact absurd rfl hother
    · cases huri.symm.trans huri'
      exact ⟨target, htarget, hcomplete, hreply⟩
  · rintro ⟨target, htarget, hcomplete, rfl⟩
    exact .served htexts hmethod rfl hcrlf huri htarget hcomplete

theorem Page.bytes_ne_nil
    (page : Page) :
    page.bytes ≠ [] := by
  cases page <;> simp [Page.bytes, errorTexts, staticTexts, dynamicTexts, crlf]

/-- A request without NUL bytes that misses the cache, and whose text for the server
fits its array, makes Tiny answer as it answers a `GET` for the path of its URI.  When
this answer is shorter than an object the client gets it, and it is in the cache under
the key of the request then, up to its first NUL. -/
theorem proxied_answers
    (host : Host) (buf : Buffer MAXLINE) (object_buf : Buffer MAX_OBJECT_SIZE)
    (hnul : 0 ∉ stream)
    (hparse : parseRequest stream = .ok (.request line headers))
    (hmiss : c.reader line.key = none)
    (hfits : (requestBytes line.path (headerLines stream)).length < MAXLINE) :
    ∃ text, asked buf stream c = .ok text ∧
      ∀ reply, (Answered host text reply ↔
          ∃ target, parseUri line.path = .ok target ∧
            (host.page target).Complete ∧ reply = (host.page target).bytes) ∧
        (Answered host text reply → reply.length < MAX_OBJECT_SIZE →
          ∃ c' i, handle buf object_buf stream reply c =
              .ok (.served (.miss reply) c') ∧
            c'.reader line.key = some i ∧
              cstr (c'.cache i).payload.bytes = .ok (stored reply)) := by
  obtain ⟨hne, hpath⟩ := path_of_request hparse
  obtain ⟨hnulPath, _, _⟩ := Proxy.parseRequest_texts hparse
  have hsent := Proxy.sendToServer_cases buf hparse
  rw [stored_headerLines hnul] at hsent
  obtain ⟨_, text, stale, hsend, _, rfl⟩ | ⟨hlong, _⟩ := hsent
  · have hline : Whole (getLine line.path) := by
      refine whole_getLine hpath (lt_of_le_of_lt ?_ hfits)
      simp [requestBytes]
    obtain ⟨rest, htexts, hcrlf⟩ := texts_requestBytes hline
      (whole_headerLines hnul hparse) hnulPath (0 :: stale)
    have hasked : asked buf stream c =
        .ok (requestBytes line.path (headerLines stream) ++ 0 :: stale) := by
      simp only [asked, hparse, Result.ok_bind, hmiss, Proxy.fetch, hsend]
    refine ⟨_, hasked, fun reply => ?_⟩
    have hanswered := answered_requestBytes host htexts hcrlf hne hpath reply
    refine ⟨hanswered, fun h hshort => ?_⟩
    obtain ⟨target, _, _, rfl⟩ := hanswered.mp h
    obtain ⟨c', hdoit⟩ : ∃ c', Proxy.doit
        ⟨line, (host.page target).bytes, object_buf⟩ c =
          .ok (.miss (host.page target).bytes, c') :=
      Proxy.doit_miss (Proxy.key_length_of_parse hparse) hmiss hshort
        (.inl (host.page target).bytes_ne_nil)
    obtain ⟨i, hfound, hpayload⟩ := Proxy.doit_cached hmiss hshort
      (host.page target).bytes_ne_nil hdoit
    refine ⟨c', i, ?_, hfound, hpayload⟩
    simp only [handle, hparse, Result.ok_bind, hmiss, Proxy.fetch, hsend, hdoit]
  · omega

end Serving

section Example

/-- A machine with a page in `home.html`. -/
def home : Host where
  stat := fun filename =>
    if filename = literal "./home.html" then
      some
        { regular := true, readable := true, executable := false, opens := true
          content := literal "hi" }
    else
      none
  output := fun _ _ => []

theorem home_proxied :
    ∃ text, asked Proxy.clearLine Proxy.hostRequest Proxy.freshCache = .ok text ∧
      ∀ reply, (Answered home text reply ↔
          ∃ target, parseUri (literal "/") = .ok target ∧
            (home.page target).Complete ∧ reply = (home.page target).bytes) ∧
        (Answered home text reply → reply.length < MAX_OBJECT_SIZE →
          ∃ c' i, handle Proxy.clearLine Proxy.zeros Proxy.hostRequest reply
              Proxy.freshCache = .ok (.served (.miss reply) c') ∧
            c'.reader (literal "h/") = some i ∧
              cstr (c'.cache i).payload.bytes = .ok (stored reply)) :=
  proxied_answers home Proxy.clearLine Proxy.zeros (by decide)
    Proxy.hostRequest_parsed rfl (by decide)

/-- The page that is served there. -/
example : ∃ target, parseUri (literal "/") = .ok target ∧
    (home.page target).Complete :=
  ⟨⟨true, literal "./home.html", []⟩, by decide, by decide, by decide⟩

end Example

end Tiny
end PastWork
