import PastWork.Library.Decimals
import PastWork.Proxy.Sending
import PastWork.Proxy.Sockets

/-!
# The Tiny web server

`doit` of `tiny.c` as a program over the routines of Rio.  What the server finds on
its machine is given: the files, and what the CGI programs write.  For every stream
that a client sends it is known whether the server goes on to the next connection,
and what the client gets.
-/

namespace PastWork
namespace Tiny

open Proxy (Transmission Streams Connection Side Source Sink Rio MAXLINE
  RIO_BUFSIZE scanString crlf slash texts readlineb)

abbrev MAXBUF : Nat := 8192

/-- A file, as `stat`, `Open` and `Mmap` see it. -/
structure File where
  /-- `S_ISREG` -/
  regular : Bool
  /-- `S_IRUSR` -/
  readable : Bool
  /-- `S_IXUSR` -/
  executable : Bool
  /-- `Open` succeeds -/
  opens : Bool
  content : List Byte

/-- What the server finds on its machine. -/
structure Host where
  /-- `none` when `stat` fails -/
  stat : CStr → Option File
  /-- what a program writes for a `QUERY_STRING` -/
  output : CStr → CStr → List Byte

/-- How `doit` ends. -/
inductive Ended where
  /-- it returns to `main`, which goes on to the next connection -/
  | returned
  /-- `exit(0)` in a wrapper -/
  | exits
  /-- it goes on with a variable that has not been set -/
  | unset
deriving DecidableEq

def tolower (c : Byte) : Byte :=
  if 65 ≤ c ∧ c ≤ 90 then c + 32 else c

/-- `strcasecmp(s, t) == 0` -/
abbrev SameLetters (s t : CStr) : Prop :=
  s.map tolower = t.map tolower

/-- `parse_uri` sets these, and returns the first one. -/
structure Target where
  isStatic : Bool
  filename : CStr
  cgiargs : CStr
deriving DecidableEq

/-- `parse_uri` -/
def parseUri (uri : CStr) : Result Target :=
  match strstr uri (literal "cgi-bin") with
  | none => do
      let filename ← copied MAXLINE (literal "." ++ uri ++
        if uri.getLast? = some slash then literal "home.html" else [])
      .ok { isStatic := true, filename := filename, cgiargs := [] }
  | some _ =>
      match strstr uri (literal "?") with
      | some ptr => do
          let cgiargs ← copied MAXLINE (uri.drop (ptr + 1))
          let filename ← copied MAXLINE (literal "." ++ uri.take ptr)
          .ok { isStatic := false, filename := filename, cgiargs := cgiargs }
      | none => do
          let filename ← copied MAXLINE (literal "." ++ uri)
          .ok { isStatic := false, filename := filename, cgiargs := [] }

/-- `get_filetype` -/
def getFiletype (filename : CStr) : CStr :=
  if (strstr filename (literal ".html")).isSome then literal "text/html"
  else if (strstr filename (literal ".gif")).isSome then literal "image/gif"
  else if (strstr filename (literal ".png")).isSome then literal "image/png"
  else if (strstr filename (literal ".jpg")).isSome then literal "image/jpeg"
  else literal "text/plain"

/-- `st_size` as an `int`. -/
def File.filesize (file : File) : Int :=
  Int.bmod file.content.length (2 ^ 32)

/-- What `clienterror` prints. -/
def errorTexts (cause errnum shortmsg longmsg : CStr) : List CStr :=
  [literal "HTTP/1.0 " ++ errnum ++ literal " " ++ shortmsg ++ crlf,
    literal "Content-type: text/html" ++ crlf ++ crlf,
    literal "<html><title>Tiny Error</title>",
    literal "<body bgcolor=ffffff>" ++ crlf,
    errnum ++ literal ": " ++ shortmsg ++ crlf,
    literal "<p>" ++ longmsg ++ literal ": " ++ cause ++ crlf,
    literal "<hr><em>The Tiny Web server</em>" ++ crlf]

/-- What `serve_static` prints. -/
def staticTexts (filename : CStr) (filesize : Int) : List CStr :=
  [literal "HTTP/1.0 200 OK" ++ crlf,
    literal "Server: Tiny Web Server" ++ crlf,
    literal "Content-length: " ++ Decimals.numeral filesize ++ crlf,
    literal "Content-type: " ++ getFiletype filename ++ crlf ++ crlf]

/-- What `serve_dynamic` prints. -/
def dynamicTexts : List CStr :=
  [literal "HTTP/1.0 200 OK" ++ crlf,
    literal "Server: Tiny Web Server" ++ crlf]

/-- `sprintf(buf, ..)` and `Rio_writen(fd, buf, strlen(buf))` for each of the texts,
in an array of `size` bytes. -/
def sayAll (size : Nat) : List CStr → Client Transmission (List Byte) Unit
  | [] => pure ()
  | text :: texts => do
      let text ← .done (copied size text)
      let _ ← .call (.write .client text)
      sayAll size texts

def clienterror (cause errnum shortmsg longmsg : CStr) :
    Client Transmission (List Byte) Ended := do
  sayAll MAXLINE (errorTexts cause errnum shortmsg longmsg)
  pure .returned

/-- `serve_static`; `Mmap` maps no bytes only with an error. -/
def serveStatic (filename : CStr) (file : File) :
    Client Transmission (List Byte) Ended := do
  sayAll MAXBUF (staticTexts filename file.filesize)
  if !file.opens then
    pure .exits
  else if file.filesize ≤ 0 then
    pure .exits
  else do
    let _ ← .call (.write .client (file.content.take file.filesize.toNat))
    pure .returned

/-- `serve_dynamic`; the child writes to the descriptor, and the parent waits. -/
def serveDynamic (output : List Byte) :
    Client Transmission (List Byte) Ended := do
  sayAll MAXLINE dynamicTexts
  let _ ← .call (.write .client output)
  pure .returned

/-- `while(strcmp(buf, "\r\n"))` with the line in `buf`. -/
def requesthdrsFrom : Nat → CStr → Client Transmission (List Byte) Unit
  | 0, _ => .done (.error .endless)
  | rounds + 1, buf =>
      if buf = crlf then
        pure ()
      else do
        let next ← .call (.readline .client (MAXLINE - 1))
        -- at the end of the stream `buf` stays as it is
        requesthdrsFrom rounds (if next = [] then buf else stored next)

/-- `read_requesthdrs`, with a bound on the rounds of its loop; `false` when it
compares an array that has not been set. -/
def readRequesthdrs (rounds : Nat) : Client Transmission (List Byte) Bool := do
  let buf ← .call (.readline .client (MAXLINE - 1))
  if buf = [] then
    pure false
  else do
    requesthdrsFrom rounds (stored buf)
    pure true

/-- `doit` from the call of `stat` on. -/
def serve (host : Host) (target : Target) :
    Client Transmission (List Byte) Ended :=
  match host.stat target.filename with
  | none =>
      clienterror target.filename (literal "404") (literal "Not found")
        (literal "Tiny couldn't find this file")
  | some file =>
      if target.isStatic then
        if !file.regular || !file.readable then
          clienterror target.filename (literal "403") (literal "Forbidden")
            (literal "Tiny couldn't read the file")
        else
          serveStatic target.filename file
      else
        if !file.regular || !file.executable then
          clienterror target.filename (literal "403") (literal "Forbidden")
            (literal "Tiny couldn't run the CGI program")
        else
          serveDynamic (host.output target.filename target.cgiargs)

/-- `doit` for the method GET, with the words behind it. -/
def get (host : Host) (rounds : Nat) (words : CStr) :
    Client Transmission (List Byte) Ended := do
  let complete ← readRequesthdrs rounds
  if !complete then
    pure .unset
  else
    match scanString words with
    | none => pure .unset
    | some (uri, _) => do
        let target ← .done (parseUri uri)
        serve host target

/-- `doit` -/
def doit (host : Host) (rounds : Nat) :
    Client Transmission (List Byte) Ended := do
  let buf ← .call (.readline .client (MAXLINE - 1))
  if buf = [] then
    pure .returned
  else
    match scanString (stored buf) with
    | none => pure .unset
    | some (method, words) =>
        if ¬ SameLetters method (literal "GET") then
          clienterror method (literal "501") (literal "Not Implemented")
            (literal "Tiny does not implement this method")
        else
          get host rounds words

/-- What a request is answered with. -/
inductive Page where
  | complaint (cause errnum shortmsg longmsg : CStr)
  | content (filename : CStr) (file : File)
  | program (output : List Byte)

namespace Page

def bytes : Page → List Byte
  | complaint cause errnum shortmsg longmsg =>
      (errorTexts cause errnum shortmsg longmsg).flatten
  | content filename file =>
      (staticTexts filename file.filesize).flatten ++
        file.content.take file.filesize.toNat
  | program output => dynamicTexts.flatten ++ output

/-- The server gets to the end of the page. -/
def Complete : Page → Prop
  | complaint cause _ _ longmsg => cause.length + longmsg.length + 7 < MAXLINE
  | content _ file => file.opens ∧ 0 < file.filesize
  | program _ => True

end Page

def notImplemented (method : CStr) : Page :=
  .complaint method (literal "501") (literal "Not Implemented")
    (literal "Tiny does not implement this method")

/-- The page for what a URI names. -/
def Host.page (host : Host) (target : Target) : Page :=
  match host.stat target.filename with
  | none =>
      .complaint target.filename (literal "404") (literal "Not found")
        (literal "Tiny couldn't find this file")
  | some file =>
      if target.isStatic then
        if file.regular ∧ file.readable then
          .content target.filename file
        else
          .complaint target.filename (literal "403") (literal "Forbidden")
            (literal "Tiny couldn't read the file")
      else
        if file.regular ∧ file.executable then
          .program (host.output target.filename target.cgiargs)
        else
          .complaint target.filename (literal "403") (literal "Forbidden")
            (literal "Tiny couldn't run the CGI program")

section Saying

variable {size : Nat} {t : Streams} {cause errnum shortmsg longmsg : CStr}

/-- Texts that fit are written one after another. -/
theorem sayAll_run
    {ss : List CStr}
    (hfit : ∀ s ∈ ss, s.length < size)
    (t : Streams) :
    (sayAll size ss).run Streams.serve t =
      some (.ok (), t.append .client ss.flatten) := by
  induction ss generalizing t with
  | nil =>
      rw [List.flatten_nil, Streams.append, List.append_nil,
        Function.update_eq_self]
      rfl
  | cons s ss ih =>
      have hs := copied_ok (hfit s List.mem_cons_self)
      rw [sayAll, hs, Client.run_done_ok_bind, Client.run_call_bind,
        Streams.serve_write, Option.bind_some,
        ih (fun s hs => hfit s (List.mem_cons_of_mem _ hs)),
        Streams.append_append, List.flatten_cons]

/-- A text that is too long is printed past the end of the array. -/
theorem sayAll_long
    {ss : List CStr}
    (hlong : ∃ s ∈ ss, size ≤ s.length)
    (t : Streams) :
    ∃ t', (sayAll size ss).run Streams.serve t =
      some (.error .outOfBounds, t') := by
  induction ss generalizing t with
  | nil =>
      simp at hlong
  | cons s ss ih =>
      rw [sayAll]
      by_cases hs : s.length < size
      · have hrest : ∃ s ∈ ss, size ≤ s.length := by
          obtain ⟨s', hmem, hlong⟩ := hlong
          rcases List.mem_cons.mp hmem with rfl | hmem
          · omega
          · exact ⟨s', hmem, hlong⟩
        rw [copied_ok hs, Client.run_done_ok_bind, Client.run_call_bind,
          Streams.serve_write, Option.bind_some]
        exact ih hrest _
      · rw [copied_outOfBounds (not_lt.mp hs)]
        exact ⟨t, rfl⟩

/-- Only the line with the cause can be too long. -/
theorem errorTexts_fit
    (hshort : errnum.length + shortmsg.length ≤ 20) :
    (∀ s ∈ errorTexts cause errnum shortmsg longmsg, s.length < MAXLINE) ↔
      cause.length + longmsg.length + 7 < MAXLINE := by
  simp [errorTexts, literal, crlf, MAXLINE]
  omega

theorem natAbs_filesize
    (file : File) :
    file.filesize.natAbs ≤ 2 ^ 31 := by
  have hle := Int.le_bmod (x := file.content.length)
    (show 0 < 2 ^ 32 by decide)
  have hlt := Int.bmod_lt (x := file.content.length)
    (show 0 < 2 ^ 32 by decide)
  unfold File.filesize
  omega

theorem getFiletype_length
    (filename : CStr) :
    (getFiletype filename).length ≤ 10 := by
  unfold getFiletype
  repeat' split
  all_goals decide

/-- The lines in front of a file are short. -/
theorem staticTexts_fit
    {filesize : Int}
    (hsize : filesize.natAbs ≤ 2 ^ 31)
    (filename : CStr) :
    ∀ s ∈ staticTexts filename filesize, s.length < MAXBUF := by
  have hnumeral := Decimals.numeral_length hsize
  have htype := getFiletype_length filename
  simp [staticTexts, literal, crlf, MAXBUF]
  omega

/-- `clienterror` returns unless the cause is too long for its array. -/
theorem clienterror_run
    (hshort : errnum.length + shortmsg.length ≤ 20)
    (t : Streams) :
    ∃ r t', (clienterror cause errnum shortmsg longmsg).run Streams.serve t =
        some (r, t') ∧
      (r = .ok .returned ↔ cause.length + longmsg.length + 7 < MAXLINE) ∧
      (r = .ok .returned → t' = t.append .client
        (errorTexts cause errnum shortmsg longmsg).flatten) := by
  rw [← errorTexts_fit hshort, clienterror, Client.run_bind]
  by_cases hfit : ∀ s ∈ errorTexts cause errnum shortmsg longmsg,
      s.length < MAXLINE
  · rw [sayAll_run hfit]
    exact ⟨_, _, rfl, iff_of_true rfl hfit, fun _ => rfl⟩
  · obtain ⟨s, hs, hlong⟩ : ∃ s ∈ errorTexts cause errnum shortmsg longmsg,
        MAXLINE ≤ s.length := by
      simpa using hfit
    obtain ⟨t', hrun⟩ := sayAll_long ⟨s, hs, hlong⟩ t
    rw [hrun]
    exact ⟨_, t', rfl, iff_of_false (by simp) hfit, by simp⟩

/-- `serve_static` returns when there is something to map. -/
theorem serveStatic_run
    (filename : CStr) (file : File) (t : Streams) :
    ∃ r t', (serveStatic filename file).run Streams.serve t = some (r, t') ∧
      (r = .ok .returned ↔ (Page.content filename file).Complete) ∧
      (r = .ok .returned →
        t' = t.append .client (Page.content filename file).bytes) := by
  rw [serveStatic, Client.run_bind, sayAll_run (staticTexts_fit (natAbs_filesize file) filename),
    Option.bind_some]
  cases hopens : file.opens with
  | false => exact ⟨_, _, rfl, by simp [Page.Complete, hopens], by simp⟩
  | true =>
      by_cases hsize : file.filesize ≤ 0
      · simp only [Bool.not_true, Bool.false_eq_true, if_false, if_pos hsize]
        exact ⟨_, _, rfl, by simp [Page.Complete, hsize], by simp⟩
      · simp only [Bool.not_true, Bool.false_eq_true, if_false, if_neg hsize,
          Client.run_call_bind, Streams.serve_write, Option.bind_some,
          Streams.append_append]
        exact ⟨_, _, rfl, by simp [Page.Complete, hopens]; omega, fun _ => rfl⟩

theorem serveDynamic_run
    (output : List Byte) (t : Streams) :
    (serveDynamic output).run Streams.serve t =
      some (.ok .returned, t.append .client (Page.program output).bytes) := by
  have hfit : ∀ s ∈ dynamicTexts, s.length < MAXLINE := by
    decide
  rw [serveDynamic, Client.run_bind, sayAll_run hfit, Option.bind_some]
  simp only [Client.run_call_bind, Streams.serve_write, Option.bind_some,
    Streams.append_append]
  rfl

/-- What is served is the page for what the URI names. -/
theorem serve_run
    (host : Host) (target : Target) (t : Streams) :
    ∃ r t', (serve host target).run Streams.serve t = some (r, t') ∧
      (r = .ok .returned ↔ (host.page target).Complete) ∧
      (r = .ok .returned → t' = t.append .client (host.page target).bytes) := by
  unfold serve Host.page
  cases host.stat target.filename with
  | none =>
      exact clienterror_run (by decide) t
  | some file =>
      dsimp only
      cases target.isStatic with
      | true =>
          simp only [if_true]
          by_cases hmode : file.regular ∧ file.readable
          · rw [if_neg (by simp [hmode]), if_pos hmode]
            exact serveStatic_run target.filename file t
          · rw [if_pos (by simpa [imp_iff_not_or] using hmode), if_neg hmode]
            exact clienterror_run (by decide) t
      | false =>
          simp only [Bool.false_eq_true, if_false]
          by_cases hmode : file.regular ∧ file.executable
          · rw [if_neg (by simp [hmode]), if_pos hmode]
            exact ⟨_, _, serveDynamic_run _ t, by simp [Page.Complete],
              fun _ => rfl⟩
          · rw [if_pos (by simpa [imp_iff_not_or] using hmode), if_neg hmode]
            exact clienterror_run (by decide) t

end Saying

section Requests

variable {buf : CStr} {rounds : Nat}

/-- At the end of the stream the loop compares the same line for ever. -/
theorem requesthdrsFrom_stuck
    (hcrlf : buf ≠ crlf)
    (t : Streams)
    (hinput : t.input .client = []) :
    (requesthdrsFrom rounds buf).run Streams.serve t =
      some (.error .endless, t) := by
  induction rounds with
  | zero =>
      rfl
  | succ rounds ih =>
      have hsame : t.setInput .client [] = t := by
        rw [← hinput, Streams.setInput, Function.update_eq_self]
      have hread : readlineb MAXLINE ([] : List Byte) = ([], []) := rfl
      rw [requesthdrsFrom, if_neg hcrlf, Client.run_call_bind,
        Streams.serve_readline, hinput, hread, Option.bind_some, if_pos rfl,
        hsame, ih]

/-- The loop ends at the line CRLF; without one it does not end. -/
theorem requesthdrsFrom_run
    (buf : CStr) (t : Streams)
    (hrounds : (t.input .client).length + 1 < rounds) :
    ∃ r t', (requesthdrsFrom rounds buf).run Streams.serve t = some (r, t') ∧
      t'.output = t.output ∧
      (crlf ∈ buf :: texts (t.input .client) ∧ r = .ok () ∨
        crlf ∉ buf :: texts (t.input .client) ∧ r = .error .endless) := by
  induction rounds generalizing buf t with
  | zero =>
      omega
  | succ rounds ih =>
      by_cases hcrlf : buf = crlf
      · rw [requesthdrsFrom, if_pos hcrlf]
        exact ⟨_, t, rfl, rfl, .inl ⟨hcrlf ▸ List.mem_cons_self, rfl⟩⟩
      · rcases Proxy.lines_cases (t.input .client) with
          ⟨hnil, hread, hlines⟩ | ⟨line, rest, hne, hread, _, hlt, hlines⟩
        · refine ⟨_, t, requesthdrsFrom_stuck hcrlf t hnil, rfl, .inr ⟨?_, rfl⟩⟩
          rw [texts, hlines, List.map_nil, List.mem_singleton]
          exact Ne.symm hcrlf
        · have hrest := ih (stored line) (t.setInput .client rest)
            (by rw [Streams.setInput_input]; omega)
          rw [Streams.setInput_input, Streams.setInput_output] at hrest
          rw [requesthdrsFrom, if_neg hcrlf, Client.run_call_bind,
            Streams.serve_readline, Option.bind_some, hread, if_neg hne, texts,
            hlines, List.map_cons, List.mem_cons (b := buf),
            or_iff_right (Ne.symm hcrlf)]
          exact hrest

/-- `read_requesthdrs` returns when one of the lines is CRLF. -/
theorem readRequesthdrs_run
    (t : Streams)
    (hrounds : (t.input .client).length + 1 < rounds) :
    ∃ r t', (readRequesthdrs rounds).run Streams.serve t = some (r, t') ∧
      t'.output = t.output ∧
      (r = .ok true ↔ crlf ∈ texts (t.input .client)) := by
  rw [readRequesthdrs, Client.run_call_bind, Streams.serve_readline,
    Option.bind_some]
  rcases Proxy.lines_cases (t.input .client) with
    ⟨_, hread, hlines⟩ | ⟨line, rest, hne, hread, _, hlt, hlines⟩
  · rw [hread, if_pos rfl, texts, hlines]
    exact ⟨_, _, rfl, rfl, by simp⟩
  · obtain ⟨r, t', hrun, houtput, hr⟩ := requesthdrsFrom_run (stored line)
      (t.setInput .client rest)
      (show _ < rounds by rw [Streams.setInput_input]; omega)
    rw [Streams.setInput_input] at hr
    rw [hread, if_neg hne, Client.run_bind, hrun, Option.bind_some, texts, hlines,
      List.map_cons]
    rcases hr with ⟨hcrlf, rfl⟩ | ⟨hcrlf, rfl⟩
    · exact ⟨_, t', rfl, houtput, iff_of_true rfl hcrlf⟩
    · exact ⟨_, t', rfl, houtput, iff_of_false (by simp) hcrlf⟩

end Requests

/-- The streams after which the server goes on to the next connection, with what
the client gets. -/
inductive Answered (host : Host) : List Byte → List Byte → Prop
  | closed : Answered host [] []
  | refused
      {stream : List Byte} {first method words : CStr} {rest : List CStr}
      (htexts : texts stream = first :: rest)
      (hmethod : scanString first = some (method, words))
      (hget : ¬ SameLetters method (literal "GET"))
      (hcomplete : (notImplemented method).Complete) :
      Answered host stream (notImplemented method).bytes
  | served
      {stream : List Byte} {first method words uri words' : CStr}
      {rest : List CStr} {target : Target}
      (htexts : texts stream = first :: rest)
      (hmethod : scanString first = some (method, words))
      (hget : SameLetters method (literal "GET"))
      (hcrlf : crlf ∈ rest)
      (huri : scanString words = some (uri, words'))
      (htarget : parseUri uri = .ok target)
      (hcomplete : (host.page target).Complete) :
      Answered host stream (host.page target).bytes

section Answers

variable {host : Host} {stream reply : List Byte} {first words : CStr}
  {rest : List CStr} {rounds : Nat}

/-- What is known of an answer when the request line is. -/
theorem Answered.of_line
    (h : Answered host stream reply)
    (htexts : texts stream = first :: rest) :
    ∃ method words, scanString first = some (method, words) ∧
      (¬ SameLetters method (literal "GET") ∧ (notImplemented method).Complete ∧
          reply = (notImplemented method).bytes ∨
        SameLetters method (literal "GET") ∧ crlf ∈ rest ∧
          ∃ uri words' target, scanString words = some (uri, words') ∧
            parseUri uri = .ok target ∧ (host.page target).Complete ∧
              reply = (host.page target).bytes) := by
  cases h with
  | closed =>
      cases htexts
  | refused htexts' hmethod hget hcomplete =>
      cases htexts'.symm.trans htexts
      exact ⟨_, _, hmethod, .inl ⟨hget, hcomplete, rfl⟩⟩
  | served htexts' hmethod hget hcrlf huri htarget hcomplete =>
      cases htexts'.symm.trans htexts
      exact ⟨_, _, hmethod, .inr
        ⟨hget, hcrlf, _, _, _, huri, htarget, hcomplete, rfl⟩⟩

/-- Behind the check of the method the headers are read up to CRLF, and the page is
the one for what the URI names. -/
theorem get_run
    (host : Host) (words : CStr) (t : Streams)
    (hrounds : (t.input .client).length + 1 < rounds) :
    ∃ r t', (get host rounds words).run Streams.serve t = some (r, t') ∧
      (r = .ok .returned ↔ crlf ∈ texts (t.input .client) ∧
        ∃ uri words' target, scanString words = some (uri, words') ∧
          parseUri uri = .ok target ∧ (host.page target).Complete) ∧
      ∀ uri words' target, r = .ok .returned →
        scanString words = some (uri, words') → parseUri uri = .ok target →
          t'.output = (t.append .client (host.page target).bytes).output := by
  obtain ⟨r, m, hheaders, houtput, hcrlf⟩ := readRequesthdrs_run t hrounds
  rw [get, Client.run_bind, hheaders, Option.bind_some, ← hcrlf]
  cases r with
  | error e => exact ⟨_, m, rfl, by simp, by simp⟩
  | ok complete =>
      cases complete with
      | false => exact ⟨_, m, rfl, by simp, by simp⟩
      | true =>
          simp only [Bool.not_true, Bool.false_eq_true, if_false, true_and]
          cases huri : scanString words with
          | none => exact ⟨_, m, rfl, by simp, by simp⟩
          | some out =>
              obtain ⟨uri, words'⟩ := out
              dsimp only
              cases htarget : parseUri uri with
              | error e =>
                  refine ⟨_, m, rfl, ?_, by simp⟩
                  simp [htarget]
              | ok target =>
                  obtain ⟨r, t', hserve, hreturned, hbytes⟩ :=
                    serve_run host target m
                  refine ⟨r, t', hserve, ?_, ?_⟩
                  · simpa [htarget] using hreturned
                  · rintro uri' words'' target' hr ⟨⟩ htarget'
                    cases htarget.symm.trans htarget'
                    rw [hbytes hr, Streams.append, Streams.append, houtput]

theorem notImplemented_run
    (method : CStr) (t : Streams) :
    ∃ r t', (clienterror method (literal "501") (literal "Not Implemented")
        (literal "Tiny does not implement this method")).run Streams.serve t =
          some (r, t') ∧
      (r = .ok .returned ↔ (notImplemented method).Complete) ∧
      (r = .ok .returned →
        t' = t.append .client (notImplemented method).bytes) :=
  clienterror_run (by decide) t

/-- `doit` over streams. -/
theorem doit_run
    (host : Host) (t : Streams)
    (hrounds : (t.input .client).length + 1 < rounds) :
    ∃ r t', (doit host rounds).run Streams.serve t = some (r, t') ∧
      (r = .ok .returned ↔ ∃ reply, Answered host (t.input .client) reply) ∧
      ∀ reply, Answered host (t.input .client) reply →
        t'.output = (t.append .client reply).output := by
  rw [doit, Client.run_call_bind, Streams.serve_readline, Option.bind_some]
  rcases Proxy.lines_cases (t.input .client) with
    ⟨hnil, hread, hlines⟩ | ⟨line, after, hne, hread, _, hlt, hlines⟩
  · rw [hread, if_pos rfl, hnil]
    refine ⟨_, _, rfl, iff_of_true rfl ⟨[], .closed⟩, ?_⟩
    intro reply h
    have hreply : reply = [] := by
      cases h with
      | closed => rfl
      | refused htexts => cases htexts
      | served htexts => cases htexts
    simp [hreply, Streams.append]
  · have htexts : texts (t.input .client) = stored line :: texts after := by
      rw [texts, hlines, List.map_cons, ← texts]
    rw [hread, if_neg hne]
    dsimp only
    cases hmethod : scanString (stored line) with
    | none =>
        have hnone : ∀ reply, ¬ Answered host (t.input .client) reply := by
          intro reply h
          obtain ⟨method, words, hscan, _⟩ := h.of_line htexts
          cases hmethod.symm.trans hscan
        exact ⟨_, _, rfl, iff_of_false (by simp) (not_exists.mpr hnone),
          fun reply h => absurd h (hnone reply)⟩
    | some out =>
        obtain ⟨method, words⟩ := out
        dsimp only
        by_cases hget : SameLetters method (literal "GET")
        · rw [if_neg (not_not.mpr hget)]
          obtain ⟨r, t', hrun, hreturned, hbytes⟩ := get_run host words
            (t.setInput .client after)
            (show _ < rounds by rw [Streams.setInput_input]; omega)
          rw [Streams.setInput_input] at hreturned
          have hserved : ∀ reply, Answered host (t.input .client) reply →
              r = .ok .returned ∧ t'.output = (t.append .client reply).output := by
            intro reply h
            obtain ⟨_, _, hscan, hcase⟩ := h.of_line htexts
            cases hmethod.symm.trans hscan
            obtain ⟨hother, _⟩ | ⟨_, hcrlf, uri, words', target, huri, htarget,
              hcomplete, rfl⟩ := hcase
            · exact absurd hget hother
            · have hr := hreturned.mpr
                ⟨hcrlf, uri, words', target, huri, htarget, hcomplete⟩
              exact ⟨hr, hbytes uri words' target hr huri htarget⟩
          refine ⟨r, t', hrun,
            ⟨?_, fun h => h.elim fun reply h => (hserved reply h).1⟩,
            fun reply h => (hserved reply h).2⟩
          intro hr
          obtain ⟨hcrlf, uri, words', target, huri, htarget, hcomplete⟩ :=
            hreturned.mp hr
          exact ⟨_, .served htexts hmethod hget hcrlf huri htarget hcomplete⟩
        · rw [if_pos hget]
          obtain ⟨r, t', hrun, hreturned, hbytes⟩ :=
            notImplemented_run method (t.setInput .client after)
          have hrefused : ∀ reply, Answered host (t.input .client) reply →
              r = .ok .returned ∧ t'.output = (t.append .client reply).output := by
            intro reply h
            obtain ⟨_, _, hscan, hcase⟩ := h.of_line htexts
            cases hmethod.symm.trans hscan
            obtain ⟨_, hcomplete, rfl⟩ | ⟨hother, _⟩ := hcase
            · have hr := hreturned.mpr hcomplete
              exact ⟨hr, by rw [hbytes hr]; rfl⟩
            · exact absurd hother hget
          exact ⟨r, t', hrun,
            ⟨fun hr => ⟨_, .refused htexts hmethod hget (hreturned.mp hr)⟩,
              fun h => h.elim fun reply h => (hrefused reply h).1⟩,
            fun reply h => (hrefused reply h).2⟩

/-- Over sockets, however the bytes of the request arrive: the server goes on to the
next connection exactly after the requests with an answer, and the client has got
this answer then.  Only a `read` or a `write` that fails can end the process in a
routine. -/
theorem answers_transmitted
    (host : Host) (fd : Side → Source) (rio_buf : Side → Buffer RIO_BUFSIZE)
    (sink : Side → Sink) :
    (∀ r s', (doit host ((fd .client).stream.length + 2)).run Connection.serve
        (.opened fd rio_buf sink) = some (r, s') →
      (r = .ok .returned ↔ ∃ reply, Answered host (fd .client).stream reply) ∧
        ∀ reply, Answered host (fd .client).stream reply →
          (s'.sink .client).written = (sink .client).written ++ reply) ∧
    ((∀ side, .failed ∉ (fd side).calls ∧ .failed ∉ (sink side).calls) →
      ∃ r s', (doit host ((fd .client).stream.length + 2)).run Connection.serve
        (.opened fd rio_buf sink) = some (r, s')) := by
  obtain ⟨hsame, hruns⟩ := (Proxy.carries_opened fd rio_buf sink).run
    (doit host ((fd .client).stream.length + 2))
  refine ⟨fun r s' hrun => ?_, hruns⟩
  obtain ⟨t', hstreams, hcarries⟩ := hsame r s' hrun
  obtain ⟨r', t'', hideal, hreturned, hbytes⟩ := doit_run host
    { input := fun side => (fd side).stream
      output := fun side => (sink side).written }
    (Nat.lt_succ_self ((fd .client).stream.length + 1))
  obtain ⟨rfl, rfl⟩ :=
    Prod.mk.inj (Option.some.inj (hstreams.symm.trans hideal))
  refine ⟨hreturned, fun reply h => ?_⟩
  rw [hcarries.written, hbytes reply h, Streams.append_output]

end Answers

end Tiny
end PastWork
