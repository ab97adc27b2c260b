import PastWork.Proxy.Bounds
import PastWork.Proxy.Sockets

/-!
# `doit` over sockets

`doit` of the proxy as a program that reads lines from the client and from the server
and writes to both.  Over streams it does what `handle` says, and so it does over
sockets; the client and the server get the bytes that `handle` is about.
-/

namespace PastWork
namespace Proxy

section Serving

/-- `while(strcmp(buf, "\r\n"))` with the line in `buf`. -/
def readHeadersOver (line : RequestLine) :
    Nat → CStr → List HeaderLine → Client Transmission (List Byte) Parsed
  | 0, _, _ => .done (.error .endless)
  | fuel + 1, buf, headers =>
      if buf = crlf then
        pure (.request line headers)
      else do
        match ← .done (parseHeader buf) with
        | none => pure .exits
        | some h =>
            if headers.length < NUM_HEADERS then do
              let next ← .call (.readline .client (MAXLINE - 1))
              readHeadersOver line fuel
                (if next = [] then h.headername else stored next)
                (headers ++ [h])
            else
              .done (.error .outOfBounds)

/-- `parse_request`, with a bound on the rounds of its loop. -/
def parseRequestOver (rounds : Nat) :
    Client Transmission (List Byte) Parsed := do
  let buf ← .call (.readline .client (MAXLINE - 1))
  if buf = [] then
    pure .nothing
  else
    match scanUri (stored buf) with
    | none => pure .noUri
    | some uri => do
        match ← .done (parseUri uri) with
        | none => pure .exits
        | some line => do
            let next ← .call (.readline .client (MAXLINE - 1))
            readHeadersOver line rounds
              (if next = [] then stored buf else stored next) []

/-- The loop over the lines of the response. -/
def relayOver : Nat → Relay → Client Transmission (List Byte) Relay
  | 0, _ => .done (.error .endless)
  | fuel + 1, r => do
      let buf ← .call (.readline .server (MAXLINE - 1))
      if buf = [] then
        pure r
      else do
        let _ ← .call (.write .client buf)
        let r ← .done (r.line buf)
        relayOver fuel r

/-- `doit`; `buf` is the array of `send_to_server`. -/
def doitOver
    (rounds relayRounds : Nat) (buf : Buffer MAXLINE)
    (object_buf : Buffer MAX_OBJECT_SIZE) (c : Cache) :
    Client Transmission (List Byte) Handled := do
  match ← parseRequestOver rounds with
  | .exits => pure .exits
  | .nothing => pure .unset
  | .noUri => pure .unset
  | .request line headers =>
      let uri := line.key
      if uri.length < MAXLINE then
        match c.reader uri with
        | some cache_i => do
            let payload := (c.cache cache_i).payload.bytes
            let _ ← .call (.write .client payload)
            let c ← .done (c.writer uri object_buf (some cache_i))
            pure (.served (.hit payload) c)
        | none => do
            let text ← .done (sendToServer buf line headers)
            let _ ← .call (.write .server text)
            let r ← relayOver relayRounds
              { sent := [], object_buf := object_buf, total_size := 0 }
            if r.total_size < MAX_OBJECT_SIZE then do
              let c ← .done (c.writer uri r.object_buf none)
              pure (.served (.miss r.sent) c)
            else
              pure (.served (.miss r.sent) c)
      else
        .done (.error .outOfBounds)

/-- The loop over the headers reads the stream of the client. -/
theorem readHeadersOver_run
    (line : RequestLine) (fuel : Nat) (t : Streams) (buf : CStr)
    (headers : List HeaderLine) :
    ∃ rest, (readHeadersOver line fuel buf headers).run Streams.serve t =
      some (readHeaders line fuel (t.input .client) buf headers,
        t.setInput .client rest) := by
  have hself : t.setInput .client (t.input .client) = t := by
    simp [Streams.setInput]
  induction fuel generalizing t buf headers with
  | zero =>
      exact ⟨t.input .client, by rw [hself]; rfl⟩
  | succ fuel ih =>
      rw [readHeadersOver, readHeaders]
      by_cases hcrlf : buf = crlf
      · rw [if_pos hcrlf, if_pos hcrlf]
        exact ⟨t.input .client, by rw [hself]; rfl⟩
      · rw [if_neg hcrlf, if_neg hcrlf]
        cases parseHeader buf with
        | error e => exact ⟨t.input .client, by rw [hself]; rfl⟩
        | ok found =>
            cases found with
            | none => exact ⟨t.input .client, by rw [hself]; rfl⟩
            | some h =>
                rw [Client.run_done_ok_bind, Result.ok_bind]
                dsimp only
                by_cases hroom : headers.length < NUM_HEADERS
                · rw [if_pos hroom, if_pos hroom, Client.run_call_bind,
                    Streams.serve_readline, Option.bind_some]
                  obtain ⟨rest, hrest⟩ := ih
                    (t.setInput .client (readlineb MAXLINE (t.input .client)).2)
                    (if (readlineb MAXLINE (t.input .client)).1 = [] then
                      h.headername
                    else stored (readlineb MAXLINE (t.input .client)).1)
                    (headers ++ [h]) (by simp)
                  rw [Streams.setInput_input, Streams.setInput_setInput] at hrest
                  refine ⟨rest, hrest.trans ?_⟩
                  generalize readlineb MAXLINE (t.input .client) = out
                  obtain ⟨next, after⟩ := out
                  cases next with
                  | nil => rfl
                  | cons c next => rfl
                · rw [if_neg hroom, if_neg hroom]
                  exact ⟨t.input .client, by rw [hself]; rfl⟩

/-- `parse_request` reads the stream of the client. -/
theorem parseRequestOver_run
    (t : Streams) :
    ∃ rest, (parseRequestOver ((t.input .client).length + 2)).run
        Streams.serve t =
      some (parseRequest (t.input .client), t.setInput .client rest) := by
  rw [parseRequestOver, Client.run_call_bind, Streams.serve_readline, Option.bind_some,
    parseRequest]
  generalize readlineb MAXLINE (t.input .client) = out
  obtain ⟨buf, rest⟩ := out
  cases buf with
  | nil => exact ⟨rest, rfl⟩
  | cons c buf =>
      dsimp only
      rw [if_neg (List.cons_ne_nil c buf)]
      cases scanUri (stored (c :: buf)) with
      | none => exact ⟨rest, rfl⟩
      | some uri =>
          dsimp only
          cases parseUri uri with
          | error e => exact ⟨rest, rfl⟩
          | ok found =>
              cases found with
              | none => exact ⟨rest, rfl⟩
              | some line =>
                  rw [Client.run_done_ok_bind, Result.ok_bind]
                  dsimp only
                  rw [Client.run_call_bind, Streams.serve_readline, Option.bind_some,
                    Streams.setInput_input, Streams.setInput_setInput]
                  obtain ⟨rest', hrest'⟩ := readHeadersOver_run line
                    ((t.input .client).length + 2)
                    (t.setInput .client (readlineb MAXLINE rest).2)
                    (if (readlineb MAXLINE rest).1 = [] then stored (c :: buf)
                    else stored (readlineb MAXLINE rest).1) []
                  rw [Streams.setInput_input, Streams.setInput_setInput] at hrest'
                  refine ⟨rest', hrest'.trans ?_⟩
                  generalize readlineb MAXLINE rest = out
                  obtain ⟨next, after⟩ := out
                  cases next with
                  | nil => rfl
                  | cons d next => rfl

/-- What has been written to each end. -/
structure Writes (t t' : Streams) (client server : List Byte) : Prop where
  client : t'.output .client = t.output .client ++ client
  server : t'.output .server = t.output .server ++ server

/-- The relay reads the stream of the server and writes it to the client. -/
theorem relayOver_run
    (fuel : Nat) (t : Streams) (r : Relay) :
    ∃ t', (relayOver fuel r).run Streams.serve t =
        some (relay fuel (t.input .server) r, t') ∧
      ∀ r', relay fuel (t.input .server) r = .ok r' →
        ∃ sent, r'.sent = r.sent ++ sent ∧ Writes t t' sent [] := by
  induction fuel generalizing t r with
  | zero =>
      exact ⟨t, rfl, by simp [relay]⟩
  | succ fuel ih =>
      rw [relayOver, relay, Client.run_call_bind, Streams.serve_readline,
        Option.bind_some]
      generalize readlineb MAXLINE (t.input .server) = out
      obtain ⟨buf, rest⟩ := out
      cases buf with
      | nil =>
          refine ⟨t.setInput .server rest, rfl, ?_⟩
          rintro r' ⟨⟩
          exact ⟨[], by simp, by simp [Streams.setInput], by
            simp [Streams.setInput]⟩
      | cons c buf =>
          dsimp only
          rw [if_neg (List.cons_ne_nil c buf), Client.run_call_bind,
            Streams.serve, Option.bind_some]
          cases hline : r.line (c :: buf) with
          | error e =>
              exact ⟨_, rfl, by simp⟩
          | ok m =>
              rw [Client.run_done_ok_bind, Result.ok_bind]
              obtain ⟨t', hrun, hwrites⟩ := ih
                ((t.setInput .server rest).append .client (c :: buf)) m
              have hinput : ((t.setInput .server rest).append .client
                  (c :: buf)).input .server = rest :=
                t.setInput_input .server rest
              rw [hinput] at hrun hwrites
              refine ⟨t', hrun, ?_⟩
              intro r' hr'
              obtain ⟨sent, hsent, hclient, hserver⟩ := hwrites r' hr'
              obtain ⟨hfirst, _, _⟩ := line_spec hline
              refine ⟨c :: buf ++ sent, ?_, ?_, ?_⟩
              · rw [hsent, hfirst, List.append_assoc]
              · rw [hclient]
                simp [Streams.append, Streams.setInput]
              · rw [hserver]
                simp [Streams.append, Streams.setInput]

/-- The key of a request that has been parsed fits the array `uri`. -/
theorem key_length_of_parse
    {stream : List Byte} {line : RequestLine} {headers : List HeaderLine}
    (h : parseRequest stream = .ok (.request line headers)) :
    line.key.length < MAXLINE := by
  rw [parseRequest_eq] at h
  cases htexts : texts stream with
  | nil =>
      rw [htexts] at h
      cases h
  | cons first rest =>
      rw [htexts] at h
      obtain ⟨uri, _, _, hscan, hline, _⟩ := parseTexts_request h
      have hkey := (parseUri_spells hline).1.length_le.2
      have huri := (scanUri_inside hscan).length_le
      have hfirst := length_of_texts htexts
      omega

/-- The rounds are enough: every connection is handled to its end. -/
theorem handle_ne_endless
    (buf : Buffer MAXLINE) (object_buf : Buffer MAX_OBJECT_SIZE)
    (stream response : List Byte) (c : Cache) :
    handle buf object_buf stream response c ≠ .error .endless := by
  have hends : parseRequest stream ≠ .error .endless := by
    rw [parseRequest_eq]
    exact parseTexts_ne_endless _
  rcases hparsed : parseRequest stream with
    e | (_ | _ | _ | ⟨line, headers⟩)
  case error =>
      rw [hparsed] at hends
      rw [handle, hparsed]
      simpa using hends
  case ok.request =>
      obtain ⟨hserves, hfaults⟩ := handle_request buf object_buf response c hparsed
        (key_length_of_parse hparsed)
      by_cases hfits : c.reader line.key = none →
          (requestBytes line.path ((headerLines stream).map stored)).length < MAXLINE ∧
            Fetches { line := line, response := response, object_buf := object_buf }
      · obtain ⟨out, c', hout⟩ := hserves hfits
        simp [hout]
      · simp [hfaults hfits]
  all_goals
    rw [handle, hparsed]
    simp

/-- The bytes that the client gets. -/
def Handled.bytes : Handled → List Byte
  | .served out _ => out.bytes
  | _ => []

/-- The bytes that the server gets. -/
def asked (buf : Buffer MAXLINE) (stream : List Byte) (c : Cache) :
    Result (List Byte) := do
  match ← parseRequest stream with
  | .request line headers => fetch buf line headers (c.reader line.key)
  | _ => .ok []

variable {buf : Buffer MAXLINE} {object_buf : Buffer MAX_OBJECT_SIZE}
  {c : Cache}

theorem writes_setInput
    (t : Streams) (side : Side) (rest : List Byte) :
    Writes t (t.setInput side rest) [] [] := by
  constructor <;> simp [Streams.setInput]

/-- `doit` over streams. -/
theorem doitOver_run
    (buf : Buffer MAXLINE) (object_buf : Buffer MAX_OBJECT_SIZE) (c : Cache)
    (t : Streams) :
    ∃ t', (doitOver ((t.input .client).length + 2)
        ((t.input .server).length + 1) buf object_buf c).run Streams.serve t =
          some (handle buf object_buf (t.input .client) (t.input .server) c,
            t') ∧
      ∀ h, handle buf object_buf (t.input .client) (t.input .server) c = .ok h →
        ∃ text, asked buf (t.input .client) c = .ok text ∧
          Writes t t' h.bytes text := by
  obtain ⟨rest, hparse⟩ := parseRequestOver_run t
  rw [doitOver, Client.run_bind, hparse, Option.bind_some, handle, asked]
  have hquiet := writes_setInput t .client rest
  rcases hparsed : parseRequest (t.input .client) with
    e | (_ | _ | _ | ⟨line, headers⟩)
  case error => exact ⟨_, rfl, by simp⟩
  case ok.request =>
      have hkey := key_length_of_parse hparsed
      simp only [Result.ok_bind, if_pos hkey, doit]
      cases hread : c.reader line.key with
      | some i =>
          refine ⟨_, rfl, ?_⟩
          rintro h ⟨⟩
          refine ⟨[], rfl, ?_, ?_⟩
          · simp [Streams.append, Streams.setInput, Handled.bytes, Served.bytes]
          · simp [Streams.append, Streams.setInput]
      | none =>
          simp only [fetch]
          cases hsend : sendToServer buf line headers with
          | error e => exact ⟨_, rfl, by simp⟩
          | ok text =>
              rw [Client.run_done_ok_bind, Client.run_call_bind, Streams.serve,
                Option.bind_some, Client.run_bind]
              have hinput : ((t.setInput .client rest).append .server
                  text).input .server = t.input .server := by
                simp [Streams.append, Streams.setInput]
              obtain ⟨t', hrelay, hwrites⟩ := relayOver_run
                ((t.input .server).length + 1)
                ((t.setInput .client rest).append .server text)
                { sent := [], object_buf := object_buf, total_size := 0 }
              rw [hinput] at hrelay hwrites
              rw [hrelay, Option.bind_some, Result.ok_bind]
              have hsent : ∀ r, relay ((t.input .server).length + 1)
                  (t.input .server)
                  { sent := [], object_buf := object_buf, total_size := 0 } =
                    .ok r → Writes t t' r.sent text := by
                intro r hr
                obtain ⟨sent, hall, hclient, hserver⟩ := hwrites r hr
                rw [List.nil_append] at hall
                refine ⟨?_, ?_⟩
                · rw [hclient, hall]
                  simp [Streams.append, Streams.setInput]
                · rw [hserver]
                  simp [Streams.append, Streams.setInput]
              cases hr : relay ((t.input .server).length + 1) (t.input .server)
                  { sent := [], object_buf := object_buf, total_size := 0 } with
              | error e => exact ⟨t', rfl, by simp⟩
              | ok r =>
                  simp only [Result.ok_bind]
                  by_cases hshort : r.total_size < MAX_OBJECT_SIZE
                  · simp only [if_pos hshort]
                    cases c.writer line.key r.object_buf none with
                    | error e => exact ⟨t', rfl, by simp⟩
                    | ok c' =>
                        refine ⟨t', rfl, ?_⟩
                        rintro h ⟨⟩
                        exact ⟨text, rfl, hsent r hr⟩
                  · simp only [if_neg hshort]
                    refine ⟨t', rfl, ?_⟩
                    rintro h ⟨⟩
                    exact ⟨text, rfl, hsent r hr⟩
  -- nothing is written before the request has been parsed
  all_goals
    refine ⟨_, rfl, ?_⟩
    rintro h ⟨⟩
    exact ⟨[], rfl, hquiet⟩

/-- `doit` over sockets is `handle` over the streams that they carry: it ends the same
way, and the client and the server get the same bytes, however they arrive and are
taken.  Its loops end by themselves, never at the bound on their rounds, and only a
`read` or a `write` that fails can end it before. -/
theorem doitOver_handles
    (buf : Buffer MAXLINE) (object_buf : Buffer MAX_OBJECT_SIZE) (c : Cache)
    (fd : Side → Source) (rio_buf : Side → Buffer RIO_BUFSIZE)
    (sink : Side → Sink) :
    (∀ r s', (doitOver ((fd .client).stream.length + 2)
        ((fd .server).stream.length + 1) buf object_buf c).run
          Connection.serve (.opened fd rio_buf sink) = some (r, s') →
      r = handle buf object_buf (fd .client).stream (fd .server).stream c ∧
        r ≠ .error .endless ∧
        ∀ h, r = .ok h → ∃ text, asked buf (fd .client).stream c = .ok text ∧
          (s'.sink .client).written = (sink .client).written ++ h.bytes ∧
            (s'.sink .server).written = (sink .server).written ++ text) ∧
    ((∀ side, .failed ∉ (fd side).calls ∧ .failed ∉ (sink side).calls) →
      ∃ r s', (doitOver ((fd .client).stream.length + 2)
        ((fd .server).stream.length + 1) buf object_buf c).run
          Connection.serve (.opened fd rio_buf sink) = some (r, s')) := by
  obtain ⟨hsame, hruns⟩ := (carries_opened fd rio_buf sink).run
    (doitOver ((fd .client).stream.length + 2)
      ((fd .server).stream.length + 1) buf object_buf c)
  refine ⟨fun r s' hrun => ?_, hruns⟩
  obtain ⟨t', hstreams, hcarries⟩ := hsame r s' hrun
  obtain ⟨t'', hideal, hwrites⟩ := doitOver_run buf object_buf c
    { input := fun side => (fd side).stream
      output := fun side => (sink side).written }
  obtain ⟨rfl, rfl⟩ :=
    Prod.mk.inj (Option.some.inj (hstreams.symm.trans hideal))
  refine ⟨rfl, handle_ne_endless _ _ _ _ _, fun h hh => ?_⟩
  obtain ⟨text, hasked, hclient, hserver⟩ := hwrites h hh
  refine ⟨text, hasked, ?_, ?_⟩
  · rw [hcarries.written, hclient]
  · rw [hcarries.written, hserver]

end Serving

end Proxy
end PastWork
