import PastWork.Proxy.Cache

/-!
# Serving a request

`doit` after `parse_request`: the key, the lookup, and on a miss the relay of the
response, which is also collected in `object_buf`.  The bytes of a request line
are C strings; the response is what the server sends until it closes the
connection.
-/

namespace PastWork
namespace Proxy

/-- `request_line` -/
structure RequestLine where
  hostname : CStr
  port : CStr
  path : CStr
deriving DecidableEq, Repr

/-- The key of the cache: `uri` in `doit`. -/
def RequestLine.key (line : RequestLine) : CStr :=
  line.hostname ++ line.path

/-- `Rio_readlineb`: the next line, of at most `maxlen - 1` bytes, and what is
left of the stream.  An empty line means that the stream has ended. -/
def readlineb : Nat → List Byte → List Byte × List Byte
  | 0, stream => ([], stream)
  | 1, stream => ([], stream)
  | _ + 2, [] => ([], [])
  | maxlen + 2, c :: stream =>
      if c = 10 then ([c], stream)
      else
        let rest := readlineb (maxlen + 1) stream
        (c :: rest.1, rest.2)

/-- The local variables of the relay loop. -/
structure Relay where
  /-- what has been written to the client -/
  sent : List Byte
  object_buf : Buffer MAX_OBJECT_SIZE
  total_size : Nat

/-- One round of the loop, for a line that has been read. -/
def Relay.line (r : Relay) (buf : List Byte) : Result Relay := do
  let s ← cstr (buf ++ [0])
  let object_buf ← r.object_buf.strcpy r.total_size s
  .ok
    { sent := r.sent ++ buf
      object_buf := object_buf
      total_size := r.total_size + buf.length }

/-- The loop over the lines of the response. -/
def relay : Nat → List Byte → Relay → Result Relay
  | 0, _, _ => .error .endless
  | fuel + 1, response, r =>
      match readlineb MAXLINE response with
      | ([], _) => .ok r
      | (buf, rest) => do
          let r ← r.line buf
          relay fuel rest r

/-- A request, the response of its server and what `object_buf` holds when `doit`
is called. -/
structure Request where
  line : RequestLine
  response : List Byte
  object_buf : Buffer MAX_OBJECT_SIZE

/-- What is written to the client. -/
inductive Served where
  | hit (bytes : List Byte)
  | miss (bytes : List Byte)
deriving DecidableEq

def Served.bytes : Served → List Byte
  | .hit bytes => bytes
  | .miss bytes => bytes

def Served.isHit : Served → Bool
  | .hit _ => true
  | .miss _ => false

/-- `doit` after `parse_request`. -/
def doit (req : Request) (c : Cache) : Result (Served × Cache) :=
  let uri := req.line.key
  if uri.length < MAXLINE then
    match c.reader uri with
    | some cache_i => do
        let c' ← c.writer uri req.object_buf (some cache_i)
        .ok (.hit (c.cache cache_i).payload.bytes, c')
    | none => do
        let r ← relay (req.response.length + 1) req.response
          { sent := [], object_buf := req.object_buf, total_size := 0 }
        if r.total_size < MAX_OBJECT_SIZE then
          let c' ← c.writer uri r.object_buf none
          .ok (.miss r.sent, c')
        else
          .ok (.miss r.sent, c)
  else
    .error .outOfBounds

/-- Requests that are handled one after another. -/
def serve : List Request → Cache → Result (List Served × Cache)
  | [], c => .ok ([], c)
  | req :: reqs, c => do
      let (out, c) ← doit req c
      let (outs, c) ← serve reqs c
      .ok (out :: outs, c)

section Example

/-- An array that is all NUL. -/
def zeros : Buffer MAX_OBJECT_SIZE where
  bytes := List.replicate MAX_OBJECT_SIZE 0
  length_bytes := List.length_replicate

/-- The cache after the start of the proxy, on memory that is all NUL. -/
def freshCache : Cache :=
  initializeCache (fun _ => { name := [], payload := zeros, timestamp := 0 })

/-- `GET http://h:80/` with the response `hi`. -/
def hiRequest : Request where
  line := { hostname := [104], port := [56, 48], path := [47] }
  response := [104, 105, 10]
  object_buf := zeros

end Example

section Lines

variable {maxlen : Nat} {stream : List Byte}

/-- No byte of the stream is lost or changed. -/
theorem readlineb_append
    (maxlen : Nat) (stream : List Byte) :
    (readlineb maxlen stream).1 ++ (readlineb maxlen stream).2 = stream := by
  induction stream generalizing maxlen with
  | nil =>
      rcases maxlen with _ | _ | maxlen <;> rfl
  | cons c stream ih =>
      rcases maxlen with _ | _ | maxlen
      · rfl
      · rfl
      · rw [readlineb]
        split
        · rfl
        · simp [ih]

/-- An empty line is the end of the stream. -/
theorem readlineb_ne_nil
    (hmaxlen : 2 ≤ maxlen)
    (hstream : stream ≠ []) :
    (readlineb maxlen stream).1 ≠ [] := by
  obtain ⟨m, rfl⟩ := Nat.exists_eq_add_of_le' hmaxlen
  cases stream with
  | nil => exact absurd rfl hstream
  | cons c stream =>
      rw [readlineb]
      split <;> simp

end Lines

section Relaying

variable {r r' : Relay} {buf response : List Byte} {fuel : Nat}

theorem line_spec
    (h : r.line buf = .ok r') :
    r'.sent = r.sent ++ buf ∧
      r'.total_size = r.total_size + buf.length ∧
      ∃ rest, r'.object_buf.bytes =
        r.object_buf.bytes.take r.total_size ++ stored buf ++ 0 :: rest := by
  unfold Relay.line at h
  obtain ⟨s, hs, h⟩ := Result.bind_eq_ok h
  obtain ⟨object_buf, hobject, h⟩ := Result.bind_eq_ok h
  cases h
  obtain ⟨_, rest, hbytes⟩ := Buffer.strcpy_bytes hobject
  rw [cstr_stored] at hs
  cases hs
  exact ⟨rfl, rfl, rest, hbytes⟩

theorem line_ok
    (h : r.total_size + (stored buf).length < MAX_OBJECT_SIZE) :
    ∃ r', r.line buf = .ok r' := by
  obtain ⟨object_buf, hobject⟩ := Buffer.strcpy_ok r.object_buf h
  rw [Relay.line, cstr_stored, Result.ok_bind, hobject]
  exact ⟨_, rfl⟩

/-- A round of the loop that has returned has read the end of the response or a
line of it. -/
theorem relay_cases
    (h : relay (fuel + 1) response r = .ok r') :
    response = [] ∧ r' = r ∨
      ∃ buf rest m, response = buf ++ rest ∧ buf ≠ [] ∧
        r.line buf = .ok m ∧ relay fuel rest m = .ok r' := by
  have happend := readlineb_append MAXLINE response
  rw [relay] at h
  split at h
  next rest hread =>
      cases h
      refine .inl ⟨?_, rfl⟩
      by_contra hne
      exact readlineb_ne_nil (by decide : 2 ≤ MAXLINE) hne
        (congrArg Prod.fst hread)
  next buf rest hne hread =>
      obtain ⟨m, hm, h⟩ := Result.bind_eq_ok h
      rw [hread] at happend
      refine .inr ⟨buf, rest, m, happend.symm, ?_, hm, h⟩
      rintro rfl
      exact hne rfl

/-- The client gets the response, and `object_buf` holds a string unless the
response is empty. -/
theorem relay_spec
    (h : relay fuel response r = .ok r') :
    r'.sent = r.sent ++ response ∧
      r'.total_size = r.total_size + response.length ∧
      (response ≠ [] ∨ 0 ∈ r.object_buf.bytes →
        0 ∈ r'.object_buf.bytes) := by
  induction fuel generalizing response r with
  | zero =>
      cases h
  | succ fuel ih =>
      rcases relay_cases h with ⟨rfl, rfl⟩ | ⟨buf, rest, m, rfl, _, hm, hrest⟩
      · simp
      · obtain ⟨hsent, htotal, hnul⟩ := ih hrest
        obtain ⟨hsent', htotal', tail, hbytes⟩ := line_spec hm
        refine ⟨?_, ?_, ?_⟩
        · rw [hsent, hsent', List.append_assoc]
        · rw [htotal, htotal', List.length_append, Nat.add_assoc]
        · intro _
          refine hnul (.inr ?_)
          rw [hbytes]
          simp

/-- The bytes in front of `total_size` stand for what has been relayed. -/
def Relay.Collected (r : Relay) (relayed : List Byte) : Prop :=
  r.total_size = relayed.length ∧ ∀ tail,
    stored (r.object_buf.bytes.take r.total_size ++ tail) = stored (relayed ++ tail)

/-- A line is copied up to its first NUL, and the next one behind its whole length. -/
theorem Relay.Collected.line
    {relayed : List Byte}
    (hr : r.Collected relayed)
    (h : r.line buf = .ok r') :
    r'.Collected (relayed ++ buf) ∧
      stored r'.object_buf.bytes = stored (relayed ++ buf) := by
  obtain ⟨htotal, hstored⟩ := hr
  unfold Relay.line at h
  obtain ⟨s, hs, h⟩ := Result.bind_eq_ok h
  obtain ⟨object_buf, hobject, h⟩ := Result.bind_eq_ok h
  cases h
  rw [cstr_stored] at hs
  cases hs
  obtain ⟨hfits, rest, hbytes⟩ := Buffer.strcpy_bytes hobject
  have hfront : (r.object_buf.bytes.take r.total_size).length = r.total_size := by
    rw [List.length_take, r.object_buf.length_bytes]
    omega
  have hcopied : stored (stored buf ++ 0 :: rest) = stored buf := by
    rw [stored_append_nul]
    exact List.takeWhile_idem
  refine ⟨⟨?_, fun tail => ?_⟩, ?_⟩
  · rw [List.length_append, htotal]
  · have htaken : object_buf.bytes.take (r.total_size + buf.length) =
        r.object_buf.bytes.take r.total_size ++
          (stored buf ++ 0 :: rest).take buf.length := by
      rw [hbytes, List.append_assoc, List.take_append, hfront, List.take_of_length_le
        (by omega), Nat.add_sub_cancel_left]
    have hline : stored ((stored buf ++ 0 :: rest).take buf.length ++ tail) =
        stored (buf ++ tail) := by
      rcases stored_cases buf with hwhole | ⟨behind, hnul⟩
      · rw [hwhole, List.take_left]
      · have hlength : buf.length = (stored buf).length + (behind.length + 1) := by
          conv_lhs => rw [hnul]
          rw [List.length_append, List.length_cons]
        rw [hlength, List.take_length_add_append, List.take_succ_cons,
          List.append_assoc, List.cons_append, stored_append_nul]
        conv_rhs => rw [hnul]
        rw [List.append_assoc, List.cons_append, stored_append_nul]
    dsimp only
    rw [htaken, List.append_assoc, hstored, List.append_assoc]
    exact stored_append_congr hline relayed
  · dsimp only
    rw [hbytes, List.append_assoc, hstored]
    exact stored_append_congr hcopied relayed

/-- The string of `object_buf` is the response up to its first NUL. -/
theorem relay_stored
    {relayed : List Byte}
    (hr : r.Collected relayed)
    (hstored : relayed ≠ [] → stored r.object_buf.bytes = stored relayed)
    (hne : relayed ++ response ≠ [])
    (h : relay fuel response r = .ok r') :
    stored r'.object_buf.bytes = stored (relayed ++ response) := by
  induction fuel generalizing response r relayed with
  | zero =>
      cases h
  | succ fuel ih =>
      rcases relay_cases h with ⟨rfl, rfl⟩ | ⟨buf, rest, m, rfl, hbuf, hm, hrest⟩
      · rw [List.append_nil] at hne ⊢
        exact hstored hne
      · obtain ⟨hcollected, hline⟩ := hr.line hm
        rw [← List.append_assoc] at hne ⊢
        exact ih hcollected (fun _ => hline) hne hrest

/-- A short response is relayed without a fault. -/
theorem relay_ok
    (hfuel : response.length < fuel)
    (hshort : r.total_size + response.length < MAX_OBJECT_SIZE) :
    ∃ r', relay fuel response r = .ok r' := by
  induction fuel generalizing response r with
  | zero =>
      omega
  | succ fuel ih =>
      have happend := readlineb_append MAXLINE response
      rw [relay]
      split
      next => exact ⟨r, rfl⟩
      next buf rest hne hread =>
          rw [hread] at happend
          dsimp only at happend
          subst happend
          have hbuf : buf ≠ [] := by
            rintro rfl
            exact hne rfl
          have hpos := List.length_pos_iff.mpr hbuf
          rw [List.length_append] at hfuel hshort
          have hstored := (stored_front buf).length_le
          have hfit : r.total_size + (stored buf).length < MAX_OBJECT_SIZE := by
            omega
          obtain ⟨m, hm⟩ := line_ok hfit
          obtain ⟨_, htotal, _⟩ := line_spec hm
          have hrest : m.total_size + rest.length < MAX_OBJECT_SIZE := by
            omega
          obtain ⟨r', hr'⟩ := ih (by omega) hrest
          exact ⟨r', by rw [hm, Result.ok_bind, hr']⟩

end Relaying

section Serving

variable {req : Request} {c c' : Cache} {out : Served}

/-- The relay of a request. -/
def Request.relay (req : Request) : Result Relay :=
  Proxy.relay (req.response.length + 1) req.response
    { sent := [], object_buf := req.object_buf, total_size := 0 }

/-- A request that has been served was a hit, or a miss whose response has been
relayed and, when it is short, cached. -/
theorem doit_cases
    (h : doit req c = .ok (out, c')) :
    (∃ i, c.reader req.line.key = some i ∧
      out = .hit (c.cache i).payload.bytes ∧
      c' = c.put i { c.cache i with timestamp := c.gtime } c.usedcnt
        c.usedcnt_le) ∨
    (c.reader req.line.key = none ∧ out = .miss req.response ∧
      ∃ r, req.relay = .ok r ∧
        (req.response.length < MAX_OBJECT_SIZE ∧
            c.writer req.line.key r.object_buf none = .ok c' ∨
          MAX_OBJECT_SIZE ≤ req.response.length ∧ c' = c)) := by
  unfold doit at h
  simp only at h
  split at h
  case isFalse => cases h
  case isTrue =>
      cases hread : c.reader req.line.key with
      | some i =>
          simp only [hread] at h
          cases h
          exact .inl ⟨i, rfl, rfl, rfl⟩
      | none =>
          simp only [hread] at h
          obtain ⟨r, hr, h⟩ := Result.bind_eq_ok h
          obtain ⟨hsent, htotal, _⟩ := relay_spec hr
          rw [List.nil_append] at hsent
          rw [Nat.zero_add] at htotal
          split at h
          next hlt =>
              obtain ⟨m, hm, h⟩ := Result.bind_eq_ok h
              cases h
              exact .inr ⟨rfl, by rw [hsent], r, hr, .inl ⟨htotal ▸ hlt, hm⟩⟩
          next hge =>
              cases h
              exact .inr ⟨rfl, by rw [hsent], r, hr,
                .inr ⟨by omega, rfl⟩⟩

theorem doit_hit
    {i : Fin NUM_CACHE_LINE}
    (hkey : req.line.key.length < MAXLINE)
    (hread : c.reader req.line.key = some i) :
    doit req c = .ok (.hit (c.cache i).payload.bytes,
      c.put i { c.cache i with timestamp := c.gtime } c.usedcnt
        c.usedcnt_le) := by
  unfold doit
  simp only [if_pos hkey, hread]
  rfl

/-- A miss is served when its response is short, and `object_buf` is written or
holds a string anyway. -/
theorem doit_miss
    (hkey : req.line.key.length < MAXLINE)
    (hread : c.reader req.line.key = none)
    (hshort : req.response.length < MAX_OBJECT_SIZE)
    (hbuf : req.response ≠ [] ∨ 0 ∈ req.object_buf.bytes) :
    ∃ c', doit req c = .ok (.miss req.response, c') := by
  have hrun : ∃ r, req.relay = .ok r :=
    relay_ok (Nat.lt_succ_self _) (by simpa using hshort)
  obtain ⟨r, hr⟩ := hrun
  obtain ⟨hsent, htotal, hnul⟩ := relay_spec hr
  rw [List.nil_append] at hsent
  rw [Nat.zero_add] at htotal
  obtain ⟨c', hc'⟩ := Cache.writer_none_ok hkey (hnul hbuf) c
  refine ⟨c', ?_⟩
  unfold doit
  unfold Request.relay at hr
  simp only [if_pos hkey, hread, hr, Result.ok_bind, htotal, if_pos hshort, hc',
    hsent]

/-- A miss whose response is short is found under its key afterwards, as the string of
the response. -/
theorem doit_cached
    (hread : c.reader req.line.key = none)
    (hshort : req.response.length < MAX_OBJECT_SIZE)
    (hne : req.response ≠ [])
    (h : doit req c = .ok (out, c')) :
    ∃ i, c'.reader req.line.key = some i ∧
      cstr (c'.cache i).payload.bytes = .ok (stored req.response) := by
  rcases doit_cases h with ⟨i, hhit, _⟩ | ⟨_, _, r, hr, hcached⟩
  · rw [hread] at hhit
    cases hhit
  · rcases hcached with ⟨_, hwrite⟩ | ⟨hlong, _⟩
    · obtain ⟨line, hline, rfl⟩ := Cache.writer_none hwrite
      obtain ⟨hname, s, hs, hpayload⟩ := Cache.copy_spec hline
      have hstart : Relay.Collected
          { sent := [], object_buf := req.object_buf, total_size := 0 } [] :=
        ⟨rfl, fun _ => rfl⟩
      have hstring : stored r.object_buf.bytes = stored req.response :=
        relay_stored hstart (fun h => absurd rfl h) hne hr
      have hmem : 0 ∈ r.object_buf.bytes := (relay_spec hr).2.2 (.inl hne)
      obtain rfl : stored req.response = s := by
        rw [cstr_eq_stored hmem, hstring] at hs
        exact Except.ok.inj hs
      have hkeyed : ((c.put c.victim { line with timestamp := c.gtime }
          (min (c.usedcnt + 1) NUM_CACHE_LINE)
          (Nat.min_le_right _ _)).cache c.victim).name = req.line.key := by
        rw [Cache.put_same]
        exact hname
      refine ⟨c.victim, ?_, by rw [Cache.put_same]; exact hpayload⟩
      obtain ⟨j, hj⟩ := Cache.reader_of_name
        (c := c.put c.victim { line with timestamp := c.gtime }
          (min (c.usedcnt + 1) NUM_CACHE_LINE) (Nat.min_le_right _ _))
        (Cache.victim_lt c)
      rw [hkeyed] at hj
      obtain ⟨hused, hkey⟩ := Cache.reader_eq_some hj
      by_cases hsame : j = c.victim
      · rwa [hsame] at hj
      · -- another line with this name was there before
        rw [Cache.put_ne hsame] at hkey
        refine absurd hkey (Cache.reader_eq_none hread ?_)
        exact Cache.lt_of_ne_victim hused hsame
    · omega

end Serving

end Proxy
end PastWork
