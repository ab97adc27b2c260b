import PastWork.Library.Services
import PastWork.Proxy.Doit

/-!
# Robust input and output

The Rio package of `csapp.c`.  A `read` or a `write` moves as many bytes as it
likes, but at least one, is interrupted, or fails.  The buffered readers give the
bytes of the stream in their order all the same, and `rio_writen` writes all of
its bytes.
-/

namespace PastWork
namespace Proxy

abbrev RIO_BUFSIZE : Nat := 8192

/-- What a call of `read` or `write` does. -/
inductive Outcome where
  /-- at most `k + 1` bytes are moved -/
  | moves (k : Nat)
  /-- -1 with `EINTR` -/
  | interrupted
  /-- -1 with another `errno` -/
  | failed
deriving DecidableEq

/-- A descriptor to read from: the bytes that the other side sends until it closes
the connection, and what the next calls do.  The calls behind these move all that
they may. -/
structure Source where
  stream : List Byte
  calls : List Outcome
deriving DecidableEq

/-- What a call returns. -/
inductive Returned (α : Type) where
  | moved (a : α)
  | interrupted
  | failed
deriving DecidableEq

/-- `read(fd, buf, n)`, with the bytes that it stores; there are none at the end of
the stream. -/
def Source.read (fd : Source) (n : Nat) : Returned (List Byte) × Source :=
  match fd.calls with
  | [] =>
      (.moved (fd.stream.take n), { fd with stream := fd.stream.drop n })
  | .moves k :: calls =>
      (.moved (fd.stream.take (min n (k + 1))),
        { stream := fd.stream.drop (min n (k + 1)), calls := calls })
  | .interrupted :: calls => (.interrupted, { fd with calls := calls })
  | .failed :: calls => (.failed, { fd with calls := calls })

/-- `rio_t` with its descriptor; `rio_bufptr` is an offset into `rio_buf`. -/
structure Rio where
  rio_fd : Source
  rio_cnt : Int
  rio_bufptr : Nat
  rio_buf : Buffer RIO_BUFSIZE

/-- `rio_readinitb`, on memory that holds `rio_buf`. -/
def rioReadinitb (fd : Source) (rio_buf : Buffer RIO_BUFSIZE) : Rio where
  rio_fd := fd
  rio_cnt := 0
  rio_bufptr := 0
  rio_buf := rio_buf

/-- The loop of `rio_read` while the internal buffer is empty; the first part of the
result is what `rio_read` returns at once. -/
def refill : Nat → Rio → Result (Option Int × Rio)
  | 0, _ => .error .endless
  | fuel + 1, rp =>
      if rp.rio_cnt ≤ 0 then
        match rp.rio_fd.read RIO_BUFSIZE with
        | (.interrupted, fd) => refill fuel { rp with rio_fd := fd, rio_cnt := -1 }
        | (.failed, fd) => .ok (some (-1), { rp with rio_fd := fd, rio_cnt := -1 })
        | (.moved data, fd) => do
            let rio_buf ← rp.rio_buf.store 0 data
            let rp := { rp with
              rio_fd := fd
              rio_cnt := (data.length : Int)
              rio_buf := rio_buf }
            if rp.rio_cnt = 0 then
              .ok (some 0, rp)
            else
              refill fuel { rp with rio_bufptr := 0 }
      else
        .ok (none, rp)

/-- `rio_read` to an offset of an array. -/
def rioRead {size : Nat} (rp : Rio) (usrbuf : Buffer size) (offset n : Nat) :
    Result (Int × Buffer size × Rio) := do
  let (rc, rp) ← refill (rp.rio_fd.calls.length + 2) rp
  match rc with
  | some rc => .ok (rc, usrbuf, rp)
  | none => do
      let cnt := if rp.rio_cnt < n then rp.rio_cnt else n
      let data ← rp.rio_buf.load rp.rio_bufptr cnt.toNat
      let usrbuf ← usrbuf.store offset data
      .ok (cnt, usrbuf,
        { rp with
          rio_bufptr := rp.rio_bufptr + cnt.toNat
          rio_cnt := rp.rio_cnt - cnt })

/-- The loop of `rio_readnb`; `read` bytes have been read so far. -/
def readnbFrom {size : Nat} :
    Nat → Rio → Buffer size → Nat → Nat → Result (Int × Buffer size × Rio)
  | 0, _, _, _, _ => .error .endless
  | fuel + 1, rp, usrbuf, read, nleft =>
      if 0 < nleft then do
        let (nread, usrbuf, rp) ← rioRead rp usrbuf read nleft
        if nread < 0 then
          .ok (-1, usrbuf, rp)
        else if nread = 0 then
          .ok (read, usrbuf, rp)
        else
          readnbFrom fuel rp usrbuf (read + nread.toNat) (nleft - nread.toNat)
      else
        .ok (read, usrbuf, rp)

def rioReadnb {size : Nat} (rp : Rio) (usrbuf : Buffer size) (n : Nat) :
    Result (Int × Buffer size × Rio) :=
  readnbFrom (n + 1) rp usrbuf 0 n

/-- `*bufp = 0; return n-1;` -/
def finishLine {size : Nat} (rp : Rio) (usrbuf : Buffer size) (length : Nat) :
    Result (Int × Buffer size × Rio) := do
  let usrbuf ← usrbuf.store length [0]
  .ok (length, usrbuf, rp)

/-- The loop of `rio_readlineb` with `left` rounds to go, and the `length` bytes of
the line so far; `c` is its local variable. -/
def readlinebFrom {size : Nat} :
    Nat → Rio → Buffer size → Buffer 1 → Nat → Result (Int × Buffer size × Rio)
  | 0, rp, usrbuf, _, length => finishLine rp usrbuf length
  | left + 1, rp, usrbuf, c, length => do
      let (rc, c, rp) ← rioRead rp c 0 1
      if rc = 1 then
        let b ← c.fetch 0
        let usrbuf ← usrbuf.store length [b]
        if b = 10 then
          finishLine rp usrbuf (length + 1)
        else
          readlinebFrom left rp usrbuf c (length + 1)
      else if rc = 0 then
        if length = 0 then
          .ok (0, usrbuf, rp)
        else
          finishLine rp usrbuf length
      else
        .ok (-1, usrbuf, rp)

def rioReadlineb {size : Nat}
    (rp : Rio) (usrbuf : Buffer size) (c : Buffer 1) (maxlen : Nat) :
    Result (Int × Buffer size × Rio) :=
  readlinebFrom (maxlen - 1) rp usrbuf c 0

/-- A descriptor to write to, with the bytes that have been written. -/
structure Sink where
  written : List Byte
  calls : List Outcome
deriving DecidableEq

/-- `write(fd, data, n)` of `n` bytes, with the number of those that it writes. -/
def Sink.write (fd : Sink) (data : List Byte) : Returned Nat × Sink :=
  match fd.calls with
  | [] => (.moved data.length, { fd with written := fd.written ++ data })
  | .moves k :: calls =>
      (.moved (min data.length (k + 1)),
        { written := fd.written ++ data.take (k + 1), calls := calls })
  | .interrupted :: calls => (.interrupted, { fd with calls := calls })
  | .failed :: calls => (.failed, { fd with calls := calls })

/-- The loop of `rio_writen`; `true` when all bytes have been written. -/
def writenFrom : Nat → Sink → List Byte → Result (Bool × Sink)
  | 0, _, _ => .error .endless
  | fuel + 1, fd, usrbuf =>
      if usrbuf = [] then
        .ok (true, fd)
      else
        match fd.write usrbuf with
        | (.moved nwritten, fd) => writenFrom fuel fd (usrbuf.drop nwritten)
        | (.interrupted, fd) => writenFrom fuel fd usrbuf
        | (.failed, fd) => .ok (false, fd)

def rioWriten (fd : Sink) (usrbuf : List Byte) : Result (Bool × Sink) :=
  writenFrom (fd.calls.length + 2) fd usrbuf

namespace Rio

/-- What the reader has not given yet: the rest of its buffer and of the stream. -/
def unread (rp : Rio) : List Byte :=
  (rp.rio_buf.bytes.drop rp.rio_bufptr).take rp.rio_cnt.toNat ++
    rp.rio_fd.stream

/-- The unread bytes of the buffer are in the buffer. -/
def Valid (rp : Rio) : Prop :=
  rp.rio_bufptr + rp.rio_cnt.toNat ≤ RIO_BUFSIZE

/-- The reader after some calls: it is valid, and the calls to come are the last of
those that were to come. -/
structure Continues (rp rp' : Rio) : Prop where
  valid : rp'.Valid
  calls : rp'.rio_fd.calls <:+ rp.rio_fd.calls

theorem Continues.trans
    {rp rp' rp'' : Rio}
    (h : rp.Continues rp')
    (h' : rp'.Continues rp'') :
    rp.Continues rp'' :=
  ⟨h'.valid, h'.calls.trans h.calls⟩

theorem Continues.failed
    {rp rp' : Rio}
    (h : rp.Continues rp')
    (hfailed : .failed ∈ rp'.rio_fd.calls) :
    .failed ∈ rp.rio_fd.calls :=
  h.calls.subset hfailed

theorem valid_rioReadinitb
    (fd : Source) (rio_buf : Buffer RIO_BUFSIZE) :
    (rioReadinitb fd rio_buf).Valid := by
  simp [Valid, rioReadinitb]

theorem unread_rioReadinitb
    (fd : Source) (rio_buf : Buffer RIO_BUFSIZE) :
    (rioReadinitb fd rio_buf).unread = fd.stream := by
  simp [unread, rioReadinitb]

end Rio

section Filling

variable {fd : Source} {rp : Rio} {n fuel : Nat}

/-- A `read` takes bytes from the front of the stream, and none only at its end. -/
theorem Source.read_cases
    (fd : Source)
    (hn : 0 < n) :
    (∃ data fd', fd.read n = (.moved data, fd') ∧
      fd.stream = data ++ fd'.stream ∧ data.length ≤ n ∧
      (data = [] → fd.stream = []) ∧ fd'.calls = fd.calls.tail) ∨
    (∃ calls, fd.calls = .interrupted :: calls ∧
      fd.read n = (.interrupted, { fd with calls := calls })) ∨
    ∃ calls, fd.calls = .failed :: calls ∧
      fd.read n = (.failed, { fd with calls := calls }) := by
  have hnil : ∀ m, 0 < m → fd.stream.take m = [] → fd.stream = [] := by
    intro m hm htake
    exact (List.take_eq_nil_iff.mp htake).resolve_left (by omega)
  obtain ⟨stream, calls⟩ := fd
  match calls with
  | [] =>
      refine .inl ⟨_, _, rfl, (List.take_append_drop n stream).symm, ?_, ?_, rfl⟩
      · exact List.length_take_le n stream
      · exact hnil n hn
  | .moves k :: calls =>
      refine .inl ⟨_, _, rfl,
        (List.take_append_drop (min n (k + 1)) stream).symm, ?_, ?_, rfl⟩
      · exact (List.length_take_le _ stream).trans (Nat.min_le_left n (k + 1))
      · exact hnil _ (by omega)
  | .interrupted :: calls => exact .inr (.inl ⟨calls, rfl, rfl⟩)
  | .failed :: calls => exact .inr (.inr ⟨calls, rfl, rfl⟩)

/-- How the loop of `rio_read` ends: with bytes in the buffer, at the end of the
stream, or with a failure. -/
inductive Refilled (rp rp' : Rio) : Option Int → Prop
  | ready
      (hcnt : 0 < rp'.rio_cnt) :
      Refilled rp rp' none
  | ended
      (hunread : rp.unread = []) :
      Refilled rp rp' (some 0)
  | failed
      (hcalls : .failed ∈ rp.rio_fd.calls) :
      Refilled rp rp' (some (-1))

theorem unread_of_empty
    (hcnt : rp.rio_cnt ≤ 0) :
    rp.unread = rp.rio_fd.stream := by
  rw [Rio.unread, Int.toNat_of_nonpos hcnt, List.take_zero, List.nil_append]

/-- The loop ends when a `read` has returned some bytes, or none. -/
theorem refill_moved
    {data : List Byte} {fd : Source}
    (h : rp.Valid)
    (hcnt : rp.rio_cnt ≤ 0)
    (hread : rp.rio_fd.read RIO_BUFSIZE = (.moved data, fd))
    (hstream : rp.rio_fd.stream = data ++ fd.stream)
    (hlength : data.length ≤ RIO_BUFSIZE)
    (hnil : data = [] → rp.rio_fd.stream = [])
    (hcalls : fd.calls <:+ rp.rio_fd.calls)
    (fuel : Nat) :
    ∃ rc rp', refill (fuel + 2) rp = .ok (rc, rp') ∧ rp.Continues rp' ∧
      rp'.unread = rp.unread ∧ Refilled rp rp' rc := by
  have hptr : rp.rio_bufptr ≤ RIO_BUFSIZE := (Nat.le_add_right _ _).trans h
  obtain ⟨rio_buf, hstore, hbytes⟩ :=
    rp.rio_buf.store_ok (show 0 + data.length ≤ RIO_BUFSIZE by omega)
  rw [List.take_zero, List.nil_append] at hbytes
  rw [refill, if_pos hcnt]
  simp only [hread, hstore, Result.ok_bind]
  by_cases hdata : data = []
  · subst hdata
    refine ⟨_, _, rfl, ⟨?_, hcalls⟩, ?_, .ended ?_⟩
    · simpa [Rio.Valid] using hptr
    · rw [unread_of_empty hcnt, hstream]
      simp [Rio.unread]
    · rw [unread_of_empty hcnt]
      exact hnil rfl
  · -- the next round finds the buffer full
    have hpos : 0 < data.length := List.length_pos_iff.mpr hdata
    rw [if_neg (by simpa using hdata), refill, if_neg (by simpa using hdata)]
    refine ⟨_, _, rfl, ⟨?_, hcalls⟩, ?_, .ready ?_⟩
    · simpa [Rio.Valid] using hlength
    · rw [unread_of_empty hcnt, hstream]
      simp [Rio.unread, hbytes]
    · simpa using hpos

/-- A reader whose `read` has returned -1. -/
def Rio.missed (rp : Rio) (calls : List Outcome) : Rio :=
  { rp with
    rio_fd := { rp.rio_fd with calls := calls }
    rio_cnt := -1 }

theorem missed_spec
    {calls : List Outcome} {outcome : Outcome}
    (h : rp.Valid)
    (hcnt : rp.rio_cnt ≤ 0)
    (hcalls : rp.rio_fd.calls = outcome :: calls) :
    rp.Continues (rp.missed calls) ∧
      (rp.missed calls).unread = rp.unread := by
  have hptr : rp.rio_bufptr ≤ RIO_BUFSIZE := (Nat.le_add_right _ _).trans h
  refine ⟨⟨?_, ?_⟩, ?_⟩
  · simpa [Rio.Valid, Rio.missed] using hptr
  · rw [hcalls]
    exact List.suffix_cons _ _
  · rw [unread_of_empty hcnt]
    simp [Rio.unread, Rio.missed]

/-- The loop ends, and no byte is lost. -/
theorem refill_spec
    (h : rp.Valid)
    (hfuel : rp.rio_fd.calls.length + 1 < fuel) :
    ∃ rc rp', refill fuel rp = .ok (rc, rp') ∧ rp.Continues rp' ∧
      rp'.unread = rp.unread ∧ Refilled rp rp' rc := by
  induction fuel generalizing rp with
  | zero =>
      omega
  | succ fuel ih =>
      by_cases hcnt : rp.rio_cnt ≤ 0
      · rcases rp.rio_fd.read_cases (n := RIO_BUFSIZE) (by decide) with
          ⟨data, fd, hread, hstream, hlength, hnil, hcalls⟩ |
          ⟨calls, hcalls, hread⟩ | ⟨calls, hcalls, hread⟩
        · obtain ⟨fuel, rfl⟩ : ∃ m, fuel = m + 1 :=
            Nat.exists_eq_succ_of_ne_zero (by omega)
          exact refill_moved h hcnt hread hstream hlength hnil
            (hcalls ▸ List.tail_suffix _) fuel
        · obtain ⟨hmissed, hsame⟩ := missed_spec h hcnt hcalls
          rw [hcalls, List.length_cons] at hfuel
          obtain ⟨rc, rp', hrun, hcontinues, hunread, hends⟩ :=
            ih hmissed.valid (by simpa [Rio.missed] using hfuel)
          refine ⟨rc, rp', ?_, hmissed.trans hcontinues, hunread.trans hsame, ?_⟩
          · rw [refill, if_pos hcnt]
            simp only [hread]
            exact hrun
          · cases hends with
            | ready hready => exact .ready hready
            | ended hended => exact .ended (hsame.symm.trans hended)
            | failed hfailed => exact .failed (hmissed.failed hfailed)
        · obtain ⟨hmissed, hsame⟩ := missed_spec h hcnt hcalls
          refine ⟨_, rp.missed calls, ?_, hmissed, hsame, .failed ?_⟩
          · rw [refill, if_pos hcnt]
            simp only [hread]
            rfl
          · rw [hcalls]
            exact List.mem_cons_self
      · refine ⟨none, rp, ?_, ⟨h, List.suffix_refl _⟩, rfl,
          .ready (not_le.mp hcnt)⟩
        rw [refill, if_neg hcnt]

end Filling

section Copying

variable {size offset n : Nat} {rp : Rio}

/-- What `rio_read` has done: some bytes have been copied to the array, the stream
has ended, or a `read` has failed. -/
inductive Transfer (offset n : Nat) (rp rp' : Rio) (a a' : Buffer size) :
    Int → Prop
  | copied {data : List Byte}
      (hne : data ≠ [])
      (hlength : data.length ≤ n)
      (hunread : rp.unread = data ++ rp'.unread)
      (hbytes : a'.bytes = a.bytes.take offset ++ data ++
        a.bytes.drop (offset + data.length)) :
      Transfer offset n rp rp' a a' data.length
  | ended
      (hunread : rp.unread = [])
      (hafter : rp'.unread = [])
      (harray : a' = a) :
      Transfer offset n rp rp' a a' 0
  | failed
      (hcalls : .failed ∈ rp.rio_fd.calls)
      (harray : a' = a) :
      Transfer offset n rp rp' a a' (-1)

theorem Transfer.of_length
    {rp' : Rio} {a a' : Buffer size} {cnt length : Nat}
    (hlength : length = cnt)
    (h : Transfer offset n rp rp' a a' length) :
    Transfer offset n rp rp' a a' cnt :=
  hlength ▸ h

theorem rioRead_spec
    (h : rp.Valid)
    (a : Buffer size)
    (hn : 0 < n)
    (hroom : offset + n ≤ size) :
    ∃ rc a' rp', rioRead rp a offset n = .ok (rc, a', rp') ∧
      rp.Continues rp' ∧ Transfer offset n rp rp' a a' rc := by
  obtain ⟨rc, m, hrefill, hcontinues, hunread, hends⟩ :=
    refill_spec h (Nat.lt_succ_self (rp.rio_fd.calls.length + 1))
  rw [rioRead, hrefill, Result.ok_bind]
  cases hends with
  | ended hended =>
      exact ⟨0, a, m, rfl, hcontinues,
        .ended hended (hunread.trans hended) rfl⟩
  | failed hfailed =>
      exact ⟨-1, a, m, rfl, hcontinues, .failed hfailed rfl⟩
  | ready hcnt =>
      -- the smaller one of `n` and `rio_cnt`
      obtain ⟨cnt, hmin, hpos, hle, hinside⟩ : ∃ cnt : Nat,
          (if m.rio_cnt < n then m.rio_cnt else n) = cnt ∧ 0 < cnt ∧ cnt ≤ n ∧
            (cnt : Int) ≤ m.rio_cnt := by
        refine ⟨(if m.rio_cnt < n then m.rio_cnt else n).toNat, ?_⟩
        split <;> omega
      have hvalid := hcontinues.valid
      unfold Rio.Valid at hvalid
      have hload := m.rio_buf.load_ok
        (show m.rio_bufptr + cnt ≤ RIO_BUFSIZE by omega)
      have hfull : cnt ≤ (m.rio_buf.bytes.drop m.rio_bufptr).length := by
        rw [List.length_drop, m.rio_buf.length_bytes]
        omega
      have hlength : ((m.rio_buf.bytes.drop m.rio_bufptr).take cnt).length =
          cnt := by
        rw [List.length_take, Nat.min_eq_left hfull]
      obtain ⟨a', hstore, hbytes⟩ := a.store_ok
        (show offset + ((m.rio_buf.bytes.drop m.rio_bufptr).take cnt).length ≤
          size by omega)
      simp only [hmin, Int.toNat_natCast, hload, hstore, Result.ok_bind]
      refine ⟨_, a', _, rfl, ⟨?_, hcontinues.calls⟩, ?_⟩
      · unfold Rio.Valid
        dsimp only
        omega
      · have hsplit : m.rio_cnt.toNat = cnt + (m.rio_cnt - cnt).toNat := by
          omega
        refine .of_length hlength
          (.copied (List.ne_nil_of_length_pos (hlength.symm ▸ hpos))
            (hlength.le.trans hle) ?_ hbytes)
        rw [← hunread, Rio.unread, Rio.unread, hsplit, List.take_add,
          List.drop_drop, List.append_assoc]

end Copying

section Lines

variable {size maxlen left : Nat} {rp rp' : Rio} {a a' : Buffer size}
  {front rest : List Byte}

/-- What `rio_readlineb` has done when `front` has been read of the line before: the
line stands in the array with a NUL behind it, or there was no byte, or a `read` has
failed. -/
inductive LineRead
    (maxlen : Nat) (front : List Byte) (rp rp' : Rio) (a a' : Buffer size) :
    Int → Prop
  | stored {line rest : List Byte}
      (hline : readlineb maxlen rp.unread = (line, rp'.unread))
      (hbytes : a'.bytes = front ++ line ++ 0 :: rest) :
      LineRead maxlen front rp rp' a a' (front ++ line).length
  | ended
      (hfront : front = [])
      (hunread : rp.unread = [])
      (hafter : rp'.unread = [])
      (harray : a' = a) :
      LineRead maxlen front rp rp' a a' 0
  | failed
      (hcalls : .failed ∈ rp.rio_fd.calls) :
      LineRead maxlen front rp rp' a a' (-1)

/-- The NUL is stored behind the line. -/
theorem finishLine_eq
    (hbytes : a.bytes = front ++ rest)
    (hrest : rest ≠ [])
    (rp : Rio) :
    ∃ a' rest', finishLine rp a front.length = .ok (front.length, a', rp) ∧
      a'.bytes = front ++ 0 :: rest' := by
  obtain ⟨old, rest', rfl⟩ := List.exists_cons_of_ne_nil hrest
  obtain ⟨a', hstore, hafter⟩ := Buffer.store_byte hbytes 0
  refine ⟨a', rest', ?_, hafter⟩
  rw [finishLine, hstore, Result.ok_bind]

/-- One byte has been read to `c`. -/
theorem Transfer.byte
    {c c' : Buffer 1} {data : List Byte}
    (hne : data ≠ [])
    (hlength : data.length ≤ 1)
    (hbytes : c'.bytes = c.bytes.take 0 ++ data ++ c.bytes.drop (0 + data.length)) :
    ∃ b, data = [b] ∧ c'.fetch 0 = .ok b := by
  obtain ⟨b, rfl⟩ : ∃ b, data = [b] := by
    match data with
    | [] => exact absurd rfl hne
    | [b] => exact ⟨b, rfl⟩
    | _ :: _ :: _ => simp at hlength
  have hfront : c'.bytes = [] ++ b :: c.bytes.drop 1 := by
    simpa using hbytes
  exact ⟨b, rfl, Buffer.fetch_ok hfront⟩

/-- A round of the loop that has got a byte. -/
theorem readlinebFrom_byte
    {c c' : Buffer 1} {m : Rio} {b : Byte}
    (left : Nat)
    (hread : rioRead rp c 0 1 = .ok (1, c', m))
    (hfetch : c'.fetch 0 = .ok b)
    (hbytes : a.bytes = front ++ rest)
    (hrest : rest ≠ []) :
    ∃ a₁, a₁.bytes = (front ++ [b]) ++ rest.tail ∧
      readlinebFrom (left + 1) rp a c front.length =
        if b = 10 then finishLine m a₁ (front ++ [b]).length
        else readlinebFrom left m a₁ c' (front ++ [b]).length := by
  obtain ⟨old, rest, rfl⟩ := List.exists_cons_of_ne_nil hrest
  obtain ⟨a₁, hstore, hafter⟩ := Buffer.store_byte hbytes b
  refine ⟨a₁, by rw [hafter]; simp, ?_⟩
  rw [readlinebFrom, hread, Result.ok_bind, List.length_append,
    List.length_singleton]
  simp only [if_true, hfetch, hstore, Result.ok_bind]

/-- The end of the stream ends the line. -/
theorem readlinebFrom_ended
    {c c' : Buffer 1} {m : Rio}
    (left : Nat)
    (hread : rioRead rp c 0 1 = .ok (0, c', m))
    (hended : rp.unread = [])
    (hafter : m.unread = [])
    (hbytes : a.bytes = front ++ rest)
    (hrest : rest ≠ []) :
    ∃ rc a', readlinebFrom (left + 1) rp a c front.length = .ok (rc, a', m) ∧
      LineRead (left + 2) front rp m a a' rc := by
  have hround : readlinebFrom (left + 1) rp a c front.length =
      if front.length = 0 then .ok (0, a, m)
      else finishLine m a front.length := by
    rw [readlinebFrom, hread, Result.ok_bind]
    rfl
  rw [hround]
  have hline : readlineb (left + 2) rp.unread = ([], []) := by
    rw [hended, readlineb]
  by_cases hfront : front = []
  · subst hfront
    exact ⟨0, a, rfl, .ended rfl hended hafter rfl⟩
  · obtain ⟨a', rest', hfinish, hbytes'⟩ := finishLine_eq hbytes hrest m
    have hstored : LineRead (left + 2) front rp m a a' (front ++ []).length :=
      .stored (by rw [hline, hafter]) (by rw [List.append_nil, hbytes'])
    rw [List.append_nil] at hstored
    refine ⟨_, a', ?_, hstored⟩
    rw [if_neg (mt List.length_eq_zero_iff.mp hfront), hfinish]

/-- The rest of a line, read behind its next byte. -/
theorem LineRead.cons
    {m : Rio} {a₁ : Buffer size} {b : Byte} {rc : Int}
    (hunread : rp.unread = b :: m.unread)
    (hb : b ≠ 10)
    (hcontinues : rp.Continues m)
    (h : LineRead (left + 1) (front ++ [b]) m rp' a₁ a' rc) :
    LineRead (left + 2) front rp rp' a a' rc := by
  cases h with
  | failed hfailed => exact .failed (hcontinues.failed hfailed)
  | ended hnil _ _ _ => simp at hnil
  | @stored line rest hline hbytes =>
      have hsame : front ++ [b] ++ line = front ++ b :: line := by
        rw [List.append_assoc, List.singleton_append]
      rw [hsame] at hbytes ⊢
      refine .stored ?_ hbytes
      rw [hunread, readlineb, if_neg hb, hline]

/-- The loop reads the line of the stream, however the bytes arrive. -/
theorem readlinebFrom_spec
    (h : rp.Valid)
    (c : Buffer 1)
    (hbytes : a.bytes = front ++ rest)
    (hroom : left < rest.length) :
    ∃ rc a' rp', readlinebFrom left rp a c front.length = .ok (rc, a', rp') ∧
      rp.Continues rp' ∧ LineRead (left + 1) front rp rp' a a' rc := by
  have hrest : rest ≠ [] := List.ne_nil_of_length_pos (by omega)
  induction left generalizing rp a c front rest with
  | zero =>
      obtain ⟨a', rest', hfinish, hafter⟩ := finishLine_eq hbytes hrest rp
      have hline : readlineb 1 rp.unread = ([], rp.unread) := by
        rw [readlineb]
      refine ⟨_, a', rp, hfinish, ⟨h, List.suffix_refl _⟩, ?_⟩
      have hread : LineRead 1 front rp rp a a' (front ++ []).length :=
        .stored hline (by rw [List.append_nil, hafter])
      rwa [List.append_nil] at hread
  | succ left ih =>
      obtain ⟨rc, c', m, hread, hcontinues, htransfer⟩ :=
        rioRead_spec h c Nat.one_pos (show 0 + 1 ≤ 1 from le_rfl)
      cases htransfer with
      | failed hfailed harray =>
          refine ⟨-1, a, m, ?_, hcontinues, .failed hfailed⟩
          rw [readlinebFrom, hread, Result.ok_bind]
          rfl
      | ended hended hafter harray =>
          obtain ⟨rc, a', hrun, hends⟩ :=
            readlinebFrom_ended left hread hended hafter hbytes hrest
          exact ⟨rc, a', m, hrun, hcontinues, hends⟩
      | copied hne hlength hunread hbytes' =>
          obtain ⟨b, rfl, hfetch⟩ := Transfer.byte hne hlength hbytes'
          obtain ⟨a₁, hnext, hround⟩ :=
            readlinebFrom_byte left hread hfetch hbytes hrest
          have hroom' : left < rest.tail.length := by
            rw [List.length_tail]
            omega
          have hrest' : rest.tail ≠ [] :=
            List.ne_nil_of_length_pos (Nat.zero_lt_of_lt hroom')
          rw [hround]
          by_cases hb : b = 10
          · have hline : readlineb (left + 2) rp.unread = ([b], m.unread) := by
              rw [hunread, List.singleton_append, readlineb, if_pos hb]
            obtain ⟨a', rest', hfinish, hbytes''⟩ :=
              finishLine_eq hnext hrest' m
            refine ⟨_, a', m, ?_, hcontinues, .stored hline hbytes''⟩
            rw [if_pos hb, hfinish]
          · obtain ⟨rc, a', rp', hrun, hlater, hends⟩ :=
              ih hcontinues.valid c' hnext hroom' hrest'
            refine ⟨rc, a', rp', ?_, hcontinues.trans hlater,
              .cons hunread hb hcontinues hends⟩
            rw [if_neg hb, hrun]

/-- `rio_readlineb` into an array with room for it. -/
theorem rioReadlineb_spec
    (h : rp.Valid)
    (a : Buffer size) (c : Buffer 1)
    (hmaxlen : 0 < maxlen)
    (hroom : maxlen ≤ size) :
    ∃ rc a' rp', rioReadlineb rp a c maxlen = .ok (rc, a', rp') ∧
      rp.Continues rp' ∧ LineRead maxlen [] rp rp' a a' rc := by
  obtain ⟨left, rfl⟩ := Nat.exists_eq_add_of_lt hmaxlen
  rw [Nat.zero_add] at hroom ⊢
  have hlength := a.length_bytes
  exact readlinebFrom_spec h c (List.nil_append a.bytes).symm (by omega)

end Lines

section Bytes

variable {size n nleft fuel : Nat} {rp rp' : Rio} {a a' : Buffer size}
  {front rest : List Byte}

/-- What `rio_readnb` has done when `front` has been read before: the next bytes of
the stream stand behind it, or a `read` has failed. -/
inductive BytesRead
    (nleft : Nat) (front : List Byte) (rp rp' : Rio) (a' : Buffer size) :
    Int → Prop
  | stored {data rest : List Byte}
      (hdata : rp.unread.take nleft = data)
      (hunread : rp.unread.drop nleft = rp'.unread)
      (hbytes : a'.bytes = front ++ data ++ rest) :
      BytesRead nleft front rp rp' a' (front ++ data).length
  | failed
      (hcalls : .failed ∈ rp.rio_fd.calls) :
      BytesRead nleft front rp rp' a' (-1)

/-- The rest of the bytes, read behind some of them. -/
theorem BytesRead.append
    {m : Rio} {data : List Byte} {rc : Int}
    (hunread : rp.unread = data ++ m.unread)
    (hlength : data.length ≤ nleft)
    (hcontinues : rp.Continues m)
    (h : BytesRead (nleft - data.length) (front ++ data) m rp' a' rc) :
    BytesRead nleft front rp rp' a' rc := by
  cases h with
  | failed hfailed => exact .failed (hcontinues.failed hfailed)
  | @stored more rest hmore hafter hbytes =>
      rw [List.append_assoc front data more] at hbytes ⊢
      refine .stored ?_ ?_ hbytes
      · rw [hunread, List.take_append, List.take_of_length_le hlength, hmore]
      · rw [hunread, List.drop_append, List.drop_of_length_le hlength, hafter,
          List.nil_append]

/-- The loop reads the next bytes of the stream, up to its end. -/
theorem readnbFrom_spec
    (h : rp.Valid)
    (hbytes : a.bytes = front ++ rest)
    (hroom : nleft ≤ rest.length)
    (hfuel : nleft < fuel) :
    ∃ rc a' rp', readnbFrom fuel rp a front.length nleft = .ok (rc, a', rp') ∧
      rp.Continues rp' ∧ BytesRead nleft front rp rp' a' rc := by
  induction fuel generalizing rp a front rest nleft with
  | zero =>
      omega
  | succ fuel ih =>
      by_cases hnleft : 0 < nleft
      · have hsize := congrArg List.length hbytes
        rw [a.length_bytes, List.length_append] at hsize
        obtain ⟨rc, a₁, m, hread, hcontinues, htransfer⟩ :=
          rioRead_spec h a hnleft (show front.length + nleft ≤ size by omega)
        have hround : readnbFrom (fuel + 1) rp a front.length nleft =
            if rc < 0 then .ok (-1, a₁, m)
            else if rc = 0 then .ok (front.length, a₁, m)
            else readnbFrom fuel m a₁ (front.length + rc.toNat)
              (nleft - rc.toNat) := by
          rw [readnbFrom, if_pos hnleft, hread, Result.ok_bind]
        cases htransfer with
        | failed hfailed harray =>
            exact ⟨-1, a₁, m, hround, hcontinues, .failed hfailed⟩
        | ended hended hafter harray =>
            refine ⟨_, a₁, m, hround, hcontinues, ?_⟩
            have hfront : a₁.bytes = front ++ [] ++ rest := by
              rw [List.append_nil, harray, hbytes]
            have hstored : BytesRead nleft front rp m a₁ (front ++ []).length :=
              .stored (by rw [hended, List.take_nil])
                (by rw [hended, hafter, List.drop_nil]) hfront
            rwa [List.append_nil] at hstored
        | @copied data hne hlength hunread hbytes' =>
            have hpos : 0 < data.length := List.length_pos_iff.mpr hne
            rw [if_neg (by omega), if_neg (by omega), Int.toNat_natCast,
              ← List.length_append] at hround
            rw [hbytes, List.take_left, ← List.drop_drop,
              List.drop_left] at hbytes'
            obtain ⟨rc, a', rp', hrun, hlater, hends⟩ :=
              ih hcontinues.valid hbytes'
                (show nleft - data.length ≤ (rest.drop data.length).length by
                  rw [List.length_drop]
                  omega)
                (by omega)
            exact ⟨rc, a', rp', hround.trans hrun, hcontinues.trans hlater,
              .append hunread hlength hcontinues hends⟩
      · obtain rfl : nleft = 0 := by omega
        refine ⟨front.length, a, rp, ?_, ⟨h, List.suffix_refl _⟩, ?_⟩
        · rw [readnbFrom, if_neg hnleft]
        · have hfront : a.bytes = front ++ [] ++ rest := by
            rw [List.append_nil, hbytes]
          have hstored : BytesRead 0 front rp rp a (front ++ []).length :=
            .stored rfl rfl hfront
          rwa [List.append_nil] at hstored

/-- `rio_readnb` into an array with room for it. -/
theorem rioReadnb_spec
    (h : rp.Valid)
    (a : Buffer size)
    (hroom : n ≤ size) :
    ∃ rc a' rp', rioReadnb rp a n = .ok (rc, a', rp') ∧
      rp.Continues rp' ∧ BytesRead n [] rp rp' a' rc :=
  readnbFrom_spec h (List.nil_append a.bytes).symm
    (by rw [a.length_bytes]; exact hroom) (Nat.lt_succ_self n)

end Bytes

section Writing

variable {usrbuf : List Byte} {fuel : Nat}

/-- A `write` takes bytes from the front of the data. -/
theorem Sink.write_cases
    (fd : Sink) (data : List Byte) :
    (∃ k fd', fd.write data = (.moved k, fd') ∧
      fd'.written = fd.written ++ data.take k ∧ fd'.calls <:+ fd.calls ∧
      (data.drop k = [] ∨ fd'.calls.length < fd.calls.length)) ∨
    (∃ calls, fd.calls = .interrupted :: calls ∧
      fd.write data = (.interrupted, { fd with calls := calls })) ∨
    ∃ calls, fd.calls = .failed :: calls ∧
      fd.write data = (.failed, { fd with calls := calls }) := by
  obtain ⟨written, calls⟩ := fd
  match calls with
  | [] =>
      exact .inl ⟨data.length, _, rfl, by rw [List.take_length],
        List.suffix_refl _, .inl List.drop_length⟩
  | .moves k :: calls =>
      refine .inl ⟨_, _, rfl, ?_, List.suffix_cons _ _,
        .inr (Nat.lt_succ_self _)⟩
      rw [Nat.min_comm, ← List.take_eq_take_min]
  | .interrupted :: calls => exact .inr (.inl ⟨calls, rfl, rfl⟩)
  | .failed :: calls => exact .inr (.inr ⟨calls, rfl, rfl⟩)

/-- All bytes have been written, or the first of them before a failure. -/
inductive Wrote (fd fd' : Sink) (usrbuf : List Byte) : Bool → Prop
  | all
      (hwritten : fd'.written = fd.written ++ usrbuf) :
      Wrote fd fd' usrbuf true
  | failed {front : List Byte}
      (hcalls : .failed ∈ fd.calls)
      (hfront : front <+: usrbuf)
      (hwritten : fd'.written = fd.written ++ front) :
      Wrote fd fd' usrbuf false

/-- The loop writes all bytes, each of them once, unless a `write` fails. -/
theorem writenFrom_spec
    (fd : Sink) (usrbuf : List Byte)
    (hfuel : usrbuf = [] ∧ 0 < fuel ∨ fd.calls.length + 1 < fuel) :
    ∃ done fd', writenFrom fuel fd usrbuf = .ok (done, fd') ∧
      fd'.calls <:+ fd.calls ∧ Wrote fd fd' usrbuf done := by
  induction fuel generalizing fd usrbuf with
  | zero =>
      omega
  | succ fuel ih =>
      rw [writenFrom]
      by_cases hempty : usrbuf = []
      · rw [if_pos hempty]
        exact ⟨true, fd, rfl, List.suffix_refl _, .all (by simp [hempty])⟩
      · have hlong := (hfuel.resolve_left (fun h => hempty h.1))
        rw [if_neg hempty]
        rcases fd.write_cases usrbuf with
          ⟨k, m, hwrite, hwritten, hcalls, hless⟩ | ⟨calls, hcalls, hwrite⟩ |
          ⟨calls, hcalls, hwrite⟩
        · obtain ⟨done, fd', hrun, hlater, hends⟩ :=
            ih m (usrbuf.drop k) (hless.imp (fun h => ⟨h, by omega⟩) (by omega))
          refine ⟨done, fd', by rw [hwrite]; exact hrun, hlater.trans hcalls, ?_⟩
          cases hends with
          | all hrest =>
              refine .all ?_
              rw [hrest, hwritten, List.append_assoc, List.take_append_drop]
          | @failed front hfailed hfront hpart =>
              obtain ⟨rest, hrest⟩ := hfront
              have hall : usrbuf.take k ++ front ++ rest = usrbuf := by
                rw [List.append_assoc, hrest, List.take_append_drop]
              refine .failed (hcalls.subset hfailed) ⟨rest, hall⟩ ?_
              rw [hpart, hwritten, List.append_assoc]
        · rw [hcalls, List.length_cons] at hlong
          obtain ⟨done, fd', hrun, hlater, hends⟩ :=
            ih { fd with calls := calls } usrbuf (.inr (by simpa using hlong))
          have hsuffix : calls <:+ fd.calls := hcalls ▸ List.suffix_cons _ _
          refine ⟨done, fd', by rw [hwrite]; exact hrun,
            hlater.trans hsuffix, ?_⟩
          cases hends with
          | all hall => exact .all hall
          | failed hfailed hfront hpart =>
              exact .failed (hsuffix.subset hfailed) hfront hpart
        · refine ⟨false, { fd with calls := calls }, by rw [hwrite],
            hcalls ▸ List.suffix_cons _ _, .failed ?_ List.nil_prefix (by simp)⟩
          rw [hcalls]
          exact List.mem_cons_self

/-- `rio_writen` ends; it has written all bytes in their order, or, after a `write`
that has failed, the first of them. -/
theorem rioWriten_spec
    (fd : Sink) (usrbuf : List Byte) :
    ∃ done fd', rioWriten fd usrbuf = .ok (done, fd') ∧
      fd'.calls <:+ fd.calls ∧ Wrote fd fd' usrbuf done :=
  writenFrom_spec fd usrbuf (.inr (Nat.lt_succ_self _))

end Writing

end Proxy
end PastWork
