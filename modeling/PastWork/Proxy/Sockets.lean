import Mathlib.Logic.Function.Basic
import PastWork.Proxy.Rio

/-!
# A connection over sockets

The proxy reads from the client and from the server, and writes to both, with the
routines of Rio.  However the bytes arrive and however many of them a `write` takes,
every program that uses these routines does what it does over streams.
-/

namespace PastWork
namespace Proxy

/-- The two ends that the proxy talks to. -/
inductive Side where
  | client
  | server
deriving DecidableEq

/-- The routines of Rio, each for the descriptor of an end: `Rio_readlineb` into an
array of `room + 1` bytes, `Rio_readnb` and `Rio_writen`. -/
inductive Transmission where
  | readline (side : Side) (room : Nat)
  | read (side : Side) (n : Nat)
  | write (side : Side) (usrbuf : List Byte)

/-- The descriptors. -/
structure Connection where
  rio : Side → Rio
  sink : Side → Sink

/-- An array whose bytes do not matter. -/
def blank (size : Nat) : Buffer size where
  bytes := List.replicate size 0
  length_bytes := List.length_replicate

/-- What a routine gives to its caller; `none` is the `unix_error`. -/
def delivered {size : Nat} : Result (Int × Buffer size × Rio) →
    Option (List Byte × Rio)
  | .ok (rc, usrbuf, rp) =>
      if rc < 0 then none else some (usrbuf.bytes.take rc.toNat, rp)
  | .error _ => none

namespace Connection

def setRio (s : Connection) (side : Side) (rp : Rio) : Connection :=
  { s with rio := Function.update s.rio side rp }

def setSink (s : Connection) (side : Side) (fd : Sink) : Connection :=
  { s with sink := Function.update s.sink side fd }

/-- One routine; `none` when it ends the process. -/
def serve (s : Connection) : Transmission → Option (List Byte × Connection)
  | .readline side room =>
      (delivered (rioReadlineb (s.rio side) (blank (room + 1)) (blank 1)
        (room + 1))).map (fun out => (out.1, s.setRio side out.2))
  | .read side n =>
      (delivered (rioReadnb (s.rio side) (blank n) n)).map
        (fun out => (out.1, s.setRio side out.2))
  | .write side usrbuf =>
      match rioWriten (s.sink side) usrbuf with
      | .ok (true, fd) => some ([], s.setSink side fd)
      | _ => none

end Connection

/-- The bytes that are still to be read from each end, and those that have been
written to it. -/
@[ext] structure Streams where
  input : Side → List Byte
  output : Side → List Byte

namespace Streams

def setInput (t : Streams) (side : Side) (stream : List Byte) : Streams :=
  { t with input := Function.update t.input side stream }

def append (t : Streams) (side : Side) (usrbuf : List Byte) : Streams :=
  { t with output := Function.update t.output side (t.output side ++ usrbuf) }

/-- What the routines are for. -/
def serve (t : Streams) : Transmission → Option (List Byte × Streams)
  | .readline side room =>
      let out := readlineb (room + 1) (t.input side)
      some (out.1, t.setInput side out.2)
  | .read side n =>
      some ((t.input side).take n, t.setInput side ((t.input side).drop n))
  | .write side usrbuf => some ([], t.append side usrbuf)

@[simp] theorem setInput_input
    (t : Streams) (side : Side) (stream : List Byte) :
    (t.setInput side stream).input side = stream :=
  Function.update_self _ _ _

@[simp] theorem setInput_output
    (t : Streams) (side : Side) (stream : List Byte) :
    (t.setInput side stream).output = t.output := by
  rfl

@[simp] theorem setInput_setInput
    (t : Streams) (side : Side) (stream stream' : List Byte) :
    (t.setInput side stream).setInput side stream' =
      t.setInput side stream' := by
  simp [setInput]

@[simp] theorem append_input
    (t : Streams) (side : Side) (usrbuf : List Byte) :
    (t.append side usrbuf).input = t.input := by
  rfl

@[simp] theorem append_output
    (t : Streams) (side : Side) (usrbuf : List Byte) :
    (t.append side usrbuf).output side = t.output side ++ usrbuf :=
  Function.update_self _ _ _

/-- Two writes, one after the other, are one write of both. -/
@[simp] theorem append_append
    (t : Streams) (side : Side) (usrbuf usrbuf' : List Byte) :
    (t.append side usrbuf).append side usrbuf' =
      t.append side (usrbuf ++ usrbuf') := by
  simp [append]

theorem serve_readline
    (t : Streams) (side : Side) :
    t.serve (.readline side (MAXLINE - 1)) =
      some ((readlineb MAXLINE (t.input side)).1,
        t.setInput side (readlineb MAXLINE (t.input side)).2) := by
  rfl

theorem serve_write
    (t : Streams) (side : Side) (usrbuf : List Byte) :
    t.serve (.write side usrbuf) = some ([], t.append side usrbuf) := by
  rfl

end Streams

section Refinement

variable {s s' : Connection} {t : Streams} {side : Side} {rp : Rio}

/-- The connection carries the streams. -/
structure Carries (s : Connection) (t : Streams) : Prop where
  valid : ∀ side, (s.rio side).Valid
  unread : ∀ side, (s.rio side).unread = t.input side
  written : ∀ side, (s.sink side).written = t.output side

/-- No call is going to fail. -/
def Connection.Sound (s : Connection) : Prop :=
  ∀ side, .failed ∉ (s.rio side).rio_fd.calls ∧ .failed ∉ (s.sink side).calls

theorem Carries.setRio
    {stream : List Byte}
    (h : Carries s t)
    (hvalid : rp.Valid)
    (hunread : rp.unread = stream) :
    Carries (s.setRio side rp) (t.setInput side stream) where
  valid := fun other => by
    by_cases hside : other = side
    · subst hside
      simpa [Connection.setRio] using hvalid
    · simpa [Connection.setRio, hside] using h.valid other
  unread := fun other => by
    by_cases hside : other = side
    · subst hside
      simpa [Connection.setRio, Streams.setInput] using hunread
    · simpa [Connection.setRio, Streams.setInput, hside] using h.unread other
  written := h.written

theorem Carries.setSink
    {fd : Sink} {usrbuf : List Byte}
    (h : Carries s t)
    (hwritten : fd.written = (s.sink side).written ++ usrbuf) :
    Carries (s.setSink side fd) (t.append side usrbuf) where
  valid := h.valid
  unread := h.unread
  written := fun other => by
    by_cases hside : other = side
    · subst hside
      simpa [Connection.setSink, Streams.append, h.written other] using hwritten
    · simpa [Connection.setSink, Streams.append, hside] using h.written other

theorem Connection.Sound.setRio
    (h : s.Sound)
    (hcalls : rp.rio_fd.calls <:+ (s.rio side).rio_fd.calls) :
    (s.setRio side rp).Sound := by
  intro other
  by_cases hside : other = side
  · subst hside
    have hall := h other
    simpa [Connection.setRio] using
      And.intro (fun hfailed => hall.1 (hcalls.subset hfailed)) hall.2
  · simpa [Connection.setRio, hside] using h other

theorem Connection.Sound.setSink
    {fd : Sink}
    (h : s.Sound)
    (hcalls : fd.calls <:+ (s.sink side).calls) :
    (s.setSink side fd).Sound := by
  intro other
  by_cases hside : other = side
  · subst hside
    have hall := h other
    simpa [Connection.setSink] using
      And.intro hall.1 (fun hfailed => hall.2 (hcalls.subset hfailed))
  · simpa [Connection.setSink, hside] using h other

/-- `Rio_readlineb` gives the next line, or a `read` fails. -/
theorem delivered_readlineb
    (h : rp.Valid)
    (room : Nat) :
    (∃ rp', delivered (rioReadlineb rp (blank (room + 1)) (blank 1) (room + 1)) =
        some ((readlineb (room + 1) rp.unread).1, rp') ∧
      rp.Continues rp' ∧ rp'.unread = (readlineb (room + 1) rp.unread).2) ∨
    delivered (rioReadlineb rp (blank (room + 1)) (blank 1) (room + 1)) = none ∧
      .failed ∈ rp.rio_fd.calls := by
  obtain ⟨rc, a', rp', hread, hcontinues, hends⟩ :=
    rioReadlineb_spec h (blank (room + 1)) (blank 1) (Nat.succ_pos room) le_rfl
  rw [hread]
  cases hends with
  | failed hfailed => exact .inr ⟨rfl, hfailed⟩
  | ended hfront hunread hafter harray =>
      refine .inl ⟨rp', ?_, hcontinues, ?_⟩
      · rw [hunread]
        cases room <;> rfl
      · rw [hunread, hafter]
        cases room <;> rfl
  | @stored line rest hline hbytes =>
      rw [hline]
      refine .inl ⟨rp', ?_, hcontinues, rfl⟩
      rw [delivered, if_neg (by omega), hbytes, Int.toNat_natCast,
        List.nil_append, List.take_left]

/-- `Rio_readnb` gives the next bytes, or a `read` fails. -/
theorem delivered_readnb
    (h : rp.Valid)
    (n : Nat) :
    (∃ rp', delivered (rioReadnb rp (blank n) n) = some (rp.unread.take n, rp') ∧
      rp.Continues rp' ∧ rp'.unread = rp.unread.drop n) ∨
    delivered (rioReadnb rp (blank n) n) = none ∧
      .failed ∈ rp.rio_fd.calls := by
  obtain ⟨rc, a', rp', hread, hcontinues, hends⟩ :=
    rioReadnb_spec h (blank n) le_rfl
  rw [hread]
  cases hends with
  | failed hfailed => exact .inr ⟨rfl, hfailed⟩
  | @stored data rest hdata hunread hbytes =>
      rw [hdata, hunread]
      refine .inl ⟨rp', ?_, hcontinues, rfl⟩
      rw [delivered, if_neg (by omega), hbytes, Int.toNat_natCast,
        List.nil_append, List.take_left]

/-- A routine does what it does over the streams, or ends the process after a
failure. -/
theorem Carries.serve_cases
    (h : Carries s t)
    (request : Transmission) :
    (∃ answer s' t', s.serve request = some (answer, s') ∧
      t.serve request = some (answer, t') ∧ Carries s' t' ∧
      (s.Sound → s'.Sound)) ∨
    s.serve request = none ∧ ¬ s.Sound := by
  cases request with
  | readline side room =>
      have hunread := h.unread side
      rcases delivered_readlineb (h.valid side) room with
        ⟨rp', hread, hcontinues, hafter⟩ | ⟨hread, hfailed⟩
      · refine .inl ⟨_, _, _, ?_, rfl,
          h.setRio hcontinues.valid (hafter.trans (by rw [hunread])),
          fun hsound => hsound.setRio hcontinues.calls⟩
        rw [Connection.serve, hread, hunread]
        rfl
      · refine .inr ⟨?_, fun hsound => (hsound side).1 hfailed⟩
        rw [Connection.serve, hread]
        rfl
  | read side n =>
      have hunread := h.unread side
      rcases delivered_readnb (h.valid side) n with
        ⟨rp', hread, hcontinues, hafter⟩ | ⟨hread, hfailed⟩
      · refine .inl ⟨_, _, _, ?_, rfl,
          h.setRio hcontinues.valid (hafter.trans (by rw [hunread])),
          fun hsound => hsound.setRio hcontinues.calls⟩
        rw [Connection.serve, hread, hunread]
        rfl
      · refine .inr ⟨?_, fun hsound => (hsound side).1 hfailed⟩
        rw [Connection.serve, hread]
        rfl
  | write side usrbuf =>
      obtain ⟨done, fd, hwrite, hcalls, hends⟩ :=
        rioWriten_spec (s.sink side) usrbuf
      cases hends with
      | all hwritten =>
          refine .inl ⟨_, _, _, ?_, rfl, h.setSink hwritten,
            fun hsound => hsound.setSink hcalls⟩
          rw [Connection.serve, hwrite]
      | failed hfailed _ _ =>
          refine .inr ⟨?_, fun hsound => (hsound side).2 hfailed⟩
          rw [Connection.serve, hwrite]

/-- Every program that uses the routines does over the sockets what it does over the
streams, whatever the calls of `read` and `write` do; unless one of them fails, it is
not ended by a routine. -/
theorem Carries.run
    {α : Type} (c : Client Transmission (List Byte) α)
    (h : Carries s t) :
    (∀ r s', c.run Connection.serve s = some (r, s') →
      ∃ t', c.run Streams.serve t = some (r, t') ∧ Carries s' t') ∧
    (s.Sound → ∃ r s', c.run Connection.serve s = some (r, s')) := by
  constructor
  · intro r s' hrun
    refine Client.Simulates.run (R := Carries) ?_ h hrun
    intro s t request answer s' hcarries hserve
    rcases hcarries.serve_cases request with
      ⟨answer', s'', t', hs, ht, hcarries', _⟩ | ⟨hnone, _⟩
    · rw [hs] at hserve
      cases hserve
      exact ⟨t', ht, hcarries'⟩
    · rw [hnone] at hserve
      cases hserve
  · intro hsound
    have hanswers : ∀ (s : Connection) request, (s.Sound ∧ ∃ t, Carries s t) →
        ∃ answer s', s.serve request = some (answer, s') ∧
          (s'.Sound ∧ ∃ t, Carries s' t) := by
      rintro s request ⟨hsound, t, hcarries⟩
      rcases hcarries.serve_cases request with
        ⟨answer, s', t', hserve, _, hcarries', hkeeps⟩ | ⟨_, hunsound⟩
      · exact ⟨answer, s', hserve, hkeeps hsound, t', hcarries'⟩
      · exact absurd hsound hunsound
    obtain ⟨r, s', hrun, _⟩ := Client.run_isSome (c := c) hanswers ⟨hsound, t, h⟩
    exact ⟨r, s', hrun⟩

/-- The descriptors after they have been opened. -/
def Connection.opened
    (fd : Side → Source) (rio_buf : Side → Buffer RIO_BUFSIZE)
    (sink : Side → Sink) : Connection where
  rio := fun side => rioReadinitb (fd side) (rio_buf side)
  sink := sink

/-- What is still to be read from the descriptors, and what has been written. -/
def Connection.streams (s : Connection) : Streams where
  input := fun side => (s.rio side).unread
  output := fun side => (s.sink side).written

theorem carries_opened
    (fd : Side → Source) (rio_buf : Side → Buffer RIO_BUFSIZE)
    (sink : Side → Sink) :
    Carries (Connection.opened fd rio_buf sink)
      { input := fun side => (fd side).stream
        output := fun side => (sink side).written } where
  valid := fun side => Rio.valid_rioReadinitb (fd side) (rio_buf side)
  unread := fun side => Rio.unread_rioReadinitb (fd side) (rio_buf side)
  written := fun _ => rfl

theorem Carries.streams_eq
    (h : Carries s t) :
    s.streams = t :=
  Streams.ext (funext h.unread) (funext h.written)

/-- Every program that uses the routines does over the sockets what it does over the
streams, however the bytes arrive and are taken; it is ended by a routine only when a
`read` or a `write` has failed. -/
theorem programs_transmitted
    {α : Type} (c : Client Transmission (List Byte) α)
    (fd : Side → Source) (rio_buf : Side → Buffer RIO_BUFSIZE)
    (sink : Side → Sink) :
    (∀ r s', c.run Connection.serve (.opened fd rio_buf sink) = some (r, s') →
      c.run Streams.serve
        { input := fun side => (fd side).stream
          output := fun side => (sink side).written } =
        some (r, s'.streams)) ∧
    ((∀ side, .failed ∉ (fd side).calls ∧ .failed ∉ (sink side).calls) →
      ∃ r s', c.run Connection.serve (.opened fd rio_buf sink) =
        some (r, s')) := by
  obtain ⟨hsame, hruns⟩ := (carries_opened fd rio_buf sink).run c
  refine ⟨fun r s' hrun => ?_, hruns⟩
  obtain ⟨t', ht', hcarries⟩ := hsame r s' hrun
  rw [ht', hcarries.streams_eq]

end Refinement

end Proxy
end PastWork
