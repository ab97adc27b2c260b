import PastWork.Proxy.Doit

/-!
# The lines of a stream

What `Rio_readlineb` returns call after call: pieces of at most `MAXLINE - 1`
bytes, each of which ends at its newline, if it has one.  The relay loop is
followed over these pieces, and its copies to `object_buf` are bounded exactly.
-/

namespace PastWork
namespace Proxy

abbrev newline : Byte := 10

/-- The pieces that are read until a read returns nothing. -/
def linesFrom : Nat → List Byte → List (List Byte)
  | 0, _ => []
  | fuel + 1, stream =>
      match readlineb MAXLINE stream with
      | ([], _) => []
      | (buf, rest) => buf :: linesFrom fuel rest

def lines (stream : List Byte) : List (List Byte) :=
  linesFrom stream.length stream

section Reading

variable {stream buf rest : List Byte} {maxlen fuel : Nat}

/-- A piece has a newline at its end only. -/
theorem newline_of_readlineb
    (maxlen : Nat) (stream : List Byte) :
    newline ∉ (readlineb maxlen stream).1.dropLast := by
  induction stream generalizing maxlen with
  | nil =>
      rcases maxlen with _ | _ | maxlen <;> simp [readlineb]
  | cons c stream ih =>
      rcases maxlen with _ | _ | maxlen
      · simp [readlineb]
      · simp [readlineb]
      · rw [readlineb]
        split
        next => simp
        next hc =>
            have htail := ih (maxlen + 1)
            dsimp only
            generalize (readlineb (maxlen + 1) stream).1 = buf at htail ⊢
            cases buf with
            | nil =>
                simp
            | cons d buf =>
                rw [List.dropLast_cons_cons, List.mem_cons, not_or]
                exact ⟨fun h => hc h.symm, htail⟩

theorem length_readlineb
    (maxlen : Nat) (stream : List Byte) :
    (readlineb maxlen stream).1.length ≤ maxlen - 1 := by
  induction stream generalizing maxlen with
  | nil =>
      rcases maxlen with _ | _ | maxlen <;> simp [readlineb]
  | cons c stream ih =>
      rcases maxlen with _ | _ | maxlen
      · simp [readlineb]
      · simp [readlineb]
      · rw [readlineb]
        split
        next =>
            simp
        next =>
            have htail := ih (maxlen + 1)
            simp only [List.length_cons]
            omega

/-- What is left after a piece is shorter. -/
theorem readlineb_cases
    (stream : List Byte) :
    stream = [] ∧ readlineb MAXLINE stream = ([], []) ∨
      ∃ buf rest, buf ≠ [] ∧ readlineb MAXLINE stream = (buf, rest) ∧
        stream = buf ++ rest ∧ rest.length < stream.length := by
  by_cases hstream : stream = []
  · subst hstream
    exact .inl ⟨rfl, rfl⟩
  · have hne := readlineb_ne_nil (by decide : 2 ≤ MAXLINE) hstream
    have happend := readlineb_append MAXLINE stream
    have hpos := List.length_pos_iff.mpr hne
    refine .inr ⟨_, _, hne, rfl, happend.symm, ?_⟩
    have hlength := congrArg List.length happend
    rw [List.length_append] at hlength
    omega

theorem linesFrom_ge
    {fuel' : Nat}
    (hfuel : stream.length ≤ fuel) (hfuel' : stream.length ≤ fuel') :
    linesFrom fuel stream = linesFrom fuel' stream := by
  induction fuel generalizing stream fuel' with
  | zero =>
      obtain rfl := List.length_eq_zero_iff.mp (Nat.le_zero.mp hfuel)
      cases fuel' <;> rfl
  | succ fuel ih =>
      rcases readlineb_cases stream with
        ⟨rfl, hread⟩ | ⟨buf, rest, hne, hread, _, hlt⟩
      · cases fuel' <;> rfl
      · obtain ⟨fuel', rfl⟩ : ∃ n, fuel' = n + 1 :=
          Nat.exists_eq_succ_of_ne_zero (by omega)
        have hrest : linesFrom fuel rest = linesFrom fuel' rest :=
          ih (by omega) (by omega)
        rw [linesFrom, linesFrom, hread]
        cases buf with
        | nil => exact absurd rfl hne
        | cons c buf => simp only [hrest]

/-- The lines of a stream are its first line and those of the rest. -/
theorem lines_cases
    (stream : List Byte) :
    stream = [] ∧ readlineb MAXLINE stream = ([], []) ∧ lines stream = [] ∨
      ∃ buf rest, buf ≠ [] ∧ readlineb MAXLINE stream = (buf, rest) ∧
        stream = buf ++ rest ∧ rest.length < stream.length ∧
          lines stream = buf :: lines rest := by
  rcases readlineb_cases stream with
    ⟨rfl, hread⟩ | ⟨buf, rest, hne, hread, happend, hlt⟩
  · exact .inl ⟨rfl, hread, rfl⟩
  · refine .inr ⟨buf, rest, hne, hread, happend, hlt, ?_⟩
    obtain ⟨fuel, hfuel⟩ : ∃ n, stream.length = n + 1 :=
      Nat.exists_eq_succ_of_ne_zero (by omega)
    have hrest : linesFrom fuel rest = lines rest :=
      linesFrom_ge (by omega) le_rfl
    rw [lines, hfuel, linesFrom, hread]
    cases buf with
    | nil => exact absurd rfl hne
    | cons c buf => simp only [hrest]

theorem mem_of_mem_lines
    {c : Byte}
    (hbuf : buf ∈ lines stream)
    (hc : c ∈ buf) :
    c ∈ stream := by
  induction hlength : stream.length using Nat.strong_induction_on
    generalizing stream with
  | _ n ih =>
      rcases lines_cases stream with
        ⟨_, _, hnone⟩ | ⟨piece, rest, _, _, hstream, hlt, hlines⟩
      · rw [hnone] at hbuf
        cases hbuf
      · rw [hlines] at hbuf
        rw [hstream, List.mem_append]
        rcases List.mem_cons.mp hbuf with rfl | hbuf
        · exact .inl hc
        · exact .inr (ih rest.length (by omega) hbuf rfl)

/-- A line that fits is read up to its newline. -/
theorem readlineb_line
    {front : List Byte}
    (hfront : newline ∉ front)
    (hlength : front.length + 2 ≤ maxlen)
    (rest : List Byte) :
    readlineb maxlen (front ++ newline :: rest) =
      (front ++ [newline], rest) := by
  induction front generalizing maxlen with
  | nil =>
      obtain ⟨maxlen, rfl⟩ := Nat.exists_eq_add_of_le' hlength
      rfl
  | cons c front ih =>
      rw [List.length_cons] at hlength
      rw [List.mem_cons, not_or] at hfront
      obtain ⟨maxlen, rfl⟩ : ∃ m, maxlen = m + 2 :=
        Nat.exists_eq_add_of_le' (by omega)
      rw [List.cons_append, readlineb, if_neg (Ne.symm hfront.1),
        ih hfront.2 (by omega)]
      rfl

/-- A line with its newline that is read as one piece. -/
def Whole (buf : List Byte) : Prop :=
  ∃ front, newline ∉ front ∧ front.length + 2 ≤ MAXLINE ∧
    buf = front ++ [newline]

/-- A piece with something behind it is a line, or as long as a piece can be. -/
theorem whole_of_readlineb
    (hread : readlineb MAXLINE stream = (buf, rest))
    (hrest : rest ≠ []) :
    Whole buf ∨ buf.length = MAXLINE - 1 := by
  have hends : ∀ maxlen stream, 2 ≤ maxlen → (readlineb maxlen stream).2 ≠ [] →
      (∃ front, newline ∉ front ∧
        (readlineb maxlen stream).1 = front ++ [newline]) ∨
      (readlineb maxlen stream).1.length = maxlen - 1 := by
    intro maxlen stream hmaxlen hbehind
    obtain ⟨maxlen, rfl⟩ := Nat.exists_eq_add_of_le' hmaxlen
    induction stream generalizing maxlen with
    | nil =>
        exact absurd rfl hbehind
    | cons c stream ih =>
        rw [readlineb] at hbehind ⊢
        by_cases hc : c = newline
        · rw [if_pos hc, hc]
          exact .inl ⟨[], List.not_mem_nil, rfl⟩
        · rw [if_neg hc] at hbehind ⊢
          dsimp only at hbehind ⊢
          cases maxlen with
          | zero => exact .inr rfl
          | succ maxlen =>
              rcases ih maxlen (by omega) hbehind with
                ⟨front, hfront, hline⟩ | hlength
              · refine .inl ⟨c :: front, ?_, by rw [hline]; rfl⟩
                rw [List.mem_cons, not_or]
                exact ⟨Ne.symm hc, hfront⟩
              · exact .inr (by rw [List.length_cons, hlength]; omega)
  have hlength := length_readlineb MAXLINE stream
  have hpiece := hends MAXLINE stream (by decide)
  rw [hread] at hlength hpiece
  refine (hpiece hrest).imp_left ?_
  rintro ⟨front, hfront, rfl⟩
  rw [List.length_append, List.length_singleton] at hlength
  exact ⟨front, hfront, by omega, rfl⟩

/-- A piece in front of others is a line, or as long as a piece can be. -/
theorem whole_of_lines
    {bufs : List (List Byte)} {next : List Byte} {later : List (List Byte)}
    (hlines : lines stream = bufs ++ next :: later)
    (hbuf : buf ∈ bufs) :
    Whole buf ∨ buf.length = MAXLINE - 1 := by
  induction bufs generalizing stream with
  | nil =>
      simp at hbuf
  | cons first bufs ih =>
      rcases lines_cases stream with
        ⟨_, _, hnone⟩ | ⟨piece, rest, _, hread, _, _, hsome⟩
      · rw [hnone] at hlines
        cases hlines
      · rw [hsome, List.cons_append] at hlines
        obtain ⟨rfl, hrest⟩ := List.cons.inj hlines
        rcases List.mem_cons.mp hbuf with rfl | hbuf
        · refine whole_of_readlineb hread ?_
          rintro rfl
          have hlength := congrArg List.length hrest
          rw [List.length_append, List.length_cons] at hlength
          change 0 = _ at hlength
          omega
        · exact ih hrest hbuf

/-- Whole lines are the pieces that are read. -/
theorem lines_flatten
    {bufs : List (List Byte)}
    (hwhole : ∀ buf ∈ bufs, Whole buf)
    (rest : List Byte) :
    lines (bufs.flatten ++ rest) = bufs ++ lines rest := by
  induction bufs with
  | nil =>
      rfl
  | cons buf bufs ih =>
      obtain ⟨front, hfront, hlength, hbuf⟩ := hwhole buf List.mem_cons_self
      have hread : readlineb MAXLINE ((buf :: bufs).flatten ++ rest) =
          (buf, bufs.flatten ++ rest) := by
        rw [List.flatten_cons, hbuf, List.append_assoc, List.append_assoc,
          List.singleton_append, readlineb_line hfront hlength]
      rcases lines_cases ((buf :: bufs).flatten ++ rest) with
        ⟨_, hnone, _⟩ | ⟨piece, after, _, hread', _, _, hlines⟩
      · rw [hread] at hnone
        obtain ⟨hnil, _⟩ := Prod.mk.inj hnone
        simp [hbuf] at hnil
      · rw [hread] at hread'
        obtain ⟨rfl, rfl⟩ := Prod.mk.inj hread'
        rw [hlines, ih fun buf hbuf => hwhole buf (List.mem_cons_of_mem _ hbuf)]
        rfl

end Reading

/-- The strings of these lines end inside `object_buf` when each of them is copied
behind the bytes of the lines before it. -/
def Collects : Nat → List (List Byte) → Prop
  | _, [] => True
  | total_size, buf :: bufs =>
      total_size + (stored buf).length < MAX_OBJECT_SIZE ∧
        Collects (total_size + buf.length) bufs

section Collecting

variable {r : Relay} {buf response : List Byte} {fuel : Nat}

theorem line_outOfBounds
    (h : MAX_OBJECT_SIZE ≤ r.total_size + (stored buf).length) :
    r.line buf = .error .outOfBounds := by
  rw [Relay.line, cstr_stored, Result.ok_bind,
    Buffer.strcpy_outOfBounds r.object_buf h]
  rfl

/-- The loop returns, or a line is copied past the end of `object_buf`. -/
theorem relay_collects
    (response : List Byte) (r : Relay)
    (hfuel : response.length < fuel) :
    (Collects r.total_size (lines response) →
      ∃ r', relay fuel response r = .ok r') ∧
    (¬ Collects r.total_size (lines response) →
      relay fuel response r = .error .outOfBounds) := by
  induction fuel generalizing response r with
  | zero =>
      omega
  | succ fuel ih =>
      rcases lines_cases response with
        ⟨rfl, hread, hlines⟩ | ⟨buf, rest, hne, hread, _, hlt, hlines⟩
      · rw [hlines, relay, hread]
        exact ⟨fun _ => ⟨r, rfl⟩, fun h => absurd trivial h⟩
      · have hround : relay (fuel + 1) response r =
            r.line buf >>= relay fuel rest := by
          rw [relay, hread]
          cases buf with
          | nil => exact absurd rfl hne
          | cons c buf => rfl
        rw [hlines, hround, Collects]
        by_cases hinside : r.total_size + (stored buf).length < MAX_OBJECT_SIZE
        · obtain ⟨m, hm⟩ := line_ok hinside
          obtain ⟨_, htotal, _⟩ := line_spec hm
          have hrest := ih rest m (by omega)
          rw [htotal] at hrest
          rw [hm, Result.ok_bind]
          exact ⟨fun h => hrest.1 h.2,
            fun h => hrest.2 (fun hrest => h ⟨hinside, hrest⟩)⟩
        · rw [line_outOfBounds (not_lt.mp hinside)]
          exact ⟨fun h => absurd h.1 hinside, fun _ => rfl⟩

end Collecting

end Proxy
end PastWork
