import PastWork.Shell.Parseline

/-!
# Command lines and their words

Words that are written to a command line come back in `argv`, and a line stays
inside the arrays exactly when it is not empty and has fewer than `MAXARGS` words.
-/

namespace PastWork
namespace Shell

open Words

section Lines

variable {m : Memory} {cmdline : List Byte} {s : CStr} {ws : List CStr}

/-- The words that `eval` sees, with a space for the last byte of the line. -/
def typedWords (cmdline : List Byte) : List CStr :=
  lineWords ((stored cmdline).dropLast ++ [space])

/-- The last byte of an empty string is overwritten at the index -1. -/
theorem evalLine_empty
    (m : Memory)
    (hempty : stored cmdline = []) :
    evalLine m cmdline = .error .outOfBounds := by
  have hcopy : ∃ buf rest, m.buf.strcpy 0 [] = .ok buf ∧
      buf.bytes = 0 :: rest := by
    have hroom : 0 + ([] : CStr).length < MAXLINE := by
      decide
    obtain ⟨buf, hbuf⟩ := Buffer.strcpy_ok m.buf hroom
    obtain ⟨_, rest, hbytes⟩ := Buffer.strcpy_bytes hbuf
    exact ⟨buf, rest, hbuf, by simpa using hbytes⟩
  obtain ⟨buf, rest, hbuf, hbytes⟩ := hcopy
  have hcstr : cstr (cmdline ++ [0]) = .ok [] := by
    rw [cstr_stored, hempty]
  rw [evalLine, hcstr, Result.ok_bind, hbuf, Result.ok_bind,
    replaceLast_empty hbytes]
  rfl

/-- `parseline` is given the line with a space for its last byte. -/
theorem evalLine_eq
    (m : Memory)
    (hlength : cmdline.length < MAXLINE)
    (hne : stored cmdline ≠ []) :
    evalLine m cmdline =
      parseline m.array m.argv ((stored cmdline).dropLast ++ [space]) := by
  have hnul := stored_noNul cmdline
  have hshort := ((stored_front cmdline).length_le).trans_lt hlength
  obtain ⟨buf, buf', rest, hbuf, hreplace, hbytes⟩ :=
    strcpy_replaceLast m.buf hnul hne hshort
  have hcstr : cstr (cmdline ++ [0]) = .ok (stored cmdline) :=
    cstr_stored cmdline
  have hcstr' : cstr buf'.bytes = .ok ((stored cmdline).dropLast ++ [space]) := by
    rw [hbytes]
    exact cstr_append (space_noNul hnul) rest
  rw [evalLine, hcstr, Result.ok_bind, hbuf, Result.ok_bind, hreplace,
    Result.ok_bind, hcstr']
  rfl

/-- What the second overwriting needs to know about the line. -/
theorem spaced_props
    (hlength : cmdline.length < MAXLINE)
    (hne : stored cmdline ≠ []) :
    0 ∉ (stored cmdline).dropLast ++ [space] ∧
      (stored cmdline).dropLast ++ [space] ≠ [] ∧
      ((stored cmdline).dropLast ++ [space]).length < MAXLINE ∧
      lineWords (((stored cmdline).dropLast ++ [space]).dropLast ++ [space]) =
        typedWords cmdline := by
  have hpos := List.length_pos_iff.mpr hne
  have hshort := ((stored_front cmdline).length_le).trans_lt hlength
  refine ⟨space_noNul (stored_noNul cmdline), by simp, ?_, ?_⟩
  · rw [List.length_append, List.length_dropLast, List.length_singleton]
    omega
  · rw [List.dropLast_concat]
    rfl

theorem evalLine_ok
    (m : Memory)
    (hlength : cmdline.length < MAXLINE)
    (hne : stored cmdline ≠ [])
    (hfew : (typedWords cmdline).length < MAXARGS) :
    ∃ t, evalLine m cmdline =
        .ok (t, if background (typedWords cmdline) then 1 else 0) ∧
      t.Lists (arguments (typedWords cmdline)) := by
  obtain ⟨hnul, hne', hshort, hwords⟩ := spaced_props hlength hne
  rw [evalLine_eq m hlength hne]
  exact parseline_ok m.array m.argv hnul hne' hshort hwords hfew

theorem evalLine_outOfBounds
    (m : Memory)
    (hlength : cmdline.length < MAXLINE)
    (hne : stored cmdline ≠ [])
    (hmany : MAXARGS ≤ (typedWords cmdline).length) :
    evalLine m cmdline = .error .outOfBounds := by
  obtain ⟨hnul, hne', hshort, hwords⟩ := spaced_props hlength hne
  rw [evalLine_eq m hlength hne]
  exact parseline_outOfBounds m.array m.argv hnul hne' hshort hwords hmany

/-- A line stays inside the arrays exactly when it has a first byte and fewer
than `MAXARGS` words. -/
theorem evalLine_inBounds_iff
    (m : Memory)
    (hlength : cmdline.length < MAXLINE) :
    evalLine m cmdline ≠ .error .outOfBounds ↔
      stored cmdline ≠ [] ∧ (typedWords cmdline).length < MAXARGS := by
  constructor
  · intro hok
    have hne : stored cmdline ≠ [] := by
      intro hempty
      exact hok (evalLine_empty m hempty)
    refine ⟨hne, ?_⟩
    by_contra hmany
    exact hok (evalLine_outOfBounds m hlength hne (not_lt.mp hmany))
  · rintro ⟨hne, hfew⟩
    obtain ⟨t, ht, _⟩ := evalLine_ok m hlength hne hfew
    rw [ht]
    simp

end Lines

section RoundTrip

variable {tokens : List (Token Byte)} {trail : Nat}

/-- The line on which these words are typed. -/
def typed (tokens : List (Token Byte)) (trail : Nat) : List Byte :=
  renderAll space quote tokens ++ List.replicate trail space ++ [newline]

/-- `&` at the end of a line. -/
def andToken (lead : Nat) : Token Byte where
  lead := lead
  word := [ampersand]
  quoted := false

theorem andToken_valid
    (lead : Nat) :
    (andToken lead).Valid space quote ∧ 0 ∉ (andToken lead).word := by
  have hword : ([ampersand] : CStr) ≠ [] ∧ space ∉ [ampersand] ∧
      [ampersand].head? ≠ some quote := by
    decide
  refine ⟨hword, fun hmem => ?_⟩
  exact absurd (List.mem_singleton.mp hmem) (by decide)

theorem renderAll_noNul
    (hnul : ∀ t ∈ tokens, 0 ∉ t.word) :
    0 ∉ renderAll space quote tokens := by
  intro hmem
  obtain ⟨text, htext, hmem⟩ := List.mem_flatten.mp hmem
  obtain ⟨t, ht, rfl⟩ := List.mem_map.mp htext
  rcases List.mem_append.mp hmem with hmem | hmem
  · exact absurd (List.eq_of_mem_replicate hmem) (by decide)
  · have hword := hnul t ht
    have hquote : (0 : Byte) ≠ quote := by decide
    unfold Token.text at hmem
    split at hmem
    · simp [hword, hquote] at hmem
    · exact hword hmem

theorem stored_typed
    (hnul : ∀ t ∈ tokens, 0 ∉ t.word) :
    stored (typed tokens trail) = typed tokens trail := by
  refine List.takeWhile_eq_self_iff.mpr ?_
  intro c hc
  have hne : c ≠ 0 := by
    rintro rfl
    simp only [typed, List.mem_append, List.mem_singleton] at hc
    rcases hc with (hc | hc) | hc
    · exact renderAll_noNul hnul hc
    · exact absurd (List.eq_of_mem_replicate hc) (by decide)
    · exact absurd hc (by decide)
  simpa using hne

/-- The words that are typed are those that `eval` sees. -/
theorem typedWords_typed
    (hvalid : ∀ t ∈ tokens, t.Valid space quote)
    (hapart : ∀ t ∈ tokens.tail, 1 ≤ t.lead)
    (hnul : ∀ t ∈ tokens, 0 ∉ t.word) :
    typedWords (typed tokens trail) = tokens.map Token.word := by
  have hline : (typed tokens trail).dropLast ++ [space] =
      renderAll space quote tokens ++ space :: List.replicate trail space := by
    rw [typed, List.dropLast_concat, List.append_assoc,
      ← List.replicate_succ', List.replicate_succ]
  have hspaces : words space quote (List.replicate trail space) = [] := by
    rw [← List.append_nil (List.replicate trail space), words_spaces]
    rfl
  rw [typedWords, stored_typed hnul, hline, lineWords,
    words_renderAll (by decide) hvalid hapart, hspaces, List.append_nil]

theorem evalLine_typed
    (m : Memory)
    (hvalid : ∀ t ∈ tokens, t.Valid space quote ∧ 0 ∉ t.word)
    (hapart : ∀ t ∈ tokens.tail, 1 ≤ t.lead)
    (hfew : tokens.length < MAXARGS)
    (hlength : (typed tokens trail).length < MAXLINE) :
    ∃ t, evalLine m (typed tokens trail) =
        .ok (t, if background (tokens.map Token.word) then 1 else 0) ∧
      t.Lists (arguments (tokens.map Token.word)) := by
  have hnul : ∀ t ∈ tokens, 0 ∉ t.word := fun t ht => (hvalid t ht).2
  have hwords : typedWords (typed tokens trail) = tokens.map Token.word :=
    typedWords_typed (fun t ht => (hvalid t ht).1) hapart hnul
  have hne : stored (typed tokens trail) ≠ [] := by
    rw [stored_typed hnul, typed]
    simp
  have hok := evalLine_ok m hlength hne (by rwa [hwords, List.length_map])
  rwa [hwords] at hok

/-- Typed words are in `argv`, in their order, with `NULL` behind them, and one
more word `&` asks for the background. -/
theorem evalLine_roundTrip
    (m : Memory) (trail : Nat)
    (hne : tokens ≠ [])
    (hfew : tokens.length < MAXARGS - 1)
    (hvalid : ∀ t ∈ tokens, t.Valid space quote ∧ 0 ∉ t.word)
    (hapart : ∀ t ∈ tokens.tail, 1 ≤ t.lead)
    (hlast : ∀ t, tokens.getLast? = some t → t.word.head? ≠ some ampersand) :
    ((typed tokens trail).length < MAXLINE →
      ∃ t, evalLine m (typed tokens trail) = .ok (t, 0) ∧
        t.Lists (tokens.map Token.word)) ∧
    ∀ lead, 1 ≤ lead →
      (typed (tokens ++ [andToken lead]) trail).length < MAXLINE →
        ∃ t, evalLine m (typed (tokens ++ [andToken lead]) trail) = .ok (t, 1) ∧
          t.Lists (tokens.map Token.word) := by
  constructor
  · intro hlength
    have hforeground : background (tokens.map Token.word) = false := by
      rw [background, List.getLast?_map]
      cases hget : tokens.getLast? with
      | none => exact absurd (List.getLast?_eq_none_iff.mp hget) hne
      | some t => simpa using hlast t hget
    have hok := evalLine_typed m hvalid hapart (by omega) hlength
    rw [arguments, hforeground] at hok
    exact hok
  · intro lead hlead hlength
    have hvalid' : ∀ t ∈ tokens ++ [andToken lead],
        t.Valid space quote ∧ 0 ∉ t.word := by
      intro t ht
      rcases List.mem_append.mp ht with ht | ht
      · exact hvalid t ht
      · obtain rfl := List.mem_singleton.mp ht
        exact andToken_valid lead
    have hapart' : ∀ t ∈ (tokens ++ [andToken lead]).tail, 1 ≤ t.lead := by
      intro t ht
      rw [List.tail_append_of_ne_nil hne] at ht
      rcases List.mem_append.mp ht with ht | ht
      · exact hapart t ht
      · obtain rfl := List.mem_singleton.mp ht
        exact hlead
    have hfew' : (tokens ++ [andToken lead]).length < MAXARGS := by
      rw [List.length_append, List.length_singleton]
      omega
    have hok := evalLine_typed m hvalid' hapart' hfew' hlength
    have hmap : (tokens ++ [andToken lead]).map Token.word =
        tokens.map Token.word ++ [[ampersand]] := by
      rw [List.map_append]
      rfl
    have hbackground :
        background (tokens.map Token.word ++ [[ampersand]]) = true := by
      simp [background]
    rw [hmap, arguments, hbackground, if_pos rfl, if_pos rfl,
      List.dropLast_concat] at hok
    exact hok

end RoundTrip

section Example

/-- Arrays that are all NUL. -/
def zeros : Buffer MAXLINE where
  bytes := List.replicate MAXLINE 0
  length_bytes := List.length_replicate

def zeroMemory : Memory where
  buf := zeros
  array := zeros
  argv := fun _ => none

/-- `echo 'a b'` -/
def echoTokens : List (Token Byte) :=
  [{ lead := 0, word := literal "echo", quoted := false },
    { lead := 2, word := literal "a b", quoted := true }]

theorem echoTokens_roundTrip :
    (∃ t, evalLine zeroMemory (typed echoTokens 1) = .ok (t, 0) ∧
        t.Lists [literal "echo", literal "a b"]) ∧
      ∃ t, evalLine zeroMemory (typed (echoTokens ++ [andToken 1]) 1) =
          .ok (t, 1) ∧
        t.Lists [literal "echo", literal "a b"] := by
  have hboth := evalLine_roundTrip zeroMemory 1 (show echoTokens ≠ [] by decide)
    (by decide) (by decide) (by decide) (by decide)
  exact ⟨hboth.1 (by decide), hboth.2 1 le_rfl (by decide)⟩

theorem echoTokens_inBounds :
    evalLine zeroMemory (typed echoTokens 1) ≠ .error .outOfBounds :=
  (evalLine_inBounds_iff zeroMemory (by decide)).mpr ⟨by decide, by decide⟩

/-- A line with as many words as `argv` has entries. -/
def crowded : List (Token Byte) :=
  List.replicate MAXARGS { lead := 1, word := literal "a", quoted := false }

theorem crowded_overruns :
    ¬ ∀ m cmdline, cmdline.length < MAXLINE →
      evalLine m cmdline ≠ .error .outOfBounds := by
  intro hclaim
  have htoken : ∀ t ∈ crowded, t.Valid space quote ∧ 0 ∉ t.word ∧ 1 ≤ t.lead := by
    intro t ht
    rw [List.eq_of_mem_replicate ht]
    decide
  have hwords : typedWords (typed crowded 0) = crowded.map Token.word :=
    typedWords_typed (fun t ht => (htoken t ht).1)
      (fun t ht => (htoken t (List.mem_of_mem_tail ht)).2.2)
      (fun t ht => (htoken t ht).2.1)
  have hmany : MAXARGS ≤ (typedWords (typed crowded 0)).length := by
    rw [hwords, List.length_map, crowded, List.length_replicate]
  have htotal : (typed crowded 0).length = MAXARGS * 2 + 1 := by
    simp [typed, crowded, renderAll, Token.render, Token.text, literal]
  have hlength : (typed crowded 0).length < MAXLINE := by
    rw [htotal]
    decide
  have hne : stored (typed crowded 0) ≠ [] := by
    rw [stored_typed (fun t ht => (htoken t ht).2.1), typed]
    simp
  exact hclaim zeroMemory (typed crowded 0) hlength
    (evalLine_outOfBounds zeroMemory hlength hne hmany)

end Example

end Shell
end PastWork
