import PastWork.Kmlab.Monitor

/-!
# Reading the status

`get_status` around its locked section: the tests of the read size and of the
offset, the text for an empty list, the terminating NUL and the copy to the
reader.  The text of the list is known exactly when it fits, and the indices of
both callbacks are followed to the end of `kern_buf`.
-/

namespace PastWork
namespace Kmlab

open Rings Steps

/-- A call of `get_status`. -/
structure Read where
  n : Nat
  ppos : Int
  /-- `kmalloc` of `kern_buf` returns memory -/
  allocates : Bool
  /-- `copy_to_user` copies all bytes -/
  writable : Bool

/-- What a call returns, the bytes that the reader has got, and `*ppos`. -/
structure Reply where
  ret : Int
  received : List Byte
  ppos : Int
deriving DecidableEq, Repr

/-- `kfree(kern_buf)`; the pointer is not to be followed from then on. -/
def kfree (_ : Buffer MAX_BUF_SIZE) : Option (Buffer MAX_BUF_SIZE) :=
  none

/-- `"No PID registered\n"` -/
def noPid : CStr :=
  literal "No PID registered\n"

/-- `get_status` from `prime_unlock(&access_lock)` on. -/
def reply (call : Read) (s : Registry.Status) : Result Reply := do
  let (length, kern_buf) ←
    if s.length = 0 then do
      -- the buffer is freed before the text is written to it
      let kern_buf ← deref (kfree s.kern_buf)
      let kern_buf ← kern_buf.strcpy 0 noPid
      .ok (noPid.length, kern_buf)
    else
      .ok (s.length, s.kern_buf)
  let kern_buf ← kern_buf.store length [0]
  if call.writable = false then
    .ok { ret := -EFAULT, received := [], ppos := call.ppos }
  else
    .ok
      { ret := length
        received := kern_buf.bytes.take length
        ppos := length }

/-- `get_status` -/
def getStatus (r : Registry) (fuel : Nat) (call : Read) : Result Reply :=
  if call.allocates = false then
    .ok { ret := -ENOMEM, received := [], ppos := call.ppos }
  else if call.n < MAX_BUF_SIZE ∨ call.ppos > 0 then
    .ok { ret := 0, received := [], ppos := call.ppos }
  else do
    match ← r.getStatus fuel cleared with
    | .done s => reply call s
    | .yield s => reply call s

/-- The lines of the entries. -/
def statusLines (entries : Registry.Entries) : List CStr :=
  entries.map (fun e => Registry.statusLine e.2)

def statusText (entries : Registry.Entries) : CStr :=
  (statusLines entries).flatten

section Text

variable {r : Registry} {entries : Registry.Entries} {fuel : Nat}

theorem statusLine_pos
    (b : RegistrationBlock) :
    0 < (Registry.statusLine b).length := by
  simp [Registry.statusLine, literal]

theorem statusText_pos
    (hne : entries ≠ []) :
    0 < (statusText entries).length := by
  cases entries with
  | nil => exact absurd rfl hne
  | cons e entries =>
      have hline := statusLine_pos e.2
      simp only [statusText, statusLines, List.map_cons, List.flatten_cons,
        List.length_append]
      omega

/-- The node of an entry. -/
def entryNode (e : Address × RegistrationBlock) : Node :=
  .next e.1

/-- `__get_status` prints the lines one after another. -/
theorem printEntry_computes
    (h : r.Holds entries) :
    Computes entryNode (fun s => s.registry.link) .registration_list
      Registry.printEntry
      (fun todo s => s.registry = r ∧ ∃ done, entries = done ++ todo)
      (fun todo s => do
        let kern_buf ← s.kern_buf.strcpyAll s.length (statusLines todo)
        .ok
          (.yield
            { s with
              length := s.length + (statusText todo).length
              kern_buf := kern_buf })) where
  read := by
    rintro e todo s ⟨rfl, done, rfl⟩
    exact ⟨Node.noConfusion, h.link_node⟩
  round := by
    rintro e todo s ⟨rfl, done, rfl⟩
    have hderef := h.deref_eq (e := e) (by simp)
    have hround : Registry.printEntry (entryNode e) s = (do
        let kern_buf ← s.kern_buf.strcpy s.length (Registry.statusLine e.2)
        .ok (.yield { s with
          length := s.length + (Registry.statusLine e.2).length
          kern_buf := kern_buf })) := by
      rw [entryNode, Registry.printEntry, Registry.entry, Result.ok_bind,
        hderef, Result.ok_bind]
    rw [hround]
    cases hprint : s.kern_buf.strcpy s.length (Registry.statusLine e.2) with
    | error f =>
        refine .inl ⟨f, rfl, ?_⟩
        simp only [statusLines, List.map_cons, Buffer.strcpyAll, hprint,
          Result.error_bind]
    | ok kern_buf =>
        refine .inr ⟨_, rfl, ⟨rfl, done ++ [e], by simp⟩, ?_⟩
        simp only [statusText, statusLines, List.map_cons, Buffer.strcpyAll,
          hprint, Result.ok_bind, List.flatten_cons, List.length_append,
          Nat.add_assoc]
  last := by
    rintro s ⟨rfl, done, rfl⟩
    refine ⟨⟨_, h.link_head⟩, ?_⟩
    simp [statusLines, statusText, Buffer.strcpyAll]

/-- The locked section of a read, for a list of any length. -/
theorem getStatus_outcome
    (h : r.Holds entries) (fuel : Nat) (kern_buf : Buffer MAX_BUF_SIZE) :
    r.getStatus fuel kern_buf = (do
      let kern_buf ← kern_buf.strcpyAll 0 (statusLines entries)
      .ok
        (.yield
          { registry := r
            length := (statusText entries).length
            kern_buf := kern_buf })) ∨
      fuel ≤ entries.length ∧ r.getStatus fuel kern_buf = .error .endless := by
  have hcomputes := forEach_computes (printEntry_computes h)
    (s := { registry := r, length := 0, kern_buf := kern_buf })
    ⟨rfl, [], rfl⟩ h.link_head fuel
  simp only [Nat.zero_add] at hcomputes
  exact hcomputes

end Text

section Replies

variable {r : Registry} {entries : Registry.Entries} {fuel : Nat} {call : Read}

/-- The call gets to the list. -/
def Read.Served (call : Read) : Prop :=
  call.allocates = true ∧ MAX_BUF_SIZE ≤ call.n ∧ call.ppos ≤ 0

instance (call : Read) : Decidable call.Served :=
  inferInstanceAs (Decidable (_ ∧ _ ∧ _))

/-- A call that does not get to the list copies nothing. -/
theorem getStatus_unserved
    (hserved : ¬ call.Served)
    (r : Registry) (fuel : Nat) :
    ∃ ret, getStatus r fuel call =
        .ok { ret := ret, received := [], ppos := call.ppos } ∧
      (call.allocates = true → ret = 0) := by
  unfold getStatus
  by_cases hallocates : call.allocates = false
  · rw [if_pos hallocates]
    refine ⟨_, rfl, ?_⟩
    intro htrue
    rw [hallocates] at htrue
    cases htrue
  · have htrue : call.allocates = true := by
      simpa using hallocates
    have hguard : call.n < MAX_BUF_SIZE ∨ call.ppos > 0 := by
      by_contra hguard
      exact hserved ⟨htrue, by omega, by omega⟩
    rw [if_neg hallocates, if_pos hguard]
    exact ⟨0, rfl, fun _ => rfl⟩

/-- What a call makes of the lines. -/
def answer (call : Read) (r : Registry) (entries : Registry.Entries) : Result Reply := do
  let kern_buf ← cleared.strcpyAll 0 (statusLines entries)
  reply call
    { registry := r
      length := (statusText entries).length
      kern_buf := kern_buf }

/-- A call that gets to the list prints it. -/
theorem getStatus_served_outcome
    (h : r.Holds entries)
    (hserved : call.Served)
    (fuel : Nat) :
    getStatus r fuel call = answer call r entries ∨
      fuel ≤ entries.length ∧ getStatus r fuel call = .error .endless := by
  obtain ⟨hallocates, hn, hppos⟩ := hserved
  have hguard : ¬ (call.n < MAX_BUF_SIZE ∨ call.ppos > 0) := by
    omega
  unfold getStatus
  rw [if_neg (by simp [hallocates]), if_neg hguard]
  rcases getStatus_outcome h fuel cleared with heq | ⟨hshort, heq⟩
  · refine .inl ?_
    rw [heq, answer]
    cases cleared.strcpyAll 0 (statusLines entries) with
    | error e => rfl
    | ok kern_buf => rfl
  · exact .inr ⟨hshort, by rw [heq, Result.error_bind]⟩

theorem getStatus_served
    (h : r.Holds entries)
    (hfuel : entries.length < fuel)
    (hserved : call.Served) :
    getStatus r fuel call = answer call r entries :=
  (getStatus_served_outcome h hserved fuel).resolve_right
    (fun hshort => Nat.not_lt.mpr hshort.1 hfuel)

theorem answer_nil :
    answer call r [] = .error .nullPointer := by
  rfl

theorem answer_overflows
    (hlong : MAX_BUF_SIZE ≤ (statusText entries).length) :
    answer call r entries = .error .outOfBounds := by
  have hne : statusLines entries ≠ [] := by
    intro hnil
    rw [statusText, hnil] at hlong
    exact absurd hlong (by decide)
  rw [answer, Buffer.strcpyAll_outOfBounds cleared hne (by rwa [Nat.zero_add]),
    Result.error_bind]

theorem answer_fits
    (hne : entries ≠ [])
    (hfits : (statusText entries).length < MAX_BUF_SIZE) :
    answer call r entries =
      if call.writable = false then
        .ok { ret := -EFAULT, received := [], ppos := call.ppos }
      else
        .ok
          { ret := (statusText entries).length
            received := statusText entries
            ppos := (statusText entries).length } := by
  have hlines : statusLines entries ≠ [] := by
    intro hnil
    exact hne (List.map_eq_nil_iff.mp hnil)
  have hpos := statusText_pos hne
  have hroom : 0 + (statusLines entries).flatten.length < MAX_BUF_SIZE := by
    rwa [Nat.zero_add]
  obtain ⟨kern_buf, hprint⟩ := Buffer.strcpyAll_ok cleared hroom
  obtain ⟨rest, hbytes⟩ := Buffer.strcpyAll_bytes hlines hprint
  rw [List.take_zero, List.nil_append, ← statusText] at hbytes
  obtain ⟨kern_buf', hstore, hbytes'⟩ := Buffer.store_byte hbytes 0
  have htext : kern_buf'.bytes.take (statusText entries).length =
      statusText entries := by
    rw [hbytes']
    exact List.take_left
  rw [answer, hprint, Result.ok_bind, reply]
  simp only [if_neg hpos.ne', Result.ok_bind, hstore, htext]

/-- The text for an empty list is written to a buffer that has been freed. -/
theorem getStatus_empty
    (h : r.Holds [])
    (hfuel : 0 < fuel)
    (hserved : call.Served) :
    getStatus r fuel call = .error .nullPointer := by
  rw [getStatus_served h hfuel hserved, answer_nil]

/-- A text that does not fit is written past the end of `kern_buf`. -/
theorem getStatus_overflows
    (h : r.Holds entries)
    (hfuel : entries.length < fuel)
    (hserved : call.Served)
    (hlong : MAX_BUF_SIZE ≤ (statusText entries).length) :
    getStatus r fuel call = .error .outOfBounds := by
  rw [getStatus_served h hfuel hserved, answer_overflows hlong]

/-- A text that fits is copied to the reader. -/
theorem getStatus_fits
    (h : r.Holds entries)
    (hfuel : entries.length < fuel)
    (hserved : call.Served)
    (hne : entries ≠ [])
    (hfits : (statusText entries).length < MAX_BUF_SIZE) :
    getStatus r fuel call =
      if call.writable = false then
        .ok { ret := -EFAULT, received := [], ppos := call.ppos }
      else
        .ok
          { ret := (statusText entries).length
            received := statusText entries
            ppos := (statusText entries).length } := by
  rw [getStatus_served h hfuel hserved, answer_fits hne hfits]

/-- The list can be read: it is not empty and its lines fit. -/
def Printable (r : Registry) : Prop :=
  ∃ entries, r.Holds entries ∧ entries ≠ [] ∧
    (statusText entries).length < MAX_BUF_SIZE

/-- A call that gets to a list only when it can be read uses nothing that is not
there. -/
theorem getStatus_sound
    {e : Fault}
    (hprintable : call.Served → Printable r)
    (he : getStatus r fuel call = .error e) :
    e = .endless := by
  by_cases hserved : call.Served
  · obtain ⟨entries, h, hne, hfits⟩ := hprintable hserved
    rcases getStatus_served_outcome h hserved fuel with heq | ⟨_, heq⟩
    · rw [heq, answer_fits hne hfits] at he
      split at he <;> cases he
    · rw [heq] at he
      exact (Except.error.inj he).symm
  · obtain ⟨ret, hret, _⟩ := getStatus_unserved hserved r fuel
    rw [hret] at he
    cases he

/-- A call that returns from the list has found one that can be read. -/
theorem printable_of_getStatus
    {out : Reply}
    (h : r.Holds entries)
    (hserved : call.Served)
    (hout : getStatus r fuel call = .ok out) :
    Printable r := by
  rcases getStatus_served_outcome h hserved fuel with heq | ⟨_, heq⟩
  · rw [hout] at heq
    refine ⟨entries, h, ?_, not_le.mp (fun hlong => ?_)⟩
    · rintro rfl
      rw [answer_nil] at heq
      cases heq
    · rw [answer_overflows hlong] at heq
      cases heq
  · rw [hout] at heq
    cases heq

/-- A read stays inside `kern_buf` exactly when the text fits or is not
printed. -/
theorem getStatus_inBounds_iff
    (h : r.Holds entries)
    (hfuel : entries.length < fuel) :
    getStatus r fuel call ≠ .error .outOfBounds ↔
      (call.Served → (statusText entries).length < MAX_BUF_SIZE) := by
  constructor
  · intro hok hserved
    by_contra hlong
    exact hok (getStatus_overflows h hfuel hserved (not_lt.mp hlong))
  · intro hfits
    by_cases hserved : call.Served
    · by_cases hne : entries = []
      · subst hne
        rw [getStatus_empty h hfuel hserved]
        simp
      · rw [getStatus_fits h hfuel hserved hne (hfits hserved)]
        split <;> simp
    · obtain ⟨ret, hret, _⟩ := getStatus_unserved hserved r fuel
      rw [hret]
      simp

end Replies

section Bounds

variable {w : Write}

/-- The tests of `register_pid` before the copy are passed. -/
def Write.Accepted (w : Write) : Prop :=
  w.allocates = true ∧ w.usr_buf.length ≤ MAX_BUF_SIZE ∧ w.ppos ≤ 0 ∧
    w.readable = true

instance (w : Write) : Decidable w.Accepted :=
  inferInstanceAs (Decidable (_ ∧ _ ∧ _ ∧ _))

/-- A write that fails the tests stores nothing. -/
theorem lookup_unaccepted
    (haccepted : ¬ w.Accepted)
    (tasks : Tasks) :
    ∃ ret, lookup w tasks = .ok (.inl ret) := by
  unfold lookup
  dsimp only
  split
  · exact ⟨_, rfl⟩
  next hallocates =>
      split
      · exact ⟨_, rfl⟩
      next hguard =>
          split
          · exact ⟨_, rfl⟩
          next hreadable =>
              simp only [Bool.not_eq_false] at hallocates hreadable
              exact absurd ⟨hallocates, by omega, by omega, hreadable⟩
                haccepted

/-- The stores of a write that passes the tests. -/
theorem lookup_accepted
    (haccepted : w.Accepted)
    (tasks : Tasks) :
    ∃ kern_buf, cleared.store 0 w.usr_buf = .ok kern_buf ∧
      (kern_buf.store w.usr_buf.length [0] = .error .outOfBounds →
        lookup w tasks = .error .outOfBounds) ∧
      ∀ kern_buf', kern_buf.store w.usr_buf.length [0] = .ok kern_buf' →
        0 ∈ kern_buf'.bytes → ∃ out, lookup w tasks = .ok out := by
  obtain ⟨hallocates, hn, hppos, hreadable⟩ := haccepted
  have hguard : ¬ (w.usr_buf.length > MAX_BUF_SIZE ∨ w.ppos > 0) := by
    omega
  have hcopy : 0 + w.usr_buf.length ≤ MAX_BUF_SIZE := by
    omega
  obtain ⟨kern_buf, hkern, _⟩ := cleared.store_ok hcopy
  refine ⟨kern_buf, hkern, ?_, ?_⟩
  · intro hstore
    unfold lookup
    simp only [hallocates, hreadable, if_neg hguard, hkern, hstore,
      Result.ok_bind, Result.error_bind, reduceCtorEq, if_false]
  · intro kern_buf' hstore hnul
    obtain ⟨s, rest, hs, _⟩ := cstr_of_mem hnul
    unfold lookup
    simp only [hallocates, hreadable, if_neg hguard, hkern, hstore, hs,
      Result.ok_bind, reduceCtorEq, if_false]
    cases kstrtoul s with
    | none => exact ⟨_, rfl⟩
    | some pid_val =>
        dsimp only
        split
        · exact ⟨_, rfl⟩
        · split <;> exact ⟨_, rfl⟩

/-- `kern_buf[n]` is past the end for the largest length that is accepted. -/
theorem lookup_full
    (haccepted : w.Accepted)
    (hfull : w.usr_buf.length = MAX_BUF_SIZE)
    (tasks : Tasks) :
    lookup w tasks = .error .outOfBounds := by
  obtain ⟨kern_buf, _, hfault, _⟩ := lookup_accepted haccepted tasks
  refine hfault ?_
  rw [hfull]
  exact kern_buf.store_outOfBounds (by decide)

/-- A write that is shorter than `kern_buf` or stores nothing comes to its end. -/
theorem lookup_ok
    (hshort : w.Accepted → w.usr_buf.length < MAX_BUF_SIZE)
    (tasks : Tasks) :
    ∃ out, lookup w tasks = .ok out := by
  by_cases haccepted : w.Accepted
  · obtain ⟨kern_buf, _, _, hreturns⟩ := lookup_accepted haccepted tasks
    have hfit : w.usr_buf.length + ([0] : List Byte).length ≤ MAX_BUF_SIZE :=
      hshort haccepted
    obtain ⟨kern_buf', hstore, hbytes⟩ := kern_buf.store_ok hfit
    exact hreturns kern_buf' hstore (by simp [hbytes])
  · obtain ⟨ret, hret⟩ := lookup_unaccepted haccepted tasks
    exact ⟨_, hret⟩

/-- A write stays inside `kern_buf` exactly when it is shorter than that or
stores nothing. -/
theorem lookup_inBounds_iff
    (w : Write) (tasks : Tasks) :
    lookup w tasks ≠ .error .outOfBounds ↔
      (w.Accepted → w.usr_buf.length < MAX_BUF_SIZE) := by
  constructor
  · intro hok haccepted
    by_contra hlong
    have hfull : w.usr_buf.length = MAX_BUF_SIZE :=
      Nat.le_antisymm haccepted.2.1 (not_lt.mp hlong)
    exact hok (lookup_full haccepted hfull tasks)
  · intro hshort
    obtain ⟨out, hout⟩ := lookup_ok hshort tasks
    rw [hout]
    simp

end Bounds

namespace Monitor

universe u

variable {T : Type u} [DecidableEq T] {s : Monitor T} {es : List (Section T)}

/-- In every reachable state the indices in `kern_buf` are below its size:
those of a write exactly when it is not as long as the buffer, those of a read
exactly when the text of the list is shorter. -/
theorem kernBuf_inBounds_iff
    (h : exec step (start (T := T)) es = some s) :
    (∀ w tasks, Kmlab.lookup w tasks ≠ .error .outOfBounds ↔
      (w.Accepted → w.usr_buf.length < MAX_BUF_SIZE)) ∧
      ∃ entries, s.registry.Holds entries ∧
        ∀ call fuel, entries.length < fuel →
          (getStatus s.registry fuel call ≠ .error .outOfBounds ↔
            (call.Served → (statusText entries).length < MAX_BUF_SIZE)) := by
  obtain ⟨entries, hholds, _⟩ := exec_holds h
  refine ⟨lookup_inBounds_iff, entries, hholds, ?_⟩
  intro call fuel hfuel
  exact getStatus_inBounds_iff hholds hfuel

section Example

theorem threeWrites_inBounds :
    ∃ s, exec step (start (T := Fin 3)) threeWrites = some s ∧
      (∀ w tasks, Kmlab.lookup w tasks ≠ .error .outOfBounds ↔
        (w.Accepted → w.usr_buf.length < MAX_BUF_SIZE)) ∧
        ∃ entries, s.registry.Holds entries ∧
          ∀ call fuel, entries.length < fuel →
            (getStatus s.registry fuel call ≠ .error .outOfBounds ↔
              (call.Served →
                (statusText entries).length < MAX_BUF_SIZE)) := by
  obtain ⟨s, hs⟩ := threeWrites_runs
  exact ⟨s, hs, kernBuf_inBounds_iff hs⟩

/-- A pid and NUL bytes up to the size of the buffer. -/
def fullWrite : Write :=
  write (literal "1" ++ List.replicate (MAX_BUF_SIZE - 1) 0)

theorem fullWrite_overruns :
    ¬ ∀ (es : List (Section (Fin 3))) s, exec step start es = some s →
      (∀ w tasks, Kmlab.lookup w tasks ≠ .error .outOfBounds) ∧
        ∀ entries, s.registry.Holds entries →
          ∀ call fuel, entries.length < fuel →
            getStatus s.registry fuel call ≠ .error .outOfBounds := by
  intro hclaim
  have hfull : fullWrite.usr_buf.length = MAX_BUF_SIZE := by
    rw [fullWrite, write, List.length_append, List.length_replicate]
    rfl
  have haccepted : fullWrite.Accepted := ⟨rfl, hfull.le, le_rfl, rfl⟩
  exact (hclaim [] start rfl).1 fullWrite twoTasks
    (lookup_full haccepted hfull twoTasks)

end Example

end Monitor

end Kmlab
end PastWork
