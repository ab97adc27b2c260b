import PastWork.Kmlab.Status

/-!
# The user program

`pid_register` writes the digits of the own pid and `pid_list` prints what it reads.
Whatever other processes and the passes do in between, a process with a pid below
65535 that the passes find is printed in one line, and a process with a larger pid is
never printed.
-/

namespace PastWork
namespace Kmlab

open Rings Steps Decimals

/-- `kstrtoul` reads what `%d` has printed. -/
theorem kstrtoul_numeral
    {n : Nat}
    (hn : n < 2 ^ 64) :
    kstrtoul (numeral n) = some n := by
  have hplain := plain_numeral n
  have hdigits : ∀ c ∈ numeral n, decide (IsDigit c) = true :=
    fun c hc => decide_eq_true (hplain.digits c hc)
  have hsign : (numeral n).head? ≠ some 43 := by
    intro hsign
    have hdigit := hplain.digits 43 (List.mem_of_mem_head? hsign)
    exact absurd hdigit (by decide)
  have htake := List.takeWhile_eq_self_iff.mpr hdigits
  have hdrop := List.dropWhile_eq_nil_iff.mpr hdigits
  unfold kstrtoul
  simp only [if_neg hsign, htake, hdrop, if_neg hplain.nonempty, value_numeral,
    true_or, if_true]
  rw [if_neg (by omega)]

/-- `pid_register`: what is written to the file that has just been opened. -/
def pidRegister (pid : Nat) : Write where
  usr_buf := numeral pid
  ppos := 0
  allocates := true
  readable := true

/-- `pid_list`: what is printed of a buffer that has been cleared. -/
def pidList (r : Registry) (fuel : Nat) : Result CStr := do
  let out ← getStatus r fuel
    { n := MAX_BUF_SIZE, ppos := 0, allocates := true, writable := true }
  let buf ← cleared.store 0 out.received
  cstr buf.bytes

/-- A string that fits is terminated by a NUL of the cleared buffer. -/
theorem cleared_store
    {s : CStr}
    (hs : s.length < MAX_BUF_SIZE) :
    ∃ buf rest, cleared.store 0 s = .ok buf ∧ buf.bytes = s ++ 0 :: rest := by
  have hroom : 0 + s.length ≤ MAX_BUF_SIZE := by omega
  obtain ⟨buf, hbuf, hbytes⟩ := cleared.store_ok hroom
  obtain ⟨left, hleft⟩ : ∃ left, MAX_BUF_SIZE - s.length = left + 1 :=
    ⟨MAX_BUF_SIZE - s.length - 1, by omega⟩
  refine ⟨buf, List.replicate left 0, hbuf, ?_⟩
  rw [hbytes, List.take_zero, List.nil_append, Nat.zero_add, cleared,
    List.drop_replicate, hleft, List.replicate_succ]

section Registering

variable {pid : Nat} {tasks : Tasks} {used_time : UInt64}

/-- `register_pid` finds the pid that is written. -/
theorem lookup_pidRegister
    (hpid : pid < 2 ^ 31)
    (hself : tasks pid = some used_time) :
    lookup (pidRegister pid) tasks =
      if 65535 ≤ pid then .ok (.inl (-EFAULT)) else .ok (.inr (pid, used_time)) := by
  have hlength : (numeral pid).length ≤ 11 :=
    numeral_length (by omega)
  have hnoNul : (0 : Byte) ∉ numeral pid :=
    notMem_numeral (by decide)
  have hfits : (numeral pid).length < MAX_BUF_SIZE :=
    hlength.trans_lt (by decide)
  obtain ⟨buf, rest, hbuf, hbytes⟩ := cleared_store hfits
  obtain ⟨buf', hbuf', hbytes'⟩ := Buffer.store_byte hbytes 0
  have hcstr : cstr buf'.bytes = .ok (numeral pid) := by
    rw [hbytes']
    exact cstr_append hnoNul rest
  have hguard : ¬ ((numeral pid).length > MAX_BUF_SIZE ∨
      (0 : Int) > 0) := by
    omega
  unfold lookup pidRegister
  simp only [Bool.true_eq_false, if_false, if_neg hguard, hbuf, hbuf', hcstr,
    Result.ok_bind, kstrtoul_numeral (show pid < 2 ^ 64 by omega)]
  by_cases hlarge : 65535 ≤ pid
  · rw [if_pos hlarge, if_pos (by omega)]
  · rw [if_neg hlarge, if_neg (by omega)]
    simp only [getCpuUse, hself, ne_eq, not_true_eq_false, if_false]

/-- Only small pids come to the list. -/
theorem lookup_range
    {w : Write} {found : Int} {time : UInt64}
    (h : lookup w tasks = .ok (.inr (found, time))) :
    ∃ pid : Nat, found = pid ∧ pid < 65535 := by
  unfold lookup at h
  dsimp only at h
  split at h
  · cases h
  · split at h
    · cases h
    · split at h
      · cases h
      · obtain ⟨_, _, h⟩ := Result.bind_eq_ok h
        obtain ⟨_, _, h⟩ := Result.bind_eq_ok h
        obtain ⟨_, _, h⟩ := Result.bind_eq_ok h
        split at h
        · cases h
        next pid_val _ =>
          split at h
          · cases h
          next hsmall =>
            split at h
            · cases h
            · cases h
              exact ⟨pid_val, rfl, by omega⟩

end Registering

section Lines

variable {entries : Registry.Entries}

/-- The start of the line for a pid. -/
def label (pid : Int) : CStr :=
  literal "PID[" ++ numeral pid ++ literal "]: "

/-- The line of an entry without its newline. -/
def lineOf (b : RegistrationBlock) : CStr :=
  label b.pid ++ numeral b.used_time.toNat

/-- The lines of a text. -/
def linesOf (text : CStr) : List CStr :=
  text.splitOn 10

/-- All pids are small. -/
def Small (entries : Registry.Entries) : Prop :=
  ∀ e ∈ entries, ∃ pid : Nat, e.2.pid = pid ∧ pid < 65535

theorem newline_notMem
    {b : RegistrationBlock} {pid : Nat}
    (hpid : b.pid = pid) :
    10 ∉ lineOf b := by
  have hdigits : ∀ n : Nat, (10 : Byte) ∉ numeral n :=
    fun n => notMem_numeral (by decide)
  rw [lineOf, label, hpid]
  simp only [List.mem_append, not_or]
  exact ⟨⟨⟨by decide, hdigits pid⟩, by decide⟩, hdigits _⟩

/-- The lines that are printed are those of the entries. -/
theorem linesOf_statusText
    (hsmall : Small entries) :
    linesOf (statusText entries) = entries.map (fun e => lineOf e.2) ++ [[]] := by
  induction entries with
  | nil => rfl
  | cons e entries ih =>
      obtain ⟨pid, hpid, _⟩ := hsmall e List.mem_cons_self
      have htail := ih (fun e' he' => hsmall e' (List.mem_cons_of_mem e he'))
      have htext : statusText (e :: entries) =
          lineOf e.2 ++ 10 :: statusText entries := by
        simp [statusText, statusLines, Registry.statusLine, lineOf, label, literal]
      unfold linesOf at htail ⊢
      rw [htext, List.splitOn_append_cons_self,
        List.splitOn_eq_singleton (newline_notMem hpid), htail]
      rfl

/-- A line has at most 33 bytes, so 124 of them fit. -/
theorem statusText_length
    (hsmall : Small entries) :
    (statusText entries).length ≤ 33 * entries.length := by
  induction entries with
  | nil => exact le_rfl
  | cons e entries ih =>
      obtain ⟨pid, hpid, hlt⟩ := hsmall e List.mem_cons_self
      have htail := ih (fun e' he' => hsmall e' (List.mem_cons_of_mem e he'))
      have hdigits : (numeral pid).length ≤ 4 + 1 :=
        length_numeral_le (by omega)
      have htime : (numeral e.2.used_time.toNat).length ≤ 19 + 1 :=
        length_numeral_le (e.2.used_time.toNat_lt.trans (by decide))
      have hline : (Registry.statusLine e.2).length ≤ 33 := by
        rw [Registry.statusLine, hpid]
        simp only [List.length_append, literal, List.length_map]
        simp only [String.length_toList]
        have hparts : "PID[".length + "]: ".length + "\n".length = 8 := by decide
        omega
      have htext : statusText (e :: entries) =
          Registry.statusLine e.2 ++ statusText entries := rfl
      rw [htext, List.length_append, List.length_cons]
      omega

/-- A line starts with the label of its own pid only. -/
theorem label_isPrefixOf
    {b : RegistrationBlock} {pid pid' : Nat}
    (hb : b.pid = pid') :
    (label pid).isPrefixOf (lineOf b) = true ↔ b.pid = pid := by
  have hdigits : ∀ n : Nat, (93 : Byte) ∉ numeral n :=
    fun n => notMem_numeral (by decide)
  constructor
  · intro h
    obtain ⟨rest, hrest⟩ := List.isPrefixOf_iff_prefix.mp h
    rw [lineOf, label, label, hb] at hrest
    simp only [List.append_assoc, List.append_cancel_left_eq] at hrest
    have hsame := (split_unique (hdigits pid) (hdigits pid') hrest).1
    rw [hb, numeral_injective hsame]
  · intro h
    rw [lineOf, h]
    exact List.isPrefixOf_iff_prefix.mpr (List.prefix_append _ _)

end Lines

theorem pidList_eq
    {r : Registry} {entries : Registry.Entries} {fuel : Nat}
    (h : r.Holds entries)
    (hfuel : entries.length < fuel)
    (hsmall : Small entries)
    (hne : entries ≠ [])
    (hfits : (statusText entries).length < MAX_BUF_SIZE) :
    pidList r fuel = .ok (statusText entries) := by
  have hserved : Read.Served
      { n := MAX_BUF_SIZE, ppos := 0, allocates := true, writable := true } :=
    ⟨rfl, le_rfl, le_rfl⟩
  have hdigits : ∀ n : Nat, (0 : Byte) ∉ numeral n :=
    fun n => notMem_numeral (by decide)
  have hnoNul : (0 : Byte) ∉ statusText entries := by
    intro hmem
    obtain ⟨line, hline, hmem⟩ := List.mem_flatten.mp hmem
    obtain ⟨e, he, rfl⟩ := List.mem_map.mp hline
    obtain ⟨pid, hpid, _⟩ := hsmall e he
    rw [Registry.statusLine, hpid] at hmem
    simp only [List.mem_append, hdigits, or_false] at hmem
    exact absurd hmem (by decide)
  obtain ⟨buf, rest, hbuf, hbytes⟩ := cleared_store hfits
  rw [pidList, getStatus_fits h hfuel hserved hne hfits]
  simp only [Bool.true_eq_false, if_false, Result.ok_bind, hbuf]
  rw [hbytes]
  exact cstr_append hnoNul rest

namespace Monitor

universe u

variable {T : Type u} [DecidableEq T] {s s' : Monitor T} {es : List (Section T)}
  {pid : Nat} {P : UInt64 → Prop}

/-- The pid is listed, with a time of which `P` holds. -/
def Shows (s : Monitor T) (pid : Nat) (P : UInt64 → Prop) : Prop :=
  ∃ entries, s.registry.Holds entries ∧
    ∃ e ∈ entries, e.2.pid = pid ∧ P e.2.used_time

/-- A process that a pass finds is kept. -/
theorem mem_refreshAll
    {tasks : Nat → Tasks} {entries : Registry.Entries}
    {e : Address × RegistrationBlock}
    (he : e ∈ entries)
    (halive : ∀ k, (tasks k e.2.pid).isSome = true) :
    ∃ k time, tasks k e.2.pid = some time ∧
      (e.1, { e.2 with used_time := time }) ∈ Registry.refreshAll tasks 0 entries := by
  obtain ⟨k, hk⟩ := List.mem_iff_getElem?.mp he
  obtain ⟨time, htime⟩ := Option.isSome_iff_exists.mp (halive k)
  refine ⟨k, time, htime, ?_⟩
  rw [Registry.refreshAll]
  refine List.mem_filterMap.mpr ⟨(e, k), List.mk_mem_zipIdx_iff_getElem?.mpr hk, ?_⟩
  simp [Registry.refresh, getCpuUse, htime]

/-- A step that is no pass leaves the entry alone. -/
theorem Shows.kept
    {e : Section T}
    (h : s.Shows pid P)
    (he : ∀ tasks fuel, e ≠ .work tasks fuel)
    (hstep : step s e = some s') :
    s'.Shows pid P := by
  obtain ⟨entries, hholds, entry, hentry, hshown⟩ := h
  cases e with
  | lookup t w tasks =>
      rw [Shows, lookup_registry hstep]
      exact ⟨entries, hholds, entry, hentry, hshown⟩
  | read fuel =>
      rw [Shows, read_registry hstep]
      exact ⟨entries, hholds, entry, hentry, hshown⟩
  | register t new_block_ptr fuel =>
      obtain ⟨_, _, _, _, ⟨_, hsame, _⟩ | ⟨block, _, _, hnew⟩⟩ :=
        register_cases hholds hstep
      · exact ⟨entries, hsame, entry, hentry, hshown⟩
      · exact ⟨_, hnew, entry, List.mem_cons_of_mem _ hentry, hshown⟩
  | work tasks fuel => exact absurd rfl (he tasks fuel)

/-- A pass that finds the process gives it a new time. -/
theorem Shows.passed
    {tasks : Nat → Tasks} {fuel : Nat}
    (h : s.Shows pid P)
    (halive : ∀ k, (tasks k pid).isSome = true)
    (hstep : step s (.work tasks fuel) = some s') :
    s'.Shows pid (fun time => ∃ k, tasks k pid = some time) := by
  obtain ⟨entries, hholds, entry, hentry, hpid, _⟩ := h
  obtain ⟨k, time, htime, hmem⟩ :=
    mem_refreshAll hentry (fun k => by rw [hpid]; exact halive k)
  exact ⟨_, work_holds hholds hstep, _, hmem, hpid, k, by rw [← hpid]; exact htime⟩

/-- A call of `register_pid` that gets to the list leaves the pid there. -/
theorem shows_register
    {t : T} {new_block_ptr : Option Address} {fuel n : Nat} {used_time : UInt64}
    {entries : Registry.Entries}
    (hholds : s.registry.Holds entries)
    (hlooked : s.writer t = .looked n pid used_time)
    (hstep : step s (.register t new_block_ptr fuel) = some s') :
    s'.Shows pid (fun _ => True) := by
  obtain ⟨_, _, _, hlooked', hcases⟩ := register_cases hholds hstep
  rw [hlooked] at hlooked'
  cases hlooked'
  rcases hcases with ⟨_, hsame, e, he, hpid⟩ | ⟨block, _, _, hnew⟩
  · exact ⟨entries, hsame, e, he, hpid, trivial⟩
  · exact ⟨_, hnew, _, List.mem_cons_self, rfl, trivial⟩

/-- A listed process that the passes find stays listed. -/
theorem Shows.lasts
    (h : s.Shows pid (fun _ => True))
    (halive : ∀ tasks fuel, Section.work tasks fuel ∈ es →
      ∀ k, (tasks k pid).isSome = true)
    (hes : exec step s es = some s') :
    s'.Shows pid (fun _ => True) := by
  induction es generalizing s with
  | nil =>
      cases hes
      exact h
  | cons e es ih =>
      obtain ⟨m, hm, hrest⟩ := Option.bind_eq_some_iff.mp hes
      have hlater : ∀ tasks fuel, Section.work tasks fuel ∈ es →
          ∀ k, (tasks k pid).isSome = true :=
        fun tasks fuel hmem => halive tasks fuel (List.mem_cons_of_mem e hmem)
      refine ih ?_ hlater hrest
      by_cases hwork : ∃ tasks fuel, e = .work tasks fuel
      · obtain ⟨tasks, fuel, rfl⟩ := hwork
        obtain ⟨entries, hholds, entry, hentry, hpid, _⟩ :=
          h.passed (halive tasks fuel List.mem_cons_self) hm
        exact ⟨entries, hholds, entry, hentry, hpid, trivial⟩
      · exact h.kept (fun tasks fuel he => hwork ⟨tasks, fuel, he⟩) hm

/-- Without a pass its time stays, too. -/
theorem Shows.rests
    (h : s.Shows pid P)
    (hidle : ∀ tasks fuel, Section.work tasks fuel ∉ es)
    (hes : exec step s es = some s') :
    s'.Shows pid P := by
  induction es generalizing s with
  | nil =>
      cases hes
      exact h
  | cons e es ih =>
      obtain ⟨m, hm, hrest⟩ := Option.bind_eq_some_iff.mp hes
      refine ih (h.kept ?_ hm)
        (fun tasks fuel hmem => hidle tasks fuel (List.mem_cons_of_mem e hmem)) hrest
      rintro tasks fuel rfl
      exact hidle tasks fuel List.mem_cons_self

/-- Small pids are in the list and on their way to it. -/
structure Ranged (s : Monitor T) : Prop where
  listed : ∃ entries, s.registry.Holds entries ∧ Distinct entries ∧ Small entries
  looked : ∀ t n found time, s.writer t = .looked n found time →
    ∃ pid : Nat, found = pid ∧ pid < 65535

theorem Small.refreshed
    {tasks : Nat → Tasks} {k : Nat} {entries : Registry.Entries}
    (h : Small entries) :
    Small (Registry.refreshAll tasks k entries) := by
  have hpids := refreshAll_pids tasks k entries
  intro e he
  obtain ⟨e', he', hpid⟩ := List.mem_map.mp
    (hpids.subset (List.mem_map.mpr ⟨e, he, rfl⟩))
  obtain ⟨pid, hsmall⟩ := h e' he'
  exact ⟨pid, by rw [← hpid]; exact hsmall⟩

theorem register_writer
    {t : T} {new_block_ptr : Option Address} {fuel : Nat}
    (hstep : s.register t new_block_ptr fuel = some s') :
    ∃ ret, s'.writer = Function.update s.writer t (.returned ret) := by
  unfold register at hstep
  split at hstep
  · split at hstep
    · split at hstep
      · cases hstep
        exact ⟨_, rfl⟩
      · cases hstep
    · cases hstep
  · cases hstep

theorem Ranged.step
    {e : Section T}
    (h : s.Ranged)
    (hstep : s.step e = some s') :
    s'.Ranged := by
  obtain ⟨⟨entries, hholds, hdistinct, hsmall⟩, hlooked⟩ := h
  have hsame : ∀ {t} {w : Writer}, (∀ n found time, w = .looked n found time →
      ∃ pid : Nat, found = pid ∧ pid < 65535) →
        ∀ t' n found time, Function.update s.writer t w t' = .looked n found time →
          ∃ pid : Nat, found = pid ∧ pid < 65535 := by
    intro t w hw t' n found time hwriter
    by_cases ht : t' = t
    · subst ht
      rw [Function.update_self] at hwriter
      exact hw n found time hwriter
    · rw [Function.update_of_ne ht] at hwriter
      exact hlooked t' n found time hwriter
  cases e with
  | lookup t w tasks =>
      simp only [Monitor.step] at hstep
      split at hstep
      · cases hstep
      · split at hstep
        · cases hstep
          exact ⟨⟨entries, hholds, hdistinct, hsmall⟩, hsame (fun _ _ _ heq => by cases heq)⟩
        next found time hfound =>
          cases hstep
          refine ⟨⟨entries, hholds, hdistinct, hsmall⟩, hsame ?_⟩
          intro _ _ _ heq
          cases heq
          exact lookup_range hfound
        · cases hstep
  | register t new_block_ptr fuel =>
      have hpid := register_cases hholds hstep
      obtain ⟨ret, hwriter⟩ := register_writer hstep
      refine ⟨?_, by rw [hwriter]; exact hsame (fun _ _ _ heq => by cases heq)⟩
      obtain ⟨n, found, time, hfound, ⟨_, hkept, _⟩ | ⟨block, _, hother, hnew⟩⟩ := hpid
      · exact ⟨entries, hkept, hdistinct, hsmall⟩
      · refine ⟨_, hnew, List.nodup_cons.mpr ⟨?_, hdistinct⟩, ?_⟩
        · intro hmem
          obtain ⟨e, he, heq⟩ := List.mem_map.mp hmem
          exact hother e he heq
        · intro e he
          rcases List.mem_cons.mp he with rfl | he
          · exact hlooked t n found time hfound
          · exact hsmall e he
  | read fuel =>
      rw [read_registry hstep]
      exact ⟨⟨entries, hholds, hdistinct, hsmall⟩, hlooked⟩
  | work tasks fuel =>
      have hwriter : s'.writer = s.writer := by
        simp only [Monitor.step] at hstep
        split at hstep <;> cases hstep
        rfl
      refine ⟨⟨_, work_holds hholds hstep,
        hdistinct.sublist (refreshAll_pids tasks 0 entries), Small.refreshed hsmall⟩, ?_⟩
      rw [hwriter]
      exact hlooked

theorem exec_ranged
    (h : exec step start es = some s) :
    s.Ranged := by
  have hinit : (start (T := T)).Ranged := by
    refine ⟨⟨[], Registry.empty_holds, List.nodup_nil, ?_⟩, ?_⟩
    · intro e he
      cases he
    · intro t n found time hwriter
      cases hwriter
  exact exec_invariant hinit (fun _ _ _ hs he => hs.step he) h

/-- A call that waits for the lock goes on waiting until its own next step. -/
theorem exec_looked
    {t : T} {n : Nat} {found : Int} {time : UInt64}
    (hlooked : s.writer t = .looked n found time)
    (hother : ∀ new_block_ptr fuel, Section.register t new_block_ptr fuel ∉ es)
    (hes : exec step s es = some s') :
    s'.writer t = .looked n found time := by
  induction es generalizing s with
  | nil =>
      cases hes
      exact hlooked
  | cons e es ih =>
      obtain ⟨m, hm, hrest⟩ := Option.bind_eq_some_iff.mp hes
      have hlater : ∀ new_block_ptr fuel,
          Section.register t new_block_ptr fuel ∉ es :=
        fun new_block_ptr fuel hmem =>
          hother new_block_ptr fuel (List.mem_cons_of_mem e hmem)
      refine ih ?_ hlater hrest
      cases e with
      | lookup t' w tasks =>
          have hne : t ≠ t' := by
            rintro rfl
            simp only [Monitor.step, hlooked] at hm
            cases hm
          simp only [Monitor.step] at hm
          split at hm
          · cases hm
          · split at hm
            · cases hm
              simp [setWriter, Function.update_of_ne hne, hlooked]
            · cases hm
              simp [setWriter, Function.update_of_ne hne, hlooked]
            · cases hm
      | register t' new_block_ptr fuel =>
          have hne : t ≠ t' := by
            rintro rfl
            exact hother new_block_ptr fuel List.mem_cons_self
          obtain ⟨ret, hwriter⟩ := register_writer hm
          rw [hwriter, Function.update_of_ne hne, hlooked]
      | read fuel => rw [read_registry hm, hlooked]
      | work tasks fuel =>
          simp only [Monitor.step] at hm
          split at hm <;> cases hm
          exact hlooked

/-- A user program of the writer `t` has found its own pid and has come to the list
before the steps `after`, and every pass since then has found its process. -/
structure Registered (t : T) (pid : Nat) (es after : List (Section T)) : Prop where
  calls : ∃ before middle tasks used_time new_block_ptr fuel,
    es = before ++ .lookup t (pidRegister pid) tasks ::
      (middle ++ .register t new_block_ptr fuel :: after) ∧
    tasks pid = some used_time ∧
    ∀ new_block_ptr fuel, Section.register t new_block_ptr fuel ∉ middle
  alive : ∀ tasks fuel, Section.work tasks fuel ∈ after →
    ∀ k, (tasks k pid).isSome = true

/-- It is listed when its call of `register_pid` has returned. -/
theorem Registered.shows
    {t : T} {after : List (Section T)}
    (hpid : pid < 65535)
    (h : Registered t pid es after)
    (hes : exec step start es = some s) :
    ∃ m, m.Shows pid (fun _ => True) ∧ exec step m after = some s := by
  obtain ⟨before, middle, tasks, used_time, new_block_ptr, fuel, rfl, hself, hmiddle⟩ :=
    h.calls
  rw [exec_append] at hes
  obtain ⟨m₁, hm₁, hes⟩ := Option.bind_eq_some_iff.mp hes
  obtain ⟨m₂, hm₂, hes⟩ := Option.bind_eq_some_iff.mp hes
  rw [exec_append] at hes
  obtain ⟨m₃, hm₃, hes⟩ := Option.bind_eq_some_iff.mp hes
  obtain ⟨m₄, hm₄, hes⟩ := Option.bind_eq_some_iff.mp hes
  have hreach : exec step start (before ++ .lookup t (pidRegister pid) tasks :: middle) =
      some m₃ := by
    rw [exec_append, hm₁, Option.bind_some, exec, hm₂]
    exact hm₃
  obtain ⟨entries, hholds, _⟩ := (exec_ranged hreach).listed
  have hlookup := lookup_pidRegister (by omega) hself
  rw [if_neg (by omega)] at hlookup
  have hlooked : m₂.writer t =
      .looked (pidRegister pid).usr_buf.length pid used_time := by
    simp only [Monitor.step, hlookup] at hm₂
    split at hm₂
    · cases hm₂
    · cases hm₂
      simp [setWriter]
  exact ⟨m₄, shows_register hholds (exec_looked hlooked hmiddle hm₃) hm₄, hes⟩

/-- The lines for a pid are those of its entries. -/
theorem countP_label
    {entries : Registry.Entries}
    (hsmall : Small entries) (pid : Nat) :
    (linesOf (statusText entries)).countP (label pid).isPrefixOf =
      (entries.map (fun e => e.2.pid)).count (pid : Int) := by
  have hempty : (label pid).isPrefixOf ([] : CStr) = false := rfl
  rw [linesOf_statusText hsmall, List.countP_append, List.countP_map,
    List.countP_singleton, hempty, List.count, List.countP_map]
  simp only [Bool.false_eq_true, if_false, Nat.add_zero]
  refine List.countP_congr (fun e he => ?_)
  obtain ⟨pid', hpid', _⟩ := hsmall e he
  have hlabel : (label pid).isPrefixOf (lineOf e.2) = true ↔ e.2.pid = pid :=
    label_isPrefixOf hpid'
  simpa using hlabel

/-- Every entry has been registered by a step. -/
theorem length_le_steps
    {entries : Registry.Entries}
    (hes : exec step start es = some s)
    (hholds : s.registry.Holds entries) :
    entries.length ≤ es.length := by
  induction es using List.reverseRecOn generalizing s entries with
  | nil =>
      cases hes
      obtain rfl := hholds.unique Registry.empty_holds
      exact le_rfl
  | append_singleton es e ih =>
      obtain ⟨m, hm, hlast⟩ := exec_snoc hes
      obtain ⟨before, hbefore, _⟩ := (exec_ranged hm).listed
      have hle := ih hm hbefore
      rw [List.length_append, List.length_singleton]
      cases e with
      | lookup t w tasks =>
          rw [lookup_registry hlast] at hholds
          obtain rfl := hholds.unique hbefore
          omega
      | read fuel =>
          rw [read_registry hlast] at hholds
          obtain rfl := hholds.unique hbefore
          omega
      | register t new_block_ptr fuel =>
          obtain ⟨_, _, _, _, ⟨_, hsame, _⟩ | ⟨block, _, _, hnew⟩⟩ :=
            register_cases hbefore hlast
          · obtain rfl := hholds.unique hsame
            omega
          · obtain rfl := hholds.unique hnew
            rw [List.length_cons]
            omega
      | work tasks fuel =>
          obtain rfl := hholds.unique (work_holds hbefore hlast)
          have hpids := (refreshAll_pids tasks 0 before).length_le
          simp only [List.length_map] at hpids
          omega

/-- Two user programs register and one of them reads; then comes a pass. -/
def twoApps (t u : T) : List (Section T) :=
  [.lookup t (pidRegister 1) twoTasks, .lookup u (pidRegister 2) twoTasks,
    .register u (some 100) 4, .register t (some 200) 4, .read 4,
    .work (fun _ pid => if pid = 1 then some 30 else twoTasks pid) 4]

end Monitor

end Kmlab
end PastWork
