import PastWork.Kmlab.Status

/-!
# What a reader receives

A process that reads `/proc/kmlab/status` until `read` returns 0.  The offset is
set to the length of the text, and every later call returns 0 whatever the list
is by then.  The order of the lines is that of the registrations, the latest one
first.
-/

namespace PastWork
namespace Kmlab

open Rings Steps

/-- Read with size `n` until `read` returns 0; `registries k` is the list at the
call `k`. -/
def readAll (n fuel : Nat) (registries : Nat → Registry) :
    Nat → Nat → Int → Result (List Byte)
  | 0, _, _ => .error .endless
  | rounds + 1, k, ppos => do
      let out ← getStatus (registries k) fuel
        { n := n, ppos := ppos, allocates := true, writable := true }
      if out.ret ≤ 0 then
        .ok []
      else do
        let rest ← readAll n fuel registries rounds (k + 1) out.ppos
        .ok (out.received ++ rest)

section Delivery

variable {r : Registry} {entries : Registry.Entries} {n fuel rounds k : Nat}
  {registries : Nat → Registry} {ppos : Int}

/-- A call that does not get to the list is the last one. -/
theorem readAll_unserved
    (hguard : n < MAX_BUF_SIZE ∨ 0 < ppos) :
    readAll n fuel registries (rounds + 1) k ppos = .ok [] := by
  have hserved : ¬ Read.Served
      { n := n, ppos := ppos, allocates := true, writable := true } := by
    rintro ⟨_, hn, hppos⟩
    dsimp only at hn hppos
    omega
  obtain ⟨ret, hret, hzero⟩ :=
    getStatus_unserved hserved (registries k) fuel
  obtain rfl := hzero rfl
  rw [readAll, hret, Result.ok_bind, if_pos le_rfl]

/-- The text comes with the first call, and the second one ends the loop. -/
theorem readAll_served
    (h : (registries k).Holds entries)
    (hfuel : entries.length < fuel)
    (hne : entries ≠ [])
    (hfits : (statusText entries).length < MAX_BUF_SIZE)
    (hn : MAX_BUF_SIZE ≤ n) :
    readAll n fuel registries (rounds + 2) k 0 = .ok (statusText entries) := by
  have hpos := statusText_pos hne
  have hserved : Read.Served
      { n := n, ppos := 0, allocates := true, writable := true } :=
    ⟨rfl, hn, le_rfl⟩
  have hend : readAll n fuel registries (rounds + 1) (k + 1)
      (statusText entries).length = .ok [] :=
    readAll_unserved (.inr (by omega))
  have hpositive : ¬ ((statusText entries).length : Int) ≤ 0 := by
    omega
  rw [readAll, getStatus_fits h hfuel hserved hne hfits]
  simp only [reduceCtorEq, if_false, Result.ok_bind, if_neg hpositive, hend,
    List.append_nil]

end Delivery

namespace Monitor

universe u

variable {T : Type u} [DecidableEq T]

/-- The step `i` of a run registers the pid. -/
def Registers (es : List (Section T)) (i : Nat) (pid : Int) : Prop :=
  ∃ (s s' : Monitor T) (t : T) (new_block_ptr : Option Address) (fuel n : Nat)
    (used_time : UInt64),
    exec step start (es.take i) = some s ∧
      es[i]? = some (.register t new_block_ptr fuel) ∧
      s.writer t = .looked n pid used_time ∧
      step s (.register t new_block_ptr fuel) = some s' ∧
      s'.writer t = .returned n

/-- The step `i` is the last one that registers the pid. -/
def RegisteredLast (es : List (Section T)) (i : Nat) (pid : Int) : Prop :=
  Registers es i pid ∧ ∀ j, i < j → ¬ Registers es j pid

/-- The pids have been registered, the first one at last. -/
def NewestFirst (es : List (Section T)) (pids : List Int) : Prop :=
  ∃ time : Int → Nat,
    pids.Pairwise (fun p q => time q < time p) ∧
      ∀ p ∈ pids, RegisteredLast es (time p) p

section Order

variable {s s' : Monitor T} {es : List (Section T)} {e : Section T}
  {i : Nat} {pid : Int} {pids pids' : List Int}

theorem Registers.lt_length
    (h : Registers es i pid) :
    i < es.length := by
  obtain ⟨_, _, _, _, _, _, _, _, hi, _⟩ := h
  exact (List.getElem?_eq_some_iff.mp hi).1

/-- The steps of a longer run register the same pids. -/
theorem registers_snoc
    (hi : i < es.length) :
    Registers (es ++ [e]) i pid ↔ Registers es i pid := by
  unfold Registers
  rw [List.take_append_of_le_length hi.le, List.getElem?_append_left hi]

/-- What the last step of a run registers. -/
theorem registers_last
    (hs : exec step start es = some s)
    (h : Registers (es ++ [e]) es.length pid) :
    ∃ t new_block_ptr fuel n used_time s',
      e = .register t new_block_ptr fuel ∧
        s.writer t = .looked n pid used_time ∧
        step s e = some s' ∧ s'.writer t = .returned n := by
  obtain ⟨m, s', t, new_block_ptr, fuel, n, used_time, hm, he, hlooked, hstep,
    hreturned⟩ := h
  rw [List.take_left, hs] at hm
  cases hm
  rw [List.getElem?_concat_length] at he
  cases he
  exact ⟨t, new_block_ptr, fuel, n, used_time, s', rfl, hlooked, hstep,
    hreturned⟩

/-- The last registration of a pid is not undone by a step that does not
register it. -/
theorem RegisteredLast.snoc
    (h : RegisteredLast es i pid)
    (hnot : ¬ Registers (es ++ [e]) es.length pid) :
    RegisteredLast (es ++ [e]) i pid := by
  have hi := h.1.lt_length
  refine ⟨(registers_snoc hi).mpr h.1, ?_⟩
  intro j hj hregisters
  have hlt := hregisters.lt_length
  rw [List.length_append, List.length_singleton] at hlt
  rcases Nat.lt_succ_iff_lt_or_eq.mp hlt with hlt | rfl
  · exact h.2 j hj ((registers_snoc hlt).mp hregisters)
  · exact hnot hregisters

/-- A step that registers nothing, after which some of the pids are left. -/
theorem NewestFirst.snoc
    (h : NewestFirst es pids)
    (hsub : pids'.Sublist pids)
    (hnot : ∀ pid ∈ pids', ¬ Registers (es ++ [e]) es.length pid) :
    NewestFirst (es ++ [e]) pids' := by
  obtain ⟨time, hsorted, hlast⟩ := h
  refine ⟨time, hsorted.sublist hsub, ?_⟩
  intro p hp
  exact (hlast p (hsub.subset hp)).snoc (hnot p hp)

/-- A step that registers a new pid. -/
theorem NewestFirst.cons
    (h : NewestFirst es pids)
    (hpid : Registers (es ++ [e]) es.length pid)
    (honly : ∀ q, Registers (es ++ [e]) es.length q → q = pid)
    (hnew : pid ∉ pids) :
    NewestFirst (es ++ [e]) (pid :: pids) := by
  obtain ⟨time, hsorted, hlast⟩ := h
  have hold : ∀ p ∈ pids, Function.update time pid es.length p = time p := by
    intro p hp
    refine Function.update_of_ne ?_ _ _
    rintro rfl
    exact hnew hp
  refine ⟨Function.update time pid es.length, List.pairwise_cons.mpr ⟨?_, ?_⟩,
    ?_⟩
  · intro q hq
    rw [Function.update_self, hold q hq]
    exact (hlast q hq).1.lt_length
  · refine hsorted.imp_of_mem ?_
    intro p q hp hq hlt
    rwa [hold p hp, hold q hq]
  · intro p hp
    rcases List.mem_cons.mp hp with rfl | hp
    · rw [Function.update_self]
      refine ⟨hpid, ?_⟩
      intro j hj hregisters
      have hlt := hregisters.lt_length
      rw [List.length_append, List.length_singleton] at hlt
      omega
    · rw [hold p hp]
      refine (hlast p hp).snoc ?_
      intro hregisters
      exact hnew (honly p hregisters ▸ hp)

/-- The pids of the entries. -/
def registered (entries : Registry.Entries) : List Int :=
  entries.map (fun e => e.2.pid)

/-- One step keeps the order of the registrations. -/
theorem step_newestFirst
    {entries : Registry.Entries}
    (hs : exec step start es = some s)
    (hholds : s.registry.Holds entries)
    (h : NewestFirst es (registered entries))
    (hstep : step s e = some s') :
    ∃ entries, s'.registry.Holds entries ∧
      NewestFirst (es ++ [e]) (registered entries) := by
  have hquiet : (∀ t new_block_ptr fuel, e ≠ .register t new_block_ptr fuel) →
      ∀ pid, ¬ Registers (es ++ [e]) es.length pid := by
    intro hne pid hregisters
    obtain ⟨t, new_block_ptr, fuel, _, _, _, heq, _⟩ :=
      registers_last hs hregisters
    exact hne t new_block_ptr fuel heq
  cases e with
  | lookup t w tasks =>
      have hnot := hquiet (fun _ _ _ heq => by cases heq)
      rw [lookup_registry hstep]
      exact ⟨entries, hholds, h.snoc (List.Sublist.refl _) (fun p _ => hnot p)⟩
  | read fuel =>
      have hnot := hquiet (fun _ _ _ heq => by cases heq)
      rw [read_registry hstep]
      exact ⟨entries, hholds, h.snoc (List.Sublist.refl _) (fun p _ => hnot p)⟩
  | work tasks fuel =>
      have hnot := hquiet (fun _ _ _ heq => by cases heq)
      exact ⟨_, work_holds hholds hstep,
        h.snoc (refreshAll_pids tasks 0 entries) (fun p _ => hnot p)⟩
  | register t new_block_ptr fuel =>
      obtain ⟨n, pid, used_time, hlooked, hcases⟩ :=
        register_cases hholds hstep
      have honly : ∀ q,
          Registers (es ++ [.register t new_block_ptr fuel]) es.length q →
            q = pid ∧ s'.writer t = .returned n := by
        intro q hregisters
        obtain ⟨t', _, _, n', _, m, heq, hlooked', hm, hreturned⟩ :=
          registers_last hs hregisters
        cases heq
        rw [hlooked] at hlooked'
        cases hlooked'
        rw [hstep] at hm
        cases hm
        exact ⟨rfl, hreturned⟩
      rcases hcases with ⟨hfault, hsame, _⟩ | ⟨block, hreturned, hnew, hregistry⟩
      · refine ⟨entries, hsame, h.snoc (List.Sublist.refl _) ?_⟩
        intro p _ hregisters
        have hreturned := (honly p hregisters).2
        rw [hfault] at hreturned
        have heq := Writer.returned.inj hreturned
        simp only [EFAULT] at heq
        omega
      · have hregisters :
            Registers (es ++ [.register t new_block_ptr fuel]) es.length pid :=
          ⟨s, s', t, new_block_ptr, fuel, n, used_time,
            by rw [List.take_left]; exact hs, List.getElem?_concat_length,
            hlooked, hstep, hreturned⟩
        refine ⟨_, hregistry, h.cons hregisters (fun q hq => (honly q hq).1) ?_⟩
        intro hmem
        obtain ⟨e, he, hpid⟩ := List.mem_map.mp hmem
        exact hnew e he hpid

/-- In every reachable state the entries stand in the order of their
registrations, the latest one first. -/
theorem exec_newestFirst
    (h : exec step (start (T := T)) es = some s) :
    ∃ entries, s.registry.Holds entries ∧ NewestFirst es (registered entries) := by
  induction es using List.reverseRecOn generalizing s with
  | nil =>
      cases h
      refine ⟨[], Registry.empty_holds, fun _ => 0, List.Pairwise.nil, ?_⟩
      simp [registered]
  | append_singleton es e ih =>
      obtain ⟨m, hm, hlast⟩ := exec_snoc h
      obtain ⟨entries, hholds, hnewest⟩ := ih hm
      exact step_newestFirst hm hholds hnewest hlast

/-- Whoever reads with a size of `MAX_BUF_SIZE` or more gets the text of a
non-empty list that fits, once, whatever the list is at the later calls; with a
smaller size nothing is read.  The lines are in the order of the registrations,
the latest one first. -/
theorem reads_deliver :
    (∀ (registries : Nat → Registry) entries, (registries 0).Holds entries →
      ∀ n fuel rounds, entries.length < fuel →
        (MAX_BUF_SIZE ≤ n → entries ≠ [] →
          (statusText entries).length < MAX_BUF_SIZE →
            readAll n fuel registries (rounds + 2) 0 0 =
              .ok (statusText entries)) ∧
        (n < MAX_BUF_SIZE →
          readAll n fuel registries (rounds + 1) 0 0 = .ok [])) ∧
      ∀ (es : List (Section T)) s, exec step start es = some s →
        ∃ entries, s.registry.Holds entries ∧
          NewestFirst es (registered entries) := by
  refine ⟨?_, fun es s h => exec_newestFirst h⟩
  intro registries entries hholds n fuel rounds hfuel
  refine ⟨?_, fun hn => readAll_unserved (.inl hn)⟩
  intro hn hne hfits
  exact readAll_served hholds hfuel hne hfits hn

end Order

section Example

def twoEntries : Registry.Entries :=
  [(200, { pid := 2, used_time := 20 }), (100, { pid := 1, used_time := 10 })]

theorem twoEntries_held :
    ∃ r : Registry, r.Holds twoEntries := by
  have hempty : Registry.empty.blocks 100 = none := rfl
  obtain ⟨r, _, hone⟩ := Registry.empty_holds.listAdd
    (b := { pid := 1, used_time := 10 }) hempty
  have hfree : r.blocks 200 = none := by
    cases hblock : r.blocks 200 with
    | none => rfl
    | some b => simpa using (hone.blocks 200 b).mp hblock
  obtain ⟨r, _, htwo⟩ := hone.listAdd
    (b := { pid := 2, used_time := 20 }) hfree
  exact ⟨r, htwo⟩

theorem twoEntries_delivered :
    ∃ r : Registry, r.Holds twoEntries ∧
      readAll MAX_BUF_SIZE 3 (fun _ => r) 2 0 0 =
        .ok (literal "PID[2]: 20\nPID[1]: 10\n") := by
  obtain ⟨r, hr⟩ := twoEntries_held
  have hread := ((reads_deliver (T := Fin 3)).1 (fun _ => r) twoEntries hr
    MAX_BUF_SIZE 3 0 (by decide)).1 le_rfl (by decide) (by decide)
  exact ⟨r, hr, hread⟩

/-- The pid 1 is registered. -/
def oneWrite {T : Type} (t : T) : List (Section T) :=
  [.lookup t (write (literal "1")) twoTasks, .register t (some 100) 4]

theorem oneWrite_holds :
    ∃ s block, exec step start (oneWrite (0 : Fin 3)) = some s ∧
      s.registry.Holds [(block, { pid := 1, used_time := 10 })] := by
  have hrun : (exec step start (oneWrite (0 : Fin 3))).isSome = true := by
    decide +kernel
  have hlookup : Kmlab.lookup (write (literal "1")) twoTasks =
      .ok (.inr (1, 10)) := by
    decide +kernel
  have hlooked : step start (.lookup (0 : Fin 3) (write (literal "1")) twoTasks) =
      some (start.setWriter 0 (.looked 1 1 10)) := by
    simp only [step, start, hlookup]
    rfl
  obtain ⟨s, hs⟩ := Option.isSome_iff_exists.mp hrun
  have hregister : (start.setWriter (0 : Fin 3) (.looked 1 1 10)).register 0
      (some 100) 4 = some s := by
    have hrest := hs
    rw [oneWrite, exec, hlooked, Option.bind_some, exec] at hrest
    obtain ⟨m, hm, hlast⟩ := Option.bind_eq_some_iff.mp hrest
    cases hlast
    exact hm
  obtain ⟨n, pid, used_time, hwriter, hcases⟩ :=
    register_cases (s := start.setWriter (0 : Fin 3) (.looked 1 1 10))
      Registry.empty_holds hregister
  cases hwriter
  rcases hcases with ⟨_, _, e, he, _⟩ | ⟨block, _, _, hholds⟩
  · cases he
  · exact ⟨s, block, hs, hholds⟩

/-- A reader with a buffer of 100 bytes gets nothing. -/
theorem smallReads_empty :
    ¬ ∀ (es : List (Section (Fin 3))) s, exec step start es = some s →
      ∀ entries, s.registry.Holds entries →
        (statusText entries).length < MAX_BUF_SIZE →
          ∀ n fuel, 1 ≤ n → entries.length < fuel →
            ∃ rounds, readAll n fuel (fun _ => s.registry) rounds 0 0 =
              .ok (if entries = [] then noPid else statusText entries) := by
  intro hclaim
  obtain ⟨s, block, hs, hholds⟩ := oneWrite_holds
  have htext : statusText [(block, { pid := 1, used_time := 10 })] =
      statusText [(0, { pid := 1, used_time := 10 })] := by
    rfl
  have hfits : (statusText
      [(block, { pid := 1, used_time := 10 })]).length < MAX_BUF_SIZE := by
    rw [htext]
    decide
  obtain ⟨rounds, hread⟩ := hclaim (oneWrite 0) s hs _ hholds hfits 100 2
    (by decide) (Nat.lt_succ_self 1)
  cases rounds with
  | zero => cases hread
  | succ rounds =>
      rw [readAll_unserved (.inl (by decide))] at hread
      cases hread

end Example

end Monitor

end Kmlab
end PastWork
