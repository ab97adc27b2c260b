import PastWork.Library.BoundedMaps
import PastWork.Shell.Numbering

/-!
# The job list as a map

`addjob`, `deletejob` and `getjobpid` implement a map from pids to states and
command lines that has room for `MAXJOBS` of them.
-/

namespace PastWork
namespace Shell

open Steps

/-- What the job list is for. -/
abbrev JobMap := BoundedMap Int (JobState × CString) MAXJOBS

/-- What a slot binds. -/
def Job.binding (job : Job) : Option (Int × JobState × CString) :=
  if job.pid = 0 then none else some (job.pid, job.state, job.cmdline)

/-- The call with its result. -/
def Call.exec (l : Jobs) : Call → Bool × Jobs
  | .add pid state cmdline => addjob pid state cmdline l
  | .delete pid => deletejob pid l

/-- What the call means for the map. -/
def Call.effect (m : JobMap) : Call → Bool × JobMap
  | .add pid state cmdline =>
      if 1 ≤ pid then m.insert pid (state, cmdline) else (false, m)
  | .delete pid => m.erase pid

/-- The map after these calls. -/
def bindings (calls : List Call) : JobMap :=
  calls.foldl (fun m call => (call.effect m).2) BoundedMap.empty

/-- A call of `addjob` is for a pid that no job has. -/
def NewPid (l : Jobs) : Call → Prop
  | .add pid _ _ => ∀ k, (l.jobs k).pid ≠ 0 → (l.jobs k).pid ≠ pid
  | .delete _ => True

instance (l : Jobs) : ∀ call, Decidable (NewPid l call)
  | .add pid _ _ =>
      inferInstanceAs
        (Decidable (∀ k, (l.jobs k).pid ≠ 0 → (l.jobs k).pid ≠ pid))
  | .delete _ => isTrue trivial

/-- When a call is carried out. -/
def Succeeds (m : JobMap) : Call → Prop
  | .add pid _ _ => 1 ≤ pid ∧ m.keys.card < MAXJOBS
  | .delete pid => pid ∈ m.keys

/-- `getjobpid` finds the bindings of the map, and there are as many jobs as keys. -/
structure Implements (l : Jobs) (m : JobMap) : Prop where
  lookup : ∀ pid, (getjobpid pid l.jobs).map
    (fun k => ((l.jobs k).pid, (l.jobs k).state, (l.jobs k).cmdline)) =
      (m.find pid).map (fun value => (pid, value))
  jobs : (Finset.univ.filter (fun k => (l.jobs k).pid ≠ 0)).card = m.keys.card

/-- The call does to the job list what it means for the map. -/
structure Agrees (l : Jobs) (m : JobMap) (call : Call) : Prop where
  succeeds : (call.exec l).1 = true ↔ Succeeds m call
  implements : Implements (call.exec l).2 (call.effect m).2
  kept : (call.exec l).1 = false → (call.exec l).2 = l

/-- The slots hold the map, and its keys are pids. -/
structure Stored (l : Jobs) (m : JobMap) : Prop where
  slots : m.InSlots (fun k => (l.jobs k).binding)
  pos : ∀ pid ∈ m.keys, 1 ≤ pid

section Operations

variable {l : Jobs} {m : JobMap} {k : Fin MAXJOBS} {pid : Int}

theorem binding_eq_none
    {job : Job} :
    job.binding = none ↔ job.pid = 0 := by
  unfold Job.binding
  split
  next h => exact iff_of_true rfl h
  next h => exact iff_of_false (by simp) h

theorem binding_of_pid
    {job : Job}
    (h : job.pid ≠ 0) :
    job.binding = some (job.pid, job.state, job.cmdline) := by
  rw [Job.binding, if_neg h]

theorem binding_set
    (jobs : Table) (k : Fin MAXJOBS) (job : Job) :
    (fun j => (jobs.set k job j).binding) =
      Function.update (fun j => (jobs j).binding) k job.binding := by
  funext j
  by_cases hj : j = k
  · rw [hj, set_same, Function.update_self]
  · rw [set_ne _ _ hj, Function.update_of_ne hj]

theorem Stored.initial :
    Stored initjobs BoundedMap.empty where
  slots := BoundedMap.InSlots.empty_free
  pos := by simp [BoundedMap.empty]

theorem Stored.mem_keys_iff
    (h : Stored l m) :
    pid ∈ m.keys ↔ 1 ≤ pid ∧ ∃ k, (l.jobs k).pid = pid := by
  constructor
  · intro hkey
    have hpos := h.pos pid hkey
    obtain ⟨k, value, hk⟩ := h.slots.mem_keys_iff.mp hkey
    refine ⟨hpos, k, ?_⟩
    have hused : (l.jobs k).pid ≠ 0 := by
      intro hzero
      rw [binding_eq_none.mpr hzero] at hk
      cases hk
    rw [binding_of_pid hused, Option.some_inj] at hk
    exact congrArg Prod.fst hk
  · rintro ⟨hpos, k, rfl⟩
    exact h.slots.mem_keys_iff.mpr ⟨k, _, binding_of_pid (by omega)⟩

theorem Stored.implements
    (h : Stored l m) :
    Implements l m where
  lookup := by
    intro pid
    cases hget : getjobpid pid l.jobs with
    | none =>
        have habsent : pid ∉ m.keys := by
          rw [h.mem_keys_iff]
          rintro ⟨hpos, k, hk⟩
          rw [getjobpid, if_neg (by omega)] at hget
          simpa [hk] using first_eq_none hget k
        rw [BoundedMap.find_eq_none habsent]
        rfl
    | some k =>
        obtain ⟨hpos, rfl⟩ := getjobpid_spec hget
        have hfind := (h.slots.find_iff _ _).mpr
          ⟨k, binding_of_pid (by omega)⟩
        rw [hfind]
        rfl
  jobs := by
    rw [← h.slots.card_keys]
    congr 1
    ext k
    simp [Option.isSome_iff_ne_none, binding_eq_none]

/-- `addjob` finds a slot exactly when the map has room. -/
theorem Stored.addjob_agrees
    {state : JobState} {cmdline : CString}
    (h : Stored l m)
    (hnew : NewPid l (.add pid state cmdline)) :
    ((addjob pid state cmdline l).1 = true ↔
        1 ≤ pid ∧ m.keys.card < MAXJOBS) ∧
      Stored (addjob pid state cmdline l).2
        (Call.effect m (.add pid state cmdline)).2 ∧
      ((addjob pid state cmdline l).1 = false →
        (addjob pid state cmdline l).2 = l) := by
  have hfree : (∃ k, (l.jobs k).pid = 0) ↔ m.keys.card < MAXJOBS := by
    rw [← h.slots.exists_free_iff]
    simp [binding_eq_none]
  simp only [Call.effect]
  unfold addjob
  split
  next hlow =>
      have hnot : ¬ 1 ≤ pid := by omega
      rw [if_neg hnot]
      exact ⟨iff_of_false (by simp) (fun hs => hnot hs.1), h, fun _ => rfl⟩
  next hpos =>
      rw [if_pos (by omega : 1 ≤ pid)]
      split
      next hnone =>
          have hfull : ¬ m.keys.card < MAXJOBS := by
            rw [← hfree]
            rintro ⟨k, hk⟩
            simpa [hk] using first_eq_none hnone k
          rw [BoundedMap.insert_full hfull]
          exact ⟨iff_of_false (by simp) (fun hs => hfull hs.2), h,
            fun _ => rfl⟩
      next k hk =>
          have hzero : (l.jobs k).pid = 0 := by simpa using first_spec hk
          have hroom := hfree.mp ⟨k, hzero⟩
          have hkey : pid ∉ m.keys := by
            rw [h.mem_keys_iff]
            rintro ⟨_, j, hj⟩
            exact hnew j (by omega) hj
          refine ⟨iff_of_true rfl ⟨by omega, hroom⟩, ⟨?_, ?_⟩, by simp⟩
          · have hused : pid ≠ 0 := by omega
            rw [binding_set, binding_of_pid hused]
            exact h.slots.put (binding_eq_none.mpr hzero) hkey
          · intro key hmem
            rw [BoundedMap.mem_keys, BoundedMap.insert_find hkey hroom] at hmem
            by_cases heq : key = pid
            · omega
            · rw [Function.update_of_ne heq, ← BoundedMap.mem_keys] at hmem
              exact h.pos key hmem

/-- `deletejob` finds the pid exactly when it is bound. -/
theorem Stored.deletejob_agrees
    (h : Stored l m)
    (pid : Int) :
    ((deletejob pid l).1 = true ↔ pid ∈ m.keys) ∧
      Stored (deletejob pid l).2 (m.erase pid).2 ∧
      ((deletejob pid l).1 = false → (deletejob pid l).2 = l) := by
  have hpos : ∀ key ∈ (m.erase pid).2.keys, 1 ≤ key :=
    fun key hmem => h.pos key (Finset.mem_of_mem_erase hmem)
  rw [deletejob_eq]
  cases hget : getjobpid pid l.jobs with
  | none =>
      have hlookup := h.implements.lookup pid
      rw [hget] at hlookup
      have hfind : m.find pid = none := by simpa using hlookup.symm
      have habsent : pid ∉ m.keys := by
        rw [m.mem_keys, not_not]
        exact hfind
      refine ⟨iff_of_false (by simp) habsent, ⟨⟨?_, h.slots.unique⟩, hpos⟩,
        fun _ => rfl⟩
      rw [BoundedMap.erase_absent habsent]
      exact h.slots.find_iff
  | some k =>
      obtain ⟨hlow, rfl⟩ := getjobpid_spec hget
      have hkey := h.mem_keys_iff.mpr ⟨hlow, k, rfl⟩
      refine ⟨iff_of_true rfl hkey, ⟨?_, hpos⟩, by simp⟩
      rw [binding_set]
      exact h.slots.clear (binding_of_pid (by omega))

theorem Stored.agrees
    {call : Call}
    (h : Stored l m)
    (hnew : NewPid l call) :
    Agrees l m call ∧ Stored (call.exec l).2 (call.effect m).2 := by
  cases call with
  | add pid state cmdline =>
      obtain ⟨hreturn, hstored, hkept⟩ := h.addjob_agrees hnew
      exact ⟨⟨hreturn, hstored.implements, hkept⟩, hstored⟩
  | delete pid =>
      obtain ⟨hreturn, hstored, hkept⟩ := h.deletejob_agrees pid
      exact ⟨⟨hreturn, hstored.implements, hkept⟩, hstored⟩

theorem run_eq_exec
    (call : Call) (l : Jobs) :
    call.run l = some (call.exec l).2 := by
  cases call <;> rfl

theorem Stored.calls
    {calls : List Call}
    (h : Stored l m)
    (hnew : EachStep Call.run l calls NewPid) :
    ∃ l', exec Call.run l calls = some l' ∧
      Stored l' (calls.foldl (fun m call => (call.effect m).2) m) := by
  induction calls generalizing l m with
  | nil =>
      exact ⟨l, rfl, h⟩
  | cons call calls ih =>
      obtain ⟨hcall, hrest⟩ :=
        eachStep_cons.mp hnew _ (run_eq_exec call l)
      obtain ⟨l', hl', hstored⟩ := ih (h.agrees hcall).2 hrest
      refine ⟨l', ?_, hstored⟩
      rw [exec, run_eq_exec]
      exact hl'

end Operations

/-- After any calls for new pids the job list has the bindings that the calls have
made, and every further call is carried out and does what it means for them. -/
theorem calls_implement
    (calls : List Call)
    (hnew : EachStep Call.run initjobs calls NewPid) :
    ∃ l, exec Call.run initjobs calls = some l ∧
      Implements l (bindings calls) ∧
      ∀ call, NewPid l call → Agrees l (bindings calls) call := by
  obtain ⟨l, hl, hstored⟩ := Stored.initial.calls hnew
  exact ⟨l, hl, hstored.implements, fun call hcall => (hstored.agrees hcall).1⟩

/-- A slot that is used again. -/
theorem reusedSlot_implements :
    ∃ l, exec Call.run initjobs
        [.add 5 .BG [], .add 6 .FG [], .delete 5, .add 7 .BG []] = some l ∧
      Implements l (bindings
        [.add 5 .BG [], .add 6 .FG [], .delete 5, .add 7 .BG []]) := by
  obtain ⟨l, hl, himplements, _⟩ := calls_implement
    [.add 5 .BG [], .add 6 .FG [], .delete 5, .add 7 .BG []] (by decide)
  exact ⟨l, hl, himplements⟩

end Shell
end PastWork
