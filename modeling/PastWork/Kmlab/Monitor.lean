import PastWork.Kmlab.Registry
import PastWork.Library.Steps

/-!
# The module at work

Any number of processes write pids to `/proc/kmlab/status` and read it, and the
work handler makes its passes.  The sections under `access_lock` are atomic; a
writer looks its pid up before it takes the lock.
-/

namespace PastWork
namespace Kmlab

open Rings Steps

universe u

section Writing

/-- `kstrtoul(s, 10, res)`: an optional `+`, digits, and an optional newline;
`none` is `-EINVAL` or `-ERANGE`. -/
def kstrtoul (s : CStr) : Option Nat :=
  let s := if s.head? = some 43 then s.tail else s
  let digits := s.takeWhile Decimals.IsDigit
  let rest := s.dropWhile Decimals.IsDigit
  if digits = [] then none
  else if 2 ^ 64 ≤ Decimals.value digits then none
  else if rest = [] ∨ rest = [10] then some (Decimals.value digits)
  else none

/-- A call of `register_pid`. -/
structure Write where
  /-- the `n` bytes of `usr_buf` -/
  usr_buf : List Byte
  ppos : Int
  /-- `kmalloc` of `kern_buf` returns memory -/
  allocates : Bool
  /-- `copy_from_user` copies all bytes -/
  readable : Bool

/-- A buffer that is all NUL. -/
def cleared : Buffer MAX_BUF_SIZE where
  bytes := List.replicate MAX_BUF_SIZE 0
  length_bytes := List.length_replicate

/-- `register_pid` before the lock: the value that is returned at once, or the
pid and its time. -/
def lookup (w : Write) (tasks : Tasks) : Result (Int ⊕ Int × UInt64) :=
  let n := w.usr_buf.length
  if w.allocates = false then
    .ok (.inl (-ENOMEM))
  else if n > MAX_BUF_SIZE ∨ w.ppos > 0 then
    .ok (.inl (-EFAULT))
  else if w.readable = false then
    .ok (.inl (-EFAULT))
  else do
    let kern_buf ← cleared.store 0 w.usr_buf
    let kern_buf ← kern_buf.store n [0]
    let s ← cstr kern_buf.bytes
    match kstrtoul s with
    | none => .ok (.inl (-EFAULT))
    | some pid_val =>
        if pid_val ≥ (1 <<< 16) - 1 then
          .ok (.inl (-EFAULT))
        else
          let (ret, used_time) := getCpuUse tasks pid_val 0
          if ret ≠ 0 then .ok (.inl (-EFAULT))
          else .ok (.inr (pid_val, used_time))

end Writing

/-- Where a process is in `register_pid`. -/
inductive Writer where
  | idle
  /-- `prime_lock(&access_lock)` comes next -/
  | looked (n : Nat) (pid : Int) (used_time : UInt64)
  | returned (ret : Int)
deriving DecidableEq

/-- The list and the writing processes. -/
structure Monitor (T : Type u) where
  registry : Registry
  writer : T → Writer

/-- The steps: the two halves of a write, the locked section of a read, and a
pass of the work handler. -/
inductive Section (T : Type u) where
  | lookup (t : T) (w : Write) (tasks : Tasks)
  | register (t : T) (new_block_ptr : Option Address) (fuel : Nat)
  | read (fuel : Nat)
  | work (tasks : Nat → Tasks) (fuel : Nat)

namespace Monitor

variable {T : Type u} [DecidableEq T]

/-- The module after `kmlab_init`. -/
def start : Monitor T where
  registry := .empty
  writer := fun _ => .idle

def setWriter (s : Monitor T) (t : T) (w : Writer) : Monitor T :=
  { s with writer := Function.update s.writer t w }

/-- The locked half of `register_pid`; `kmalloc` returns no block that is in use. -/
def register
    (s : Monitor T) (t : T) (new_block_ptr : Option Address) (fuel : Nat) :
    Option (Monitor T) :=
  match s.writer t with
  | .looked n pid used_time =>
      if new_block_ptr.all (fun block => (s.registry.blocks block).isNone) then
        match s.registry.registerPid fuel new_block_ptr pid used_time with
        | .ok (ret, registry) =>
            let s := { s with registry := registry }
            some (s.setWriter t (.returned (if ret ≠ 0 then -EFAULT else n)))
        | .error _ => none
      else
        none
  | _ => none

/-- One step; there is none after a fault. -/
def step (s : Monitor T) : Section T → Option (Monitor T)
  | .lookup t w tasks =>
      match s.writer t with
      | .looked _ _ _ => none
      | _ =>
          match Kmlab.lookup w tasks with
          | .ok (.inl ret) => some (s.setWriter t (.returned ret))
          | .ok (.inr (pid, used_time)) =>
              some (s.setWriter t (.looked w.usr_buf.length pid used_time))
          | .error _ => none
  | .register t new_block_ptr fuel => s.register t new_block_ptr fuel
  | .read fuel =>
      match s.registry.getStatus fuel cleared with
      | .ok _ => some s
      | .error _ => none
  | .work tasks fuel =>
      match s.registry.workHandler fuel tasks with
      | .ok registry => some { s with registry := registry }
      | .error _ => none

section Unique

variable {s s' : Monitor T} {es : List (Section T)}

/-- No pid occurs twice. -/
def Distinct (entries : Registry.Entries) : Prop :=
  (entries.map (fun e => e.2.pid)).Nodup

theorem refresh_pid
    {tasks : Tasks} {b b' : RegistrationBlock}
    (h : Registry.refresh tasks b = some b') :
    b'.pid = b.pid := by
  unfold Registry.refresh at h
  dsimp only at h
  split at h
  · cases h
    rfl
  · cases h

theorem refreshAll_pids
    (tasks : Nat → Tasks) (k : Nat) (entries : Registry.Entries) :
    List.Sublist ((Registry.refreshAll tasks k entries).map (fun e => e.2.pid))
      (entries.map (fun e => e.2.pid)) := by
  induction entries generalizing k with
  | nil =>
      exact List.Sublist.refl _
  | cons e entries ih =>
      have htail := ih (k + 1)
      unfold Registry.refreshAll at htail ⊢
      rw [List.zipIdx_cons, List.map_cons]
      cases hb : Registry.refresh (tasks k) e.2 with
      | none =>
          rw [List.filterMap_cons_none (by rw [hb]; rfl)]
          exact htail.cons _
      | some b =>
          rw [List.filterMap_cons_some (by rw [hb]; rfl), List.map_cons,
            refresh_pid hb]
          exact htail.cons_cons _

/-- A registration finds the pid and changes nothing, or puts a new entry for it
first. -/
theorem register_cases
    {t : T} {new_block_ptr : Option Address} {fuel : Nat}
    {entries : Registry.Entries}
    (hholds : s.registry.Holds entries)
    (hstep : s.register t new_block_ptr fuel = some s') :
    ∃ n pid used_time, s.writer t = .looked n pid used_time ∧
      ((s'.writer t = .returned (-EFAULT) ∧ s'.registry.Holds entries ∧
          ∃ e ∈ entries, e.2.pid = pid) ∨
        ∃ block, s'.writer t = .returned n ∧
          (∀ e ∈ entries, e.2.pid ≠ pid) ∧
          s'.registry.Holds
            ((block, { pid := pid, used_time := used_time }) :: entries)) := by
  unfold register at hstep
  split at hstep
  case h_2 => cases hstep
  case h_1 n pid used_time hlooked =>
      split at hstep
      case isFalse => cases hstep
      case isTrue hall =>
          have hfree : ∀ block, new_block_ptr = some block →
              s.registry.blocks block = none := by
            rintro block rfl
            simpa using hall
          have hspec := Registry.registerPid_spec hholds hfree fuel pid used_time
          split at hstep
          case h_2 => cases hstep
          case h_1 ret registry hregister =>
              cases hstep
              refine ⟨n, pid, used_time, hlooked, ?_⟩
              rcases hspec _ hregister with
                ⟨heq, hfound⟩ | ⟨block, _, hret, hnew, hregistry⟩
              · cases heq
                refine .inl ⟨?_, hholds, hfound⟩
                simp [setWriter, EFAULT]
              · obtain rfl : ret = 0 := hret
                refine .inr ⟨block, ?_, hnew, hregistry⟩
                simp [setWriter]

/-- A registration that has returned without an error has found a new pid. -/
theorem register_distinct
    {t : T} {new_block_ptr : Option Address} {fuel : Nat}
    {entries : Registry.Entries}
    (hholds : s.registry.Holds entries)
    (hdistinct : Distinct entries)
    (hstep : s.register t new_block_ptr fuel = some s') :
    ∃ entries, s'.registry.Holds entries ∧ Distinct entries := by
  obtain ⟨n, pid, used_time, _,
    ⟨_, hsame, _⟩ | ⟨block, _, hnew, hregistry⟩⟩ := register_cases hholds hstep
  · exact ⟨entries, hsame, hdistinct⟩
  · refine ⟨_, hregistry, ?_⟩
    rw [Distinct, List.map_cons, List.nodup_cons]
    refine ⟨?_, hdistinct⟩
    intro hmem
    obtain ⟨e, he, hpid⟩ := List.mem_map.mp hmem
    exact hnew e he hpid

/-- A lookup leaves the list alone. -/
theorem lookup_registry
    {t : T} {w : Write} {tasks : Tasks}
    (hstep : step s (.lookup t w tasks) = some s') :
    s'.registry = s.registry := by
  simp only [step] at hstep
  split at hstep
  · cases hstep
  · split at hstep <;> cases hstep <;> rfl

theorem read_registry
    {fuel : Nat}
    (hstep : step s (.read fuel) = some s') :
    s' = s := by
  simp only [step] at hstep
  split at hstep <;> cases hstep
  rfl

/-- A pass ends with the entries that it accepts, with their new times. -/
theorem work_holds
    {tasks : Nat → Tasks} {fuel : Nat} {entries : Registry.Entries}
    (hholds : s.registry.Holds entries)
    (hstep : step s (.work tasks fuel) = some s') :
    s'.registry.Holds (Registry.refreshAll tasks 0 entries) := by
  have hspec := (Registry.workHandler_spec hholds fuel tasks).1
  simp only [step] at hstep
  split at hstep
  next registry hwork =>
      cases hstep
      exact hspec registry hwork
  next => cases hstep

/-- Every step keeps a list of different pids. -/
theorem step_distinct
    {e : Section T}
    (h : ∃ entries, s.registry.Holds entries ∧ Distinct entries)
    (hstep : step s e = some s') :
    ∃ entries, s'.registry.Holds entries ∧ Distinct entries := by
  obtain ⟨entries, hholds, hdistinct⟩ := h
  cases e with
  | lookup t w tasks =>
      rw [lookup_registry hstep]
      exact ⟨entries, hholds, hdistinct⟩
  | register t new_block_ptr fuel =>
      exact register_distinct hholds hdistinct hstep
  | read fuel =>
      rw [read_registry hstep]
      exact ⟨entries, hholds, hdistinct⟩
  | work tasks fuel =>
      exact ⟨_, work_holds hholds hstep,
        hdistinct.sublist (refreshAll_pids tasks 0 entries)⟩

/-- In every reachable state the list holds entries of different pids. -/
theorem exec_holds
    (h : exec step (start (T := T)) es = some s) :
    ∃ entries, s.registry.Holds entries ∧ Distinct entries := by
  have hinit : ∃ entries, (start (T := T)).registry.Holds entries ∧
      Distinct entries :=
    ⟨[], Registry.empty_holds, List.nodup_nil⟩
  exact exec_invariant (I := fun s : Monitor T => ∃ entries,
      s.registry.Holds entries ∧ Distinct entries) hinit
    (fun _ _ _ hs he => step_distinct hs he) h

/-- In every reachable state no pid occurs twice, and a pass ends with the
entries that it accepts, in order and with their new times. -/
theorem registrations_distinct
    (h : exec step (start (T := T)) es = some s) :
    (∃ entries, s.registry.Holds entries) ∧
      ∀ entries, s.registry.Holds entries →
        Distinct entries ∧
          ∀ tasks,
            (∀ fuel s', step s (.work tasks fuel) = some s' →
              s'.registry.Holds (Registry.refreshAll tasks 0 entries)) ∧
            ∀ fuel, entries.length < fuel →
              ∃ s', step s (.work tasks fuel) = some s' := by
  obtain ⟨entries', hholds', hdistinct⟩ := exec_holds h
  refine ⟨⟨entries', hholds'⟩, ?_⟩
  intro entries hholds
  obtain rfl := hholds.unique hholds'
  refine ⟨hdistinct, fun tasks => ⟨?_, ?_⟩⟩
  · intro fuel s' hstep
    exact work_holds hholds hstep
  · intro fuel hlt
    obtain ⟨registry, hwork⟩ :=
      (Registry.workHandler_spec hholds fuel tasks).2 hlt
    exact ⟨{ s with registry := registry }, by simp only [step, hwork]⟩

end Unique

section Example

/-- The processes 1 and 2, with their times. -/
def twoTasks : Tasks
  | 1 => some 10
  | 2 => some 20
  | _ => none

def write (digits : CStr) : Write where
  usr_buf := digits
  ppos := 0
  allocates := true
  readable := true

/-- Two writers of the pid 1 and one of the pid 2, and a pass in which process 1
is gone. -/
def threeWrites : List (Section (Fin 3)) :=
  [.lookup 0 (write (literal "1")) twoTasks,
    .lookup 1 (write (literal "1")) twoTasks,
    .register 1 (some 100) 4, .register 0 (some 200) 4,
    .lookup 2 (write (literal "2")) twoTasks, .register 2 (some 200) 4, .read 4,
    .work (fun _ pid => if pid = 2 then some 30 else none) 4]

theorem threeWrites_runs :
    ∃ s, exec step (start (T := Fin 3)) threeWrites = some s := by
  have hrun : (exec step (start (T := Fin 3)) threeWrites).isSome = true := by
    decide +kernel
  exact Option.isSome_iff_exists.mp hrun

theorem threeWrites_distinct :
    ∃ s, exec step (start (T := Fin 3)) threeWrites = some s ∧
      (∃ entries, s.registry.Holds entries) ∧
        ∀ entries, s.registry.Holds entries →
          Distinct entries ∧
            ∀ tasks,
              (∀ fuel s', step s (.work tasks fuel) = some s' →
                s'.registry.Holds (Registry.refreshAll tasks 0 entries)) ∧
              ∀ fuel, entries.length < fuel →
                ∃ s', step s (.work tasks fuel) = some s' := by
  obtain ⟨s, hs⟩ := threeWrites_runs
  exact ⟨s, hs, registrations_distinct hs⟩

end Example

end Monitor

end Kmlab
end PastWork
