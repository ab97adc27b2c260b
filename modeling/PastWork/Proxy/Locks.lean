import Mathlib.Data.Set.Card
import PastWork.Library.ReadersWriters
import PastWork.Proxy.Serving

/-!
# The semaphores of the proxy

`reader` and `writer` with each operation on a semaphore, on `readcnt` and each
round of the scan as a step of its own.  The threads are an instance of the
readers-writers lock of the library, and their runs are runs of the threads whose
sections are atomic.
-/

namespace PastWork
namespace Proxy

open Steps ReadersWriters

universe u

/-- Where a thread is in `doit`, `reader` or `writer`. -/
inductive Point where
  | idle
  /-- `reader`: `P(&mutex)` -/
  | enter (uri : CStr)
  /-- `readcnt++` -/
  | count (uri : CStr)
  /-- `if (readcnt == 1)` -/
  | first (uri : CStr)
  /-- `P(&w)` -/
  | lock (uri : CStr)
  /-- `V(&mutex)` -/
  | admitted (uri : CStr)
  /-- the scan, at this index -/
  | scan (uri : CStr) (i : Nat)
  /-- `P(&mutex)` -/
  | leave (uri : CStr) (cache_i : Option (Fin NUM_CACHE_LINE))
  /-- `readcnt--` -/
  | uncount (uri : CStr) (cache_i : Option (Fin NUM_CACHE_LINE))
  /-- `if (readcnt == 0)` -/
  | last (uri : CStr) (cache_i : Option (Fin NUM_CACHE_LINE))
  /-- `V(&w)` -/
  | unlock (uri : CStr) (cache_i : Option (Fin NUM_CACHE_LINE))
  /-- `V(&mutex)` -/
  | finish (uri : CStr) (cache_i : Option (Fin NUM_CACHE_LINE))
  /-- in `doit`, after `reader` has returned -/
  | returned (uri : CStr) (cache_i : Option (Fin NUM_CACHE_LINE))
  /-- `writer`: `P(&w)` -/
  | await (uri : CStr) (buf : Buffer MAX_OBJECT_SIZE)
      (cache_i : Option (Fin NUM_CACHE_LINE))
  /-- the change of the cache -/
  | write (uri : CStr) (buf : Buffer MAX_OBJECT_SIZE)
      (cache_i : Option (Fin NUM_CACHE_LINE))
  /-- `V(&w)` -/
  | release

/-- The globals and the threads. -/
structure Threads (T : Type u) extends Counters where
  cache : Cache
  point : T → Point

/-- What a thread does next where it has a choice. -/
inductive Move where
  | accept (uri : CStr)
  | proceed
  | call (buf : Buffer MAX_OBJECT_SIZE)
  | skip

namespace Threads

variable {T : Type u} [DecidableEq T]

/-- The state after `initialize_cache`. -/
def start (memory : Fin NUM_CACHE_LINE → CacheLine) : Threads T where
  mutex := 1
  w := 1
  readcnt := 0
  cache := initializeCache memory
  point := fun _ => .idle

def goto (s : Threads T) (t : T) (point : Point) : Threads T :=
  { s with point := Function.update s.point t point }

/-- `P(sem)` blocks while the value is 0. -/
def P : Nat → Option Nat
  | 0 => none
  | value + 1 => some value

/-- `V(sem)` -/
def V (value : Nat) : Nat :=
  value + 1

/-- One round of the scan of `reader`. -/
def scan (s : Threads T) (t : T) (uri : CStr) (i : Nat) : Threads T :=
  if h : i < s.cache.usedcnt then
    let k : Fin NUM_CACHE_LINE := ⟨i, h.trans_le s.cache.usedcnt_le⟩
    if (s.cache.cache k).name = uri then s.goto t (.leave uri (some k))
    else s.goto t (.scan uri (i + 1))
  else
    s.goto t (.leave uri none)

/-- What the thread `t` does by itself. -/
def proceed (s : Threads T) (t : T) : Option (Threads T) :=
  match s.point t with
  | .enter uri =>
      (P s.mutex).map (fun m => { s with mutex := m }.goto t (.count uri))
  | .count uri =>
      some ({ s with readcnt := s.readcnt + 1 }.goto t (.first uri))
  | .first uri =>
      some (s.goto t (if s.readcnt = 1 then .lock uri else .admitted uri))
  | .lock uri =>
      (P s.w).map (fun m => { s with w := m }.goto t (.admitted uri))
  | .admitted uri =>
      some ({ s with mutex := V s.mutex }.goto t (.scan uri 0))
  | .scan uri i => some (s.scan t uri i)
  | .leave uri cache_i =>
      (P s.mutex).map
        (fun m => { s with mutex := m }.goto t (.uncount uri cache_i))
  | .uncount uri cache_i =>
      some ({ s with readcnt := s.readcnt - 1 }.goto t (.last uri cache_i))
  | .last uri cache_i =>
      some (s.goto t
        (if s.readcnt = 0 then .unlock uri cache_i else .finish uri cache_i))
  | .unlock uri cache_i =>
      some ({ s with w := V s.w }.goto t (.finish uri cache_i))
  | .finish uri cache_i =>
      some ({ s with mutex := V s.mutex }.goto t (.returned uri cache_i))
  | .await uri buf cache_i =>
      (P s.w).map (fun m => { s with w := m }.goto t (.write uri buf cache_i))
  | .write uri buf cache_i =>
      match s.cache.writer uri buf cache_i with
      | .ok cache => some ({ s with cache := cache }.goto t .release)
      | .error _ => none
  | .release => some ({ s with w := V s.w }.goto t .idle)
  | .idle | .returned _ _ => none

/-- One step of the thread `t`. -/
def step (s : Threads T) : T × Move → Option (Threads T)
  | (t, .accept uri) =>
      match s.point t with
      | .idle => some (s.goto t (.enter uri))
      | _ => none
  | (t, .proceed) => s.proceed t
  | (t, .call buf) =>
      match s.point t with
      | .returned uri cache_i => some (s.goto t (.await uri buf cache_i))
      | _ => none
  | (t, .skip) =>
      match s.point t with
      | .returned _ none => some (s.goto t .idle)
      | _ => none

end Threads

/-- The operation of the lock that comes next at a point. -/
def Point.stage : Point → Stage
  | .idle | .returned _ _ => .outside
  | .enter _ => .enter
  | .count _ => .count
  | .first _ => .first
  | .lock _ => .lock
  | .admitted _ => .admitted
  | .scan _ _ => .reading
  | .leave _ _ => .leave
  | .uncount _ _ => .uncount
  | .last _ _ => .last
  | .unlock _ _ => .unlock
  | .finish _ _ => .finish
  | .await _ _ _ => .await
  | .write _ _ _ | .release => .writing

namespace Threads

variable {T : Type u} {s s' : Threads T} {t u : T}

def stages (s : Threads T) : T → Stage :=
  fun t => (s.point t).stage

section Simulation

variable [DecidableEq T]

theorem P_eq_some
    {value value' : Nat}
    (h : P value = some value') :
    value = value' + 1 := by
  cases value with
  | zero => cases h
  | succ value =>
      cases h
      rfl

theorem stages_update
    (point : T → Point) (t : T) (p : Point) :
    (fun u => (Function.update point t p u).stage) =
      Function.update (fun u => (point u).stage) t p.stage := by
  funext u
  by_cases hu : u = t
  · subst hu
    simp
  · simp [hu]

/-- What a step does to the lock: nothing, or an operation of its thread. -/
inductive Locks (s : Threads T) (t : T) (s' : Threads T) : Prop
  | stay
      (hcounters : s'.toCounters = s.toCounters)
      (hstages : s'.stages = s.stages)
  | operation (b : Stage)
      (hop : Operation s.toCounters (s.stages t) s'.toCounters b)
      (hstages : s'.stages = Function.update s.stages t b)

/-- A step to a point at the same stage. -/
theorem Locks.of_stay
    {p : Point}
    (hcounters : s'.toCounters = s.toCounters)
    (hpoint : s'.point = Function.update s.point t p)
    (hstage : p.stage = (s.point t).stage) :
    Locks s t s' := by
  refine .stay hcounters ?_
  unfold stages
  rw [hpoint, stages_update, hstage]
  exact Function.update_eq_self t _

theorem Locks.of_operation
    {p : Point}
    (hpoint : s'.point = Function.update s.point t p)
    (hop : Operation s.toCounters (s.point t).stage s'.toCounters p.stage) :
    Locks s t s' := by
  refine .operation p.stage hop ?_
  unfold stages
  rw [hpoint, stages_update]

theorem scan_locks
    {uri : CStr} {i : Nat}
    (hc : s.point t = .scan uri i) :
    Locks s t (s.scan t uri i) := by
  have hleave : ∀ cache_i, Locks s t (s.goto t (.leave uri cache_i)) := by
    intro cache_i
    refine .of_operation rfl ?_
    rw [hc]
    exact .leave
  unfold scan
  split
  next hi =>
      simp only
      split
      · exact hleave _
      · exact .of_stay rfl rfl (by rw [hc]; rfl)
  next => exact hleave _

theorem proceed_locks
    (h : s.proceed t = some s') :
    Locks s t s' := by
  unfold proceed at h
  cases hc : s.point t with
  | idle | returned =>
      simp only [hc] at h
      cases h
  | enter uri =>
      simp only [hc] at h
      obtain ⟨m, hm, rfl⟩ := Option.map_eq_some_iff.mp h
      exact .of_operation rfl (hc ▸ .take (P_eq_some hm))
  | count uri =>
      simp only [hc] at h
      cases h
      exact .of_operation rfl (hc ▸ .count)
  | first uri =>
      simp only [hc] at h
      cases h
      split
      next hone => exact .of_operation rfl (hc ▸ .first hone)
      next hone => exact .of_operation rfl (hc ▸ .joined hone)
  | lock uri =>
      simp only [hc] at h
      obtain ⟨m, hm, rfl⟩ := Option.map_eq_some_iff.mp h
      exact .of_operation rfl (hc ▸ .lock (P_eq_some hm))
  | admitted uri =>
      simp only [hc] at h
      cases h
      exact .of_operation rfl (hc ▸ .admitted)
  | scan uri i =>
      simp only [hc] at h
      cases h
      exact scan_locks hc
  | leave uri cache_i =>
      simp only [hc] at h
      obtain ⟨m, hm, rfl⟩ := Option.map_eq_some_iff.mp h
      exact .of_operation rfl (hc ▸ .retake (P_eq_some hm))
  | uncount uri cache_i =>
      simp only [hc] at h
      cases h
      exact .of_operation rfl (hc ▸ .uncount)
  | last uri cache_i =>
      simp only [hc] at h
      cases h
      split
      next hzero => exact .of_operation rfl (hc ▸ .last hzero)
      next hzero => exact .of_operation rfl (hc ▸ .remaining hzero)
  | unlock uri cache_i =>
      simp only [hc] at h
      cases h
      exact .of_operation rfl (hc ▸ .unlock)
  | finish uri cache_i =>
      simp only [hc] at h
      cases h
      exact .of_operation rfl (hc ▸ .finish)
  | await uri buf cache_i =>
      simp only [hc] at h
      obtain ⟨m, hm, rfl⟩ := Option.map_eq_some_iff.mp h
      exact .of_operation rfl (hc ▸ .acquire (P_eq_some hm))
  | write uri buf cache_i =>
      simp only [hc] at h
      split at h
      · cases h
        exact .of_stay rfl rfl (hc ▸ rfl)
      · cases h
  | release =>
      simp only [hc] at h
      cases h
      exact .of_operation rfl (hc ▸ .release)

/-- Every step is a step of the lock. -/
theorem step_locks
    {m : Move}
    (h : step s (t, m) = some s') :
    Locks s t s' := by
  cases m with
  | proceed => exact proceed_locks h
  | accept uri =>
      cases hc : s.point t <;> simp only [step, hc] at h <;> cases h
      exact .of_operation rfl (hc ▸ .read)
  | call buf =>
      cases hc : s.point t <;> simp only [step, hc] at h <;> cases h
      exact .of_operation rfl (hc ▸ .await)
  | skip =>
      cases hc : s.point t <;> simp only [step, hc] at h <;> try cases h
      next uri cache_i =>
        cases cache_i with
        | some i => cases h
        | none =>
            cases h
            exact .of_stay rfl rfl (hc ▸ rfl)

end Simulation

section Exclusion

/-- Between `P(&w)` and `V(&w)` of `writer`. -/
def InWriter (s : Threads T) (t : T) : Prop :=
  match s.point t with
  | .write _ _ _ | .release => True
  | _ => False

/-- In the scan loop of `reader`. -/
def InScan (s : Threads T) (t : T) : Prop :=
  match s.point t with
  | .scan _ _ => True
  | _ => False

/-- Between the increment and the decrement of `readcnt`. -/
def Counted (s : Threads T) (t : T) : Prop :=
  match s.point t with
  | .first _ | .lock _ | .admitted _ | .scan _ _ | .leave _ _
  | .uncount _ _ => True
  | _ => False

/-- Not in `reader` and not in `writer`. -/
def Outside (s : Threads T) (t : T) : Prop :=
  match s.point t with
  | .idle | .returned _ _ => True
  | _ => False

theorem inWriter_iff :
    s.InWriter t ↔ s.stages t = .writing := by
  unfold InWriter stages
  cases s.point t <;> simp [Point.stage]

theorem inScan_iff :
    s.InScan t ↔ s.stages t = .reading := by
  unfold InScan stages
  cases s.point t <;> simp [Point.stage]

theorem counted_iff :
    s.Counted t ↔ (s.stages t).counted = true := by
  unfold Counted stages
  cases s.point t <;> simp [Point.stage, Stage.counted]

theorem outside_iff :
    s.Outside t ↔ s.stages t = .outside := by
  unfold Outside stages
  cases s.point t <;> simp [Point.stage]

/-- What the semaphores are for. -/
structure Exclusive (s : Threads T) : Prop where
  writer : ∀ t u, s.InWriter t → s.InWriter u ∨ s.InScan u → t = u
  readcnt : s.readcnt = {t | s.Counted t}.ncard
  quiet : (∀ t, s.Outside t) → s.mutex = 1 ∧ s.w = 1 ∧ s.readcnt = 0

variable [Fintype T]

/-- The semaphores agree with the stages of the threads. -/
def Agrees (s : Threads T) : Prop :=
  Balanced s.toCounters (number s.stages)

theorem Agrees.start
    (memory : Fin NUM_CACHE_LINE → CacheLine) :
    (start memory : Threads T).Agrees :=
  Balanced.init (fun _ hk => number_const hk.symm)

theorem Agrees.step
    [DecidableEq T]
    {e : T × Move}
    (h : s.Agrees)
    (hstep : step s e = some s') :
    s'.Agrees := by
  unfold Agrees at h ⊢
  cases step_locks hstep with
  | stay hcounters hstages =>
      rw [hcounters, hstages]
      exact h
  | operation b hop hstages =>
      rw [hstages]
      exact h.move hop

theorem Agrees.exclusive
    (h : s.Agrees) :
    s.Exclusive where
  writer := by
    intro t u ht hu
    rw [inWriter_iff, inScan_iff] at hu
    exact h.writer_alone (inWriter_iff.mp ht) hu
  readcnt := by
    rw [h.readcnt_eq, ← Set.ncard_coe_finset]
    congr 2
    ext t
    simp [counted_iff]
  quiet := by
    intro hout
    have heq := h.all_outside (fun t => outside_iff.mp (hout t))
    rw [heq]
    exact ⟨rfl, rfl, rfl⟩

/-- In every state that any number of threads reach, a thread in `writer`'s
section is alone, `readcnt` counts the readers, and the semaphores are free when
no thread is inside. -/
theorem locks_exclusive
    [DecidableEq T]
    (memory : Fin NUM_CACHE_LINE → CacheLine)
    (events : List (T × Move)) :
    Always step (start memory) events Exclusive := by
  intro pre _ s hs
  exact (exec_invariant (Agrees.start memory)
    (fun _ _ _ h hstep => h.step hstep) hs).exclusive

end Exclusion

end Threads

end Proxy
end PastWork
