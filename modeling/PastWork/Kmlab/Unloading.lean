import PastWork.Kmlab.Status

/-!
# Loading and unloading the module

`kmlab_init`, `timer_handler`, `work_handler` and `kmlab_exit` next to the processes
that write and read: the timer expires and the work queue takes its works at any
time.  `del_timer` does not wait for a handler that is running.  Nothing of the module
is used after it is gone exactly when no handler is running there.
-/

namespace PastWork
namespace Kmlab

open Rings Steps

universe u

namespace Registry

/-- A round of `__kmlab_exit`. -/
def removeEntry (cur : Node) (r : Registry) : Result (ForInStep Registry) := do
  let block ← entry cur
  -- the entry is printed
  let _ ← deref (r.blocks block)
  let r ← r.listDel cur
  .ok (.yield (r.setBlock block none))

/-- `__kmlab_exit` -/
def kmlabExit (r : Registry) (fuel : Nat) : Result Registry := do
  match ← forEach link .registration_list removeEntry fuel r with
  | .done r => .ok r
  | .yield r => .ok r

section Emptying

variable {r : Registry} {entries : Entries}

theorem removeEntry_visits :
    Visits link .registration_list removeEntry
      (fun ys r => ∃ todo, ys = nodes todo ∧ r.Holds todo)
      (fun out => ∃ r, out = .yield r ∧ r.Holds []) where
  read := by
    rintro y ys r ⟨_ | ⟨e, todo⟩, hys, hr⟩
    · cases hys
    · obtain ⟨rfl, rfl⟩ := List.cons.inj hys
      have hcur : r.Holds ([] ++ e :: todo) := hr
      exact ⟨Node.noConfusion, hcur.link_node⟩
  round := by
    rintro y ys r ⟨_ | ⟨e, todo⟩, hys, hr⟩
    · cases hys
    · obtain ⟨rfl, rfl⟩ := List.cons.inj hys
      have hderef := hr.deref_eq (e := e) (by simp)
      have hcur : r.Holds ([] ++ e :: todo) := hr
      obtain ⟨r', hr', hholds⟩ := hcur.listDel
      refine .inr ⟨r'.setBlock e.1 none, ?_, todo, rfl, hholds⟩
      rw [removeEntry, entry, Result.ok_bind, hderef, Result.ok_bind, hr',
        Result.ok_bind]
  last := by
    rintro r ⟨todo, hys, hr⟩
    obtain rfl : todo = [] := List.map_eq_nil_iff.mp hys.symm
    exact ⟨⟨_, hr.link_head⟩, r, rfl, hr⟩

/-- All blocks are freed, and with enough fuel the loop ends. -/
theorem kmlabExit_spec
    (h : r.Holds entries) (fuel : Nat) :
    (r.kmlabExit fuel).Ensures (fun r' => r'.Holds []) ∧
      (entries.length < fuel → ∃ r', r.kmlabExit fuel = .ok r') := by
  obtain ⟨hensures, hreturns⟩ := forEach_rule removeEntry_visits
    (s := r) ⟨entries, rfl, h⟩ h.link_head fuel
  constructor
  · intro r' hr'
    rw [kmlabExit] at hr'
    obtain ⟨out, hout, hr'⟩ := Result.bind_eq_ok hr'
    obtain ⟨r'', rfl, hholds⟩ := hensures out hout
    cases hr'
    exact hholds
  · intro hlt
    obtain ⟨out, hout⟩ := hreturns (by simpa [nodes] using hlt)
    obtain ⟨r'', rfl, _⟩ := hensures out hout
    exact ⟨r'', by rw [kmlabExit, hout, Result.ok_bind]⟩

end Emptying

end Registry

/-- The statement of `kmlab_init` or `kmlab_exit` that comes next. -/
inductive Phase where
  /-- `proc_create` -/
  | creating
  /-- the first `mod_timer` -/
  | arming
  /-- `alloc_workqueue` -/
  | allocating
  /-- `mutex_init` -/
  | initializing
  /-- `kmlab_exit` is called at some time -/
  | loaded
  /-- `proc_remove` -/
  | removing
  /-- `del_timer` -/
  | disarming
  /-- `flush_workqueue` and `destroy_workqueue`, if there is a queue -/
  | destroying
  /-- `__kmlab_exit` with the lock -/
  | freeing
  /-- the module has been taken out of memory -/
  | gone
deriving DecidableEq

/-- `/proc/kmlab/status` can be opened. -/
def Phase.listed : Phase → Bool
  | .arming | .allocating | .initializing | .loaded | .removing => true
  | .creating | .disarming | .destroying | .freeing | .gone => false

/-- `access_lock` has been initialized. -/
def Phase.lockable : Phase → Bool
  | .creating | .arming | .allocating | .initializing => false
  | .loaded | .removing | .disarming | .destroying | .freeing | .gone => true

/-- What comes next in `timer_handler`. -/
inductive Handler where
  /-- it does not run -/
  | idle
  /-- `kmalloc` and `INIT_WORK` -/
  | entered
  /-- `queue_work` -/
  | initialized
  /-- `mod_timer` -/
  | queued
deriving DecidableEq

/-- `wq` -/
inductive Workqueue where
  | null
  | allocated
  | destroyed
deriving DecidableEq

/-- The module with its timer and its works: those that are queued, those that come
to their locked section, and those that come to `kfree(work_arg)`. -/
structure Kmod (T : Type u) where
  monitor : Monitor T
  phase : Phase
  pending : Bool
  handler : Handler
  wq : Workqueue
  queued : Nat
  running : Nat
  finished : Nat
  /-- something has been used that is not there -/
  stale : Bool

/-- The steps of the module and of the processes. -/
inductive Act (T : Type u) where
  /-- the next statement of `kmlab_init` or `kmlab_exit` -/
  | advance (allocates : Bool) (fuel : Nat)
  /-- a section of `register_pid`, or `get_status` -/
  | lookup (t : T) (w : Write) (tasks : Tasks)
  | register (t : T) (new_block_ptr : Option Address) (fuel : Nat)
  | read (call : Read) (fuel : Nat)
  /-- the timer expires -/
  | expire
  /-- the next statement of `timer_handler` -/
  | handle (allocates : Bool)
  /-- a work is taken from the queue -/
  | take
  /-- `__work_handler` with the lock -/
  | work (tasks : Nat → Tasks) (fuel : Nat)
  /-- `kfree(work_arg)` -/
  | free

/-- A process makes the step. -/
def Act.calls {T : Type u} : Act T → Bool
  | .lookup _ _ _ | .register _ _ _ | .read _ _ => true
  | .advance _ _ | .expire | .handle _ | .take | .work _ _ | .free => false

/-- The section that the step consists of. -/
def Act.part? {T : Type u} : Act T → Option (Section T)
  | .lookup t w tasks => some (.lookup t w tasks)
  | .register t new_block_ptr fuel => some (.register t new_block_ptr fuel)
  | .work tasks fuel => some (.work tasks fuel)
  | .read _ _ | .advance _ _ | .expire | .handle _ | .take | .free => none

/-- A call of `register_pid` has looked its pid up and waits for the lock. -/
def Writer.inside : Writer → Bool
  | .looked _ _ _ => true
  | .idle | .returned _ => false

/-- A section writes past the end of `kern_buf` or follows a pointer to nothing. -/
def Monitor.faults {T : Type u} (s : Monitor T) : Section T → Bool
  | .lookup t w tasks => !(s.writer t).inside && (Kmlab.lookup w tasks).stopped
  | .register t new_block_ptr fuel =>
      match s.writer t with
      | .looked _ pid used_time =>
          new_block_ptr.all (fun block => (s.registry.blocks block).isNone) &&
            (s.registry.registerPid fuel new_block_ptr pid used_time).stopped
      | _ => false
  | .read fuel => (s.registry.getStatus fuel cleared).stopped
  | .work tasks fuel => (s.registry.workHandler fuel tasks).stopped

namespace Kmod

variable {T : Type u}

/-- Code of the module runs, with `access_lock` when `locks`. -/
def runs (s : Kmod T) (locks : Bool) (next : Option (Kmod T)) : Option (Kmod T) :=
  if s.phase = .gone ∨ (locks = true ∧ s.phase.lockable = false) then
    some { s with stale := true }
  else
    next

theorem runs_cases
    {s s' : Kmod T} {locks : Bool} {next : Option (Kmod T)}
    (h : s.runs locks next = some s') :
    (s' = { s with stale := true } ∧
        (s.phase = .gone ∨ (locks = true ∧ s.phase.lockable = false))) ∨
      (s.phase ≠ .gone ∧ next = some s') := by
  unfold runs at h
  split at h
  next hbad => exact .inl ⟨(Option.some_inj.mp h).symm, hbad⟩
  next hgood => exact .inr ⟨fun hgone => hgood (.inl hgone), h⟩

/-- The list holds different pids. -/
def Kept (s : Kmod T) : Prop :=
  ∃ entries, s.monitor.registry.Holds entries ∧ Monitor.Distinct entries

theorem Kept.exit
    {s : Kmod T} {fuel : Nat} {registry : Registry}
    (h : s.Kept)
    (hexit : s.monitor.registry.kmlabExit fuel = .ok registry) :
    registry.Holds [] := by
  obtain ⟨entries, hholds, _⟩ := h
  exact (Registry.kmlabExit_spec hholds fuel).1 registry hexit

variable [DecidableEq T]

theorem Kept.step
    {s : Kmod T} {e : Section T} {monitor : Monitor T}
    (h : s.Kept)
    (hstep : s.monitor.step e = some monitor) :
    ∃ entries, monitor.registry.Holds entries ∧ Monitor.Distinct entries :=
  Monitor.step_distinct h hstep

variable [Fintype T]

/-- Before `kmlab_init`. -/
def start : Kmod T where
  monitor := .start
  phase := .creating
  pending := false
  handler := .idle
  wq := .null
  queued := 0
  running := 0
  finished := 0
  stale := false

/-- The works that have not been freed. -/
def works (s : Kmod T) : Nat :=
  s.queued + s.running + s.finished

/-- `proc_remove` waits for the calls that have begun, and `destroy_workqueue` for
all works. -/
def advance (s : Kmod T) (allocates : Bool) (fuel : Nat) : Option (Kmod T) :=
  match s.phase with
  | .creating => some { s with phase := .arming }
  | .arming => some { s with phase := .allocating, pending := true }
  | .allocating =>
      some
        { s with
          phase := .initializing
          wq := if allocates then .allocated else .null }
  | .initializing => some { s with phase := .loaded }
  | .loaded => some { s with phase := .removing }
  | .removing =>
      if ∀ t, (s.monitor.writer t).inside = false then
        some { s with phase := .disarming }
      else
        none
  | .disarming => some { s with phase := .destroying, pending := false }
  | .destroying =>
      if s.wq = .null then
        some { s with phase := .freeing }
      else if s.works = 0 then
        some { s with phase := .freeing, wq := .destroyed }
      else
        none
  | .freeing =>
      match s.monitor.registry.kmlabExit fuel with
      | .ok registry =>
          some
            { s with
              phase := .gone
              monitor := { s.monitor with registry := registry } }
      | .error _ => none
  | .gone => none

/-- A section comes to its end, or uses something that is not there. -/
def attempt (s : Kmod T) (e : Section T) (next : Monitor T → Kmod T) :
    Option (Kmod T) :=
  if s.monitor.faults e then some { s with stale := true }
  else (s.monitor.step e).map next

/-- A section of a call of `register_pid` that a process has made. -/
def callback (s : Kmod T) (locks : Bool) (e : Section T) : Option (Kmod T) :=
  if s.phase.listed then
    s.runs locks (s.attempt e (fun monitor => { s with monitor := monitor }))
  else
    none

/-- `get_status`, with the text for an empty list. -/
def read (s : Kmod T) (call : Read) (fuel : Nat) : Option (Kmod T) :=
  if s.phase.listed then
    s.runs (decide call.Served)
      (match getStatus s.monitor.registry fuel call with
      | .ok _ => some s
      | .error .endless => none
      | .error _ => some { s with stale := true })
  else
    none

/-- `timer_handler` -/
def handle (s : Kmod T) (allocates : Bool) : Option (Kmod T) :=
  match s.handler with
  | .idle => none
  | .entered =>
      s.runs false
        (some
          (if allocates then { s with handler := .initialized }
          else { s with stale := true }))
  | .initialized =>
      s.runs false
        (some
          (if s.wq = .allocated then
            { s with handler := .queued, queued := s.queued + 1 }
          else { s with stale := true }))
  | .queued => s.runs false (some { s with handler := .idle, pending := true })

/-- One step; there is none after something has been used that is not there. -/
def step (s : Kmod T) (a : Act T) : Option (Kmod T) :=
  if s.stale then
    none
  else
    match a with
    | .advance allocates fuel => s.advance allocates fuel
    | .lookup t w tasks => s.callback false (.lookup t w tasks)
    | .register t new_block_ptr fuel => s.callback true (.register t new_block_ptr fuel)
    | .read call fuel => s.read call fuel
    | .expire =>
        if s.pending = true ∧ s.handler = .idle then
          s.runs false (some { s with pending := false, handler := .entered })
        else
          none
    | .handle allocates => s.handle allocates
    | .take =>
        if 0 < s.queued then
          s.runs false
            (some { s with queued := s.queued - 1, running := s.running + 1 })
        else
          none
    | .work tasks fuel =>
        if 0 < s.running then
          s.runs true
            (s.attempt (.work tasks fuel) (fun monitor =>
              { s with
                monitor := monitor
                running := s.running - 1
                finished := s.finished + 1 }))
        else
          none
    | .free =>
        if 0 < s.finished then
          s.runs false (some { s with finished := s.finished - 1 })
        else
          none

/-- What uses something that is not there. -/
inductive Trespasses (s : Kmod T) (a : Act T) : Prop
  | gone
      (hphase : s.phase = .gone)
      (hactive : s.pending = true ∨ s.handler ≠ .idle ∨ s.works ≠ 0) :
      Trespasses s a
  | unlockable
      (hphase : s.phase.lockable = false)
      (hactive : a.calls = true ∨ s.works ≠ 0) :
      Trespasses s a
  | memory
      (hhandler : s.handler = .entered)
      (ha : a = .handle false) :
      Trespasses s a
  | queue
      (hhandler : s.handler = .initialized)
      (hwq : s.wq ≠ .allocated) :
      Trespasses s a
  | fails {e : Section T}
      (ha : a.part? = some e)
      (hlisted : a.calls = true → s.phase.listed = true)
      (hfaults : s.monitor.faults e = true) :
      Trespasses s a
  | reads {call : Read} {fuel : Nat}
      (ha : a = .read call fuel)
      (hlisted : s.phase.listed = true)
      (hfaults : (getStatus s.monitor.registry fuel call).stopped = true) :
      Trespasses s a

/-- The other steps. -/
inductive Moves (s : Kmod T) : Act T → Kmod T → Prop
  | advances
      {allocates : Bool} {fuel : Nat} {s' : Kmod T}
      (h : s.advance allocates fuel = some s') :
      Moves s (.advance allocates fuel) s'
  | calls
      {a : Act T} {e : Section T} {monitor : Monitor T}
      (hlisted : s.phase.listed = true)
      (ha : a.part? = some e)
      (h : s.monitor.step e = some monitor) :
      Moves s a { s with monitor := monitor }
  | reads
      {call : Read} {fuel : Nat} {out : Reply}
      (hlisted : s.phase.listed = true)
      (h : getStatus s.monitor.registry fuel call = .ok out) :
      Moves s (.read call fuel) s
  | expires
      (hpending : s.pending = true)
      (hphase : s.phase ≠ .gone) :
      Moves s .expire { s with pending := false, handler := .entered }
  | initializes
      (hhandler : s.handler = .entered)
      (hphase : s.phase ≠ .gone) :
      Moves s (.handle true) { s with handler := .initialized }
  | queues
      {allocates : Bool}
      (hhandler : s.handler = .initialized)
      (hwq : s.wq = .allocated)
      (hphase : s.phase ≠ .gone) :
      Moves s (.handle allocates)
        { s with handler := .queued, queued := s.queued + 1 }
  | rearms
      {allocates : Bool}
      (hhandler : s.handler = .queued)
      (hphase : s.phase ≠ .gone) :
      Moves s (.handle allocates) { s with handler := .idle, pending := true }
  | takes
      (hqueued : 0 < s.queued)
      (hphase : s.phase ≠ .gone) :
      Moves s .take { s with queued := s.queued - 1, running := s.running + 1 }
  | works
      {tasks : Nat → Tasks} {fuel : Nat} {monitor : Monitor T}
      (hrunning : 0 < s.running)
      (hphase : s.phase ≠ .gone)
      (h : s.monitor.step (.work tasks fuel) = some monitor) :
      Moves s (.work tasks fuel)
        { s with
          monitor := monitor
          running := s.running - 1
          finished := s.finished + 1 }
  | frees
      (hfinished : 0 < s.finished)
      (hphase : s.phase ≠ .gone) :
      Moves s .free { s with finished := s.finished - 1 }

section Inversion

variable {s s' : Kmod T} {a : Act T}

omit [Fintype T] in
theorem attempt_cases
    {e : Section T} {next : Monitor T → Kmod T}
    (h : s.attempt e next = some s') :
    (s' = { s with stale := true } ∧ s.monitor.faults e = true) ∨
      ∃ monitor, s.monitor.step e = some monitor ∧ next monitor = s' := by
  unfold attempt at h
  split at h
  next hfaults => exact .inl ⟨(Option.some_inj.mp h).symm, hfaults⟩
  next => exact .inr (Option.map_eq_some_iff.mp h)

theorem callback_cases
    {locks : Bool} {e : Section T}
    (ha : a.calls = true)
    (he : a.part? = some e)
    (h : s.callback locks e = some s') :
    (s' = { s with stale := true } ∧ Trespasses s a) ∨ Moves s a s' := by
  unfold callback at h
  split at h
  case isFalse => cases h
  case isTrue hlisted =>
    rcases runs_cases h with ⟨rfl, hgone | ⟨_, hphase⟩⟩ | ⟨_, hnext⟩
    · rw [hgone] at hlisted
      cases hlisted
    · exact .inl ⟨rfl, .unlockable hphase (.inl ha)⟩
    · rcases attempt_cases hnext with ⟨rfl, hfaults⟩ | ⟨monitor, hmonitor, rfl⟩
      · exact .inl ⟨rfl, .fails he (fun _ => hlisted) hfaults⟩
      · exact .inr (.calls hlisted he hmonitor)

theorem read_cases
    {call : Read} {fuel : Nat}
    (h : s.read call fuel = some s') :
    (s' = { s with stale := true } ∧ Trespasses s (.read call fuel)) ∨
      Moves s (.read call fuel) s' := by
  unfold Kmod.read at h
  split at h
  case isFalse => cases h
  case isTrue hlisted =>
    rcases runs_cases h with ⟨rfl, hgone | ⟨_, hphase⟩⟩ | ⟨_, hnext⟩
    · rw [hgone] at hlisted
      cases hlisted
    · exact .inl ⟨rfl, .unlockable hphase (.inl rfl)⟩
    · split at hnext
      next out hout =>
        cases hnext
        exact .inr (.reads hlisted hout)
      next => cases hnext
      next e hne he =>
        cases hnext
        refine .inl ⟨rfl, .reads rfl hlisted ?_⟩
        rw [he, Result.stopped_error]
        exact hne

theorem handle_cases
    {allocates : Bool}
    (h : s.handle allocates = some s') :
    (s' = { s with stale := true } ∧ Trespasses s (.handle allocates)) ∨
      Moves s (.handle allocates) s' := by
  unfold handle at h
  split at h
  case h_1 => cases h
  case h_2 hhandler =>
    rcases runs_cases h with ⟨rfl, hgone | ⟨hno, _⟩⟩ | ⟨hphase, hnext⟩
    · exact .inl ⟨rfl, .gone hgone (.inr (.inl (by simp [hhandler])))⟩
    · cases hno
    · cases allocates with
      | false =>
          cases hnext
          exact .inl ⟨rfl, .memory hhandler rfl⟩
      | true =>
          cases hnext
          exact .inr (.initializes hhandler hphase)
  case h_3 hhandler =>
    rcases runs_cases h with ⟨rfl, hgone | ⟨hno, _⟩⟩ | ⟨hphase, hnext⟩
    · exact .inl ⟨rfl, .gone hgone (.inr (.inl (by simp [hhandler])))⟩
    · cases hno
    · by_cases hwq : s.wq = .allocated
      · rw [if_pos hwq] at hnext
        cases hnext
        exact .inr (.queues hhandler hwq hphase)
      · rw [if_neg hwq] at hnext
        cases hnext
        exact .inl ⟨rfl, .queue hhandler hwq⟩
  case h_4 hhandler =>
    rcases runs_cases h with ⟨rfl, hgone | ⟨hno, _⟩⟩ | ⟨hphase, hnext⟩
    · exact .inl ⟨rfl, .gone hgone (.inr (.inl (by simp [hhandler])))⟩
    · cases hno
    · cases hnext
      exact .inr (.rearms hhandler hphase)

/-- What a step does. -/
theorem step_cases
    (h : s.step a = some s') :
    s.stale = false ∧
      ((s' = { s with stale := true } ∧ Trespasses s a) ∨ Moves s a s') := by
  unfold step at h
  split at h
  case isTrue => cases h
  case isFalse hstale =>
    refine ⟨by simpa using hstale, ?_⟩
    cases a with
    | advance allocates fuel => exact .inr (.advances h)
    | lookup t w tasks => exact callback_cases rfl rfl h
    | register t new_block_ptr fuel => exact callback_cases rfl rfl h
    | read call fuel => exact read_cases h
    | handle allocates => exact handle_cases h
    | expire =>
        dsimp only at h
        split at h
        case isFalse => cases h
        case isTrue hguard =>
          rcases runs_cases h with ⟨rfl, hgone | ⟨hno, _⟩⟩ | ⟨hphase, hnext⟩
          · exact .inl ⟨rfl, .gone hgone (.inl hguard.1)⟩
          · cases hno
          · cases hnext
            exact .inr (.expires hguard.1 hphase)
    | take =>
        dsimp only at h
        split at h
        case isFalse => cases h
        case isTrue hqueued =>
          have hworks : s.works ≠ 0 := by unfold works; omega
          rcases runs_cases h with ⟨rfl, hgone | ⟨hno, _⟩⟩ | ⟨hphase, hnext⟩
          · exact .inl ⟨rfl, .gone hgone (.inr (.inr hworks))⟩
          · cases hno
          · cases hnext
            exact .inr (.takes hqueued hphase)
    | work tasks fuel =>
        dsimp only at h
        split at h
        case isFalse => cases h
        case isTrue hrunning =>
          have hworks : s.works ≠ 0 := by unfold works; omega
          rcases runs_cases h with ⟨rfl, hgone | ⟨_, hlock⟩⟩ | ⟨hphase, hnext⟩
          · exact .inl ⟨rfl, .gone hgone (.inr (.inr hworks))⟩
          · exact .inl ⟨rfl, .unlockable hlock (.inr hworks)⟩
          · rcases attempt_cases hnext with ⟨rfl, hfaults⟩ | ⟨monitor, hmonitor, rfl⟩
            · exact .inl ⟨rfl, .fails rfl (fun hcalls => by cases hcalls) hfaults⟩
            · exact .inr (.works hrunning hphase hmonitor)
    | free =>
        dsimp only at h
        split at h
        case isFalse => cases h
        case isTrue hfinished =>
          have hworks : s.works ≠ 0 := by unfold works; omega
          rcases runs_cases h with ⟨rfl, hgone | ⟨hno, _⟩⟩ | ⟨hphase, hnext⟩
          · exact .inl ⟨rfl, .gone hgone (.inr (.inr hworks))⟩
          · cases hno
          · cases hnext
            exact .inr (.frees hfinished hphase)

end Inversion

/-- After `del_timer` nothing but the works that are left goes on. -/
structure Quiet (s : Kmod T) : Prop where
  sound : s.stale = false
  later : s.phase = .destroying ∨ s.phase = .freeing ∨ s.phase = .gone
  pending : s.pending = false
  handler : s.handler = .idle
  drained : s.phase ≠ .destroying ∨ s.wq = .null → s.works = 0
  kept : s.Kept
  freed : s.phase = .gone → s.monitor.registry.Holds []

/-- Up to `del_timer` the timer and the works have a lock and a queue. -/
structure Early (s : Kmod T) : Prop where
  sound : s.stale = false
  earlier : s.phase ≠ .destroying ∧ s.phase ≠ .freeing ∧ s.phase ≠ .gone
  resting : s.phase.lockable = false → s.handler = .idle ∧ s.works = 0
  wq : s.phase = .initializing ∨ s.phase.lockable = true → s.wq = .allocated
  kept : s.Kept

/-- `kmlab_init` is not overtaken, and no handler runs at `del_timer`. -/
def Orderly (s : Kmod T) : Act T → Prop
  | .advance _ _ => s.phase = .disarming → s.handler = .idle
  | .lookup _ _ _ | .register _ _ _ | .read _ _ | .expire => s.phase.lockable = true
  | .handle _ | .take | .work _ _ | .free => True

instance (s : Kmod T) : ∀ a, Decidable (s.Orderly a)
  | .advance _ _ => inferInstanceAs (Decidable (_ → _))
  | .lookup _ _ _ | .register _ _ _ | .read _ _ | .expire =>
      inferInstanceAs (Decidable (_ = _))
  | .handle _ | .take | .work _ _ | .free => isTrue trivial

/-- `kmalloc` and `alloc_workqueue` return memory for the queue, the works and the
blocks, and what is written to the file is shorter than `kern_buf`. -/
def Provided (s : Kmod T) : Act T → Prop
  | .advance allocates _ => s.phase = .allocating → allocates = true
  | .handle allocates => allocates = true
  | .lookup _ w _ => w.Accepted → w.usr_buf.length < MAX_BUF_SIZE
  | .register _ new_block_ptr _ => new_block_ptr ≠ none
  | .read _ _ | .expire | .take | .work _ _ | .free => True

instance (s : Kmod T) : ∀ a, Decidable (s.Provided a)
  | .advance _ _ => inferInstanceAs (Decidable (_ → _))
  | .handle _ => inferInstanceAs (Decidable (_ = _))
  | .lookup _ w _ => inferInstanceAs (Decidable (w.Accepted → _))
  | .register _ _ _ => inferInstanceAs (Decidable (_ ≠ _))
  | .read _ _ | .expire | .take | .work _ _ | .free => isTrue trivial

/-- A call of `get_status` gets to the list only when it is not empty and its lines
fit. -/
def Readable (s : Kmod T) (a : Act T) : Prop :=
  ∀ call fuel, a = .read call fuel → call.Served → Printable s.monitor.registry

section Invariants

variable {s s' : Kmod T} {a : Act T}

omit [DecidableEq T] [Fintype T] in
theorem Quiet.unlisted
    (h : s.Quiet) :
    ¬ s.phase.listed = true := by
  rcases h.later with hphase | hphase | hphase <;> simp [hphase, Phase.listed]

omit [DecidableEq T] [Fintype T] in
/-- A pass never fails. -/
theorem Kept.work_sound
    {tasks : Nat → Tasks} {fuel : Nat}
    (h : s.Kept) :
    s.monitor.faults (.work tasks fuel) = false := by
  obtain ⟨entries, hholds, _⟩ := h
  exact Result.stopped_eq_false (fun _ => Registry.workHandler_sound hholds)

omit [DecidableEq T] [Fintype T] in
/-- A section with the memory that it needs does not fail. -/
theorem Kept.part_sound
    {e : Section T}
    (h : s.Kept)
    (ha : a.part? = some e)
    (hprovided : s.Provided a) :
    s.monitor.faults e = false := by
  cases a with
  | lookup t w tasks =>
      cases ha
      obtain ⟨out, hout⟩ := lookup_ok hprovided tasks
      simp [Monitor.faults, hout, Result.stopped]
  | register t new_block_ptr fuel =>
      cases ha
      obtain ⟨block, rfl⟩ := Option.ne_none_iff_exists'.mp hprovided
      obtain ⟨entries, hholds, _⟩ := h
      cases hwriter : s.monitor.writer t with
      | idle | returned => simp only [Monitor.faults, hwriter]
      | looked n pid used_time =>
          simp only [Monitor.faults, hwriter]
          by_cases hfree : s.monitor.registry.blocks block = none
          · rw [Result.stopped_eq_false
              (fun _ => Registry.registerPid_sound hholds hfree), Bool.and_false]
          · simp [hfree]
  | work tasks fuel =>
      cases ha
      exact h.work_sound
  | advance | read | expire | handle | take | free => cases ha

omit [DecidableEq T] in
/-- The statements after `del_timer`. -/
theorem Quiet.advance
    {allocates : Bool} {fuel : Nat}
    (h : s.Quiet)
    (hadvance : s.advance allocates fuel = some s') :
    s'.Quiet := by
  rcases h.later with hphase | hphase | hphase
  · simp only [Kmod.advance, hphase] at hadvance
    split at hadvance
    next hnull =>
      cases hadvance
      have hworks := h.drained (.inr hnull)
      exact
        { h with
          later := by simp
          drained := fun _ => hworks
          freed := by simp }
    next =>
      split at hadvance
      next hworks =>
        cases hadvance
        exact
          { h with
            later := by simp
            drained := fun _ => hworks
            freed := by simp }
      next => cases hadvance
  · simp only [Kmod.advance, hphase] at hadvance
    split at hadvance
    next registry hexit =>
      cases hadvance
      have hholds := h.kept.exit hexit
      have hworks := h.drained (.inl (by simp [hphase]))
      exact
        { h with
          later := by simp
          drained := fun _ => hworks
          kept := ⟨[], hholds, List.nodup_nil⟩
          freed := fun _ => hholds }
    next => cases hadvance
  · simp only [Kmod.advance, hphase] at hadvance
    cases hadvance

theorem Quiet.move
    (h : s.Quiet)
    (hmove : Moves s a s') :
    s'.Quiet := by
  have hworking : s.works ≠ 0 → s.phase = .destroying ∧ s.wq ≠ .null := by
    intro hworks
    by_contra hno
    refine hworks (h.drained ?_)
    by_cases hphase : s.phase = .destroying
    · exact .inr (by_contra fun hwq => hno ⟨hphase, hwq⟩)
    · exact .inl hphase
  cases hmove with
  | advances hadvance => exact h.advance hadvance
  | calls hlisted => exact absurd hlisted h.unlisted
  | reads hlisted => exact absurd hlisted h.unlisted
  | expires hpending =>
      rw [h.pending] at hpending
      cases hpending
  | initializes hhandler =>
      rw [h.handler] at hhandler
      cases hhandler
  | queues hhandler =>
      rw [h.handler] at hhandler
      cases hhandler
  | rearms hhandler =>
      rw [h.handler] at hhandler
      cases hhandler
  | takes hqueued =>
      obtain ⟨hphase, hwq⟩ := hworking (by unfold works; omega)
      exact { h with drained := fun hno => (hno.elim (absurd hphase) (absurd · hwq)) }
  | works hrunning _ hstep =>
      obtain ⟨hphase, hwq⟩ := hworking (by unfold works; omega)
      exact
        { h with
          drained := fun hno => (hno.elim (absurd hphase) (absurd · hwq))
          kept := h.kept.step hstep
          freed := by simp [hphase] }
  | frees hfinished =>
      obtain ⟨hphase, hwq⟩ := hworking (by unfold works; omega)
      exact { h with drained := fun hno => (hno.elim (absurd hphase) (absurd · hwq)) }

omit [DecidableEq T] [Fintype T] in
/-- There is nothing left that could use what is not there. -/
theorem Quiet.not_trespasses
    (h : s.Quiet) :
    ¬ Trespasses s a := by
  have hgone : s.phase = .gone → s.works = 0 := fun hphase =>
    h.drained (.inl (by simp [hphase]))
  intro htrespass
  cases htrespass with
  | gone hphase hactive =>
      simp [h.pending, h.handler, hgone hphase] at hactive
  | unlockable hphase =>
      rcases h.later with hlater | hlater | hlater <;>
        · rw [hlater] at hphase
          cases hphase
  | memory hhandler =>
      rw [h.handler] at hhandler
      cases hhandler
  | queue hhandler =>
      rw [h.handler] at hhandler
      cases hhandler
  | fails ha hlisted hfaults =>
      cases a with
      | lookup | register => exact h.unlisted (hlisted rfl)
      | work tasks fuel =>
          cases ha
          rw [h.kept.work_sound] at hfaults
          cases hfaults
      | advance | read | expire | handle | take | free => cases ha
  | reads _ hlisted => exact h.unlisted hlisted

theorem Quiet.step
    (h : s.Quiet)
    (hstep : s.step a = some s') :
    s'.Quiet := by
  rcases (step_cases hstep).2 with ⟨_, htrespass⟩ | hmove
  · exact absurd htrespass h.not_trespasses
  · exact h.move hmove

omit [DecidableEq T] in
/-- The statements up to `del_timer`. -/
theorem Early.advance
    {allocates : Bool} {fuel : Nat}
    (h : s.Early)
    (horderly : s.Orderly (.advance allocates fuel))
    (hprovided : s.Provided (.advance allocates fuel))
    (hadvance : s.advance allocates fuel = some s') :
    s'.Early ∨ s'.Quiet := by
  obtain ⟨hdestroying, hfreeing, hgone⟩ := h.earlier
  cases hphase : s.phase with
  | creating =>
      simp only [Kmod.advance, hphase] at hadvance
      cases hadvance
      have hresting := h.resting (by simp [hphase, Phase.lockable])
      exact .inl
        { h with
          earlier := by simp
          resting := fun _ => hresting
          wq := by simp [Phase.lockable] }
  | arming =>
      simp only [Kmod.advance, hphase] at hadvance
      cases hadvance
      have hresting := h.resting (by simp [hphase, Phase.lockable])
      exact .inl
        { h with
          earlier := by simp
          resting := fun _ => hresting
          wq := by simp [Phase.lockable] }
  | allocating =>
      simp only [Kmod.advance, hphase] at hadvance
      cases hadvance
      have hresting := h.resting (by simp [hphase, Phase.lockable])
      exact .inl
        { h with
          earlier := by simp
          resting := fun _ => hresting
          wq := by simp [hprovided hphase] }
  | initializing =>
      simp only [Kmod.advance, hphase] at hadvance
      cases hadvance
      have hwq := h.wq (.inl hphase)
      exact .inl
        { h with
          earlier := by simp
          resting := by simp [Phase.lockable]
          wq := fun _ => hwq }
  | loaded =>
      simp only [Kmod.advance, hphase] at hadvance
      cases hadvance
      have hwq := h.wq (.inr (by simp [hphase, Phase.lockable]))
      exact .inl
        { h with
          earlier := by simp
          resting := by simp [Phase.lockable]
          wq := fun _ => hwq }
  | removing =>
      simp only [Kmod.advance, hphase] at hadvance
      split at hadvance
      next =>
        cases hadvance
        have hwq := h.wq (.inr (by simp [hphase, Phase.lockable]))
        exact .inl
          { h with
            earlier := by simp
            resting := by simp [Phase.lockable]
            wq := fun _ => hwq }
      next => cases hadvance
  | disarming =>
      simp only [Kmod.advance, hphase] at hadvance
      cases hadvance
      have hwq := h.wq (.inr (by simp [hphase, Phase.lockable]))
      exact .inr
        { sound := h.sound
          later := by simp
          pending := rfl
          handler := horderly hphase
          drained := by simp [hwq]
          kept := h.kept
          freed := by simp }
  | destroying => exact absurd hphase hdestroying
  | freeing => exact absurd hphase hfreeing
  | gone => exact absurd hphase hgone

theorem Early.move
    (h : s.Early)
    (horderly : s.Orderly a)
    (hprovided : s.Provided a)
    (hmove : Moves s a s') :
    s'.Early ∨ s'.Quiet := by
  have hbusy : s.handler ≠ .idle ∨ s.works ≠ 0 → s.phase.lockable = true := by
    intro hbusy
    by_contra hno
    obtain ⟨hhandler, hworks⟩ := h.resting (by simpa using hno)
    exact hbusy.elim (absurd hhandler) (absurd hworks)
  cases hmove with
  | advances hadvance => exact h.advance horderly hprovided hadvance
  | calls _ _ hstep => exact .inl { h with kept := h.kept.step hstep }
  | reads => exact .inl h
  | expires =>
      have hlockable : s.phase.lockable = true := horderly
      exact .inl { h with resting := by simp [hlockable] }
  | initializes hhandler =>
      have hlockable := hbusy (.inl (by simp [hhandler]))
      exact .inl { h with resting := by simp [hlockable] }
  | queues hhandler =>
      have hlockable := hbusy (.inl (by simp [hhandler]))
      exact .inl { h with resting := by simp [hlockable] }
  | rearms hhandler =>
      have hlockable := hbusy (.inl (by simp [hhandler]))
      exact .inl { h with resting := by simp [hlockable] }
  | takes hqueued =>
      have hlockable := hbusy (.inr (by unfold works; omega))
      exact .inl { h with resting := by simp [hlockable] }
  | works hrunning _ hstep =>
      have hlockable := hbusy (.inr (by unfold works; omega))
      exact .inl { h with resting := by simp [hlockable], kept := h.kept.step hstep }
  | frees hfinished =>
      have hlockable := hbusy (.inr (by unfold works; omega))
      exact .inl { h with resting := by simp [hlockable] }

theorem Early.step
    (h : s.Early)
    (horderly : s.Orderly a)
    (hprovided : s.Provided a)
    (hreadable : s.Readable a)
    (hstep : s.step a = some s') :
    s'.Early ∨ s'.Quiet := by
  rcases (step_cases hstep).2 with ⟨_, htrespass⟩ | hmove
  · exfalso
    cases htrespass with
    | gone hphase => exact h.earlier.2.2 hphase
    | unlockable hphase hactive =>
        rcases hactive with hcalls | hworks
        · cases a with
          | lookup => exact absurd horderly (by simp [Orderly, hphase])
          | register => exact absurd horderly (by simp [Orderly, hphase])
          | read => exact absurd horderly (by simp [Orderly, hphase])
          | advance => cases hcalls
          | expire => cases hcalls
          | handle => cases hcalls
          | take => cases hcalls
          | work => cases hcalls
          | free => cases hcalls
        · exact hworks (h.resting hphase).2
    | memory _ ha =>
        subst ha
        cases hprovided
    | queue hhandler hwq =>
        refine hwq (h.wq (.inr ?_))
        by_contra hno
        rw [(h.resting (by simpa using hno)).1] at hhandler
        cases hhandler
    | fails ha _ hfaults =>
        rw [h.kept.part_sound ha hprovided] at hfaults
        cases hfaults
    | @reads call fuel ha _ hfaults =>
        rw [Result.stopped_eq_false
          (fun _ => getStatus_sound (hreadable call fuel ha))] at hfaults
        cases hfaults
  · exact h.move horderly hprovided hmove

/-- What holds in every run. -/
structure Backed (s : Kmod T) : Prop where
  kept : s.Kept
  unallocated :
    s.phase = .creating ∨ s.phase = .arming ∨ s.phase = .allocating → s.wq = .null
  unqueued : s.wq = .null → s.works = 0

omit [DecidableEq T] in
theorem Backed.advance
    {allocates : Bool} {fuel : Nat}
    (h : s.Backed)
    (hadvance : s.advance allocates fuel = some s') :
    s'.Backed := by
  unfold Kmod.advance at hadvance
  split at hadvance
  case h_1 hphase =>
    cases hadvance
    exact { h with unallocated := fun _ => h.unallocated (by simp [hphase]) }
  case h_2 hphase =>
    cases hadvance
    exact { h with unallocated := fun _ => h.unallocated (by simp [hphase]) }
  case h_3 hphase =>
    cases hadvance
    have hnull := h.unallocated (by simp [hphase])
    exact
      { kept := h.kept
        unallocated := by simp
        unqueued := fun _ => h.unqueued hnull }
  case h_4 => cases hadvance; exact { h with unallocated := by simp }
  case h_5 => cases hadvance; exact { h with unallocated := by simp }
  case h_6 =>
    split at hadvance
    next => cases hadvance; exact { h with unallocated := by simp }
    next => cases hadvance
  case h_7 => cases hadvance; exact { h with unallocated := by simp }
  case h_8 =>
    split at hadvance
    next => cases hadvance; exact { h with unallocated := by simp }
    next =>
      split at hadvance
      next hworks =>
        cases hadvance
        exact { kept := h.kept, unallocated := by simp, unqueued := fun _ => hworks }
      next => cases hadvance
  case h_9 =>
    split at hadvance
    next registry hexit =>
      cases hadvance
      exact
        { h with
          kept := ⟨[], h.kept.exit hexit, List.nodup_nil⟩
          unallocated := by simp }
    next => cases hadvance
  case h_10 => cases hadvance

theorem Backed.step
    (h : s.Backed)
    (hstep : s.step a = some s') :
    s'.Backed := by
  rcases (step_cases hstep).2 with ⟨rfl, _⟩ | hmove
  · exact { h with }
  · cases hmove with
    | advances hadvance => exact h.advance hadvance
    | calls _ _ hcall => exact { h with kept := h.kept.step hcall }
    | reads => exact h
    | expires => exact { h with }
    | initializes => exact { h with }
    | queues _ hwq => exact { h with unqueued := by simp [hwq] }
    | rearms => exact { h with }
    | takes hqueued =>
        refine { h with unqueued := fun hnull => ?_ }
        have hworks := h.unqueued hnull
        unfold works at hworks
        omega
    | works hrunning _ hwork =>
        refine { h with kept := h.kept.step hwork, unqueued := fun hnull => ?_ }
        have hworks := h.unqueued hnull
        unfold works at hworks
        omega
    | frees hfinished =>
        refine { h with unqueued := fun hnull => ?_ }
        have hworks := h.unqueued hnull
        unfold works at hworks
        omega

theorem exec_backed
    {acts : List (Act T)}
    (h : exec step start acts = some s) :
    s.Backed := by
  have hinit : (start (T := T)).Backed :=
    { kept := ⟨[], Registry.empty_holds, List.nodup_nil⟩
      unallocated := fun _ => rfl
      unqueued := fun _ => rfl }
  exact exec_invariant hinit (fun _ _ _ hs ha => hs.step ha) h

end Invariants

/-- What the works that are left do not change. -/
structure Alike (s s' : Kmod T) : Prop where
  phase : s'.phase = s.phase
  pending : s'.pending = s.pending
  handler : s'.handler = s.handler
  wq : s'.wq = s.wq
  stale : s'.stale = s.stale

section Draining

variable {s s' : Kmod T}

/-- With works left, one of them goes on. -/
theorem exists_work
    (hkept : s.Kept)
    (hsound : s.stale = false)
    (hlockable : s.phase.lockable = true)
    (hphase : s.phase ≠ .gone)
    (hworks : s.works ≠ 0) :
    ∃ a s', s.step a = some s' ∧ s.Alike s' ∧ s'.Kept ∧
      3 * s'.queued + 2 * s'.running + s'.finished <
        3 * s.queued + 2 * s.running + s.finished := by
  have hruns : ∀ locks next, s.runs locks next = next := by
    intro locks next
    rw [runs, if_neg (by simp [hphase, hlockable])]
  by_cases hfinished : 0 < s.finished
  · refine ⟨.free, { s with finished := s.finished - 1 }, ?_, ⟨rfl, rfl, rfl, rfl, rfl⟩,
      hkept, ?_⟩
    · simp only [step, hsound, Bool.false_eq_true, if_false, if_pos hfinished, hruns]
    · dsimp only
      omega
  · by_cases hrunning : 0 < s.running
    · obtain ⟨entries, hholds, hdistinct⟩ := hkept
      obtain ⟨registry, hwork⟩ :=
        (Registry.workHandler_spec hholds (entries.length + 1) (fun _ _ => none)).2
          (Nat.lt_succ_self _)
      have hmonitor : s.monitor.step (.work (fun _ _ => none) (entries.length + 1)) =
          some { s.monitor with registry := registry } := by
        simp only [Monitor.step, hwork]
      refine ⟨.work (fun _ _ => none) (entries.length + 1),
        { s with
          monitor := { s.monitor with registry := registry }
          running := s.running - 1
          finished := s.finished + 1 },
        ?_, ⟨rfl, rfl, rfl, rfl, rfl⟩,
        Kept.step ⟨entries, hholds, hdistinct⟩ hmonitor, ?_⟩
      · have hattempt : s.attempt (.work (fun _ _ => none) (entries.length + 1)) =
            fun next => some (next { s.monitor with registry := registry }) := by
          funext next
          rw [attempt, Kept.work_sound ⟨entries, hholds, hdistinct⟩, hmonitor]
          rfl
        simp only [step, hsound, Bool.false_eq_true, if_false, if_pos hrunning, hruns,
          hattempt]
      · dsimp only
        omega
    · have hqueued : 0 < s.queued := by
        unfold works at hworks
        omega
      refine ⟨.take, { s with queued := s.queued - 1, running := s.running + 1 }, ?_,
        ⟨rfl, rfl, rfl, rfl, rfl⟩, hkept, ?_⟩
      · simp only [step, hsound, Bool.false_eq_true, if_false, if_pos hqueued, hruns]
      · dsimp only
        omega

/-- The works can all come to their end. -/
theorem exec_drained
    (hkept : s.Kept)
    (hsound : s.stale = false)
    (hlockable : s.phase.lockable = true)
    (hphase : s.phase ≠ .gone) :
    ∃ acts s', exec step s acts = some s' ∧ s.Alike s' ∧ s'.Kept ∧ s'.works = 0 := by
  induction hn : 3 * s.queued + 2 * s.running + s.finished using
    Nat.strong_induction_on generalizing s with
  | _ n ih =>
      by_cases hworks : s.works = 0
      · exact ⟨[], s, rfl, ⟨rfl, rfl, rfl, rfl, rfl⟩, hkept, hworks⟩
      · obtain ⟨a, m, hstep, halike, hkept', hlt⟩ :=
          exists_work hkept hsound hlockable hphase hworks
        obtain ⟨acts, s', hacts, halike', hkept'', hnone⟩ :=
          ih _ (hn ▸ hlt) hkept' (halike.stale.trans hsound)
            (halike.phase ▸ hlockable) (halike.phase ▸ hphase) rfl
        refine ⟨a :: acts, s', by rw [exec, hstep]; exact hacts, ?_, hkept'', hnone⟩
        exact
          { phase := halike'.phase.trans halike.phase
            pending := halike'.pending.trans halike.pending
            handler := halike'.handler.trans halike.handler
            wq := halike'.wq.trans halike.wq
            stale := halike'.stale.trans halike.stale }

/-- The unloading comes to its end, and then what still goes on is without the
module. -/
theorem exec_trespasses
    (hkept : s.Kept)
    (hsound : s.stale = false)
    (hphase : s.phase = .destroying)
    (hactive : s.pending = true ∨ s.handler ≠ .idle) :
    ∃ acts s', exec step s acts = some s' ∧ s'.stale = true := by
  obtain ⟨acts, m, hacts, halike, ⟨entries, hholds, _⟩, hworks⟩ :=
    exec_drained hkept hsound (by simp [hphase, Phase.lockable]) (by simp [hphase])
  obtain ⟨registry, hexit⟩ :=
    (Registry.kmlabExit_spec hholds (entries.length + 1)).2 (Nat.lt_succ_self _)
  have hfalse : m.stale = false := halike.stale.trans hsound
  obtain ⟨wq, hdestroy⟩ : ∃ wq, m.step (.advance true 0) =
      some { m with phase := .freeing, wq := wq } := by
    by_cases hnull : m.wq = .null
    · exact ⟨m.wq, by
        simp [step, hfalse, advance, halike.phase, hphase, hnull]⟩
    · exact ⟨.destroyed, by
        simp [step, hfalse, advance, halike.phase, hphase, hnull, hworks]⟩
  have hfree : step { m with phase := .freeing, wq := wq }
      (.advance true (entries.length + 1)) =
        some
          { m with
            phase := .gone
            wq := wq
            monitor := { m.monitor with registry := registry } } := by
    simp [step, hfalse, advance, hexit]
  obtain ⟨a, hlast⟩ : ∃ a, step
      { m with
        phase := .gone
        wq := wq
        monitor := { m.monitor with registry := registry } } a =
        some
          { m with
            phase := .gone
            wq := wq
            monitor := { m.monitor with registry := registry }
            stale := true } := by
    cases hhandler : m.handler with
    | idle =>
        have hpending : m.pending = true := by
          rw [halike.pending]
          refine hactive.resolve_right (fun hne => hne ?_)
          rw [← halike.handler, hhandler]
        exact ⟨.expire, by simp [step, hfalse, hpending, runs]⟩
    | entered => exact ⟨.handle true, by simp [step, hfalse, handle, runs]⟩
    | initialized => exact ⟨.handle true, by simp [step, hfalse, handle, runs]⟩
    | queued => exact ⟨.handle true, by simp [step, hfalse, handle, runs]⟩
  refine ⟨acts ++ [.advance true 0, .advance true (entries.length + 1), a],
    { m with
      phase := .gone
      wq := wq
      monitor := { m.monitor with registry := registry }
      stale := true }, ?_, rfl⟩
  rw [exec_append, hacts, Option.bind_some, exec, hdestroy, Option.bind_some, exec,
    hfree, Option.bind_some, exec, hlast]
  rfl

end Draining

/-- Every block and every work has been freed, and nothing goes on. -/
structure Freed (s : Kmod T) : Prop where
  blocks : ∀ block, s.monitor.registry.blocks block = none
  works : s.works = 0
  halted : ∀ a, s.step a = none

section Unloading

variable {s : Kmod T}

theorem Quiet.freed_of_gone
    (h : s.Quiet)
    (hgone : s.phase = .gone) :
    s.Freed := by
  have hworks := h.drained (.inl (by simp [hgone]))
  refine ⟨?_, hworks, ?_⟩
  · intro block
    cases hblock : s.monitor.registry.blocks block with
    | none => rfl
    | some b =>
        have hmem := ((h.freed hgone).blocks block b).mp hblock
        simp at hmem
  · intro a
    cases hstep : s.step a with
    | none => rfl
    | some s' =>
        exfalso
        unfold Kmod.works at hworks
        rcases (step_cases hstep).2 with ⟨_, htrespass⟩ | hmove
        · exact h.not_trespasses htrespass
        · cases hmove with
          | advances hadvance => simp [Kmod.advance, hgone] at hadvance
          | calls hlisted => exact h.unlisted hlisted
          | reads hlisted => exact h.unlisted hlisted
          | expires hpending => simp [h.pending] at hpending
          | initializes hhandler => simp [h.handler] at hhandler
          | queues hhandler => simp [h.handler] at hhandler
          | rearms hhandler => simp [h.handler] at hhandler
          | takes hqueued => omega
          | works hrunning => omega
          | frees hfinished => omega

theorem exec_orderly
    {acts : List (Act T)}
    (h : exec step start acts = some s)
    (horderly : EachStep step (start (T := T)) acts
      (fun s a => s.Orderly a ∧ s.Provided a ∧ s.Readable a)) :
    s.Early ∨ s.Quiet := by
  have hinit : (start (T := T)).Early :=
    { sound := rfl
      earlier := by simp [start]
      resting := fun _ => ⟨rfl, rfl⟩
      wq := by simp [start, Phase.lockable]
      kept := ⟨[], Registry.empty_holds, List.nodup_nil⟩ }
  refine horderly.invariant (I := fun s => s.Early ∨ s.Quiet) (.inl hinit) ?_ acts
    (List.prefix_refl acts) s h
  rintro s a s' hs hstep ⟨horderly, hprovided, hreadable⟩
  exact hs.elim (fun hearly => hearly.step horderly hprovided hreadable hstep)
    (fun hquiet => .inr (hquiet.step hstep))

/-- A call that has read the list has found one that can be read. -/
theorem Kept.readable
    {a : Act T} {s' : Kmod T}
    (hkept : s.Kept)
    (hsound : s'.stale = false)
    (hstep : s.step a = some s') :
    s.Readable a := by
  rintro call fuel rfl hserved
  obtain ⟨entries, hholds, _⟩ := hkept
  rcases (step_cases hstep).2 with ⟨rfl, _⟩ | hmove
  · cases hsound
  · cases hmove with
    | calls _ ha => cases ha
    | reads _ hout => exact printable_of_getStatus hholds hserved hout

end Unloading

/-- For any number of processes and any interleaving.  When `kmlab_init` is not
overtaken, no handler runs at `del_timer`, the allocations succeed, what is written is
shorter than `kern_buf` and the list is read only while it is not empty and its lines
fit, then nothing is used that is not there, and once the module is gone every block of
the list and every work has been freed and nothing of the module goes on.  After
`del_timer` this holds of every way to go on exactly when the timer is not armed and
its handler does not run. -/
theorem unloading_clean :
    (∀ (acts : List (Act T)) s, exec step start acts = some s →
      EachStep step start acts (fun s a => s.Orderly a ∧ s.Provided a ∧ s.Readable a) →
        s.stale = false ∧ (s.phase = .gone → s.Freed)) ∧
      ∀ (acts : List (Act T)) s, exec step start acts = some s →
        s.phase = .destroying →
          ((∀ later s', exec step s later = some s' →
            s'.stale = false ∧ (s'.phase = .gone → s'.Freed)) ↔
              s.stale = false ∧ s.pending = false ∧ s.handler = .idle) := by
  have hclean : ∀ {s : Kmod T}, s.Quiet →
      s.stale = false ∧ (s.phase = .gone → s.Freed) :=
    fun hquiet => ⟨hquiet.sound, hquiet.freed_of_gone⟩
  refine ⟨?_, ?_⟩
  · intro acts s h horderly
    rcases exec_orderly h horderly with hearly | hquiet
    · exact ⟨hearly.sound, fun hgone => absurd hgone hearly.earlier.2.2⟩
    · exact hclean hquiet
  · intro acts s h hphase
    have hbacked := exec_backed h
    constructor
    · intro hall
      have hsound := (hall [] s rfl).1
      refine ⟨hsound, ?_⟩
      by_contra hno
      have hactive : s.pending = true ∨ s.handler ≠ .idle := by
        by_contra hquiet
        push Not at hquiet
        exact hno ⟨by simpa using hquiet.1, hquiet.2⟩
      obtain ⟨later, s', hlater, hstale⟩ :=
        exec_trespasses hbacked.kept hsound hphase hactive
      rw [(hall later s' hlater).1] at hstale
      cases hstale
    · rintro ⟨hsound, hpending, hhandler⟩ later s' hlater
      have hquiet : s.Quiet :=
        { sound := hsound
          later := .inl hphase
          pending := hpending
          handler := hhandler
          drained := fun hor => hbacked.unqueued (hor.resolve_left (absurd hphase))
          kept := hbacked.kept
          freed := by simp [hphase] }
      exact hclean (exec_invariant hquiet (fun _ _ _ hs ha => hs.step ha) hlater)

/-- One process registers and reads, a pass looks it up, and the module is unloaded. -/
def onePass : List (Act (Fin 1)) :=
  [.advance true 0, .advance true 0, .advance true 0, .advance true 0,
    .lookup 0 (Monitor.write (literal "1")) Monitor.twoTasks,
    .register 0 (some 100) 4, .read ⟨MAX_BUF_SIZE, 0, true, true⟩ 4, .expire,
    .handle true, .handle true, .handle true, .take,
    .work (fun _ => Monitor.twoTasks) 4, .free, .advance true 0, .advance true 0,
    .advance true 0, .advance true 0, .advance true 4]

theorem onePass_unloads :
    ∃ s, exec step start onePass = some s ∧ s.phase = .gone ∧ s.stale = false ∧
      s.Freed := by
  obtain ⟨s, hs, hgone⟩ : ∃ s, exec step start onePass = some s ∧ s.phase = .gone := by
    have hphase : (exec step start onePass).map (fun s => s.phase) = some .gone := by
      decide +kernel
    exact Option.map_eq_some_iff.mp hphase
  have hchecked : EachStep step start onePass (fun s a =>
      s.Orderly a ∧ s.Provided a ∧ (s.step a).all (fun s' => !s'.stale) = true) := by
    decide +kernel
  have horderly : EachStep step start onePass
      (fun s a => s.Orderly a ∧ s.Provided a ∧ s.Readable a) := by
    intro pre a hpre m m' hm hstep
    obtain ⟨horderly, hprovided, hsound⟩ := hchecked pre a hpre m m' hm hstep
    rw [hstep] at hsound
    exact ⟨horderly, hprovided, (exec_backed hm).kept.readable (by simpa using hsound) hstep⟩
  obtain ⟨hsound, hfreed⟩ := unloading_clean.1 onePass s hs horderly
  exact ⟨s, hs, hgone, hsound, hfreed hgone⟩

end Kmod

end Kmlab
end PastWork
