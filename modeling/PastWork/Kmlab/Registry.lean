import PastWork.Library.Decimals
import PastWork.Library.Rings
import PastWork.Library.Strings

/-!
# The registration list

`registration_list` is a kernel list that is threaded through its blocks.  The
functions here run while `access_lock` is held: the registration of a pid, the
status text, and the pass of the work handler, which deletes while it iterates.

A block is known by its address; following a link to a block that has been freed
is a fault.
-/

namespace PastWork
namespace Kmlab

open Rings

abbrev MAX_BUF_SIZE : Nat := 4096

abbrev Address := Nat

/-- A `struct list_head`: the head of the list, or the field of a block. -/
inductive Node where
  | registration_list
  | next (block : Address)
deriving DecidableEq, Repr

/-- `struct registration_block` without its links. -/
structure RegistrationBlock where
  pid : Int
  used_time : UInt64
deriving DecidableEq, Repr

/-- The processes that exist, by pid, with their `utime`. -/
abbrev Tasks := Int → Option UInt64

/-- `get_cpu_use`: what it returns, and `*cpu_use` afterwards. -/
def getCpuUse (tasks : Tasks) (pid : Int) (cpu_use : UInt64) : Int × UInt64 :=
  match tasks pid with
  | some utime => (0, utime)
  | none => (-1, cpu_use)

/-- `LIST_POISON1` and `LIST_POISON2` -/
def LIST_POISON1 : Node := .next 0x100
def LIST_POISON2 : Node := .next 0x122

def ENOMEM : Int := 12
def EFAULT : Int := 14

/-- The links and the blocks that are allocated. -/
structure Registry where
  links : Heads Node
  blocks : Address → Option RegistrationBlock

namespace Registry

/-- `LIST_HEAD(registration_list)` -/
def empty : Registry where
  links :=
    { next := fun _ => .registration_list
      prev := fun _ => .registration_list }
  blocks := fun _ => none

/-- The memory of a node can be used. -/
def touch (r : Registry) : Node → Result Unit
  | .registration_list => .ok ()
  | .next block => do
      let _ ← deref (r.blocks block)
      .ok ()

/-- The `next` of a node. -/
def link (r : Registry) (node : Node) : Result Node := do
  r.touch node
  .ok (r.links.next node)

/-- `list_entry(node)`: the address of the block around a node. -/
def entry : Node → Result Address
  | .registration_list => .error .outOfBounds
  | .next block => .ok block

def setBlock
    (r : Registry) (block : Address) (b : Option RegistrationBlock) : Registry :=
  { r with blocks := Function.update r.blocks block b }

/-- `list_add(node, &registration_list)` -/
def listAdd (r : Registry) (node : Node) : Result Registry := do
  r.touch node
  r.touch (r.links.next .registration_list)
  .ok { r with links := r.links.add node .registration_list }

/-- `list_del(node)` -/
def listDel (r : Registry) (node : Node) : Result Registry := do
  r.touch node
  r.touch (r.links.next node)
  r.touch (r.links.prev node)
  .ok { r with links := r.links.del node LIST_POISON1 LIST_POISON2 }

/-- A round of the search in `__register_pid`. -/
def retrace (pid_val : Int) (cur : Node) (r : Registry) :
    Result (ForInStep Registry) := do
  let block ← entry cur
  let b ← deref (r.blocks block)
  if b.pid = pid_val then .ok (.done r) else .ok (.yield r)

/-- `__register_pid`; `new_block_ptr` is what `kmalloc` returns. -/
def registerPid
    (r : Registry) (fuel : Nat) (new_block_ptr : Option Address)
    (pid_val : Int) (used_time : UInt64) : Result (Int × Registry) := do
  match ← forEach link .registration_list (retrace pid_val) fuel r with
  | .done r => .ok (-EFAULT, r)
  | .yield r => do
      let block ← deref new_block_ptr
      let r := r.setBlock block (some { pid := pid_val, used_time := used_time })
      let r := { r with links := r.links.init (.next block) }
      let r ← r.listAdd (.next block)
      .ok (0, r)

/-- The variables of `__get_status`. -/
structure Status where
  registry : Registry
  length : Nat
  kern_buf : Buffer MAX_BUF_SIZE

/-- `"PID[%d]: %lu\n"` -/
def statusLine (b : RegistrationBlock) : CStr :=
  literal "PID[" ++ Decimals.numeral b.pid ++ literal "]: " ++
    Decimals.numeral b.used_time.toNat ++ literal "\n"

def printEntry (cur : Node) (s : Status) : Result (ForInStep Status) := do
  let block ← entry cur
  let b ← deref (s.registry.blocks block)
  let kern_buf ← s.kern_buf.strcpy s.length (statusLine b)
  .ok
    (.yield
      { s with
        length := s.length + (statusLine b).length
        kern_buf := kern_buf })

/-- `__get_status` -/
def getStatus
    (r : Registry) (fuel : Nat) (kern_buf : Buffer MAX_BUF_SIZE) :
    Result (ForInStep Status) :=
  forEach (fun s => s.registry.link) .registration_list printEntry fuel
    { registry := r, length := 0, kern_buf := kern_buf }

/-- The registry during a pass, and how many entries have been visited. -/
structure Pass where
  registry : Registry
  visited : Nat

/-- A round of `__work_handler`; `tasks k` are the processes at entry `k`. -/
def updateEntry (tasks : Nat → Tasks) (cur : Node) (s : Pass) :
    Result (ForInStep Pass) := do
  let block ← entry cur
  let b ← deref (s.registry.blocks block)
  let (ret, used_time) := getCpuUse (tasks s.visited) b.pid b.used_time
  let r := s.registry.setBlock block (some { b with used_time := used_time })
  if ret ≠ 0 then do
    let r ← r.listDel cur
    let r := r.setBlock block none
    .ok (.yield { registry := r, visited := s.visited + 1 })
  else
    .ok (.yield { registry := r, visited := s.visited + 1 })

/-- `__work_handler` -/
def workHandler (r : Registry) (fuel : Nat) (tasks : Nat → Tasks) :
    Result Registry := do
  match ← forEach (fun s => s.registry.link) .registration_list
      (updateEntry tasks) fuel { registry := r, visited := 0 } with
  | .done s => .ok s.registry
  | .yield s => .ok s.registry

section Contents

abbrev Entries := List (Address × RegistrationBlock)

def nodes (entries : Entries) : List Node :=
  entries.map (fun e => .next e.1)

/-- The list holds these entries, in this order, and no other block is allocated. -/
structure Holds (r : Registry) (entries : Entries) : Prop where
  ring : Ring r.links .registration_list (nodes entries)
  blocks : ∀ block b, r.blocks block = some b ↔ (block, b) ∈ entries

theorem empty_holds :
    empty.Holds [] where
  ring :=
    { path := ⟨rfl, rfl⟩
      nodup := List.nodup_singleton _ }
  blocks := by
    intro block b
    simp [empty]

variable {r : Registry} {entries done todo : Entries}
  {e : Address × RegistrationBlock}

theorem Holds.deref_eq
    (h : r.Holds entries)
    (he : e ∈ entries) :
    deref (r.blocks e.1) = .ok e.2 := by
  rw [(h.blocks e.1 e.2).mpr he, deref_some]

theorem Holds.touch_eq
    {node : Node}
    (h : r.Holds entries)
    (hnode : node ∈ .registration_list :: nodes entries) :
    r.touch node = .ok () := by
  rcases List.mem_cons.mp hnode with rfl | hmem
  · rfl
  · obtain ⟨e, he, rfl⟩ := List.mem_map.mp hmem
    rw [touch, h.deref_eq he]
    rfl

theorem Holds.link_head
    (h : r.Holds entries) :
    r.link .registration_list =
      .ok ((nodes entries).headD .registration_list) := by
  rw [link, h.touch_eq List.mem_cons_self, h.ring.next_head]
  rfl

theorem Holds.link_node
    (h : r.Holds (done ++ e :: todo)) :
    r.link (.next e.1) = .ok ((nodes todo).headD .registration_list) := by
  have hring := h.ring
  rw [nodes, List.map_append, List.map_cons] at hring
  rw [link, h.touch_eq (by simp [nodes]), hring.next_node]
  rfl

/-- No two blocks have the same address. -/
theorem Holds.nodup
    (h : r.Holds entries) :
    (entries.map Prod.fst).Nodup := by
  have hnodes := (List.nodup_cons.mp h.ring.nodup).2
  have hmap : nodes entries = (entries.map Prod.fst).map Node.next := by
    rw [nodes, List.map_map]
    rfl
  rw [hmap] at hnodes
  exact hnodes.of_map

/-- There is one list of entries that a registry holds. -/
theorem Holds.unique
    {entries' : Entries}
    (h : r.Holds entries) (h' : r.Holds entries') :
    entries = entries' := by
  have haddress : entries.map Prod.fst = entries'.map Prod.fst := by
    have hnodes := h.ring.unique h'.ring
    refine List.map_injective_iff.mpr (fun a b => Node.next.inj) ?_
    simpa [nodes, Function.comp_def] using hnodes
  refine List.ext_getElem? (fun i => ?_)
  have hi := congrArg (fun l => l[i]?) haddress
  simp only [List.getElem?_map] at hi
  cases he : entries[i]? with
  | none =>
      rw [he, Option.map_none] at hi
      exact (Option.map_eq_none_iff.mp hi.symm).symm
  | some e =>
      rw [he, Option.map_some] at hi
      obtain ⟨e', he', hfst⟩ := Option.map_eq_some_iff.mp hi.symm
      have hmem := (h.blocks e.1 e.2).mpr (List.mem_of_getElem? he)
      have hmem' := (h'.blocks e'.1 e'.2).mpr (List.mem_of_getElem? he')
      rw [hfst, hmem] at hmem'
      rw [he', Prod.ext hfst (Option.some_inj.mp hmem').symm]

end Contents

section Registration

variable {r : Registry} {entries : Entries} {pid_val : Int}

/-- The search visits the entries until it finds the pid. -/
theorem retrace_visits
    (h : r.Holds entries) (pid_val : Int) :
    Visits link .registration_list (retrace pid_val)
      (fun ys s => s = r ∧ ∃ done todo, entries = done ++ todo ∧
        ys = nodes todo ∧ ∀ e ∈ done, e.2.pid ≠ pid_val)
      (fun out =>
        (out = .done r ∧ ∃ e ∈ entries, e.2.pid = pid_val) ∨
          (out = .yield r ∧ ∀ e ∈ entries, e.2.pid ≠ pid_val)) where
  read := by
    rintro y ys s ⟨rfl, done, _ | ⟨e, todo⟩, rfl, hys, _⟩
    · cases hys
    · obtain ⟨rfl, rfl⟩ := List.cons.inj hys
      exact ⟨Node.noConfusion, h.link_node⟩
  round := by
    rintro y ys s ⟨rfl, done, _ | ⟨e, todo⟩, rfl, hys, hdone⟩
    · cases hys
    · obtain ⟨rfl, rfl⟩ := List.cons.inj hys
      have hderef := h.deref_eq (e := e) (by simp)
      by_cases hpid : e.2.pid = pid_val
      · refine .inl ⟨s, ?_, .inl ⟨rfl, e, by simp, hpid⟩⟩
        rw [retrace, entry, Result.ok_bind, hderef, Result.ok_bind, if_pos hpid]
      · refine .inr ⟨s, ?_, rfl, done ++ [e], todo, by simp, rfl, ?_⟩
        · rw [retrace, entry, Result.ok_bind, hderef, Result.ok_bind,
            if_neg hpid]
        · intro e' he'
          rcases List.mem_append.mp he' with he' | he'
          · exact hdone e' he'
          · rw [List.mem_singleton.mp he']
            exact hpid
  last := by
    rintro s ⟨rfl, done, todo, rfl, hys, hdone⟩
    obtain rfl : todo = [] := List.map_eq_nil_iff.mp hys.symm
    refine ⟨⟨_, h.link_head⟩, .inr ⟨rfl, ?_⟩⟩
    rwa [List.append_nil]

/-- A new block is put right after the head. -/
theorem Holds.listAdd
    {block : Address} {b : RegistrationBlock}
    (h : r.Holds entries)
    (hfree : r.blocks block = none) :
    ∃ r', Registry.listAdd
        { links := r.links.init (.next block)
          blocks := Function.update r.blocks block (some b) }
        (.next block) = .ok r' ∧
      r'.Holds ((block, b) :: entries) := by
  have hother : ∀ e ∈ entries, e.1 ≠ block := by
    rintro e he rfl
    rw [(h.blocks e.1 e.2).mpr he] at hfree
    cases hfree
  have hnew : Node.next block ∉ .registration_list :: nodes entries := by
    intro hmem
    rcases List.mem_cons.mp hmem with heq | hmem
    · cases heq
    · obtain ⟨e, he, heq⟩ := List.mem_map.mp hmem
      exact hother e he (Node.next.inj heq)
  have hring := init_congr h.ring hnew
  have hself : touch
      { links := r.links.init (.next block)
        blocks := Function.update r.blocks block (some b) }
      (.next block) = .ok () := by
    simp [touch]
  have hnext : touch
      { links := r.links.init (.next block)
        blocks := Function.update r.blocks block (some b) }
      ((nodes entries).headD .registration_list) = .ok () := by
    cases entries with
    | nil => rfl
    | cons e entries =>
        have he := hother e List.mem_cons_self
        simp [nodes, touch, Function.update_of_ne he,
          (h.blocks e.1 e.2).mpr List.mem_cons_self]
  refine ⟨⟨(r.links.init (.next block)).add (.next block) .registration_list,
    Function.update r.blocks block (some b)⟩, ?_, hring.add hnew, ?_⟩
  · rw [Registry.listAdd, hself, Result.ok_bind, hring.next_head, hnext,
      Result.ok_bind]
  · intro block' b'
    by_cases heq : block' = block
    · subst heq
      have hnone : (block', b') ∉ entries := fun he => hother _ he rfl
      simp [hnone, eq_comm]
    · simp [heq, h.blocks]

/-- A registration finds the pid, or puts a new block first. -/
theorem registerPid_spec
    {new_block_ptr : Option Address}
    (h : r.Holds entries)
    (hfree : ∀ block, new_block_ptr = some block → r.blocks block = none)
    (fuel : Nat) (pid_val : Int) (used_time : UInt64) :
    (r.registerPid fuel new_block_ptr pid_val used_time).Ensures (fun out =>
      (out = (-EFAULT, r) ∧ ∃ e ∈ entries, e.2.pid = pid_val) ∨
        ∃ block, new_block_ptr = some block ∧ out.1 = 0 ∧
          (∀ e ∈ entries, e.2.pid ≠ pid_val) ∧
          out.2.Holds
            ((block, { pid := pid_val, used_time := used_time }) ::
              entries)) := by
  have hloop := (forEach_rule (retrace_visits h pid_val)
    ⟨rfl, [], entries, rfl, rfl, by simp⟩ h.link_head fuel).1
  intro out hout
  rw [registerPid] at hout
  obtain ⟨found, hfound, hout⟩ := Result.bind_eq_ok hout
  rcases hloop found hfound with ⟨rfl, hpid⟩ | ⟨rfl, hpid⟩
  · cases hout
    exact .inl ⟨rfl, hpid⟩
  · cases new_block_ptr with
    | none => cases hout
    | some block =>
        obtain ⟨r', hr', hholds⟩ := h.listAdd
          (b := { pid := pid_val, used_time := used_time }) (hfree block rfl)
        simp only [deref_some, Result.ok_bind, setBlock, hr'] at hout
        cases hout
        exact .inr ⟨block, rfl, rfl, hpid, hholds⟩

/-- With memory for the block nothing is used that is not there. -/
theorem registerPid_sound
    {block : Address} {fuel : Nat} {pid_val : Int} {used_time : UInt64} {e : Fault}
    (h : r.Holds entries)
    (hfree : r.blocks block = none)
    (he : r.registerPid fuel (some block) pid_val used_time = .error e) :
    e = .endless := by
  rw [registerPid] at he
  rcases forEach_outcome (retrace_visits h pid_val)
    ⟨rfl, [], entries, rfl, rfl, by simp⟩ h.link_head fuel with
    ⟨found, hfound, ⟨rfl, _⟩ | ⟨rfl, _⟩⟩ | ⟨_, hendless⟩
  · rw [hfound] at he
    cases he
  · obtain ⟨r', hr', _⟩ := h.listAdd
      (b := { pid := pid_val, used_time := used_time }) hfree
    rw [hfound] at he
    simp only [deref_some, Result.ok_bind, setBlock, hr'] at he
    cases he
  · rw [hendless, Result.error_bind] at he
    exact (Except.error.inj he).symm

end Registration

section Passes

/-- What a pass makes of an entry. -/
def refresh (tasks : Tasks) (b : RegistrationBlock) : Option RegistrationBlock :=
  let (ret, used_time) := getCpuUse tasks b.pid b.used_time
  if ret = 0 then some { b with used_time := used_time } else none

/-- The entries that are accepted at a pass, with their new times; the first one
is looked up in `tasks k`, the next one in `tasks (k + 1)`, and so on. -/
def refreshAll (tasks : Nat → Tasks) (k : Nat) (entries : Entries) : Entries :=
  (entries.zipIdx k).filterMap (fun p =>
    (refresh (tasks p.2) p.1.2).map (fun b => (p.1.1, b)))

theorem refreshAll_snoc
    (tasks : Nat → Tasks) (entries : Entries)
    (e : Address × RegistrationBlock) :
    refreshAll tasks 0 (entries ++ [e]) =
      refreshAll tasks 0 entries ++
        ((refresh (tasks entries.length) e.2).map (fun b => (e.1, b))).toList := by
  rw [refreshAll, List.zipIdx_append, List.filterMap_append, refreshAll]
  congr 1
  simp only [List.zipIdx_cons, List.zipIdx_nil, Nat.zero_add]
  cases h : refresh (tasks entries.length) e.2 <;> simp [h]

variable {r : Registry} {entries done todo : Entries}
  {e : Address × RegistrationBlock}

theorem Holds.ring_split
    (h : r.Holds (done ++ e :: todo)) :
    Ring r.links .registration_list
      (nodes done ++ .next e.1 :: nodes todo) := by
  have hring := h.ring
  rwa [nodes, List.map_append, List.map_cons] at hring

/-- The other entries have other addresses. -/
theorem Holds.apart
    (h : r.Holds (done ++ e :: todo)) (b : RegistrationBlock) :
    (e.1, b) ∉ done ∧ (e.1, b) ∉ todo := by
  have hnodup := h.nodup
  rw [List.map_append, List.map_cons] at hnodup
  obtain ⟨_, htodo, hdone⟩ := List.nodup_append.mp hnodup
  constructor
  · intro hmem
    have hfst : e.1 ∈ done.map Prod.fst := List.mem_map.mpr ⟨_, hmem, rfl⟩
    exact hdone e.1 hfst e.1 List.mem_cons_self rfl
  · intro hmem
    have hfst : e.1 ∈ todo.map Prod.fst := List.mem_map.mpr ⟨_, hmem, rfl⟩
    exact (List.nodup_cons.mp htodo).1 hfst

/-- The block of an entry is written. -/
theorem Holds.setBlock
    (h : r.Holds (done ++ e :: todo)) (b : RegistrationBlock) :
    (r.setBlock e.1 (some b)).Holds (done ++ (e.1, b) :: todo) where
  ring := by
    have hring := h.ring_split
    simpa [nodes, Registry.setBlock] using hring
  blocks := by
    intro block b'
    by_cases heq : block = e.1
    · subst heq
      obtain ⟨hdone, htodo⟩ := h.apart b'
      simp [Registry.setBlock, hdone, htodo, eq_comm]
    · have hne : (block, b') ≠ e := fun he => heq (congrArg Prod.fst he)
      have hold := h.blocks block b'
      simp only [List.mem_append, List.mem_cons, hne, false_or] at hold
      simp [Registry.setBlock, heq, hold]

/-- An entry is unlinked and its block freed. -/
theorem Holds.listDel
    (h : r.Holds (done ++ e :: todo)) :
    ∃ r', r.listDel (.next e.1) = .ok r' ∧
      (r'.setBlock e.1 none).Holds (done ++ todo) := by
  have hring := h.ring_split
  have hself : r.touch (.next e.1) = .ok () :=
    h.touch_eq (by simp [nodes])
  have hnext : r.touch (r.links.next (.next e.1)) = .ok () := by
    refine h.touch_eq ?_
    rw [hring.next_node]
    cases todo <;> simp [nodes]
  have hprev : r.touch (r.links.prev (.next e.1)) = .ok () := by
    refine h.touch_eq ?_
    have hmem := hring.prev_mem
    simp only [nodes, List.map_append, List.mem_cons, List.mem_append] at hmem ⊢
    exact hmem.imp_right .inl
  refine ⟨{ r with links := r.links.del (.next e.1) LIST_POISON1 LIST_POISON2 },
    ?_, ?_, ?_⟩
  · rw [Registry.listDel, hself, Result.ok_bind, hnext, Result.ok_bind, hprev,
      Result.ok_bind]
  · have hdel : Ring (r.links.del (.next e.1) LIST_POISON1 LIST_POISON2)
        .registration_list (nodes done ++ nodes todo) := hring.del
    rwa [nodes, List.map_append]
  · intro block b'
    by_cases heq : block = e.1
    · subst heq
      obtain ⟨hdone, htodo⟩ := h.apart b'
      simp [Registry.setBlock, hdone, htodo]
    · have hne : (block, b') ≠ e := fun he => heq (congrArg Prod.fst he)
      have hold := h.blocks block b'
      simp only [List.mem_append, List.mem_cons, hne, false_or] at hold
      simp [Registry.setBlock, heq, hold]

theorem updateEntry_visits
    (h : r.Holds entries) (tasks : Nat → Tasks) :
    Visits (fun s => s.registry.link) .registration_list (updateEntry tasks)
      (fun ys s => ∃ done todo, entries = done ++ todo ∧ ys = nodes todo ∧
        s.visited = done.length ∧
          s.registry.Holds (refreshAll tasks 0 done ++ todo))
      (fun out => ∃ s, out = .yield s ∧
        s.registry.Holds (refreshAll tasks 0 entries)) where
  read := by
    rintro y ys s ⟨done, _ | ⟨e, todo⟩, rfl, hys, _, hs⟩
    · cases hys
    · obtain ⟨rfl, rfl⟩ := List.cons.inj hys
      exact ⟨Node.noConfusion, hs.link_node⟩
  round := by
    rintro y ys s ⟨done, _ | ⟨e, todo⟩, rfl, hys, hvisited, hs⟩
    · cases hys
    · obtain ⟨rfl, rfl⟩ := List.cons.inj hys
      have hderef := hs.deref_eq (e := e) (by simp)
      have hsnoc := refreshAll_snoc tasks done e
      right
      cases htask : tasks done.length e.2.pid with
      | some utime =>
          refine ⟨⟨s.registry.setBlock e.1
              (some { e.2 with used_time := utime }), s.visited + 1⟩, ?_,
            done ++ [e], todo, by simp, rfl, by simp [hvisited], ?_⟩
          · simp [updateEntry, entry, hderef, hvisited, getCpuUse, htask]
          · rw [hsnoc]
            simpa [refresh, getCpuUse, htask] using
              hs.setBlock { e.2 with used_time := utime }
      | none =>
          have hsame := hs.setBlock e.2
          obtain ⟨r', hr', hholds⟩ := hsame.listDel
          refine ⟨⟨r'.setBlock e.1 none, s.visited + 1⟩, ?_,
            done ++ [e], todo, by simp, rfl, by simp [hvisited], ?_⟩
          · simp [updateEntry, entry, hderef, hvisited, getCpuUse, htask, hr']
          · rw [hsnoc]
            simpa [refresh, getCpuUse, htask] using hholds
  last := by
    rintro s ⟨done, todo, rfl, hys, _, hs⟩
    obtain rfl : todo = [] := List.map_eq_nil_iff.mp hys.symm
    refine ⟨⟨_, hs.link_head⟩, s, rfl, ?_⟩
    simpa using hs

/-- A pass leaves the entries that are accepted, and with enough fuel it ends. -/
theorem workHandler_spec
    (h : r.Holds entries) (fuel : Nat) (tasks : Nat → Tasks) :
    (r.workHandler fuel tasks).Ensures
        (fun r' => r'.Holds (refreshAll tasks 0 entries)) ∧
      (entries.length < fuel → ∃ r', r.workHandler fuel tasks = .ok r') := by
  obtain ⟨hensures, hreturns⟩ := forEach_rule (updateEntry_visits h tasks)
    (s := { registry := r, visited := 0 })
    ⟨[], entries, rfl, rfl, rfl, h⟩ h.link_head fuel
  constructor
  · intro r' hr'
    rw [workHandler] at hr'
    obtain ⟨out, hout, hr'⟩ := Result.bind_eq_ok hr'
    obtain ⟨s, rfl, hs⟩ := hensures out hout
    cases hr'
    exact hs
  · intro hlt
    obtain ⟨out, hout⟩ := hreturns (by simpa [nodes] using hlt)
    obtain ⟨s, rfl, _⟩ := hensures out hout
    exact ⟨s.registry, by rw [workHandler, hout, Result.ok_bind]⟩

/-- A pass uses nothing that is not there. -/
theorem workHandler_sound
    {fuel : Nat} {tasks : Nat → Tasks} {f : Fault}
    (h : r.Holds entries)
    (hf : r.workHandler fuel tasks = .error f) :
    f = .endless := by
  rw [workHandler] at hf
  rcases forEach_outcome (updateEntry_visits h tasks)
    (s := { registry := r, visited := 0 })
    ⟨[], entries, rfl, rfl, rfl, h⟩ h.link_head fuel with
    ⟨out, hout, s, rfl, _⟩ | ⟨_, hendless⟩
  · rw [hout] at hf
    cases hf
  · rw [hendless, Result.error_bind] at hf
    exact (Except.error.inj hf).symm

end Passes

end Registry

end Kmlab
end PastWork
