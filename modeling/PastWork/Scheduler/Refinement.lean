import PastWork.Scheduler.Unlink

/-!
# The simulator refines the machine: up to the dispatch

`Represents s a` relates a state with its linked queues to a machine with plain
lists.  From related states every routine returns and leads to related states
again.  This module treats `proceedForward`, `execxuteB`, `creation` and the
timers.
-/

namespace PastWork
namespace Scheduler

open Links

/-- The queues of the state hold the lists of the machine, and everything but
the links is the same. -/
structure Represents (s : State) (a : Machine) : Prop where
  threaded : Threaded s a.ready a.pause a.block
  globals : s.toGlobals.unlink = a.toGlobals

section Access

variable {s : State} {a : Machine}

/-- A field other than a link can be read in the machine. -/
theorem Represents.field
    {β : Type}
    (h : Represents s a)
    (field : Process → β)
    (hfield : ∀ q, field q.unlink = field q)
    (i : Nat) :
    field (s.Prime i) = field (a.Prime i) := by
  have hprime : (s.Prime i).unlink = a.Prime i :=
    congrFun (congrArg Globals.Prime h.globals) i
  rw [← hprime, hfield]

/-- A global other than a queue pointer can be read in the machine. -/
theorem Represents.global
    {β : Type}
    (h : Represents s a)
    (field : Globals → β)
    (hfield : ∀ g, field g.unlink = field g) :
    field s.toGlobals = field a.toGlobals := by
  rw [← h.globals, hfield]

theorem Represents.countPrime
    (h : Represents s a) :
    s.countPrime = a.countPrime :=
  h.global Globals.countPrime (fun _ => rfl)

theorem Represents.selection
    (h : Represents s a) :
    s.selection = a.selection :=
  h.global Globals.selection (fun _ => rfl)

theorem Represents.present
    (h : Represents s a) :
    s.present = a.present :=
  h.global Globals.present (fun _ => rfl)

theorem Represents.namelessOp
    (h : Represents s a) :
    s.namelessOp = a.namelessOp :=
  h.global Globals.namelessOp (fun _ => rfl)

theorem Represents.completion
    (h : Represents s a) :
    s.completion = a.completion :=
  h.global Globals.completion (fun _ => rfl)

theorem Represents.infinity
    (h : Represents s a) :
    s.infinity = a.infinity :=
  h.global Globals.infinity (fun _ => rfl)

theorem Represents.totalPrime
    (h : Represents s a) :
    s.totalPrime = a.totalPrime :=
  h.global Globals.totalPrime (fun _ => rfl)

/-- Writing to a process, without its links. -/
theorem Represents.modify
    {i : Nat} {f : Process → Process}
    (h : Represents s a)
    (hf : LinkFree f) :
    Represents (s.modify i f) (a.modify i f) where
  threaded := h.threaded.modify hf
  globals := by
    rw [unlink_modify hf, h.globals]
    rfl

/-- A change of the globals that has nothing to do with links. -/
structure Plain (F : Globals → Globals) : Prop where
  freshPrime : ∀ g i, ((F g).Prime i).freshPrime = (g.Prime i).freshPrime
  pushPrimeForward : ∀ g i,
    ((F g).Prime i).pushPrimeForward = (g.Prime i).pushPrimeForward
  pushBlock : ∀ g i, ((F g).Prime i).pushBlock = (g.Prime i).pushBlock
  unlink : ∀ g, (F g).unlink = F g.unlink

theorem Represents.plain
    {F : Globals → Globals}
    (h : Represents s a)
    (hF : Plain F) :
    Represents
      { s with toGlobals := F s.toGlobals }
      { a with toGlobals := F a.toGlobals } where
  threaded :=
    { readyLinks := h.threaded.readyLinks.congr (hF.freshPrime _)
      placement_eq := h.threaded.placement_eq
      pauseLinks := h.threaded.pauseLinks.congr (hF.pushPrimeForward _)
      PauseQ_eq := h.threaded.PauseQ_eq
      blockLinks := h.threaded.blockLinks.congr (hF.pushBlock _)
      BlockQ_eq := h.threaded.BlockQ_eq }
  globals := by
    rw [hF.unlink, h.globals]

/-- Writing a condition that the process has already changes nothing. -/
theorem Represents.setCondition_self
    {i : Nat} {c : Condition}
    (h : Represents s a)
    (hc : (a.Prime i).condition = c) :
    Represents (s.setCondition i c) a := by
  have hsame : a.modify i (fun q => { q with condition := c }) = a := by
    have hupdate :
        update a.Prime i (fun q => { q with condition := c }) = a.Prime := by
      funext j
      by_cases hj : j = i
      · subst hj
        subst hc
        exact update_same _ _ _
      · exact update_ne _ _ hj
    simp only [Machine.modify, hupdate]
  rw [← hsame]
  exact h.modify (setCondition_linkFree c)

/-- `Qsetup` appends to the ready list. -/
theorem Represents.qsetup
    {i : Nat}
    (h : Represents s a)
    (hi : i ∉ a.ready)
    (hlen : a.ready.length + 1 < 2 ^ 32) :
    ∃ s', Scheduler.qsetup (some i) s = .ok s' ∧
      Represents s' { a with ready := a.ready ++ [i] } := by
  obtain ⟨s', hs', hthreaded, hglobals⟩ := qsetup_spec h.threaded hi hlen
  exact ⟨s', hs', hthreaded, hglobals.trans h.globals⟩

theorem Represents.insertB
    {i : Nat}
    (h : Represents s a)
    (hi : i ∉ a.block)
    (hlen : a.block.length + 1 < 2 ^ 32) :
    Represents (Scheduler.insertB (some i) s)
      { a with block := a.block ++ [i] } := by
  obtain ⟨hthreaded, hglobals⟩ := insertB_spec h.threaded hi hlen
  exact ⟨hthreaded, hglobals.trans h.globals⟩

end Access

section Bounds

variable {a : Machine}

/-- No list of distinct processes fills a `uint32_t` counter. -/
theorem Machine.Queued.length_lt
    {l : List Nat}
    (h : a.Queued)
    (hnd : l.Nodup)
    (hlt : ∀ i ∈ l, i < a.countPrime) :
    l.length < 2 ^ 32 :=
  (length_le_of_nodup hnd hlt).trans_lt h.fits

theorem Machine.Queued.ready_nodup
    (h : a.Queued) :
    a.ready.Nodup :=
  (List.nodup_append.mp h.waiting_nodup).1

theorem Machine.Queued.pause_nodup
    (h : a.Queued) :
    a.pause.Nodup :=
  (List.nodup_append.mp h.waiting_nodup).2.1

theorem Machine.Queued.ready_spec
    (h : a.Queued)
    {i : Nat} (hi : i ∈ a.ready) :
    i < a.countPrime ∧ (a.Prime i).condition = .ready :=
  h.waiting_spec i (List.mem_append_left _ hi)

theorem Machine.Queued.pause_spec
    (h : a.Queued)
    {i : Nat} (hi : i ∈ a.pause) :
    i < a.countPrime ∧ (a.Prime i).condition = .ready :=
  h.waiting_spec i (List.mem_append_right _ hi)

theorem Machine.Queued.ready_length
    (h : a.Queued) :
    a.ready.length ≤ a.countPrime :=
  length_le_of_nodup h.ready_nodup (fun _ hi => (h.ready_spec hi).1)

theorem Machine.Queued.block_length
    (h : a.Queued) :
    a.block.length ≤ a.countPrime :=
  length_le_of_nodup h.block_nodup (fun i hi => ((h.block_iff i).mp hi).1)

/-- A process that is not ready leaves room in the ready queue. -/
theorem Machine.Queued.ready_room
    {p : Nat}
    (h : a.Queued)
    (hp : p < a.countPrime)
    (hmem : p ∉ a.ready) :
    a.ready.length + 1 < 2 ^ 32 := by
  have hnd : (p :: a.ready).Nodup :=
    List.nodup_cons.mpr ⟨hmem, h.ready_nodup⟩
  have hlen := h.length_lt hnd (fun i hi => by
    rcases List.mem_cons.mp hi with rfl | hi
    · exact hp
    · exact (h.ready_spec hi).1)
  simpa using hlen

theorem Machine.Queued.block_room
    {p : Nat}
    (h : a.Queued)
    (hp : p < a.countPrime)
    (hmem : p ∉ a.block) :
    a.block.length + 1 < 2 ^ 32 := by
  have hnd : (p :: a.block).Nodup :=
    List.nodup_cons.mpr ⟨hmem, h.block_nodup⟩
  have hlen := h.length_lt hnd (fun i hi => by
    rcases List.mem_cons.mp hi with rfl | hi
    · exact hp
    · exact ((h.block_iff i).mp hi).1)
  simpa using hlen

end Bounds

section Forward

variable {d : Policy} {s : State} {a : Machine} {p : Nat}

theorem update_const
    (m : Nat → Process) (i : Nat) (f : Process → Process) :
    update m i (fun _ => f (m i)) = update m i f := by
  funext j
  by_cases h : j = i
  · subst h
    simp
  · simp [h]

/-- The globals after the process `p` has been put into `terminateAlg`. -/
def Globals.finish (d : Policy) (p : Nat) (g : Globals) : Globals :=
  { g with
    terminateAlg := fun k =>
      if k = g.completion then some (g.Prime p) else g.terminateAlg k
    completion := incr g.completion
    namelessOp := if d = .block then none else g.namelessOp
    selection := none }

theorem finish_plain
    (d : Policy) (p : Nat) :
    Plain (Globals.finish d p) where
  freshPrime := fun _ _ => rfl
  pushPrimeForward := fun _ _ => rfl
  pushBlock := fun _ _ => rfl
  unlink := fun g => by
    apply Globals.ext <;> try rfl
    funext k
    simp only [Globals.finish, Globals.unlink]
    by_cases hk : k = g.completion <;> simp [hk]

theorem finish_linkFree
    (present : Nat) :
    LinkFree (fun q =>
      { q with
        condition := .terminated
        finishingTime := toInt32 present }) := by
  constructor <;> intro q <;> rfl

/-- The end of the branch of `proceedForward` for a finished process. -/
theorem finish_eq
    (hlt : s.completion < s.countPrime) :
    (do
      let s ← writeTerminated p s
      let s := { s with completion := incr s.completion }
      let s := if d = .block then { s with namelessOp := none } else s
      Except.ok { s with selection := none } : Result State) =
      .ok { s with toGlobals := Globals.finish d p s.toGlobals } := by
  simp only [writeTerminated, hlt, if_true, Result.ok_bind, Globals.finish]
  by_cases hd : d = .block <;> simp [hd]

/-- `proceedForward` reads fields that its charge leaves alone. -/
theorem Represents.charged_field
    {β : Type}
    (h : Represents s a)
    (field : Process → β)
    (hfield : ∀ q, field q.unlink = field q)
    (hcharge : ∀ q, field q.chargeBurst = field q) :
    field ((s.modify p Process.chargeBurst).Prime p) =
      field (a.Prime p) := by
  rw [(h.modify (i := p) chargeBurst_linkFree).field field hfield]
  simp [Machine.modify, hcharge]

theorem terminate_eq :
    a.terminate d p =
      { (a.modify p Process.chargeBurst).modify p (fun q =>
          { q with
            condition := .terminated
            finishingTime := toInt32 a.present }) with
        toGlobals := Globals.finish d p
          ((a.modify p Process.chargeBurst).modify p (fun q =>
            { q with
              condition := .terminated
              finishingTime := toInt32 a.present })).toGlobals } := by
  simp only [Machine.terminate, Machine.modify, Globals.finish,
    update_update, update_same]
  rw [update_const a.Prime p (fun q => { q.chargeBurst with
    condition := .terminated
    finishingTime := toInt32 a.present })]

theorem blockRunning_eq :
    a.blockRunning p =
      { (a.modify p Process.chargeBurst).modify p
          (fun q => { q with condition := .blocked }) with
        block := a.block ++ [p]
        selection := none } := by
  simp only [Machine.blockRunning, Machine.modify, update_update]

theorem preempt_eq :
    a.preempt p =
      { (a.modify p Process.chargeBurst).modify p
          (fun q => { q with condition := .ready }) with
        ready := a.ready ++ [p]
        selection := none } := by
  simp only [Machine.preempt, Machine.modify, update_update]

theorem keepRunning_eq :
    a.keepRunning p =
      (a.modify p Process.chargeBurst).modify p
        (fun q => { q with condition := .running }) := by
  simp only [Machine.keepRunning, Machine.modify, update_update]

theorem selection_plain :
    Plain (fun g => { g with selection := none }) := by
  constructor <;> intros <;> rfl

theorem Represents.proceedForward
    (h : Represents s a)
    (hq : a.Queued) :
    ∃ s', Scheduler.proceedForward d s = .ok s' ∧
      Represents s' (a.proceedForward d) := by
  cases hp : a.selection with
  | none =>
      have hsel := h.selection.trans hp
      refine ⟨s, ?_, ?_⟩
      · simp only [Scheduler.proceedForward, hsel]
      · simpa only [Machine.proceedForward, hp] using h
  | some p =>
      have hsel := h.selection.trans hp
      obtain ⟨hlt, hcond⟩ := (hq.selection_iff p).mp hp
      have hready : p ∉ a.ready := fun hmem => by
        have := (hq.ready_spec hmem).2
        simp [hcond] at this
      have hblock : p ∉ a.block := fun hmem => by
        have := ((hq.block_iff p).mp hmem).2
        simp [hcond] at this
      have h₁ := h.modify (i := p) chargeBurst_linkFree
      have hC := h.charged_field (p := p) Process.C (fun _ => rfl)
        (fun q => by rw [Process.chargeBurst_eq])
      have hcpu := h.charged_field (p := p) Process.CPUTime (fun _ => rfl)
        (fun q => by rw [Process.chargeBurst_eq])
      have hburst := h.charged_field (p := p) Process.CPUBurst (fun _ => rfl)
        (fun q => by rw [Process.chargeBurst_eq])
      have hquantum := h.charged_field (p := p) Process.quantum (fun _ => rfl)
        (fun q => by rw [Process.chargeBurst_eq])
      simp only [Scheduler.proceedForward, hsel, Machine.proceedForward, hp,
          hC, hcpu, hburst, hquantum]
      by_cases hdone : (a.Prime p).C = (a.Prime p).CPUTime
      · -- the process terminates
        rw [if_pos hdone, if_pos hdone]
        have hcompletion : a.completion < a.countPrime := by
          rw [hq.completion_eq]
          exact Machine.tally_lt hlt (by simp [hcond])
        have h₂ := h₁.modify (i := p) (finish_linkFree a.present)
        have h₃ := h₂.plain (finish_plain d p)
        have hpresent : (s.modify p Process.chargeBurst).present = a.present :=
          h.present
        rw [← terminate_eq] at h₃
        refine ⟨_, ?_, h₃⟩
        rw [hpresent]
        apply finish_eq
        rw [h₂.completion, h₂.countPrime]
        exact hcompletion
      rw [if_neg hdone, if_neg hdone]
      split_ifs with hzero hpreempt
      · -- the process starts an I/O
        have h₂ := h₁.modify (i := p) (setCondition_linkFree .blocked)
        have h₃ := h₂.insertB hblock (hq.block_room hlt hblock)
        rw [blockRunning_eq]
        exact ⟨_, rfl, h₃.plain selection_plain⟩
      · -- the process has used up its quantum
        have h₂ := h₁.modify (i := p) (setCondition_linkFree .ready)
        obtain ⟨s₃, hs₃, h₃⟩ :=
          h₂.qsetup hready (hq.ready_room hlt hready)
        have h₄ := h₃.plain selection_plain
        rw [preempt_eq]
        refine ⟨_, ?_, h₄⟩
        rw [State.setCondition, hs₃]
        rfl
      · -- the process goes on
        have h₂ := h₁.modify (i := p) (setCondition_linkFree .running)
        rw [keepRunning_eq]
        exact ⟨_, rfl, h₂⟩

end Forward

section Blocked

variable {s : State} {a : Machine} {p : Nat}

/-- Without an expired process the loop of `execxuteB` changes nothing. -/
theorem execxuteBFrom_unexpired
    {presentN : Ptr} {l : List Nat} {fuel : Nat}
    (hchain : Chain (fun i => (s.Prime i).pushBlock) presentN l)
    (hfuel : l.length ≤ fuel)
    (hnone : ∀ i ∈ l, (s.Prime i).expired = false) :
    execxuteBFrom fuel presentN s = .ok s := by
  induction l generalizing presentN fuel with
  | nil =>
      rw [chain_nil] at hchain
      subst hchain
      cases fuel <;> rfl
  | cons i l ih =>
      obtain ⟨rfl, htail⟩ := hchain
      cases fuel with
      | zero =>
          simp at hfuel
      | succ fuel =>
          simp only [execxuteBFrom, hnone i (by simp)]
          exact ih htail (by simpa using hfuel)
            (fun j hj => hnone j (by simp [hj]))

/-- The loop of `execxuteB` ends with the first process that it releases: the
link that it follows next has been cleared. -/
theorem execxuteBFrom_expired
    {s' : State} {presentN : Ptr} {pre post : List Nat} {fuel : Nat}
    (hchain : Chain (fun i => (s.Prime i).pushBlock) presentN
      (pre ++ p :: post))
    (hfuel : pre.length < fuel)
    (hnone : ∀ i ∈ pre, (s.Prime i).expired = false)
    (hp : (s.Prime p).expired = true)
    (hrelease : releaseBlocked p s = .ok s')
    (hlink : (s'.Prime p).pushBlock = none) :
    execxuteBFrom fuel presentN s = .ok s' := by
  induction pre generalizing presentN fuel with
  | nil =>
      obtain ⟨rfl, _⟩ := hchain
      cases fuel with
      | zero =>
          simp at hfuel
      | succ fuel =>
          simp only [execxuteBFrom, hp, if_true, hrelease, Result.ok_bind,
            hlink]
  | cons i pre ih =>
      obtain ⟨rfl, htail⟩ := hchain
      cases fuel with
      | zero =>
          simp at hfuel
      | succ fuel =>
          simp only [execxuteBFrom, hnone i (by simp)]
          exact ih htail (by simpa using hfuel)
            (fun j hj => hnone j (by simp [hj]))

theorem Represents.execxuteB
    (h : Represents s a)
    (hq : a.Queued) :
    ∃ s', Scheduler.execxuteB s = .ok s' ∧
      Represents s' a.execxuteB := by
  have hexpired : ∀ i, (s.Prime i).expired = (a.Prime i).expired :=
    h.field Process.expired (fun _ => rfl)
  have hzero : s.BlockQ = 0 ↔ a.block = [] := by
    rw [h.threaded.BlockQ_eq, List.length_eq_zero_iff]
  have hfuel : a.block.length ≤ s.countPrime := by
    rw [h.countPrime]
    exact hq.block_length
  unfold Scheduler.execxuteB
  cases hfirst : a.firstExpired with
  | none =>
      have hnone : ∀ i ∈ a.block, (s.Prime i).expired = false := by
        intro i hi
        rw [hexpired]
        simpa using List.find?_eq_none.mp hfirst i hi
      refine ⟨s, ?_, ?_⟩
      · split
        · rfl
        · exact execxuteBFrom_unexpired h.threaded.blockLinks.chain hfuel
            hnone
      · simpa only [Machine.execxuteB, hfirst] using h
  | some p =>
      obtain ⟨hp, pre, post, hblock, hpre⟩ :=
        List.find?_eq_some_iff_append.mp hfirst
      have hmem : p ∈ a.block := by simp [hblock]
      obtain ⟨hlt, hcond⟩ := (hq.block_iff p).mp hmem
      have hready : p ∉ a.ready := fun hr => by
        have := (hq.ready_spec hr).2
        simp [hcond] at this
      obtain ⟨s', hs', hthreaded, hglobals⟩ :=
        releaseBlocked_spec h.threaded hmem hready
          (hq.ready_room hlt hready)
          (hq.length_lt hq.block_nodup
            (fun i hi => ((hq.block_iff i).mp hi).1))
          hfuel
          (fun i hi => by
            rw [h.field Process.processID (fun _ => rfl)]
            exact hq.ids i ((hq.block_iff i).mp hi).1)
      have hlink : (s'.Prime p).pushBlock = none :=
        hthreaded.blockLinks.off p
          (fun hmem' => (hq.block_nodup.not_mem_erase) hmem')
      refine ⟨s', ?_, ?_⟩
      · rw [if_neg (fun hz => List.ne_nil_of_mem hmem (hzero.mp hz))]
        have hlen : pre.length < s.countPrime := by
          rw [hblock] at hfuel
          simp only [List.length_append, List.length_cons] at hfuel
          omega
        apply execxuteBFrom_expired (hblock ▸ h.threaded.blockLinks.chain)
          hlen ?_ ?_ hs' hlink
        · intro i hi
          rw [hexpired]
          simpa using hpre i hi
        · rw [hexpired]
          exact hp
      · simp only [Machine.execxuteB, hfirst]
        refine ⟨hthreaded, ?_⟩
        rw [hglobals, h.globals]
        rfl

end Blocked

section Creation

variable {s : State} {a : Machine}

/-- The processes of `l` arrive, in this order. -/
def Machine.enroll (l : List Nat) (a : Machine) : Machine :=
  { a with
    Prime := fun i =>
      if i ∈ l then { a.Prime i with condition := .ready } else a.Prime i
    totalPrime := (a.totalPrime + l.length) % 2 ^ 32
    firstPrime := a.firstPrime && !(a.namelessOp.isNone && !l.isEmpty)
    namelessOp :=
      if a.namelessOp = none ∧ a.firstPrime = true then l.head?
      else a.namelessOp
    ready := a.ready ++ l }

theorem Machine.arrive_eq :
    a.arrive = a.enroll a.arrivals := by
  rfl

theorem Machine.enroll_nil
    (h : a.totalPrime < 2 ^ 32) :
    a.enroll [] = a := by
  obtain ⟨⟨⟩⟩ := a
  simp only [Machine.enroll] at h ⊢
  simp_all [Nat.mod_eq_of_lt]

theorem Machine.enroll_cons
    (i : Nat) (l : List Nat) :
    (a.enroll [i]).enroll l = a.enroll (i :: l) := by
  apply Machine.ext <;> try rfl
  · funext j
    by_cases hi : j = i <;> by_cases hl : j ∈ l <;>
      simp [Machine.enroll, hi, hl]
  · simp only [Machine.enroll]
    cases a.firstPrime <;> cases a.namelessOp <;> simp
  · simp only [Machine.enroll]
    cases a.firstPrime <;> cases a.namelessOp <;> simp
  · simp only [Machine.enroll, List.length_cons, List.length_nil]
    omega
  · simp [Machine.enroll]

theorem Machine.enroll_A
    (l : List Nat) (i : Nat) :
    ((a.enroll l).Prime i).A = (a.Prime i).A := by
  simp only [Machine.enroll]
  split <;> rfl

/-- The globals after the process `i` has arrived. -/
def Globals.enroll (i : Nat) (g : Globals) : Globals :=
  { g with
    Prime := update g.Prime i (fun q => { q with condition := .ready })
    totalPrime := incr g.totalPrime
    firstPrime := g.firstPrime && !g.namelessOp.isNone
    namelessOp :=
      if g.namelessOp = none ∧ g.firstPrime = true then some i
      else g.namelessOp }

theorem enroll_plain
    (i : Nat) :
    Plain (Globals.enroll i) where
  freshPrime := fun g j =>
    update_field Process.freshPrime g.Prime i j (fun _ => rfl)
  pushPrimeForward := fun g j =>
    update_field Process.pushPrimeForward g.Prime i j (fun _ => rfl)
  pushBlock := fun g j =>
    update_field Process.pushBlock g.Prime i j (fun _ => rfl)
  unlink := fun g => by
    apply Globals.ext <;> try rfl
    funext j
    by_cases hj : j = i <;>
      simp [Globals.enroll, Globals.unlink, Process.unlink, update, hj]

theorem creationStep_eq
    {i : Nat}
    (hA : (s.Prime i).A = s.present) :
    creationStep s i =
      qsetup (some i) { s with toGlobals := s.toGlobals.enroll i } := by
  simp only [creationStep, hA, if_true, State.setCondition, State.modify,
    Globals.enroll]
  cases hname : s.namelessOp <;> cases hfirst : s.firstPrime <;> simp

theorem Machine.enroll_singleton
    (i : Nat) :
    a.enroll [i] =
      { a with
        toGlobals := a.toGlobals.enroll i
        ready := a.ready ++ [i] } := by
  apply Machine.ext <;> try rfl
  · funext j
    by_cases hj : j = i <;> simp [Machine.enroll, Globals.enroll, hj]
  · simp [Machine.enroll, Globals.enroll]

/-- The loop of `creation` enrolls the processes that arrive now. -/
theorem Represents.creationSteps
    (l : List Nat)
    (h : Represents s a)
    (hl : l.Nodup)
    (hlt : ∀ i ∈ a.ready ++ l, i < a.countPrime)
    (hnd : a.ready.Nodup)
    (hfresh : ∀ i ∈ l, (a.Prime i).A = a.present → i ∉ a.ready)
    (hfits : a.countPrime < 2 ^ 32)
    (htotal : a.totalPrime < 2 ^ 32) :
    ∃ s', l.foldlM creationStep s = .ok s' ∧
      Represents s'
        (a.enroll (l.filter (fun i => (a.Prime i).A = a.present))) := by
  induction l generalizing s a with
  | nil =>
      refine ⟨s, rfl, ?_⟩
      rw [List.filter_nil, Machine.enroll_nil htotal]
      exact h
  | cons i l ih =>
      obtain ⟨hil, hl⟩ := List.nodup_cons.mp hl
      have hAi := h.field Process.A (fun _ => rfl) i
      rw [List.foldlM_cons, List.filter_cons]
      by_cases hA : (a.Prime i).A = a.present
      · -- the process arrives
        have hready : i ∉ a.ready := hfresh i (by simp) hA
        have hnd' : (a.ready ++ [i]).Nodup := by
          rw [List.nodup_append]
          refine ⟨hnd, List.nodup_singleton i, ?_⟩
          intro j hj k hk
          simp only [List.mem_singleton] at hk
          subst hk
          exact fun hjk => hready (hjk ▸ hj)
        have hlen : a.ready.length + 1 < 2 ^ 32 := by
          have hle := length_le_of_nodup hnd' (n := a.countPrime)
            (fun j hj => hlt j (by
              simp only [List.mem_append, List.mem_cons] at hj ⊢
              tauto))
          rw [List.length_append, List.length_singleton] at hle
          omega
        have hpresent := h.present
        obtain ⟨s₁, hs₁, h₁⟩ := (h.plain (enroll_plain i)).qsetup hready hlen
        rw [← Machine.enroll_singleton] at h₁
        have hstep : creationStep s i = .ok s₁ := by
          rw [creationStep_eq (by rw [hAi, hA, hpresent])]
          exact hs₁
        obtain ⟨s', hs', h'⟩ := ih h₁ hl
          (fun j hj => hlt j (by
            have : j ∈ (a.ready ++ [i]) ++ l := hj
            simpa using this))
          hnd'
          (fun j hj hAj hmem => by
            rw [Machine.enroll_A] at hAj
            have : j ∈ a.ready ++ [i] := hmem
            rcases List.mem_append.mp this with hr | hr
            · exact hfresh j (by simp [hj]) hAj hr
            · obtain rfl := List.mem_singleton.mp hr
              exact hil hj)
          hfits
          (Nat.mod_lt _ (by norm_num))
        refine ⟨s', ?_, ?_⟩
        · rw [hstep]
          exact hs'
        · simp only [Machine.enroll_A] at h'
          rw [if_pos (by simpa using hA), ← Machine.enroll_cons]
          exact h'
      · -- the process does not arrive in this cycle
        have hstep : creationStep s i = .ok s := by
          rw [creationStep, if_neg]
          rw [hAi, h.present]
          exact hA
        rw [hstep, if_neg (by simpa using hA)]
        exact ih h hl
          (fun j hj => hlt j (by
            rcases List.mem_append.mp hj with hr | hr <;> simp [hr]))
          hnd (fun j hj => hfresh j (by simp [hj])) hfits htotal

/-- `creation`, in a cycle in which the processes that arrive are unstarted. -/
theorem Represents.creation
    (h : Represents s a)
    (hq : a.Queued)
    (htotal : a.totalPrime < 2 ^ 32)
    (hfresh : a.totalPrime ≠ a.countPrime →
      ∀ i ∈ a.arrivals, (a.Prime i).condition = .unstarted) :
    ∃ s', (if s.totalPrime ≠ s.countPrime then Scheduler.creation s
        else .ok s) = .ok s' ∧
      Represents s' a.creation := by
  rw [h.totalPrime, h.countPrime, Machine.creation]
  by_cases hmissing : a.totalPrime ≠ a.countPrime
  · rw [if_pos hmissing, if_pos hmissing, Scheduler.creation, h.countPrime,
      Machine.arrive_eq]
    apply h.creationSteps _ List.nodup_range _ hq.ready_nodup _ hq.fits htotal
    · intro i hi
      rcases List.mem_append.mp hi with hr | hr
      · exact (hq.ready_spec hr).1
      · exact List.mem_range.mp hr
    · intro i hi hA hmem
      have hnew := hfresh hmissing i
        (Machine.mem_arrivals.mpr ⟨List.mem_range.mp hi, hA⟩)
      have hcond := (hq.ready_spec hmem).2
      rw [hnew] at hcond
      cases hcond
  · rw [if_neg hmissing, if_neg hmissing]
    exact ⟨s, rfl, h⟩

end Creation

section Timers

variable {d : Policy} {s : State} {a : Machine}

theorem countdown_links
    (q : Process) :
    (q.countdown d).freshPrime = q.freshPrime ∧
      (q.countdown d).pushPrimeForward = q.pushPrimeForward ∧
      (q.countdown d).pushBlock = q.pushBlock ∧
      (q.countdown d).unlink = q.unlink.countdown d := by
  simp only [Process.countdown, Process.unlink]
  split <;> simp_all

/-- `countdown` leaves the conditions alone, so they can be read before it. -/
theorem countdown_totalTimeNumber
    (g : Globals) :
    (g.countdown d).totalTimeNumber =
      if (List.range g.countPrime).any
          (fun i => (g.Prime i).condition = .blocked) then
        incr g.totalTimeNumber
      else g.totalTimeNumber := by
  have hcond : ∀ i (q : Process),
      (if i < g.countPrime then q.countdown d else q).condition =
        q.condition := by
    intro i q
    split <;> simp
  simp only [Globals.countdown, hcond]

theorem countdown_plain :
    Plain (Globals.countdown d) where
  freshPrime := fun g i => by
    simp only [Globals.countdown]
    split
    · exact (countdown_links _).1
    · rfl
  pushPrimeForward := fun g i => by
    simp only [Globals.countdown]
    split
    · exact (countdown_links _).2.1
    · rfl
  pushBlock := fun g i => by
    simp only [Globals.countdown]
    split
    · exact (countdown_links _).2.2.1
    · rfl
  unlink := fun g => by
    apply Globals.ext <;> try rfl
    · funext i
      by_cases hi : i < g.countPrime
      · simpa [Globals.countdown, Globals.unlink, hi] using
          (countdown_links (g.Prime i)).2.2.2
      · simp [Globals.countdown, Globals.unlink, hi]
    · show (g.countdown d).totalTimeNumber =
        (g.unlink.countdown d).totalTimeNumber
      rw [countdown_totalTimeNumber, countdown_totalTimeNumber]
      rfl

end Timers

end Scheduler
end PastWork
