import PastWork.Scheduler.Frame

/-!
# Runs do not leak into each other

`Extra` resets everything except the field `quantum`, which is read only under
Round Robin and only for the running process, whose quantum the dispatch has
set.  Two machines are `Alike` when they differ in nothing else; cycles keep
them alike.
-/

namespace PastWork
namespace Scheduler

namespace Process

variable {d : Policy} {q r : Process}

/-- Two processes that differ at most in a quantum that is not in use. -/
structure Alike (d : Policy) (q r : Process) : Prop where
  base : { q with quantum := 0 } = { r with quantum := 0 }
  quantum : d = .rr → q.condition = .running → q.quantum = r.quantum

theorem Alike.field
    {β : Type}
    (h : Alike d q r)
    (field : Process → β)
    (hfield : ∀ q : Process, field { q with quantum := 0 } = field q) :
    field q = field r := by
  rw [← hfield q, ← hfield r, h.base]

theorem Alike.condition
    (h : Alike d q r) :
    q.condition = r.condition :=
  h.field Process.condition (fun _ => rfl)

/-- A change of a process that neither reads nor writes its quantum. -/
structure QuantumFree (f : Process → Process) : Prop where
  commutes : ∀ (q : Process) (k : Int),
    f { q with quantum := k } = { f q with quantum := k }

theorem QuantumFree.quantum_eq
    {f : Process → Process}
    (hf : QuantumFree f) (q : Process) :
    (f q).quantum = q.quantum := by
  have hself : f q = { f q with quantum := q.quantum } :=
    hf.commutes q q.quantum
  calc
    (f q).quantum = ({ f q with quantum := q.quantum } : Process).quantum :=
      congrArg Process.quantum hself
    _ = q.quantum := rfl

theorem Alike.map
    {f : Process → Process}
    (h : Alike d q r)
    (hf : QuantumFree f)
    (hrun : (f q).condition = .running → q.condition = .running) :
    Alike d (f q) (f r) where
  base := by rw [← hf.commutes, ← hf.commutes, h.base]
  quantum := fun hd hcond => by
    rw [hf.quantum_eq, hf.quantum_eq]
    exact h.quantum hd (hrun hcond)

theorem chargeBurst_quantumFree :
    QuantumFree chargeBurst where
  commutes := fun q k => by
    rw [chargeBurst_eq, chargeBurst_eq]

theorem draw_quantumFree
    (number : Nat) :
    QuantumFree (Machine.draw number) where
  commutes := fun _ _ => rfl

/-- A dispatch sets the quantum that Round Robin will read. -/
theorem Alike.launch
    (h : Alike d q r) :
    Alike d (Machine.launch d q) (Machine.launch d r) where
  base := by
    have hbase := congrArg
      (fun q => { q with condition := .running, operating := true }) h.base
    exact hbase
  quantum := fun hd _ => by
    simp [Machine.launch, hd]

theorem Alike.countdown
    (h : Alike d q r) :
    Alike d (q.countdown d) (r.countdown d) := by
  have hcond := h.condition
  cases hc : q.condition with
  | unstarted | terminated =>
      have hstep : ∀ p : Process, p.condition = q.condition →
          p.countdown d = p := by
        intro p hp
        simp only [Process.countdown, hp, hc]
      rw [hstep q rfl, hstep r hcond.symm]
      exact h
  | ready =>
      have hstep : ∀ p : Process, p.condition = q.condition →
          p.countdown d = { p with
            currentWaitingTime := incr p.currentWaitingTime } := by
        intro p hp
        simp only [Process.countdown, hp, hc]
      rw [hstep q rfl, hstep r hcond.symm]
      exact h.map (f := fun p =>
        { p with currentWaitingTime := incr p.currentWaitingTime })
        ⟨fun _ _ => rfl⟩ id
  | blocked =>
      have hstep : ∀ p : Process, p.condition = q.condition →
          p.countdown d = { p with
            Btime := incr p.Btime
            BurstTime := decr p.BurstTime } := by
        intro p hp
        simp only [Process.countdown, hp, hc]
      rw [hstep q rfl, hstep r hcond.symm]
      exact h.map (f := fun p =>
        { p with Btime := incr p.Btime, BurstTime := decr p.BurstTime })
        ⟨fun _ _ => rfl⟩ id
  | running =>
      have hstep : ∀ p : Process, p.condition = q.condition →
          p.countdown d = { p with
            CPUTime := incr p.CPUTime
            CPUBurst := decr p.CPUBurst
            quantum := if d = .rr then p.quantum - 1 else p.quantum } := by
        intro p hp
        simp only [Process.countdown, hp, hc]
      rw [hstep q rfl, hstep r hcond.symm]
      refine ⟨?_, ?_⟩
      · have hbase := congrArg (fun p : Process =>
          { p with CPUTime := incr p.CPUTime, CPUBurst := decr p.CPUBurst })
          h.base
        exact hbase
      · intro hd _
        simp [hd, h.quantum hd hc]

end Process

namespace Machine

open Process (QuantumFree)

variable {d : Policy} {file : RandomFile} {a b a' : Machine}

/-- Two machines that differ at most in unused quanta and in
`terminateAlg`. -/
structure Alike (d : Policy) (a b : Machine) : Prop where
  process : ∀ i, (a.Prime i).Alike d (b.Prime i)
  countPrime : a.countPrime = b.countPrime
  firstPrime : a.firstPrime = b.firstPrime
  namelessOp : a.namelessOp = b.namelessOp
  selection : a.selection = b.selection
  present : a.present = b.present
  totalPrime : a.totalPrime = b.totalPrime
  completion : a.completion = b.completion
  totalTimeNumber : a.totalTimeNumber = b.totalTimeNumber
  infinity : a.infinity = b.infinity
  ready : a.ready = b.ready
  pause : a.pause = b.pause
  block : a.block = b.block

theorem Alike.field
    {β : Type}
    (h : Alike d a b)
    (field : Process → β)
    (hfield : ∀ q : Process, field { q with quantum := 0 } = field q)
    (i : Nat) :
    field (a.Prime i) = field (b.Prime i) :=
  (h.process i).field field hfield

/-- Writing to the same process of both machines. -/
theorem Alike.update
    {p : Nat} {f : Process → Process}
    (h : Alike d a b)
    (hf : (a.Prime p).Alike d (b.Prime p) →
      (f (a.Prime p)).Alike d (f (b.Prime p)))
    (i : Nat) :
    (update a.Prime p f i).Alike d (update b.Prime p f i) := by
  by_cases hi : i = p
  · subst hi
    rw [update_same, update_same]
    exact hf (h.process i)
  · rw [update_ne _ _ hi, update_ne _ _ hi]
    exact h.process i

theorem Alike.terminate
    {p : Nat}
    (h : Alike d a b) :
    Alike d (a.terminate d p) (b.terminate d p) := by
  have hq : QuantumFree (fun q =>
      { q.chargeBurst with
        condition := .terminated
        finishingTime := toInt32 a.present }) :=
    ⟨fun q k => by rw [Process.chargeBurst_quantumFree.commutes]⟩
  refine
    { h with
      process := fun i => ?_
      completion := congrArg incr h.completion
      namelessOp := ?_
      selection := rfl }
  · have hprocess := h.update (p := p) (fun hp => hp.map hq (by simp)) i
    simp only [Machine.terminate, modify, ← h.present]
    rw [update_const a.Prime p (fun q =>
        { q.chargeBurst with
          condition := .terminated
          finishingTime := toInt32 a.present }),
      update_const b.Prime p (fun q =>
        { q.chargeBurst with
          condition := .terminated
          finishingTime := toInt32 a.present })]
    exact hprocess
  · simp only [Machine.terminate, h.namelessOp]

theorem Alike.proceedForward
    (h : Alike d a b)
    (hq : a.Queued) :
    Alike d (a.proceedForward d) (b.proceedForward d) := by
  have hcharge : ∀ c : Condition, QuantumFree (fun q =>
      { q.chargeBurst with condition := c }) := fun c =>
    ⟨fun q k => by rw [Process.chargeBurst_quantumFree.commutes]⟩
  unfold Machine.proceedForward
  rw [← h.selection]
  split
  next => exact h
  next p hp =>
    have hrun := ((hq.selection_iff p).mp hp).2
    rw [← h.field Process.C (fun _ => rfl),
      ← h.field Process.CPUTime (fun _ => rfl),
      ← h.field Process.CPUBurst (fun _ => rfl)]
    have hpreempt : (d = .rr ∧ (b.Prime p).quantum ≤ 0) ↔
        (d = .rr ∧ (a.Prime p).quantum ≤ 0) := by
      constructor
      · rintro ⟨hd, hle⟩
        exact ⟨hd, by rw [(h.process p).quantum hd hrun]; exact hle⟩
      · rintro ⟨hd, hle⟩
        exact ⟨hd, by rw [← (h.process p).quantum hd hrun]; exact hle⟩
    simp only [hpreempt]
    split_ifs
    · exact h.terminate
    · exact
        { h with
          process := h.update (fun hp => hp.map (hcharge .blocked) (by simp))
          selection := rfl
          block := congrArg (· ++ [p]) h.block }
    · exact
        { h with
          process := h.update (fun hp => hp.map (hcharge .ready) (by simp))
          selection := rfl
          ready := congrArg (· ++ [p]) h.ready }
    · exact
        { h with
          process := h.update
            (fun hp => hp.map (hcharge .running) (fun _ => hrun)) }

theorem Alike.execxuteB
    (h : Alike d a b) :
    Alike d a.execxuteB b.execxuteB := by
  have hfirst : b.firstExpired = a.firstExpired := by
    unfold firstExpired
    rw [h.block]
    congr 1
    funext i
    exact (h.field Process.expired (fun _ => rfl) i).symm
  unfold Machine.execxuteB
  rw [hfirst]
  split
  next => exact h
  next p _ =>
    exact
      { h with
        process := h.update (f := fun q => { q with condition := .ready })
          (fun hp => hp.map (f := fun q => { q with condition := .ready })
            ⟨fun _ _ => rfl⟩ (fun hc => nomatch hc))
        block := congrArg (·.erase p) h.block
        ready := congrArg (· ++ [p]) h.ready }

theorem Alike.creation
    (h : Alike d a b) :
    Alike d a.creation b.creation := by
  have harrivals : b.arrivals = a.arrivals := by
    unfold arrivals
    rw [h.countPrime, h.present]
    congr 1
    funext i
    rw [h.field Process.A (fun _ => rfl)]
  unfold Machine.creation
  rw [← h.totalPrime, ← h.countPrime]
  split
  · refine
      { h with
        process := fun i => ?_
        totalPrime := ?_
        firstPrime := ?_
        namelessOp := ?_
        ready := ?_ }
    · simp only [arrive, harrivals]
      split
      · exact (h.process i).map (f := fun q => { q with condition := .ready })
          ⟨fun _ _ => rfl⟩ (by simp)
      · exact h.process i
    · simp only [arrive, harrivals, h.firstPrime, h.namelessOp]
    · simp only [arrive, harrivals, h.firstPrime, h.namelessOp]
    · simp only [arrive, harrivals, h.totalPrime]
    · simp only [arrive, harrivals, h.ready]
  · exact h

theorem Alike.dispatch
    (h : Alike d a b)
    (hlive : a.Launchable d)
    (ha' : a.dispatch d file = some a') :
    ∃ b', b.dispatch d file = some b' ∧ Alike d a' b' := by
  have hremaining : (fun i => (b.Prime i).remaining) =
      fun i => (a.Prime i).remaining := by
    funext i
    exact (h.field Process.remaining (fun _ => rfl) i).symm
  have hchoose : b.choose d = a.choose d := by
    simp only [choose, hremaining, h.ready]
  unfold Machine.dispatch at ha' ⊢
  rw [← h.selection, hchoose, ← h.infinity]
  split at ha'
  next hfree =>
    rw [if_pos hfree]
    split at ha'
    next hnone =>
      cases ha'
      exact ⟨b, rfl, h⟩
    next p hp =>
      obtain ⟨number, hnumber, rfl⟩ := Option.map_eq_some_iff.mp ha'
      refine ⟨b.start d p number, by rw [hnumber]; rfl, ?_⟩
      have hpos := hlive hfree p number hp
      have hburst := (h.process p).field
        (fun q => (draw number q).CPUBurst) (fun _ => rfl)
      rw [start_eq hpos, start_eq (hburst ▸ hpos)]
      exact
        { h with
          process := h.update (f := fun q => launch d (draw number q))
            (fun hp => (Process.Alike.map hp (Process.draw_quantumFree number)
              id).launch)
          ready := congrArg (·.erase p) h.ready
          infinity := congrArg (· + 1) h.infinity
          selection := rfl }
  next hbusy =>
    cases ha'
    rw [if_neg hbusy]
    exact ⟨b, rfl, h⟩

theorem Alike.advance
    (h : Alike d a b) :
    Alike d (a.advance d) (b.advance d) := by
  refine
    { h with
      process := fun i => ?_
      present := congrArg incr h.present
      totalTimeNumber := ?_ }
  · simp only [Machine.advance, Machine.countdown, Globals.countdown,
      ← h.countPrime]
    split
    · exact (h.process i).countdown
    · exact h.process i
  · show (a.toGlobals.countdown d).totalTimeNumber =
      (b.toGlobals.countdown d).totalTimeNumber
    have hcond : (fun i => decide ((a.Prime i).condition = .blocked)) =
        fun i => decide ((b.Prime i).condition = .blocked) := by
      funext i
      rw [(h.process i).condition]
    rw [countdown_totalTimeNumber, countdown_totalTimeNumber, hcond,
      h.countPrime, h.totalTimeNumber]

/-- A cycle keeps two machines alike. -/
theorem Alike.datapoint
    {t : Nat}
    (h : Alike d a b)
    (hd : d ≠ .block)
    (ha : a.Diligent t)
    (ha' : a.datapoint d file = some a') :
    ∃ b', b.datapoint d file = some b' ∧ Alike d a' b' := by
  rw [datapoint_eq_dispatch hd] at ha' ⊢
  obtain ⟨e, he, rfl⟩ := Option.map_eq_some_iff.mp ha'
  have hprepare : Alike d (a.prepare d) (b.prepare d) :=
    (h.proceedForward ha.sound.queued).execxuteB.creation
  obtain ⟨e', he', halike⟩ := hprepare.dispatch (ha.launchable hd) he
  exact ⟨e'.advance d, by rw [he']; rfl, halike.advance⟩

/-- Two machines at the start of a run over the same processes. -/
theorem Initial.alike
    {W : Workload}
    (ha : a.Initial file W)
    (hb : b.Initial file W) :
    Alike d a b where
  process := fun i => by
    have hfa := ha.pristine.fresh i
    have hfb := hb.pristine.fresh i
    unfold FreshAt at hfa hfb
    cases hjob : W.jobs[i]? with
    | none =>
        rw [hjob] at hfa hfb
        rw [hfa, hfb]
        exact ⟨rfl, fun _ _ => rfl⟩
    | some job =>
        rw [hjob] at hfa hfb
        obtain ⟨_, number, quantum, hnumber, hfa⟩ := hfa
        obtain ⟨_, number', quantum', hnumber', hfb⟩ := hfb
        rw [hnumber] at hnumber'
        cases hnumber'
        rw [hfa, hfb]
        exact ⟨rfl, fun _ hc => by cases hc⟩
  countPrime := ha.pristine.countPrime.trans hb.pristine.countPrime.symm
  firstPrime := ha.pristine.firstPrime.trans hb.pristine.firstPrime.symm
  namelessOp := ha.pristine.namelessOp.trans hb.pristine.namelessOp.symm
  selection := ha.pristine.selection.trans hb.pristine.selection.symm
  present := ha.pristine.present.trans hb.pristine.present.symm
  totalPrime := ha.pristine.totalPrime.trans hb.pristine.totalPrime.symm
  completion := ha.pristine.completion.trans hb.pristine.completion.symm
  totalTimeNumber :=
    ha.pristine.totalTimeNumber.trans hb.pristine.totalTimeNumber.symm
  infinity := ha.pristine.infinity.trans hb.pristine.infinity.symm
  ready := ha.ready.trans hb.ready.symm
  pause := ha.pause.trans hb.pause.symm
  block := ha.block.trans hb.block.symm

end Machine

section Outcome

variable {d : Policy} {file : RandomFile} {W : Workload}

/-- What a run leaves for the report. -/
structure Outcome where
  present : Nat
  totalTimeNumber : Nat
  times : List (Int × Nat × Nat × Nat)
  specifics : List Specifics

/-- The finishing, CPU, I/O and waiting times of the processes, and the
globals that the summary reads. -/
def State.outcome (s : State) : Outcome where
  present := s.present
  totalTimeNumber := s.totalTimeNumber
  times := (List.range s.countPrime).map (fun i =>
    ((s.Prime i).finishingTime, (s.Prime i).CPUTime, (s.Prime i).Btime,
      (s.Prime i).currentWaitingTime))
  specifics := printProcessSpecifics s

theorem Machine.Alike.outcome
    {s s' : State} {a b : Machine}
    (h : Machine.Alike d a b)
    (hs : Represents s a)
    (hs' : Represents s' b) :
    s.outcome = s'.outcome := by
  have hread : ∀ {β : Type} (field : Process → β),
      (∀ q, field q.unlink = field q) →
      (∀ q : Process, field { q with quantum := 0 } = field q) →
      ∀ i, field (s.Prime i) = field (s'.Prime i) := by
    intro β field hlinks hquantum i
    rw [hs.field field hlinks, hs'.field field hlinks,
      h.field field hquantum]
  have htime := hread (fun q => (q.finishingTime, q.CPUTime, q.Btime,
    q.currentWaitingTime)) (fun _ => rfl) (fun _ => rfl)
  have hspecifics := hread Process.specifics (fun _ => rfl) (fun _ => rfl)
  have hcount : s.countPrime = s'.countPrime := by
    rw [hs.countPrime, hs'.countPrime, h.countPrime]
  have hpresent : s.present = s'.present := by
    rw [hs.present, hs'.present, h.present]
  have htotal : s.totalTimeNumber = s'.totalTimeNumber := by
    rw [hs.global Globals.totalTimeNumber (fun _ => rfl),
      hs'.global Globals.totalTimeNumber (fun _ => rfl), h.totalTimeNumber]
  simp only [State.outcome, printProcessSpecifics, hcount, hpresent, htotal,
    htime, hspecifics]

/-- Two runs over the same processes have the same outcome. -/
theorem simulate_alike
    {s s' r : State} {a b : Machine} {fuel : Nat}
    (hd : d ≠ .block)
    (hC : ∀ job ∈ W.jobs, 1 ≤ job.C)
    (hs : Represents s a) (ha : a.Initial file W)
    (hs' : Represents s' b) (hb : b.Initial file W)
    (hr : simulate d file fuel s = .ok r) :
    ∃ r', simulate d file fuel s' = .ok r' ∧ r.outcome = r'.outcome := by
  obtain ⟨r', hr', a', b', t, hra, hrb, _, _, halike⟩ :=
    whileLoop_relate
      (R := fun s s' => ∃ a b t, Represents s a ∧ Represents s' b ∧
        a.Diligent t ∧ b.Diligent t ∧ Machine.Alike d a b)
      (by
        rintro s s' ⟨a, b, t, hs, hs', _, _, halike⟩
        rw [hs.completion, hs.countPrime, hs'.completion, hs'.countPrime,
          halike.completion, halike.countPrime])
      (by
        rintro s s' r ⟨a, b, t, hs, hs', hda, hdb, halike⟩ _ hr
        have hsim : Simulates (Scheduler.datapoint d file s)
            (a.datapoint d file) := hs.cycle hd hda.sound.orderly
        rw [hr] at hsim
        obtain ⟨a', hc, hra⟩ := hsim.of_ok
        obtain ⟨b', hb', halike'⟩ := halike.datapoint hd hda hc
        have hsim' : Simulates (Scheduler.datapoint d file s')
            (b.datapoint d file) := hs'.cycle hd hdb.sound.orderly
        rw [hb'] at hsim'
        obtain ⟨r', hr', hrb⟩ := hsim'
        exact ⟨r', hr', a', b', t + 1, hra, hrb, hda.datapoint hd hc,
          hdb.datapoint hd hb', halike'⟩)
      ⟨a, b, 0, hs, hs', ha.diligent hC, hb.diligent hC, ha.alike hb⟩ hr
  exact ⟨r', hr', halike.outcome hra hrb⟩

end Outcome

section Extra

variable {d : Policy} {file : RandomFile} {W : Workload} {s s' : State}

/-- Fresh processes are in the array, with no links. -/
theorem Holds.of_fresh
    (hcount : s.countPrime = W.jobs.length)
    (hfresh : ∀ i, FreshAt file W.jobs s.Prime i)
    (hready : s.Afront = none ∧ s.Aback = none)
    (hpause : s.Pausefront = none ∧ s.Pauseback = none)
    (hblock : s.Blockfront = none ∧ s.Blockback = none)
    (hselection : s.selection = none) :
    Holds W s where
  countPrime := hcount
  kept := fun i hi => by
    obtain ⟨_, number, quantum, _, hproc⟩ := (hfresh i).spec hi
    rw [hproc]
    exact ⟨rfl, rfl, rfl, rfl, rfl, within_none, within_none, within_none⟩
  beyond := fun i hi => by
    have hi' := hfresh i
    unfold FreshAt at hi'
    rwa [List.getElem?_eq_none hi] at hi'
  Afront := by rw [hready.1]; exact within_none
  Aback := by rw [hready.2]; exact within_none
  Pausefront := by rw [hpause.1]; exact within_none
  Pauseback := by rw [hpause.2]; exact within_none
  Blockfront := by rw [hblock.1]; exact within_none
  Blockback := by rw [hblock.2]; exact within_none
  selection := by rw [hselection]; exact within_none

theorem load_holds
    (h : load file W = .ok s) :
    Holds W s := by
  have hloaded : Loaded file W.jobs s := by
    simpa using loaded_boot.steps (by simpa using W.fits) h
  obtain ⟨m, rfl, hm⟩ := hloaded
  exact Holds.of_fresh rfl hm ⟨rfl, rfl⟩ ⟨rfl, rfl⟩ ⟨rfl, rfl⟩ rfl

theorem Holds.inputs
    (h : Holds W s)
    (i : Nat) (hi : i < W.jobs.length) :
    (s.Prime i).processID = i ∧
      (s.Prime i).A = (W.jobs[i]).A.toNat ∧
      (s.Prime i).B = (W.jobs[i]).B.toNat ∧
      (s.Prime i).C = (W.jobs[i]).C.toNat ∧
      (s.Prime i).M = (W.jobs[i]).M.toNat :=
  ⟨(h.kept i hi).processID, (h.kept i hi).A, (h.kept i hi).B,
    (h.kept i hi).C, (h.kept i hi).M⟩

/-- `Extra` leaves the processes in the array, whatever the queues were. -/
theorem extra_holds
    (hcount : s.countPrime = W.jobs.length)
    (hjobs : ∀ i (h : i < W.jobs.length),
      (s.Prime i).processID = i ∧
      (s.Prime i).A = (W.jobs[i]).A.toNat ∧
      (s.Prime i).B = (W.jobs[i]).B.toNat ∧
      (s.Prime i).C = (W.jobs[i]).C.toNat ∧
      (s.Prime i).M = (W.jobs[i]).M.toNat)
    (hbeyond : ∀ i, W.jobs.length ≤ i → s.Prime i = default)
    (hs' : extra file s = .ok s') :
    Holds W s' := by
  obtain ⟨m, rfl, hdone, hrest⟩ := extra_reset hcount hjobs hs'
  have hfresh : ∀ i, FreshAt file W.jobs m i := by
    intro i
    by_cases hi : i < W.jobs.length
    · exact hdone i hi
    · unfold FreshAt
      rw [List.getElem?_eq_none (by omega)]
      exact (hrest i (by omega)).trans (hbeyond i (by omega))
  exact Holds.of_fresh hcount hfresh ⟨rfl, rfl⟩ ⟨rfl, rfl⟩ ⟨rfl, rfl⟩ rfl

theorem Holds.extra
    (h : Holds W s)
    (hs' : Scheduler.extra file s = .ok s') :
    Holds W s' ∧ Started file W (openRandom s') :=
  ⟨extra_holds h.countPrime h.inputs h.beyond hs',
    .extra h.countPrime h.inputs h.beyond hs'⟩

/-- A run begins with the processes in the array. -/
theorem Started.holds
    (h : Started file W s) :
    Holds W s := by
  cases h with
  | main hload =>
      exact { load_holds hload with }
  | extra hcount hjobs hbeyond hextra =>
      exact { extra_holds hcount hjobs hbeyond hextra with }

/-- `Extra` returns when the file has a line for every process. -/
theorem Holds.extra_returns
    (h : Holds W s)
    (hlines : ∀ i (hi : i < W.jobs.length),
      0 < (W.jobs[i]).B.toNat ∧ ∃ number, file i = some number) :
    ∃ s', Scheduler.extra file s = .ok s' := by
  rw [extra_eq, h.countPrime]
  have key : ∀ k ≤ W.jobs.length, ∃ s',
      (List.range k).foldlM (extraStep file) (clearedState s s.Prime 0) =
        .ok s' ∧ Reset file W s k s' := by
    intro k
    induction k with
    | zero =>
        intro _
        exact ⟨_, rfl, s.Prime, rfl, by simp, fun _ _ => rfl⟩
    | succ k ih =>
        intro hk
        obtain ⟨s₁, hs₁, hreset⟩ := ih (by omega)
        have hline := hlines k (by omega)
        obtain ⟨number, hnumber⟩ := hline.2
        have hstep : ∃ s₂, extraStep file s₁ k = .ok s₂ := by
          obtain ⟨m, rfl, _, hrest⟩ := hreset
          have hB : 0 < ((clearedState s m k).Prime k).B := by
            show 0 < (m k).B
            rw [hrest k (le_refl k), (h.inputs k (by omega)).2.2.1]
            exact hline.1
          have hinfinity : (clearedState s m k).infinity = k := rfl
          unfold extraStep
          rw [ranomize_eq hB, hinfinity, hnumber]
          exact ⟨_, rfl⟩
        obtain ⟨s₂, hs₂⟩ := hstep
        refine ⟨s₂, ?_, hreset.step (by omega) (h.inputs k (by omega)) hs₂⟩
        rw [List.range_succ, List.foldlM_append, hs₁]
        simp only [Result.ok_bind, List.foldlM_cons, List.foldlM_nil, hs₂]
        rfl
  obtain ⟨s', hs', _⟩ := key _ (le_refl _)
  exact ⟨s', hs'⟩

/-- The lines of the file from which the first bursts were drawn. -/
theorem Started.lines
    (h : Started file W s)
    (i : Nat) (hi : i < W.jobs.length) :
    0 < (W.jobs[i]).B.toNat ∧ ∃ number, file i = some number := by
  obtain ⟨a, _, hinit⟩ := h.initial
  obtain ⟨hB, number, _, hnumber, _⟩ := (hinit.pristine.fresh i).spec hi
  exact ⟨hB, number, hnumber⟩

/-- Whatever a run leaves in `terminateAlg`, the next run starts afresh. -/
theorem Started.initial_cleared
    (h : Started file W (openRandom s)) :
    ∃ a : Machine,
      Represents (openRandom { s with terminateAlg := fun _ => none }) a ∧
      a.Initial file W := by
  obtain ⟨a, hrep, hinit⟩ := h.initial
  have hplain : Plain (fun g => { g with terminateAlg := fun _ => none }) := by
    constructor <;> intros <;> rfl
  have hp := hinit.pristine
  refine ⟨_, hrep.plain hplain, ⟨hp.fresh, hp.countPrime, hp.firstPrime,
    hp.namelessOp, hp.selection, hp.present, hp.totalPrime, hp.completion,
    hp.totalTimeNumber, hp.infinity⟩, hinit.ready, hinit.pause, hinit.block⟩

theorem simulate_stable
    {fuel : Nat} :
    Stable (Holds W) (simulate d file fuel) :=
  datapoint_stable.whileLoop

/-- A state that `main` or `Extra` has left for the next call of
`listoutputs`. -/
structure Left (file : RandomFile) (W : Workload) (s : State) : Prop where
  holds : Holds W s
  started : Started file W (openRandom s)

theorem load_left
    (h : load file W = .ok s) :
    Left file W s :=
  ⟨load_holds h, .main h⟩

theorem Holds.left
    (h : Holds W s)
    (hs' : Scheduler.extra file s = .ok s') :
    Left file W s' :=
  ⟨(h.extra hs').1, (h.extra hs').2⟩

/-- Any call of `listoutputs` that returns leaves the processes for the next
one, whatever the policy. -/
theorem listoutputs_left
    {fuel : Nat} {passes : Passes}
    (h : Left file W s)
    (hpasses : listoutputs d file fuel s = .ok passes) :
    Left file W passes.final := by
  obtain ⟨first, hfirst, hpasses⟩ := Result.bind_eq_ok hpasses
  obtain ⟨s₁, hs₁, hpasses⟩ := Result.bind_eq_ok hpasses
  obtain ⟨second, hsecond, hpasses⟩ := Result.bind_eq_ok hpasses
  obtain ⟨final, hfinal, hpasses⟩ := Result.bind_eq_ok hpasses
  cases hpasses
  have h₀ : Holds W (openRandom { s with terminateAlg := fun _ => none }) :=
    { h.holds with }
  have h₁ := simulate_stable _ _ h₀ hfirst
  have h₂ : Holds W (openRandom s₁) := { (h₁.extra hs₁).1 with }
  exact (simulate_stable _ _ h₂ hsecond).left hfinal

theorem listAll_left
    {fuel : Nat} {before : List Policy}
    (h : Left file W s)
    (hs' : listAll file fuel before s = .ok s') :
    Left file W s' := by
  induction before generalizing s with
  | nil =>
      cases hs'
      exact h
  | cons e before ih =>
      obtain ⟨passes, hpasses, hs'⟩ := Result.bind_eq_ok hs'
      exact ih (listoutputs_left h hpasses) hs'

/-- Both passes of `listoutputs` have the outcome of any other run over the
same processes. -/
theorem listoutputs_outcome
    {s₀ r : State} {fuel : Nat}
    (hd : d ≠ .block)
    (hC : ∀ job ∈ W.jobs, 1 ≤ job.C)
    (hs₀ : Started file W s₀)
    (hr : simulate d file fuel s₀ = .ok r)
    (h : Left file W s) :
    ∃ passes, listoutputs d file fuel s = .ok passes ∧
      passes.first.outcome = r.outcome ∧
      passes.second.outcome = r.outcome := by
  obtain ⟨a, hrep, hinit⟩ := hs₀.initial
  obtain ⟨b, hrepb, hinitb⟩ := h.started.initial_cleared
  obtain ⟨first, hfirst, houtcome₁⟩ :=
    simulate_alike hd hC hrep hinit hrepb hinitb hr
  have h₀ : Holds W (openRandom { s with terminateAlg := fun _ => none }) :=
    { h.holds with }
  have h₁ := simulate_stable _ _ h₀ hfirst
  obtain ⟨s₁, hs₁⟩ := h₁.extra_returns hs₀.lines
  obtain ⟨hholds₁, hstarted₁⟩ := h₁.extra hs₁
  obtain ⟨c, hrepc, hinitc⟩ := hstarted₁.initial
  obtain ⟨second, hsecond, houtcome₂⟩ :=
    simulate_alike hd hC hrep hinit hrepc hinitc hr
  have h₂ : Holds W (openRandom s₁) := { hholds₁ with }
  obtain ⟨final, hfinal⟩ :=
    (simulate_stable _ _ h₂ hsecond).extra_returns hs₀.lines
  refine ⟨⟨first, second, final⟩, ?_, houtcome₁.symm, houtcome₂.symm⟩
  simp only [listoutputs, hfirst, hs₁, hsecond, hfinal, Result.ok_bind]

/-- The file has a number for every dispatch of the run from `s`. -/
def LongEnough (datastream : Policy) (file : RandomFile) (s : State) : Prop :=
  ∀ fuel, simulate datastream file fuel (openRandom s) ≠ .error .endOfFile

/-- The run from the state of `main` returns. -/
theorem load_simulate
    {s₀ : State}
    (hd : d ≠ .block)
    (hC : ∀ job ∈ W.jobs, 1 ≤ job.C)
    (hload : load file W = .ok s₀)
    (hlong : LongEnough d file s₀) :
    ∃ n r, ∀ fuel, n ≤ fuel → simulate d file fuel (openRandom s₀) = .ok r := by
  obtain ⟨a, hrep, hinit⟩ := load_initial hload
  obtain ⟨n, r, _, _, hr, _⟩ :=
    hrep.simulate_returns hd (hinit.diligent hC) hlong
  exact ⟨n, r, fun fuel hfuel => whileLoop_mono hfuel hr⟩

/-- The policies other than `block` return one after the other. -/
theorem listAll_returns
    {s₀ : State}
    (hC : ∀ job ∈ W.jobs, 1 ≤ job.C)
    (hload : load file W = .ok s₀)
    (before : List Policy)
    (hbefore : ∀ e ∈ before, e ≠ .block ∧ LongEnough e file s₀)
    (h : Left file W s) :
    ∃ n, ∀ fuel, n ≤ fuel → ∃ s', listAll file fuel before s = .ok s' := by
  have key : ∃ n, ∀ fuel, n ≤ fuel → ∀ s, Left file W s →
      ∃ s', listAll file fuel before s = .ok s' := by
    induction before with
    | nil =>
        exact ⟨0, fun _ _ s _ => ⟨s, rfl⟩⟩
    | cons e before ih =>
        obtain ⟨n, hn⟩ := ih (fun e' he' => hbefore e' (by simp [he']))
        obtain ⟨hd, hlong⟩ := hbefore e (by simp)
        obtain ⟨m, r, hr⟩ := load_simulate hd hC hload hlong
        refine ⟨max n m, fun fuel hfuel s h => ?_⟩
        obtain ⟨passes, hpasses, _⟩ :=
          listoutputs_outcome hd hC (.main hload) (hr fuel (by omega)) h
        obtain ⟨s', hs'⟩ :=
          hn fuel (by omega) passes.final (listoutputs_left h hpasses)
        exact ⟨s', by rw [listAll, hpasses]; exact hs'⟩
  obtain ⟨n, hn⟩ := key
  exact ⟨n, fun fuel hfuel => hn fuel hfuel s h⟩

/-- Every policy has one report, in both passes and whatever was run before:
after the policies other than `block` in any order, and after any policies from
which `listoutputs` has returned. -/
theorem listoutputs_replays
    {s₀ : State}
    (hd : d ≠ .block)
    (hjobs : ∀ job ∈ W.jobs, 1 ≤ job.B ∧ 1 ≤ job.C)
    (hload : load file W = .ok s₀)
    (hlong : LongEnough d file s₀) :
    ∃ report : Outcome,
      (∀ before, (∀ e ∈ before, e ≠ .block ∧ LongEnough e file s₀) →
        ∃ n, ∀ fuel, n ≤ fuel → ∃ s passes,
          listAll file fuel before s₀ = .ok s ∧
          listoutputs d file fuel s = .ok passes ∧
          passes.first.outcome = report ∧
          passes.second.outcome = report) ∧
      (∀ before fuel s, listAll file fuel before s₀ = .ok s →
        ∃ n, ∀ fuel, n ≤ fuel → ∃ passes,
          listoutputs d file fuel s = .ok passes ∧
          passes.first.outcome = report ∧
          passes.second.outcome = report) := by
  have hC := fun job hjob => (hjobs job hjob).2
  have hleft := load_left hload
  obtain ⟨m, r, hr⟩ := load_simulate hd hC hload hlong
  refine ⟨r.outcome, ?_, ?_⟩
  · intro before hbefore
    obtain ⟨n, hn⟩ := listAll_returns hC hload before hbefore hleft
    refine ⟨max n m, fun fuel hfuel => ?_⟩
    obtain ⟨s, hs⟩ := hn fuel (by omega)
    obtain ⟨passes, hpasses, houtcome⟩ :=
      listoutputs_outcome hd hC (.main hload) (hr fuel (by omega))
        (listAll_left hleft hs)
    exact ⟨s, passes, hs, hpasses, houtcome⟩
  · intro before fuel' s hs
    exact ⟨m, fun fuel hfuel =>
      listoutputs_outcome hd hC (.main hload) (hr fuel hfuel)
        (listAll_left hleft hs)⟩

theorem twoJobs_replays :
    ∃ s₀ report, load steadyFile twoJobs = .ok s₀ ∧
      ∃ n, ∀ fuel, n ≤ fuel → ∃ s passes,
        listAll steadyFile fuel [.rr, .fcfs] s₀ = .ok s ∧
        listoutputs .sjf steadyFile fuel s = .ok passes ∧
        passes.first.outcome = report ∧
        passes.second.outcome = report := by
  obtain ⟨s₀, hload⟩ : ∃ s₀, load steadyFile twoJobs = .ok s₀ := ⟨_, rfl⟩
  have hlong : ∀ e, e ≠ .block → LongEnough e steadyFile s₀ := by
    intro e he
    obtain ⟨a, hrep, hinit⟩ := load_initial hload
    exact hrep.simulate_endless he steadyFile_endless
      (hinit.diligent (by decide))
  obtain ⟨report, hreport, _⟩ :=
    listoutputs_replays (d := .sjf) (by decide) (by decide) hload
      (hlong .sjf (by decide))
  refine ⟨s₀, report, hload, hreport [.rr, .fcfs] ?_⟩
  intro e he
  have hne : e ≠ .block := by
    rcases List.mem_cons.mp he with rfl | he
    · decide
    · rw [List.mem_singleton.mp he]
      decide
  exact ⟨hne, hlong e hne⟩

end Extra

end Scheduler
end PastWork
