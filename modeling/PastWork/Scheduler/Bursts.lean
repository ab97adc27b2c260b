import PastWork.Scheduler.Pausing

/-!
# Bursts and timers

What one cycle does to one process, part by part.  The timer of an I/O is fixed
in the first cycle after a dispatch, from a burst that has already lost one
tick.  `Metered base` says what it is worth for a process that was last
dispatched when its CPU time was `base`.
-/

namespace PastWork
namespace Scheduler

/-- The branch of `proceedForward` that puts `i` on the block list is taken. -/
def Globals.EntersBlock (g : Globals) (i : Nat) : Prop :=
  g.selection = some i ∧ (g.Prime i).C ≠ (g.Prime i).CPUTime ∧
    (g.Prime i).CPUBurst = 0

/-- The branch of `proceedForward` that preempts `i` is taken. -/
def Globals.Preempted (d : Policy) (g : Globals) (i : Nat) : Prop :=
  g.selection = some i ∧ (g.Prime i).C ≠ (g.Prime i).CPUTime ∧
    (g.Prime i).CPUBurst ≠ 0 ∧ d = .rr ∧ (g.Prime i).quantum ≤ 0

/-- A process whose I/O is over. -/
def Process.Due (q : Process) : Prop :=
  q.condition = .blocked ∧ q.expired = true

/-- When the I/O of `i` is over, no process ahead of it on the block list waits
for its release. -/
def State.Foremost (s : State) (i : Nat) : Prop :=
  (s.Prime i).Due → ∀ l l',
    Links.Chain (fun j => (s.Prime j).pushBlock) s.Blockfront (l ++ i :: l') →
    ∀ j ∈ l, ¬ (s.Prime j).Due

section Decide

variable (d : Policy) (g : Globals) (i : Nat)

instance : Decidable (g.EntersBlock i) := by
  unfold Globals.EntersBlock
  infer_instance

instance : Decidable (g.Preempted d i) := by
  unfold Globals.Preempted
  infer_instance

end Decide

namespace Process

variable {d : Policy} {present base : Nat} {q q' : Process}

/-- What `proceedForward` makes of the running process. -/
def proceed (d : Policy) (present : Nat) (q : Process) : Process :=
  if q.C = q.CPUTime then
    { q.chargeBurst with
      condition := .terminated
      finishingTime := toInt32 present }
  else if q.CPUBurst = 0 then
    { q.chargeBurst with condition := .blocked }
  else if d = .rr ∧ q.quantum ≤ 0 then
    { q.chargeBurst with condition := .ready }
  else
    { q.chargeBurst with condition := .running }

theorem proceed_free
    (hstay : q.C ≠ q.CPUTime → q.CPUBurst ≠ 0) :
    (q.proceed d present).condition ≠ .blocked ∧
      (q.proceed d present).Btime = q.Btime := by
  have hBtime : q.chargeBurst.Btime = q.Btime := by
    rw [chargeBurst_eq]
  unfold proceed
  by_cases hdone : q.C = q.CPUTime
  · rw [if_pos hdone]
    exact ⟨by simp, hBtime⟩
  · rw [if_neg hdone, if_neg (hstay hdone)]
    split
    · exact ⟨by simp, hBtime⟩
    · exact ⟨by simp, hBtime⟩

/-- What arrivals and the dispatch make of a process. -/
inductive Boards (d : Policy) (q : Process) : Process → Prop
  | stay : Boards d q q
  | arrive
      (hcond : q.condition = .unstarted) :
      Boards d q { q with condition := .ready }
  | launch (number : Nat)
      (hcond : q.condition = .ready ∨ q.condition = .unstarted) :
      Boards d q (Machine.launch d (Machine.draw number q))

/-- A process that neither waits nor has yet to arrive is left alone. -/
theorem Boards.eq
    (h : Boards d q q')
    (hready : q.condition ≠ .ready)
    (hunstarted : q.condition ≠ .unstarted) :
    q' = q := by
  cases h with
  | stay => rfl
  | arrive hcond => exact absurd hcond hunstarted
  | launch number hcond =>
      exact absurd hcond (not_or.mpr ⟨hready, hunstarted⟩)

/-- Arrivals and the dispatch put no process on the block list. -/
theorem Boards.blocked_iff
    (h : Boards d q q') :
    q'.condition = .blocked ↔ q.condition = .blocked := by
  cases h with
  | stay => rfl
  | arrive hcond => simp [hcond]
  | launch number hcond =>
      rcases hcond with hcond | hcond <;> simp [Machine.launch, hcond]

theorem Boards.Btime_eq
    (h : Boards d q q') :
    q'.Btime = q.Btime := by
  cases h with
  | stay | arrive => rfl
  | launch => rfl

theorem countdown_of_blocked
    (hcond : q.condition = .blocked) :
    q.countdown d =
      { q with
        Btime := incr q.Btime
        BurstTime := decr q.BurstTime } := by
  simp only [countdown, hcond]

theorem countdown_of_running
    (hcond : q.condition = .running) :
    q.countdown d =
      { q with
        CPUTime := incr q.CPUTime
        CPUBurst := decr q.CPUBurst
        quantum := if d = .rr then q.quantum - 1 else q.quantum } := by
  simp only [countdown, hcond]

theorem countdown_Btime_of_ne
    (hcond : q.condition ≠ .blocked) :
    (q.countdown d).Btime = q.Btime := by
  unfold countdown
  split <;> simp_all

/-- The timer of a process that runs since its CPU time was `base`. -/
def Charged (base : Nat) (q : Process) : Prop :=
  base < q.CPUTime ∧
    q.BurstTime =
      (1 + q.M * (q.CPUBurst + (q.CPUTime - base - 1))) % 2 ^ 32

/-- At the end of a cycle: `base` is the CPU time at the last dispatch. -/
structure Metered (base : Nat) (q : Process) : Prop where
  waiting : q.condition ≠ .running → q.condition ≠ .terminated →
    q.CPUTime = base
  fresh : q.condition = .running → q.operating = true →
    q.CPUTime = base + 1
  charged : q.condition = .running → q.operating = false →
    q.Charged base

/-- In the first part of a cycle the timer of the running process is right,
whether it has been fixed before or is fixed now. -/
theorem Metered.chargeBurst
    (h : q.Metered base)
    (hrun : q.condition = .running) :
    q.chargeBurst.Charged base := by
  rw [chargeBurst_eq]
  cases hop : q.operating with
  | true =>
      have hfresh := h.fresh hrun hop
      refine ⟨?_, ?_⟩
      · show base < q.CPUTime
        omega
      · have hzero : q.CPUTime - base - 1 = 0 := by omega
        simp [hzero]
  | false =>
      exact h.charged hrun hop

/-- A process off the CPU is metered again when the cycle ends. -/
theorem Metered.of_boards
    (hwait : q.condition ≠ .running)
    (hbase : q.condition ≠ .terminated → q.CPUTime = base)
    (h : Boards d q q')
    (hlt : q'.condition = .running → q'.CPUTime + 1 < 2 ^ 32) :
    (q'.countdown d).Metered base := by
  cases h with
  | stay =>
      refine ⟨fun _ hdone => ?_, fun hrun => ?_, fun hrun => ?_⟩
      · rw [countdown_condition] at hdone
        rw [countdown_CPUTime, if_neg hwait]
        exact hbase hdone
      · rw [countdown_condition] at hrun
        exact absurd hrun hwait
      · rw [countdown_condition] at hrun
        exact absurd hrun hwait
  | arrive hcond =>
      refine ⟨fun _ _ => ?_, fun hrun => ?_, fun hrun => ?_⟩
      · rw [countdown_CPUTime, if_neg (by simp)]
        exact hbase (by simp [hcond])
      · cases hrun
      · cases hrun
  | launch number hcond =>
      have hne : q.condition ≠ .terminated := by
        rcases hcond with hcond | hcond <;> simp [hcond]
      have hrun : (Machine.launch d (Machine.draw number q)).condition =
          .running := rfl
      rw [countdown_of_running hrun]
      refine ⟨fun hoff => absurd rfl hoff, fun _ _ => ?_, fun _ hop => ?_⟩
      · have hlt' : q.CPUTime + 1 < 2 ^ 32 := hlt hrun
        show incr q.CPUTime = base + 1
        rw [incr_eq hlt', hbase hne]
      · cases hop

/-- A process that goes on running stays charged when the cycle ends. -/
theorem Charged.countdown
    (h : q.Charged base)
    (hrun : q.condition = .running)
    (hop : q.operating = false)
    (hburst : 0 < q.CPUBurst)
    (hburst' : q.CPUBurst < 2 ^ 32)
    (hlt : q.CPUTime + 1 < 2 ^ 32) :
    (q.countdown d).Metered base := by
  obtain ⟨hbase, htimer⟩ := h
  rw [countdown_of_running hrun]
  refine ⟨fun hoff => absurd hrun hoff, fun _ hop' => ?_, fun _ _ => ⟨?_, ?_⟩⟩
  · rw [hop] at hop'
    cases hop'
  · show base < incr q.CPUTime
    rw [incr_eq hlt]
    omega
  · show q.BurstTime =
      (1 + q.M * (decr q.CPUBurst + (incr q.CPUTime - base - 1))) % 2 ^ 32
    rw [incr_eq hlt, decr_eq hburst hburst', htimer]
    congr 3
    omega

end Process

namespace Machine

open Process (Boards Metered Charged)

variable {d : Policy} {file : RandomFile} {a b : Machine} {t i : Nat}

theorem proceedForward_Prime
    (i : Nat) :
    (a.proceedForward d).Prime i =
      if a.selection = some i then (a.Prime i).proceed d a.present
      else a.Prime i := by
  unfold proceedForward
  split
  next hsel =>
      rw [hsel, if_neg (by simp)]
  next p hsel =>
      by_cases hip : i = p
      · subst i
        rw [hsel, if_pos rfl]
        unfold Process.proceed
        split_ifs <;>
          simp [terminate, blockRunning, preempt, keepRunning, modify]
      · rw [hsel, if_neg (fun h => hip (Option.some.inj h).symm)]
        split_ifs <;>
          simp [terminate, blockRunning, preempt, keepRunning, modify, hip]

theorem execxuteB_Prime
    (i : Nat) :
    a.execxuteB.Prime i =
      if a.firstExpired = some i then { a.Prime i with condition := .ready }
      else a.Prime i := by
  unfold execxuteB
  split
  next hfirst =>
      rw [hfirst, if_neg (by simp)]
  next p hfirst =>
      rw [hfirst]
      by_cases hip : i = p
      · subst i
        simp [release, modify]
      · rw [if_neg (fun h => hip (Option.some.inj h).symm)]
        simp [release, modify, hip]

/-- The processes that arrive have not started before. -/
theorem creation_Prime
    (ht : a.Arrived t)
    (hpresent : a.present = t % 2 ^ 32)
    (i : Nat) :
    a.creation.Prime i = a.Prime i ∨
      (a.Prime i).condition = .unstarted ∧
        a.creation.Prime i = { a.Prime i with condition := .ready } := by
  unfold creation
  split
  next hmissing =>
      simp only [arrive]
      split
      next hi =>
          obtain ⟨hlt, hA⟩ := mem_arrivals.mp hi
          have hp := present_eq_of_missing ht hpresent hmissing
          exact .inr ⟨(ht.unstarted_iff i hlt).mpr (by omega), rfl⟩
      next =>
          exact .inl rfl
  next =>
      exact .inl rfl

theorem dispatch_Prime
    (h : a.Queued)
    (hlive : a.Launchable d)
    (hb : a.dispatch d file = some b)
    (i : Nat) :
    b.Prime i = a.Prime i ∨
      (a.Prime i).condition = .ready ∧
        ∃ number, b.Prime i = launch d (draw number (a.Prime i)) := by
  cases dispatch_cases hb with
  | busy | idle => exact .inl rfl
  | @start p number hfree hchoose =>
      have hmem := List.mem_append_left a.pause (choose_mem hchoose)
      rw [start_eq (hlive hfree p number hchoose)]
      by_cases hip : i = p
      · subst i
        exact .inr ⟨(h.waiting_spec p hmem).2, number,
          by simp [modify]⟩
      · exact .inl (by simp [modify, hip])

/-- Of `executeR` a process sees at most its dispatch. -/
theorem Sound.executeR_Prime
    {c : Machine}
    (h : a.Sound t)
    (hc : (a.prepare d).executeR d file = some c)
    (i : Nat) :
    c.Prime i = (a.prepare d).Prime i ∨
      ((a.prepare d).Prime i).condition = .ready ∧
        ∃ number, c.Prime i =
          launch d (draw number ((a.prepare d).Prime i)) := by
  obtain ⟨e, he, rfl⟩ := Option.map_eq_some_iff.mp hc
  have hopen := prepare_opened (d := d) h.queued h.arrived h.present_eq
  have h₁ := pauseOthers_phase (d := d) hopen.queued
  have h₂ := h₁.trans (resumePaused_phase (d := d) h₁.queued)
  have hdispatch := dispatch_Prime h₂.queued h.launchable he i
  rw [resumePaused_frame.1, pauseOthers_frame.1] at hdispatch
  rw [pauseReady_frame.1]
  exact hdispatch

/-- One cycle of a process, part by part. -/
theorem Sound.boards
    (h : a.Sound t)
    (hb : a.datapoint d file = some b)
    (hi : i < a.countPrime) :
    ∃ q, Boards d ((a.proceedForward d).execxuteB.Prime i) q ∧
      (q.condition = .running → 0 < q.CPUBurst) ∧
      q.Budgeted ∧ b.Prime i = q.countdown d := by
  obtain ⟨c, hc, rfl⟩ := Option.map_eq_some_iff.mp hb
  have h₁ := proceedForward_phase (d := d) h.queued
  have h₂ := h₁.trans (execxuteB_phase h₁.queued)
  have hopen := prepare_opened (d := d) h.queued h.arrived h.present_eq
  have hphase := executeR_phase hopen.queued h.launchable hc
  have hdone := hopen.phase hphase
  refine ⟨c.Prime i, ?_, ?_, ?_, advance_Prime (hdone.count.symm ▸ hi)⟩
  · have hcreation := creation_Prime (h₂.arrived t h.arrived)
      (h₂.present.trans h.present_eq) i
    rcases h.executeR_Prime hc i with heq | ⟨hready, number, heq⟩
    · rw [heq]
      rcases hcreation with hsame | ⟨hcond, harrive⟩
      · exact hsame ▸ .stay
      · exact harrive ▸ .arrive hcond
    · rw [heq]
      rcases hcreation with hsame | ⟨hcond, harrive⟩
      · rw [prepare, hsame] at hready ⊢
        exact .launch number (.inl hready)
      · rw [prepare, harrive]
        exact .launch number (.inr hcond)
  · intro hrun
    exact h.executeR_lively hc i
      ((hphase.queued.selection_iff i).mpr ⟨hdone.count.symm ▸ hi, hrun⟩)
  · exact (h.budgeted i hi).of_movesTo (hdone.moves i hi)

/-- A process that is not released stays on the block list. -/
theorem Sound.stays_blocked
    (h : a.Sound t)
    (hb : a.datapoint d file = some b)
    (hi : i < a.countPrime)
    (hcond : ((a.proceedForward d).Prime i).condition = .blocked)
    (hother : (a.proceedForward d).firstExpired ≠ some i) :
    b.Prime i = ((a.proceedForward d).Prime i).countdown d := by
  obtain ⟨q, hboards, _, _, hq⟩ := h.boards hb hi
  rw [execxuteB_Prime, if_neg hother] at hboards
  rw [hq, hboards.eq (by simp [hcond]) (by simp [hcond])]

/-- A process whose I/O is not over is not released. -/
theorem firstExpired_ne_of_more
    (hmore : (a.Prime i).expired = false) :
    a.firstExpired ≠ some i := by
  intro hfirst
  rw [(firstExpired_spec hfirst).2] at hmore
  cases hmore

/-- A process that is released, or was not blocked, is not blocked when the
cycle ends. -/
theorem Sound.leaves_block
    (h : a.Sound t)
    (hb : a.datapoint d file = some b)
    (hi : i < a.countPrime)
    (hout : ((a.proceedForward d).Prime i).condition ≠ .blocked ∨
      (a.proceedForward d).firstExpired = some i) :
    (b.Prime i).condition ≠ .blocked ∧
      (b.Prime i).Btime = ((a.proceedForward d).Prime i).Btime := by
  obtain ⟨q, hboards, _, _, hq⟩ := h.boards hb hi
  have hfree : ((a.proceedForward d).execxuteB.Prime i).condition ≠
      .blocked := by
    rw [execxuteB_Prime]
    split
    next => simp
    next hkeep => exact hout.resolve_right hkeep
  have hBtime : ((a.proceedForward d).execxuteB.Prime i).Btime =
      ((a.proceedForward d).Prime i).Btime := by
    rw [execxuteB_Prime]
    split <;> rfl
  have hqfree : q.condition ≠ .blocked :=
    fun hblocked => hfree (hboards.blocked_iff.mp hblocked)
  rw [hq, Process.countdown_condition, Process.countdown_Btime_of_ne hqfree,
    hboards.Btime_eq]
  exact ⟨hqfree, hBtime⟩

/-- A process whose I/O is over is released exactly when nothing ahead of it is
due. -/
theorem Sound.firstExpired_iff_of_due
    {l l' : List Nat}
    (h : a.Sound t)
    (hblock : a.block = l ++ i :: l')
    (hdue : (a.Prime i).Due) :
    (a.proceedForward d).firstExpired = some i ↔
      ∀ j ∈ l, ¬ (a.Prime j).Due := by
  have hmem : ∀ j ∈ l ++ [i], j ∈ a.block := by
    intro j hj
    rw [hblock, List.append_cons]
    exact List.mem_append_left _ hj
  have hsame : ∀ j ∈ l ++ [i],
      (a.proceedForward d).Prime j = a.Prime j := by
    intro j hj
    rw [proceedForward_Prime, if_neg]
    intro hsel
    have hrun := ((h.queued.selection_iff j).mp hsel).2
    rw [((h.queued.block_iff j).mp (hmem j hj)).2] at hrun
    cases hrun
  have hrest : ∃ rest, (a.proceedForward d).block = a.block ++ rest := by
    unfold proceedForward
    split
    · exact ⟨[], by simp⟩
    · split_ifs
      · exact ⟨[], by simp [terminate, modify]⟩
      · exact ⟨_, rfl⟩
      · exact ⟨[], by simp [preempt, modify]⟩
      · exact ⟨[], by simp [keepRunning, modify]⟩
  obtain ⟨rest, hrest⟩ := hrest
  have hsplit : (a.proceedForward d).block = l ++ i :: (l' ++ rest) := by
    rw [hrest, hblock]
    simp
  constructor
  · intro hfirst j hj hjdue
    rw [firstExpired, hsplit, List.find?_append] at hfirst
    have hexpired : ((a.proceedForward d).Prime j).expired = true := by
      rw [hsame j (List.mem_append_left _ hj)]
      exact hjdue.2
    obtain ⟨k, hk⟩ := Option.isSome_iff_exists.mp
      (List.find?_isSome (p := fun k => ((a.proceedForward d).Prime k).expired)
        |>.mpr ⟨j, hj, hexpired⟩)
    rw [hk, Option.some_or] at hfirst
    obtain rfl := Option.some.inj hfirst
    have hnodup := h.queued.block_nodup
    rw [hblock] at hnodup
    exact (List.nodup_append.mp hnodup).2.2 k (List.mem_of_find?_eq_some hk) k
      (List.mem_cons_self) rfl
  · intro hahead
    rw [firstExpired, List.find?_eq_some_iff_append]
    refine ⟨?_, l, l' ++ rest, hsplit, ?_⟩
    · rw [hsame i (by simp), hdue.2]
    · intro j hj
      have hj' : j ∈ l ++ [i] := List.mem_append_left _ hj
      have hcond := ((h.queued.block_iff j).mp (hmem j hj')).2
      rw [hsame j hj']
      simpa using fun hexp => hahead j hj ⟨hcond, hexp⟩

/-- A process that is off the CPU after the first part of a cycle is metered
from its CPU time on. -/
theorem Sound.metered_off
    {base : Nat}
    (h : a.Sound t)
    (hb : a.datapoint d file = some b)
    (hi : i < a.countPrime)
    (hoff : ((a.proceedForward d).Prime i).condition ≠ .running)
    (hbase : ((a.proceedForward d).Prime i).condition ≠ .terminated →
      ((a.proceedForward d).Prime i).CPUTime = base) :
    (b.Prime i).Metered base := by
  obtain ⟨q, hboards, hlively, hbudget, hq⟩ := h.boards hb hi
  have hphase := proceedForward_phase (d := d) h.queued
  have hlt : q.condition = .running → q.CPUTime + 1 < 2 ^ 32 := by
    intro hrun
    have hpos := hlively hrun
    have hsum := hbudget.running hrun
    have hC := hbudget.fits.C_lt
    omega
  rw [hq]
  rw [execxuteB_Prime] at hboards
  split at hboards
  next hfirst =>
      have hmem := (firstExpired_spec hfirst).1
      have hcond := ((hphase.queued.block_iff i).mp hmem).2
      refine Metered.of_boards ?_ (fun _ => ?_) hboards hlt
      · simp
      · exact hbase (by simp [hcond])
  next =>
      exact Metered.of_boards hoff hbase hboards hlt

/-- A cycle keeps the timers right; the CPU time at the last dispatch is the
one at which the process has last left the CPU. -/
theorem Sound.metered
    {base : Nat}
    (h : a.Sound t)
    (hb : a.datapoint d file = some b)
    (hi : i < a.countPrime)
    (hm : (a.Prime i).Metered base) :
    (b.Prime i).Metered
      (if a.EntersBlock i ∨ a.Preempted d i then (a.Prime i).CPUTime
        else base) := by
  have hphase := proceedForward_phase (d := d) h.queued
  have hprime := proceedForward_Prime (d := d) (a := a) i
  by_cases hsel : a.selection = some i
  · have hrun := ((h.queued.selection_iff i).mp hsel).2
    rw [if_pos hsel, Process.proceed] at hprime
    have hcpu : (a.Prime i).chargeBurst.CPUTime = (a.Prime i).CPUTime := by
      rw [Process.chargeBurst_eq]
    by_cases hdone : (a.Prime i).C = (a.Prime i).CPUTime
    · rw [if_pos hdone] at hprime
      rw [if_neg]
      · apply h.metered_off hb hi <;> simp [hprime]
      · rintro (henter | hpreempt)
        · exact henter.2.1 hdone
        · exact hpreempt.2.1 hdone
    rw [if_neg hdone] at hprime
    by_cases hburst : (a.Prime i).CPUBurst = 0
    · rw [if_pos hburst] at hprime
      rw [if_pos (.inl ⟨hsel, hdone, hburst⟩)]
      apply h.metered_off hb hi <;> simp [hprime, hcpu]
    rw [if_neg hburst] at hprime
    by_cases hquantum : d = .rr ∧ (a.Prime i).quantum ≤ 0
    · rw [if_pos hquantum] at hprime
      rw [if_pos (.inr ⟨hsel, hdone, hburst, hquantum⟩)]
      apply h.metered_off hb hi <;> simp [hprime, hcpu]
    · rw [if_neg hquantum] at hprime
      rw [if_neg]
      · -- The process goes on, and nothing else in the cycle touches it.
        obtain ⟨q, hboards, hlively, hbudget, hq⟩ := h.boards hb hi
        have hfirst : (a.proceedForward d).firstExpired ≠ some i := by
          intro hfirst
          have hcond := ((hphase.queued.block_iff i).mp
            (firstExpired_spec hfirst).1).2
          rw [hprime] at hcond
          cases hcond
        rw [execxuteB_Prime, if_neg hfirst, hprime] at hboards
        obtain rfl := hboards.eq (by simp) (by simp)
        have hpos := hlively rfl
        have hsum := hbudget.running rfl
        have hC := hbudget.fits.C_lt
        have hcharged : Charged base
            { (a.Prime i).chargeBurst with condition := .running } :=
          hm.chargeBurst hrun
        have hop : (a.Prime i).chargeBurst.operating = false := by
          rw [Process.chargeBurst_eq]
        rw [hq]
        exact hcharged.countdown rfl hop hpos (by omega) (by omega)
      · rintro (henter | hpreempt)
        · exact hburst henter.2.2
        · exact hquantum hpreempt.2.2.2
  · rw [if_neg hsel] at hprime
    rw [if_neg]
    · have hoff : (a.Prime i).condition ≠ .running :=
        fun hrun => hsel ((h.queued.selection_iff i).mpr ⟨hi, hrun⟩)
      apply h.metered_off hb hi
      · rwa [hprime]
      · rw [hprime]
        exact hm.waiting hoff
    · rintro (henter | hpreempt)
      · exact hsel henter.1
      · exact hsel hpreempt.1

end Machine

end Scheduler
end PastWork
