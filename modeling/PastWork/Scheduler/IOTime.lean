import PastWork.Library.Timeline
import PastWork.Scheduler.Bursts

/-!
# The length of an I/O

The timer of an I/O is `1 + M * (r - 1)` for the `r` ticks that the process has
run since its last dispatch.  It is what it should be, `M` times the ticks since
the previous I/O, exactly when `M` is 1 and the process has not been preempted
in between.  A process whose timer has run out is held back as long as another one
ahead of it on the block list is due as well.
-/

namespace PastWork
namespace Scheduler

open Timeline

/-- The ticks that process `i` has run in the first `t` cycles. -/
def ranTicks (run : Nat → State) (i t : Nat) : Nat :=
  Nat.count (fun j => ((run (j + 1)).Prime i).condition = .running) t

/-- From cycle `t` on, process `i` is blocked at the end of exactly `n`
cycles. -/
def BlockedFor (run : Nat → State) (i t n : Nat) : Prop :=
  HoldsFor (fun j => ((run j).Prime i).condition = .blocked) (t + 1) n

/-- The burst that process `i` is in at cycle `t` follows the I/O that has
started in cycle `u`, or is the first one. -/
def BurstSince (run : Nat → State) (i u t : Nat) : Prop :=
  Since (fun j => (run j).EntersBlock i) u t

/-- From cycle `t` on process `i` waits behind another process of the block list
whose I/O is over, and no longer in cycle `t'`. -/
structure HeldBack (run : Nat → State) (i t t' : Nat) : Prop where
  le : t ≤ t'
  behind : ∀ j, t ≤ j → j < t' → ¬ (run j).Foremost i
  foremost : (run t').Foremost i

/-- A run of the simulator beside the run of the machine. -/
structure Paired
    (d : Policy) (file : RandomFile) (W : Workload)
    (run : Nat → State) (m : Nat → Machine) : Prop where
  initial : (m 0).Initial file W
  represents : ∀ t, Represents (run t) (m t)
  sound : ∀ t, (m t).Sound t
  step : ∀ t, (m t).datapoint d file = some (m (t + 1))

section Pairing

variable {d : Policy} {file : RandomFile} {W : Workload}
variable {run : Nat → State} {m : Nat → Machine} {i t u : Nat}

theorem exists_paired
    (hd : d ≠ .block)
    (hC : ∀ job ∈ W.jobs, 1 ≤ job.C)
    (hstart : Started file W (run 0))
    (hrun : ∀ t, datapoint d file (run t) = .ok (run (t + 1))) :
    ∃ m, Paired d file W run m := by
  obtain ⟨a, hrep, hinit⟩ := hstart.initial
  have hsound := hinit.sound hC
  have hticks : ∀ t, ticks d file t (run 0) = .ok (run t) := by
    intro t
    induction t with
    | zero =>
        rfl
    | succ t ih =>
        rw [ticks_eq_bind, ih]
        exact hrun t
  have hpair : ∀ t, ∃ b, a.ticks d file t = some b ∧
      Represents (run t) b := by
    intro t
    exact hrep.ran hd hinit.orderly (hticks t)
  choose m hm hrep' using hpair
  have hzero : m 0 = a := (Option.some.inj (hm 0)).symm
  refine ⟨m, hzero ▸ hinit, hrep', fun t => hsound.ticks (hm t), ?_⟩
  intro t
  obtain ⟨c, hc, hcb⟩ := Machine.ticks_succ (hm (t + 1))
  rw [hm t] at hc
  cases hc
  exact hcb

theorem Paired.countPrime
    (h : Paired d file W run m)
    (t : Nat) :
    (m t).countPrime = W.jobs.length := by
  induction t with
  | zero =>
      exact h.initial.pristine.countPrime
  | succ t ih =>
      exact ((h.sound t).cycle (h.step t)).count.trans ih

theorem Paired.M_eq
    (h : Paired d file W run m)
    (hi : i < W.jobs.length)
    (t : Nat) :
    ((m t).Prime i).M = (W.jobs[i]).M.toNat := by
  induction t with
  | zero =>
      have hlt : i < (m 0).countPrime := (h.countPrime 0).symm ▸ hi
      obtain ⟨_, _, _, _, _, hproc⟩ := h.initial.process hlt
      rw [hproc]
      rfl
  | succ t ih =>
      have hlt : i < (m t).countPrime := (h.countPrime t).symm ▸ hi
      obtain ⟨q, hmoves, hq⟩ :=
        ((h.sound t).cycle (h.step t)).process i hlt
      rw [hq, (Process.countdown_input_eq d q).2.2.2,
        hmoves.input_eq.2.2.2, ih]

theorem Paired.entersBlock
    (h : Paired d file W run m) :
    (run t).EntersBlock i ↔ (m t).EntersBlock i := by
  unfold Globals.EntersBlock
  rw [(h.represents t).selection,
    (h.represents t).field Process.C (fun _ => rfl),
    (h.represents t).field Process.CPUTime (fun _ => rfl),
    (h.represents t).field Process.CPUBurst (fun _ => rfl)]

theorem Paired.preempted
    (h : Paired d file W run m) :
    (run t).Preempted d i ↔ (m t).Preempted d i := by
  unfold Globals.Preempted
  rw [(h.represents t).selection,
    (h.represents t).field Process.C (fun _ => rfl),
    (h.represents t).field Process.CPUTime (fun _ => rfl),
    (h.represents t).field Process.CPUBurst (fun _ => rfl),
    (h.represents t).field Process.quantum (fun _ => rfl)]

theorem Paired.condition
    (h : Paired d file W run m) :
    ((run t).Prime i).condition = ((m t).Prime i).condition :=
  (h.represents t).field Process.condition (fun _ => rfl) i

theorem Paired.due
    (h : Paired d file W run m) :
    ((run t).Prime i).Due ↔ ((m t).Prime i).Due := by
  unfold Process.Due
  rw [h.condition,
    (h.represents t).field Process.expired (fun _ => rfl)]

/-- The CPU time counts the ticks that the process has run. -/
theorem Paired.CPUTime_eq
    (h : Paired d file W run m)
    (hi : i < W.jobs.length)
    (t : Nat) :
    ((m t).Prime i).CPUTime = ranTicks run i t := by
  induction t with
  | zero =>
      have hlt : i < (m 0).countPrime := (h.countPrime 0).symm ▸ hi
      obtain ⟨_, _, _, _, _, hproc⟩ := h.initial.process hlt
      rw [hproc, ranTicks, Nat.count_zero]
      rfl
  | succ t ih =>
      have hlt : ∀ k, i < (m k).countPrime :=
        fun k => (h.countPrime k).symm ▸ hi
      have hsel := (h.sound (t + 1)).queued.selection_iff i
      rw [ranTicks, Nat.count_succ, ← ranTicks, ← ih, h.condition]
      by_cases hrun : ((m (t + 1)).Prime i).condition = .running
      · rw [if_pos hrun]
        exact ((h.sound t).running_CPUTime (h.step t)
          (hsel.mpr ⟨hlt _, hrun⟩)).2.1
      · rw [if_neg hrun]
        exact (h.sound t).waiting_CPUTime (h.step t) (hlt t)
          (fun hs => hrun (hsel.mp hs).2)

theorem ranTicks_zero
    (run : Nat → State) (i : Nat) :
    ranTicks run i 0 = 0 :=
  Nat.count_zero _

theorem ranTicks_mono
    (run : Nat → State) (i : Nat) :
    Monotone (ranTicks run i) :=
  Nat.count_monotone _

/-- The ticks that process `i` had run when it last left the CPU. -/
def dispatchBase
    (d : Policy) (run : Nat → State) (i : Nat) : Nat → Nat :=
  lastAt (fun j => (run j).EntersBlock i ∨ (run j).Preempted d i)
    (ranTicks run i)

/-- The timer that process `i` gets for an I/O that starts in cycle `t`. -/
def ioTimer
    (d : Policy) (W : Workload) (run : Nat → State)
    (i : Nat) (hi : i < W.jobs.length) (t : Nat) : Nat :=
  1 + (W.jobs[i]).M.toNat * (ranTicks run i t - dispatchBase d run i t - 1)

theorem Paired.metered
    (h : Paired d file W run m)
    (hi : i < W.jobs.length)
    (t : Nat) :
    ((m t).Prime i).Metered (dispatchBase d run i t) := by
  have hlt : ∀ k, i < (m k).countPrime :=
    fun k => (h.countPrime k).symm ▸ hi
  induction t with
  | zero =>
      obtain ⟨_, _, _, _, _, hproc⟩ := h.initial.process (hlt 0)
      rw [hproc]
      exact ⟨fun _ _ => rfl, fun hrun => (by cases hrun),
        fun hrun => (by cases hrun)⟩
  | succ t ih =>
      have hstep := (h.sound t).metered (h.step t) (hlt t) ih
      rw [h.CPUTime_eq hi t] at hstep
      simpa only [dispatchBase, lastAt, h.entersBlock, h.preempted]
        using hstep

theorem expired_eq
    {q : Process}
    (hlt : q.BurstTime < 2 ^ 31) :
    q.expired = decide (q.BurstTime = 0) := by
  simp only [Process.expired, toInt32, if_pos hlt]
  congr 1
  simp

theorem Paired.unselected
    (h : Paired d file W run m)
    (hcond : ((m t).Prime i).condition = .blocked) :
    (m t).selection ≠ some i := by
  intro hsel
  have hrun := (((h.sound t).queued.selection_iff i).mp hsel).2
  rw [hcond] at hrun
  cases hrun

/-- The timer of a process that stays blocked counts down, and the cycle is
charged to the process. -/
theorem Paired.stays
    (h : Paired d file W run m)
    (hi : i < W.jobs.length)
    (hcond : ((m t).Prime i).condition = .blocked)
    (hother : ((m t).proceedForward d).firstExpired ≠ some i) :
    ((m (t + 1)).Prime i).condition = .blocked ∧
      ((m (t + 1)).Prime i).BurstTime = decr ((m t).Prime i).BurstTime ∧
      ((m (t + 1)).Prime i).Btime = incr ((m t).Prime i).Btime := by
  have hcount : i < (m t).countPrime := (h.countPrime t).symm ▸ hi
  have hsame : ((m t).proceedForward d).Prime i = (m t).Prime i := by
    rw [Machine.proceedForward_Prime, if_neg (h.unselected hcond)]
  have hnext := (h.sound t).stays_blocked (h.step t) hcount
    (by rw [hsame]; exact hcond) hother
  rw [hnext, hsame, Process.countdown_of_blocked hcond]
  exact ⟨hcond, rfl, rfl⟩

/-- A timer that has not run out counts down. -/
theorem Paired.waits
    (h : Paired d file W run m)
    (hi : i < W.jobs.length)
    (hcond : ((m t).Prime i).condition = .blocked)
    (hpos : 0 < ((m t).Prime i).BurstTime)
    (hlt : ((m t).Prime i).BurstTime < 2 ^ 31) :
    ((m (t + 1)).Prime i).condition = .blocked ∧
      ((m (t + 1)).Prime i).BurstTime = ((m t).Prime i).BurstTime - 1 ∧
      ((m (t + 1)).Prime i).Btime = incr ((m t).Prime i).Btime := by
  have hmore : (((m t).proceedForward d).Prime i).expired = false := by
    rw [Machine.proceedForward_Prime, if_neg (h.unselected hcond),
      expired_eq hlt]
    exact decide_eq_false (by omega)
  obtain ⟨hcond', htime, hBtime⟩ :=
    h.stays hi hcond (Machine.firstExpired_ne_of_more hmore)
  exact ⟨hcond', htime.trans (decr_eq hpos (by omega)), hBtime⟩

/-- The process that is released is the foremost one whose timer has run out. -/
theorem Paired.foremost_iff
    (h : Paired d file W run m)
    (hi : i < W.jobs.length)
    (hdue : ((m t).Prime i).Due) :
    (run t).Foremost i ↔
      ((m t).proceedForward d).firstExpired = some i := by
  have hcount : i < (m t).countPrime := (h.countPrime t).symm ▸ hi
  have hlinks := (h.represents t).threaded.blockLinks.chain
  constructor
  · intro hfore
    obtain ⟨l, l', hblock⟩ := List.append_of_mem
      (((h.sound t).queued.block_iff i).mpr ⟨hcount, hdue.1⟩)
    rw [hblock] at hlinks
    exact ((h.sound t).firstExpired_iff_of_due hblock hdue).mpr
      (fun j hj hjdue => hfore (h.due.mpr hdue) l l' hlinks j hj
        (h.due.mpr hjdue))
  · intro hfirst _ l l' hchain j hj hjdue
    exact ((h.sound t).firstExpired_iff_of_due (hlinks.unique hchain) hdue).mp
      hfirst j hj (h.due.mp hjdue)

/-- A process whose timer has run out is released unless it is held back. -/
theorem Paired.released
    (h : Paired d file W run m)
    (hi : i < W.jobs.length)
    (hfore : (run t).Foremost i)
    (hdue : ((m t).Prime i).Due) :
    ((m (t + 1)).Prime i).condition ≠ .blocked ∧
      ((m (t + 1)).Prime i).Btime = ((m t).Prime i).Btime := by
  have hcount : i < (m t).countPrime := (h.countPrime t).symm ▸ hi
  obtain ⟨hout, hBtime⟩ := (h.sound t).leaves_block (h.step t) hcount
    (.inr ((h.foremost_iff hi hdue).mp hfore))
  rw [Machine.proceedForward_Prime, if_neg (h.unselected hdue.1)] at hBtime
  exact ⟨hout, hBtime⟩

/-- The ticks since the last dispatch, at the start of an I/O. -/
theorem Paired.dispatchBase_lt
    (h : Paired d file W run m)
    (hi : i < W.jobs.length)
    (hsel : (m t).selection = some i) :
    dispatchBase d run i t < ranTicks run i t := by
  have hmeter := h.metered hi t
  obtain ⟨_, hrun⟩ := ((h.sound t).queued.selection_iff i).mp hsel
  rw [← h.CPUTime_eq hi t]
  exact (hmeter.chargeBurst hrun).1.trans_eq
    (by rw [Process.chargeBurst_eq])

/-- The start of an I/O: the timer is fixed by the ticks since the last
dispatch. -/
theorem Paired.enters
    (h : Paired d file W run m)
    (hi : i < W.jobs.length)
    (henter : (run t).EntersBlock i)
    {length : Nat}
    (hlength : length = ioTimer d W run i hi t)
    (hlt : length < 2 ^ 31) :
    ((m (t + 1)).Prime i).condition = .blocked ∧
      ((m (t + 1)).Prime i).BurstTime = length - 1 ∧
      ((m (t + 1)).Prime i).Btime = incr ((m t).Prime i).Btime := by
  have hcount : i < (m t).countPrime := (h.countPrime t).symm ▸ hi
  obtain ⟨hsel, hleft, hburst⟩ := h.entersBlock.mp henter
  obtain ⟨_, hrun⟩ := ((h.sound t).queued.selection_iff i).mp hsel
  obtain ⟨_, htimer⟩ := (h.metered hi t).chargeBurst hrun
  have hprime : ((m t).proceedForward d).Prime i =
      { ((m t).Prime i).chargeBurst with condition := .blocked } := by
    rw [Machine.proceedForward_Prime, if_pos hsel, Process.proceed,
      if_neg hleft, if_pos hburst]
  rw [ioTimer] at hlength
  have htime : (((m t).Prime i).chargeBurst).BurstTime = length := by
    have hM := h.M_eq hi t
    have hcpu := h.CPUTime_eq hi t
    rw [htimer]
    rw [Process.chargeBurst_eq]
    show (1 + ((m t).Prime i).M * (((m t).Prime i).CPUBurst +
      (((m t).Prime i).CPUTime - _ - 1))) % 2 ^ 32 = length
    rw [hburst, hM, hcpu, Nat.zero_add, ← hlength]
    exact Nat.mod_eq_of_lt (by omega)
  have hmore : (((m t).proceedForward d).Prime i).expired = false := by
    have hsmall : (((m t).proceedForward d).Prime i).BurstTime = length := by
      rw [hprime]
      exact htime
    rw [expired_eq (by omega), hsmall]
    exact decide_eq_false (by omega)
  have hnext := (h.sound t).stays_blocked (h.step t) hcount
    (by rw [hprime]) (Machine.firstExpired_ne_of_more hmore)
  rw [hnext, hprime, Process.countdown_of_blocked rfl]
  refine ⟨rfl, ?_, ?_⟩
  · show decr (((m t).Prime i).chargeBurst).BurstTime = length - 1
    rw [htime]
    exact decr_eq (by omega) (by omega)
  · show incr (((m t).Prime i).chargeBurst).Btime = _
    rw [Process.chargeBurst_eq]

/-- Until its timer has run out, a process stays blocked. -/
theorem Paired.counts
    (h : Paired d file W run m)
    (hi : i < W.jobs.length)
    (henter : (run t).EntersBlock i)
    {length : Nat}
    (hlength : length = ioTimer d W run i hi t)
    (hlt : length < 2 ^ 31)
    {j : Nat}
    (hj : j < length) :
    ((m (t + 1 + j)).Prime i).condition = .blocked ∧
      ((m (t + 1 + j)).Prime i).BurstTime = length - 1 - j := by
  induction j with
  | zero =>
      obtain ⟨hcond, htime, _⟩ := h.enters hi henter hlength hlt
      exact ⟨hcond, htime⟩
  | succ j ih =>
      obtain ⟨hcond, htime⟩ := ih (by omega)
      obtain ⟨hcond', htime', _⟩ := h.waits hi hcond (by omega) (by omega)
      refine ⟨hcond', ?_⟩
      rw [← Nat.add_assoc, htime', htime]
      omega

/-- A timer that has run out counts on below 0 as long as the process is held
back. -/
theorem Paired.overdue
    (h : Paired d file W run m)
    (hi : i < W.jobs.length)
    (hcond : ((m t).Prime i).condition = .blocked)
    (hzero : ((m t).Prime i).BurstTime = 0)
    {n : Nat}
    (hn : n < 2 ^ 31)
    (hbehind : ∀ j < n, ¬ (run (t + j)).Foremost i) :
    ((m (t + n)).Prime i).Due ∧
      ((m (t + n)).Prime i).BurstTime = (2 ^ 32 - n) % 2 ^ 32 := by
  induction n with
  | zero =>
      refine ⟨⟨hcond, ?_⟩, hzero⟩
      rw [Nat.add_zero, expired_eq (by omega)]
      exact decide_eq_true hzero
  | succ n ih =>
      obtain ⟨hdue, htime⟩ :=
        ih (by omega) (fun j hj => hbehind j (by omega))
      have hother : ((m (t + n)).proceedForward d).firstExpired ≠ some i :=
        fun hfirst => hbehind n (by omega) ((h.foremost_iff hi hdue).mpr hfirst)
      obtain ⟨hcond', htime', _⟩ := h.stays hi hdue.1 hother
      have hlast : ((m (t + (n + 1))).Prime i).BurstTime =
          (2 ^ 32 - (n + 1)) % 2 ^ 32 := by
        rw [← Nat.add_assoc, htime', htime, decr]
        omega
      refine ⟨⟨hcond', ?_⟩, hlast⟩
      rw [Process.expired, hlast, toInt32, if_neg (by omega)]
      exact decide_eq_true (by omega)

/-- A process whose I/O has started is due from the moment its timer has run out, as
long as it is held back. -/
theorem Paired.due_of_behind
    (h : Paired d file W run m)
    (hi : i < W.jobs.length)
    (henter : (run t).EntersBlock i)
    (hlt : ioTimer d W run i hi t < 2 ^ 31)
    {e : Nat}
    (hle : ioTimer d W run i hi t ≤ e)
    (he : e < 2 ^ 31)
    (hbehind : ∀ j, t + ioTimer d W run i hi t ≤ j → j < t + e →
      ¬ (run j).Foremost i) :
    ((m (t + e)).Prime i).Due := by
  have hpos : 0 < ioTimer d W run i hi t := Nat.add_pos_left Nat.one_pos _
  have hlast : t + 1 + (ioTimer d W run i hi t - 1) =
      t + ioTimer d W run i hi t := by omega
  obtain ⟨hcond, hzero⟩ := h.counts hi henter rfl hlt (Nat.sub_one_lt hpos.ne')
  rw [hlast] at hcond hzero
  rw [Nat.sub_self] at hzero
  have hover := (h.overdue hi hcond hzero
    (n := e - ioTimer d W run i hi t) (by omega)
    (fun j hj => hbehind (t + ioTimer d W run i hi t + j) (by omega)
      (by omega))).1
  have heq : t + ioTimer d W run i hi t + (e - ioTimer d W run i hi t) =
      t + e := by omega
  exact heq ▸ hover

/-- An I/O of `n` ticks: its timer has run out by then, and the process has been
held back from that time on. -/
theorem Paired.heldBack_of_blockedFor
    (h : Paired d file W run m)
    (hi : i < W.jobs.length)
    (henter : (run t).EntersBlock i)
    (hlt : ioTimer d W run i hi t < 2 ^ 31)
    {n : Nat}
    (hn : n < 2 ^ 31)
    (hfor : BlockedFor run i t n) :
    HeldBack run i (t + ioTimer d W run i hi t) (t + n) := by
  have hduring : ∀ j, t + 1 ≤ j → j < t + 1 + n →
      ((m j).Prime i).condition = .blocked := by
    intro j hj hj'
    have hblocked := hfor.during (j - (t + 1)) (by omega)
    rw [Nat.add_sub_cancel' hj, h.condition] at hblocked
    exact hblocked
  have hafter : ((m (t + n + 1)).Prime i).condition ≠ .blocked := by
    have hout := hfor.after
    rw [Nat.add_right_comm, h.condition] at hout
    exact hout
  have hle : ioTimer d W run i hi t ≤ n := by
    by_contra hshort
    refine hafter ?_
    rw [Nat.add_right_comm]
    exact (h.counts hi henter rfl hlt (by omega)).1
  have hbehind : ∀ j, t + ioTimer d W run i hi t ≤ j → j < t + n →
      ¬ (run j).Foremost i := by
    intro j
    induction j using Nat.strong_induction_on with
    | _ j ih =>
        intro hlate hearly hfore
        have hjdue := h.due_of_behind hi henter hlt (e := j - t) (by omega)
          (by omega) (fun k hk hk' => ih k (by omega) hk (by omega))
        rw [Nat.add_sub_cancel' (by omega)] at hjdue
        exact (h.released hi hfore hjdue).1
          (hduring (j + 1) (by omega) (by omega))
  refine ⟨by omega, hbehind, ?_⟩
  by_contra hheld
  have hndue := h.due_of_behind hi henter hlt hle hn hbehind
  exact hafter (h.stays hi hndue.1
    (fun hfirst => hheld ((h.foremost_iff hi hndue).mpr hfirst))).1

theorem Paired.blockedFor_of_heldBack
    (h : Paired d file W run m)
    (hi : i < W.jobs.length)
    (henter : (run t).EntersBlock i)
    (hlt : ioTimer d W run i hi t < 2 ^ 31)
    {n : Nat}
    (hn : n < 2 ^ 31)
    (hheld : HeldBack run i (t + ioTimer d W run i hi t) (t + n)) :
    BlockedFor run i t n := by
  obtain ⟨hle, hbehind, hfore⟩ := hheld
  constructor
  · intro j hj
    show ((run (t + 1 + j)).Prime i).condition = .blocked
    rw [h.condition]
    by_cases hshort : j < ioTimer d W run i hi t
    · exact (h.counts hi henter rfl hlt hshort).1
    · have hjdue := h.due_of_behind hi henter hlt (e := j + 1) (by omega)
        (by omega) (fun k hk hk' => hbehind k hk (by omega))
      have heq : t + (j + 1) = t + 1 + j := by omega
      exact heq ▸ hjdue.1
  · show ((run (t + 1 + n)).Prime i).condition ≠ .blocked
    rw [h.condition, Nat.add_right_comm]
    exact (h.released hi hfore
      (h.due_of_behind hi henter hlt (by omega) hn hbehind)).1

/-- An I/O lasts as long as its timer says, and then as long as the process is
held back. -/
theorem Paired.blockedFor_iff
    (h : Paired d file W run m)
    (hi : i < W.jobs.length)
    (henter : (run t).EntersBlock i)
    (hlt : ioTimer d W run i hi t < 2 ^ 31)
    {n : Nat}
    (hn : n < 2 ^ 31) :
    BlockedFor run i t n ↔
      HeldBack run i (t + ioTimer d W run i hi t) (t + n) :=
  ⟨h.heldBack_of_blockedFor hi henter hlt hn,
    h.blockedFor_of_heldBack hi henter hlt hn⟩

theorem le_dispatchBase
    (hburst : BurstSince run i u t) :
    ranTicks run i u ≤ dispatchBase d run i t := by
  rcases hburst.start with rfl | henter
  · exact (ranTicks_zero run i).trans_le (Nat.zero_le _)
  · exact le_lastAt (ranTicks_mono run i) (.inl henter) hburst.lt

/-- A process has run the same ticks since its last dispatch as since its last
I/O exactly when it has not been preempted in between. -/
theorem Paired.dispatchBase_eq_iff
    (h : Paired d file W run m)
    (hi : i < W.jobs.length)
    (hburst : BurstSince run i u t) :
    dispatchBase d run i t = ranTicks run i u ↔
      ∀ j, u < j → j < t → ¬ (run j).Preempted d i := by
  have hmono := ranTicks_mono run i
  constructor
  · intro heq j huj hjt hpreempt
    have hsel := (h.preempted.mp hpreempt).1
    have hlt := h.dispatchBase_lt hi hsel
    have hlate : ranTicks run i j ≤ dispatchBase d run i t :=
      le_lastAt hmono (.inr hpreempt) hjt
    have hearly : ranTicks run i u ≤ dispatchBase d run i j :=
      le_dispatchBase ⟨huj, hburst.start,
        fun k huk hkj => hburst.quiet k huk (by omega)⟩
    omega
  · intro hquiet
    refine lastAt_eq (ranTicks_zero run i) (hburst.mono (fun _ => .inl) ?_)
    intro j huj hjt hev
    rcases hev with henter | hpreempt
    · exact hburst.quiet j huj hjt henter
    · exact hquiet j huj hjt hpreempt

/-- A process that does not start an I/O stays off the block list. -/
theorem Paired.free
    (h : Paired d file W run m)
    (hi : i < W.jobs.length)
    (hcond : ((m t).Prime i).condition ≠ .blocked)
    (hstay : ¬ (run t).EntersBlock i) :
    ((m (t + 1)).Prime i).condition ≠ .blocked ∧
      ((m (t + 1)).Prime i).Btime = ((m t).Prime i).Btime := by
  have hcount : i < (m t).countPrime := (h.countPrime t).symm ▸ hi
  rw [h.entersBlock] at hstay
  have hforward : (((m t).proceedForward d).Prime i).condition ≠ .blocked ∧
      (((m t).proceedForward d).Prime i).Btime =
        ((m t).Prime i).Btime := by
    rw [Machine.proceedForward_Prime]
    split
    next hsel =>
        exact Process.proceed_free
          (fun hleft hburst => hstay ⟨hsel, hleft, hburst⟩)
    next =>
        exact ⟨hcond, rfl⟩
  obtain ⟨hout, hBtime⟩ :=
    (h.sound t).leaves_block (h.step t) hcount (.inl hforward.1)
  exact ⟨hout, hBtime.trans hforward.2⟩

/-- The I/O time of a process is what its bursts so far have to pay for, less
what is left on its timer. -/
structure Process.Paid (dues : Nat) (q : Process) : Prop where
  fits : dues < 2 ^ 32
  blocked : q.condition = .blocked →
    q.Btime + q.BurstTime = dues ∧ q.BurstTime < 2 ^ 31
  free : q.condition ≠ .blocked → q.Btime = dues

/-- The I/O that starts in cycle `t` follows a burst that pays for it in full:
`M` is 1 and the burst has run without a preemption. -/
def FullyTimed
    (d : Policy) (W : Workload) (run : Nat → State)
    (i : Nat) (hi : i < W.jobs.length) (u t : Nat) : Prop :=
  (W.jobs[i]).M = 1 ∧ ranTicks run i t - ranTicks run i u < 2 ^ 31 ∧
    ∀ j, u < j → j < t → ¬ (run j).Preempted d i

/-- The I/O that starts in cycle `t` is paid for in full, and the process is not
held back when it is over. -/
def OnTime
    (d : Policy) (W : Workload) (run : Nat → State)
    (i : Nat) (hi : i < W.jobs.length) (u t : Nat) : Prop :=
  FullyTimed d W run i hi u t ∧
    (run (t + (W.jobs[i]).M.toNat *
      (ranTicks run i t - ranTicks run i u))).Foremost i

/-- What a process owes for its I/Os is on its account or on its timer, and when
the timer runs out, it is not held back. -/
structure Settling
    (run : Nat → State) (i t dues : Nat) (q : Process) : Prop where
  paid : q.Paid dues
  foremost : q.condition = .blocked → (run (t + q.BurstTime)).Foremost i

/-- An I/O on time adds the burst before it to the dues. -/
theorem Paired.settling_enters
    (h : Paired d file W run m)
    (hi : i < W.jobs.length)
    (hburst : BurstSince run i u t)
    (henter : (run t).EntersBlock i)
    (htimed : OnTime d W run i hi u t)
    (hBtime₀ : ((m t).Prime i).Btime =
      (W.jobs[i]).M.toNat * ranTicks run i u) :
    Settling run i (t + 1) ((W.jobs[i]).M.toNat * ranTicks run i t)
      ((m (t + 1)).Prime i) := by
  have hlt : i < (m t).countPrime := (h.countPrime t).symm ▸ hi
  obtain ⟨⟨hM, hsmall, hquiet⟩, hlast⟩ := htimed
  have hbase := (h.dispatchBase_eq_iff hi hburst).mpr hquiet
  have hM' : (W.jobs[i]).M.toNat = 1 := by
    rw [hM]
    rfl
  have hran := h.dispatchBase_lt hi (h.entersBlock.mp henter).1
  obtain ⟨hcond, htime, hBtime⟩ :=
    h.enters hi henter rfl (by rw [ioTimer, hM', hbase]; omega)
  have hcpu := ((h.sound t).budgeted i hlt).CPUTime_le
  have hC := ((h.sound t).budgeted i hlt).fits.C_lt
  rw [h.CPUTime_eq hi t] at hcpu
  rw [ioTimer, hM', hbase] at htime
  rw [hM', Nat.one_mul] at hlast hBtime₀
  rw [hM', Nat.one_mul]
  refine ⟨⟨by omega, fun _ => ?_, fun hc => absurd hcond hc⟩, fun _ => ?_⟩
  · rw [hBtime, hBtime₀, incr_eq (by omega), htime]
    omega
  · have hover : t + 1 + ((m (t + 1)).Prime i).BurstTime =
        t + (ranTicks run i t - ranTicks run i u) := by
      rw [htime]
      omega
    exact hover ▸ hlast

/-- During an I/O the timer is paid off. -/
theorem Paired.settling_blocked
    {dues : Nat}
    (h : Paired d file W run m)
    (hi : i < W.jobs.length)
    (hcond : ((m t).Prime i).condition = .blocked)
    (hs : Settling run i t dues ((m t).Prime i)) :
    Settling run i (t + 1) dues ((m (t + 1)).Prime i) := by
  obtain ⟨hsum, hsmall⟩ := hs.paid.blocked hcond
  have hfits := hs.paid.fits
  by_cases hzero : ((m t).Prime i).BurstTime = 0
  · have hdue : ((m t).Prime i).Due := by
      refine ⟨hcond, ?_⟩
      rw [expired_eq hsmall]
      exact decide_eq_true hzero
    have hnow : (run t).Foremost i := by
      have hthen := hs.foremost hcond
      rw [hzero] at hthen
      exact hthen
    obtain ⟨hout, hBtime⟩ := h.released hi hnow hdue
    exact ⟨⟨hfits, fun hc => absurd hc hout, fun _ => by omega⟩,
      fun hc => absurd hc hout⟩
  · obtain ⟨hcond', htime, hBtime⟩ := h.waits hi hcond (by omega) hsmall
    rw [incr_eq (by omega)] at hBtime
    refine ⟨⟨hfits, fun _ => ⟨by omega, by omega⟩,
      fun hc => absurd hcond' hc⟩, fun _ => ?_⟩
    have hover : t + 1 + ((m (t + 1)).Prime i).BurstTime =
        t + ((m t).Prime i).BurstTime := by
      rw [htime]
      omega
    exact hover ▸ hs.foremost hcond

/-- The dues of a process are the bursts before its I/Os so far. -/
theorem Paired.settling
    (h : Paired d file W run m)
    (hi : i < W.jobs.length)
    (htimed : ∀ u t, BurstSince run i u t → (run t).EntersBlock i →
      OnTime d W run i hi u t)
    (t : Nat) :
    Settling run i t ((W.jobs[i]).M.toNat *
      lastAt (fun j => (run j).EntersBlock i) (ranTicks run i) t)
      ((m t).Prime i) := by
  have hlt : ∀ k, i < (m k).countPrime :=
    fun k => (h.countPrime k).symm ▸ hi
  induction t with
  | zero =>
      obtain ⟨_, _, _, _, _, hproc⟩ := h.initial.process (hlt 0)
      rw [hproc]
      exact ⟨⟨by simp [lastAt], fun hc => (by cases hc), fun _ => rfl⟩,
        fun hc => (by cases hc)⟩
  | succ t ih =>
      rw [lastAt]
      by_cases henter : (run t).EntersBlock i
      · rw [if_pos henter]
        have hsel := (h.entersBlock.mp henter).1
        obtain ⟨_, hrun⟩ := ((h.sound t).queued.selection_iff i).mp hsel
        have hBtime := ih.paid.free (by simp [hrun])
        have hpos : t ≠ 0 := by
          rintro rfl
          rw [h.initial.pristine.selection] at hsel
          cases hsel
        obtain ⟨u, hu⟩ :=
          exists_since (t := t - 1) (fun j => (run j).EntersBlock i)
        rw [Nat.sub_add_cancel (by omega)] at hu
        rw [lastAt_eq (ranTicks_zero run i) hu] at hBtime
        exact h.settling_enters hi hu henter (htimed u t hu henter) hBtime
      · rw [if_neg henter]
        by_cases hcond : ((m t).Prime i).condition = .blocked
        · exact h.settling_blocked hi hcond ih
        · obtain ⟨hout, hBtime⟩ := h.free hi hcond henter
          exact ⟨⟨ih.paid.fits, fun hc => absurd hc hout,
            fun _ => hBtime.trans (ih.paid.free hcond)⟩,
            fun hc => absurd hc hout⟩

end Pairing

section Length

variable {d : Policy} {file : RandomFile} {W : Workload}
variable {run : Nat → State} {i : Nat}

/-- A timer that is short of one tick is right only for the factor 1. -/
theorem eq_one_of_mul_eq
    {M k r : Nat}
    (hr : 0 < r)
    (h : M * k = 1 + M * (r - 1)) :
    M = 1 ∧ k = r := by
  have hdvd : M ∣ 1 :=
    (Nat.dvd_add_left (Dvd.intro (r - 1) rfl)).mp (Dvd.intro k h)
  obtain rfl := Nat.dvd_one.mp hdvd
  exact ⟨rfl, by omega⟩

/-- When no process ahead of it on the block list is due as its timer runs out,
an I/O lasts `M` times the ticks since the previous one exactly when `M` is 1 and
the process has not been preempted since.  In any case an I/O lasts that long exactly
when the process is held back for the ticks that its timer is short of.  When all
I/Os of a process are on time, its I/O time at the end is `M` times all its bursts but
the last. -/
theorem ticks_blockedFor
    (hd : d ≠ .block)
    (hjobs : ∀ job ∈ W.jobs, 1 ≤ job.B ∧ 1 ≤ job.C ∧ 1 ≤ job.M)
    (hstart : Started file W (run 0))
    (hrun : ∀ t, datapoint d file (run t) = .ok (run (t + 1)))
    (hi : i < W.jobs.length) :
    (∀ u t, BurstSince run i u t → (run t).EntersBlock i →
      1 + (W.jobs[i]).M.toNat *
        (ranTicks run i t - ranTicks run i u - 1) < 2 ^ 31 →
      (run (t + ioTimer d W run i hi t)).Foremost i →
      (BlockedFor run i t ((W.jobs[i]).M.toNat *
          (ranTicks run i t - ranTicks run i u)) ↔
        FullyTimed d W run i hi u t)) ∧
    (∀ u t, BurstSince run i u t → (run t).EntersBlock i →
      (W.jobs[i]).M.toNat * (ranTicks run i t - ranTicks run i u) < 2 ^ 31 →
      (BlockedFor run i t ((W.jobs[i]).M.toNat *
          (ranTicks run i t - ranTicks run i u)) ↔
        HeldBack run i (t + ioTimer d W run i hi t)
          (t + (W.jobs[i]).M.toNat *
            (ranTicks run i t - ranTicks run i u)))) ∧
    ((∀ u t, BurstSince run i u t → (run t).EntersBlock i →
        OnTime d W run i hi u t) →
      ∀ u t, BurstSince run i u t →
        ((run t).Prime i).condition = .terminated →
        ((run t).Prime i).Btime =
          (W.jobs[i]).M.toNat * ranTicks run i u) := by
  obtain ⟨m, h⟩ := exists_paired hd
    (fun job hjob => (hjobs job hjob).2.1) hstart hrun
  have hM : 0 < (W.jobs[i]).M.toNat := by
    have hle := (hjobs _ (List.getElem_mem hi)).2.2
    exact UInt32.le_iff_toNat_le.mp hle
  have hshorter : ∀ u t, BurstSince run i u t →
      ioTimer d W run i hi t ≤ 1 + (W.jobs[i]).M.toNat *
        (ranTicks run i t - ranTicks run i u - 1) := by
    intro u t hburst
    have hbase := le_dispatchBase (d := d) hburst
    exact Nat.add_le_add_left (Nat.mul_le_mul_left _ (by omega)) 1
  refine ⟨?_, ?_, ?_⟩
  · intro u t hburst henter hsmall hfore
    have hran := h.dispatchBase_lt hi (h.entersBlock.mp henter).1
    have hbase := le_dispatchBase (d := d) hburst
    have hle := hshorter u t hburst
    have hlast : BlockedFor run i t (ioTimer d W run i hi t) :=
      (h.blockedFor_iff hi henter (by omega) (by omega)).mpr
        ⟨le_rfl, fun j hj hj' => absurd hj (by omega), hfore⟩
    constructor
    · intro hclaim
      obtain ⟨hone, hsame⟩ := eq_one_of_mul_eq (by omega)
        (hclaim.unique hlast)
      refine ⟨UInt32.toNat_inj.mp hone, ?_, ?_⟩
      · rw [hone] at hsmall
        omega
      · exact (h.dispatchBase_eq_iff hi hburst).mp (by omega)
    · rintro ⟨hone, hshort, hquiet⟩
      have hone' : (W.jobs[i]).M.toNat = 1 := by
        rw [hone]
        rfl
      rw [ioTimer, (h.dispatchBase_eq_iff hi hburst).mpr hquiet, hone'] at hlast
      rw [hone']
      convert hlast using 1
      omega
  · intro u t hburst henter hsmall
    have hran := h.dispatchBase_lt hi (h.entersBlock.mp henter).1
    have hbase := le_dispatchBase (d := d) hburst
    have hle := hshorter u t hburst
    have hmul : 1 + (W.jobs[i]).M.toNat *
        (ranTicks run i t - ranTicks run i u - 1) ≤
          (W.jobs[i]).M.toNat * (ranTicks run i t - ranTicks run i u) := by
      rw [Nat.mul_sub_one]
      have hpos := Nat.le_mul_of_pos_right (W.jobs[i]).M.toNat
        (show 0 < ranTicks run i t - ranTicks run i u by omega)
      omega
    exact h.blockedFor_iff hi henter (by omega) hsmall
  · intro htimed u t hburst hdone
    have hpaid := (h.settling hi htimed t).paid
    have hBtime := hpaid.free (by rw [← h.condition, hdone]; simp)
    rw [lastAt_eq (ranTicks_zero run i) hburst] at hBtime
    rw [← hBtime]
    exact (h.represents t).field Process.Btime (fun _ => rfl) i

/-- With an endless file every start begins a run. -/
theorem exists_run
    {s₀ : State}
    (hd : d ≠ .block)
    (hfile : file.Endless)
    (hstart : Started file W s₀) :
    ∃ run : Nat → State, run 0 = s₀ ∧
      (∀ t, ticks d file t s₀ = .ok (run t)) ∧
      ∀ t, datapoint d file (run t) = .ok (run (t + 1)) := by
  obtain ⟨a, hrep, hinit⟩ := hstart.initial
  choose run m hrun _ _ using hrep.ticks_ok hd hfile hinit.orderly
  refine ⟨run, Except.ok.inj (hrun 0).symm, hrun, fun t => ?_⟩
  have hnext := hrun (t + 1)
  rw [ticks_eq_bind, hrun t] at hnext
  exact hnext

/-- One process with bursts of one tick. -/
def loneJob (M : UInt32) : Workload where
  jobs := [⟨0, 1, 2, M⟩]
  fits := by simp

/-- With `M` 2 the I/O after a burst of one tick lasts one tick. -/
theorem loneJob_shortIO :
    ¬ ∀ (d : Policy) (file : RandomFile) (W : Workload)
      (run : Nat → State) (i : Nat) (hi : i < W.jobs.length),
      d ≠ .block →
      (∀ job ∈ W.jobs, 1 ≤ job.B ∧ 1 ≤ job.C ∧ 1 ≤ job.M) →
      file.Endless → Started file W (run 0) →
      (∀ t, datapoint d file (run t) = .ok (run (t + 1))) →
      ∀ u t, BurstSince run i u t → (run t).EntersBlock i →
        BlockedFor run i t ((W.jobs[i]).M.toNat *
          (ranTicks run i t - ranTicks run i u)) := by
  intro hclaim
  obtain ⟨s₀, hstart, hfirst, hthird⟩ :=
    exists_loaded steadyFile (loneJob 2)
      (P := fun s => (ticks .fcfs steadyFile 1 s).Ensures
          (fun s => s.EntersBlock 0 ∧ (s.Prime 0).condition = .running) ∧
        (ticks .fcfs steadyFile 3 s).Ensures
          (fun s => (s.Prime 0).condition ≠ .blocked))
      (by decide +kernel)
  have hjobs : ∀ job ∈ (loneJob 2).jobs,
      1 ≤ job.B ∧ 1 ≤ job.C ∧ 1 ≤ job.M := by
    decide
  obtain ⟨run, hzero, hticks, hrun⟩ := exists_run (d := .fcfs) (by decide)
    steadyFile_endless hstart
  rw [hticks, Result.ensures_ok] at hfirst hthird
  have hran : ranTicks run 0 1 = 1 := by
    rw [ranTicks, Nat.count_succ, Nat.count_zero, if_pos hfirst.2]
  have hlong := hclaim .fcfs steadyFile (loneJob 2) run 0 (by decide)
    (by decide) hjobs steadyFile_endless (hzero ▸ hstart) hrun 0 1
    ⟨by omega, .inl rfl, fun j _ _ => by omega⟩ hfirst.1
  rw [hran, ranTicks_zero] at hlong
  exact hthird (hlong.during 1 (by decide))

theorem loneJob_blockedFor :
    ∃ run : Nat → State, Started steadyFile (loneJob 1) (run 0) ∧
      (∀ t, datapoint .fcfs steadyFile (run t) = .ok (run (t + 1))) ∧
      (run 1).EntersBlock 0 ∧ BlockedFor run 0 1 1 := by
  obtain ⟨s₀, hloaded, hfirst⟩ :=
    exists_loaded steadyFile (loneJob 1)
      (P := fun s => (ticks .fcfs steadyFile 1 s).Ensures
        (fun s => s.EntersBlock 0 ∧ (s.Prime 0).condition = .running))
      (by decide +kernel)
  have hjobs : ∀ job ∈ (loneJob 1).jobs,
      1 ≤ job.B ∧ 1 ≤ job.C ∧ 1 ≤ job.M := by
    decide
  obtain ⟨run, hzero, hticks, hrun⟩ := exists_run (d := .fcfs) (by decide)
    steadyFile_endless hloaded
  rw [hticks, Result.ensures_ok] at hfirst
  have hran : ranTicks run 0 1 = 1 := by
    rw [ranTicks, Nat.count_succ, Nat.count_zero, if_pos hfirst.2]
  have hstart : Started steadyFile (loneJob 1) (run 0) := hzero ▸ hloaded
  obtain ⟨m, hpair⟩ := exists_paired (d := .fcfs) (by decide)
    (fun job hjob => (hjobs job hjob).2.1) hstart hrun
  have hfore : ∀ t, (run t).Foremost 0 := by
    intro t _ l l' hchain j hj _
    have hq := (hpair.sound t).queued
    have hblock : (m t).block = l ++ 0 :: l' :=
      (hpair.represents t).threaded.blockLinks.chain.unique hchain
    have hlt := ((hq.block_iff j).mp
      (hblock ▸ List.mem_append_left _ hj)).1
    rw [hpair.countPrime t] at hlt
    obtain rfl : j = 0 := Nat.lt_one_iff.mp hlt
    have hnodup := hq.block_nodup
    rw [hblock] at hnodup
    exact (List.nodup_append.mp hnodup).2.2 0 hj 0 (by simp) rfl
  have hlast := (ticks_blockedFor (by decide) hjobs hstart hrun
    (by decide)).1 0 1 ⟨by omega, .inl rfl, fun j _ _ => by omega⟩
    hfirst.1 (by rw [hran, ranTicks_zero]; decide) (hfore _)
  rw [hran, ranTicks_zero] at hlast
  refine ⟨run, hstart, hrun, hfirst.1, hlast.mpr ⟨rfl, ?_, ?_⟩⟩
  · rw [hran, ranTicks_zero]
    decide
  · intro j hj hj'
    omega

end Length

end Scheduler
end PastWork
