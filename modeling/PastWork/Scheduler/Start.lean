import PastWork.Scheduler.Dispatch

/-!
# The start of a run

`main` and `Extra` leave the same state behind, up to the field `quantum`: all
processes unstarted with fresh counters, all queues empty.  A machine in such a
state is `Initial`.
-/

namespace PastWork
namespace Scheduler

open Links

/-- The process that `main` and `Extra` set up at position `i`, with the number
on line `i` of the random-number file. -/
def freshProcess
    (job : Job) (i number : Nat) (quantum : Int) : Process where
  A := job.A.toNat
  B := job.B.toNat
  C := job.C.toNat
  M := job.M.toNat
  processID := i
  condition := .unstarted
  finishingTime := -1
  CPUTime := 0
  Btime := 0
  currentWaitingTime := 0
  CPUBurst := (1 + number % job.B.toNat) % 2 ^ 32
  BurstTime :=
    (job.M.toNat * ((1 + number % job.B.toNat) % 2 ^ 32)) % 2 ^ 32
  operating := false
  quantum := quantum
  pushBlock := none
  freshPrime := none
  pushPrimeForward := none

/-- Position `i` of the array holds its process as it is before a run. -/
def FreshAt
    (file : RandomFile) (jobs : List Job) (m : Nat → Process) (i : Nat) :
    Prop :=
  match jobs[i]? with
  | none => m i = default
  | some job =>
      0 < job.B.toNat ∧ ∃ number quantum,
        file i = some number ∧ m i = freshProcess job i number quantum

theorem FreshAt.links
    {file : RandomFile} {jobs : List Job} {m : Nat → Process} {i : Nat}
    (h : FreshAt file jobs m i) :
    (m i).freshPrime = none ∧ (m i).pushPrimeForward = none ∧
      (m i).pushBlock = none ∧ (m i).unlink = m i := by
  unfold FreshAt at h
  split at h
  · rw [h]
    exact ⟨rfl, rfl, rfl, rfl⟩
  · obtain ⟨_, number, quantum, _, hm⟩ := h
    rw [hm]
    exact ⟨rfl, rfl, rfl, rfl⟩

theorem FreshAt.spec
    {file : RandomFile} {jobs : List Job} {m : Nat → Process} {i : Nat}
    (h : FreshAt file jobs m i)
    (hi : i < jobs.length) :
    0 < (jobs[i]).B.toNat ∧ ∃ number quantum,
      file i = some number ∧ m i = freshProcess jobs[i] i number quantum := by
  unfold FreshAt at h
  rwa [List.getElem?_eq_getElem hi] at h

/-- The globals at the start of a run. -/
structure Pristine
    (file : RandomFile) (W : Workload) (g : Globals) : Prop where
  fresh : ∀ i, FreshAt file W.jobs g.Prime i
  countPrime : g.countPrime = W.jobs.length
  firstPrime : g.firstPrime = true
  namelessOp : g.namelessOp = none
  selection : g.selection = none
  present : g.present = 0
  totalPrime : g.totalPrime = 0
  completion : g.completion = 0
  totalTimeNumber : g.totalTimeNumber = 0
  infinity : g.infinity = 0

/-- A machine at the start of a run over the processes of `W`. -/
structure Machine.Initial
    (file : RandomFile) (W : Workload) (a : Machine) : Prop where
  pristine : Pristine file W a.toGlobals
  ready : a.ready = []
  pause : a.pause = []
  block : a.block = []

/-- A state with fresh globals and empty queues represents an initial
machine. -/
theorem exists_initial
    {file : RandomFile} {W : Workload} {s : State}
    (hg : Pristine file W s.toGlobals)
    (hA : s.Afront = none ∧ s.Aback = none ∧ s.placement = 0)
    (hP : s.Pausefront = none ∧ s.Pauseback = none ∧ s.PauseQ = 0)
    (hB : s.Blockfront = none ∧ s.Blockback = none ∧ s.BlockQ = 0) :
    ∃ a : Machine, Represents s a ∧ a.Initial file W := by
  obtain ⟨hAf, hAb, hAn⟩ := hA
  obtain ⟨hPf, hPb, hPn⟩ := hP
  obtain ⟨hBf, hBb, hBn⟩ := hB
  have hunlink : (fun i => (s.Prime i).unlink) = s.Prime := by
    funext i
    exact (hg.fresh i).links.2.2.2
  refine ⟨
    { toGlobals := s.toGlobals.unlink
      ready := []
      pause := []
      block := [] }, ⟨?_, rfl⟩, ?_, rfl, rfl, rfl⟩
  · exact
      { readyLinks := by
          rw [hAf, hAb]
          exact .empty (fun i => (hg.fresh i).links.1)
        placement_eq := hAn
        pauseLinks := by
          rw [hPf, hPb]
          exact .empty (fun i => (hg.fresh i).links.2.1)
        PauseQ_eq := hPn
        blockLinks := by
          rw [hBf, hBb]
          exact .empty (fun i => (hg.fresh i).links.2.2.1)
        BlockQ_eq := hBn }
  · exact
      { fresh := fun i => by
          show FreshAt file W.jobs (fun i => (s.Prime i).unlink) i
          rw [hunlink]
          exact hg.fresh i
        countPrime := hg.countPrime
        firstPrime := hg.firstPrime
        namelessOp := hg.namelessOp
        selection := hg.selection
        present := hg.present
        totalPrime := hg.totalPrime
        completion := hg.completion
        totalTimeNumber := hg.totalTimeNumber
        infinity := hg.infinity }

theorem ranomize_ok
    {B burst infinity : Nat} {file : RandomFile}
    (h : ranomize B file infinity = .ok burst) :
    0 < B ∧ ∃ number, file infinity = some number ∧
      burst = (1 + number % B) % 2 ^ 32 := by
  unfold ranomize at h
  split at h
  next => cases h
  next number hline =>
    split at h
    next => cases h
    next hB =>
      cases h
      exact ⟨Nat.pos_of_ne_zero hB, number, hline, rfl⟩

section Load

variable {file : RandomFile}

/-- `main` with the array `m`, after it has read the processes `jobs`. -/
def loadedState (jobs : List Job) (m : Nat → Process) : State :=
  { boot with
    Prime := m
    countPrime := jobs.length
    infinity := jobs.length }

theorem loadedState_concat
    {jobs : List Job} {job : Job} {m : Nat → Process}
    (hfits : jobs.length + 1 < 2 ^ 32) :
    loadedState (jobs ++ [job]) m =
      { loadedState jobs m with
        countPrime := incr jobs.length
        infinity := jobs.length + 1 } := by
  rw [incr_eq hfits]
  simp only [loadedState, List.length_append, List.length_singleton]

def Loaded (file : RandomFile) (jobs : List Job) (s : State) : Prop :=
  ∃ m, s = loadedState jobs m ∧ ∀ i, FreshAt file jobs m i

theorem loaded_boot :
    Loaded file [] boot :=
  ⟨fun _ => default, rfl, fun _ => rfl⟩

/-- Reading one more process. -/
theorem Loaded.step
    {jobs : List Job} {job : Job} {s s' : State}
    (h : Loaded file jobs s)
    (hfits : jobs.length + 1 < 2 ^ 32)
    (hs' : loadStep file s job = .ok s') :
    Loaded file (jobs ++ [job]) s' := by
  obtain ⟨m, rfl, hm⟩ := h
  obtain ⟨burst, hburst, hs'⟩ := Result.bind_eq_ok hs'
  obtain ⟨hB, number, hnumber, rfl⟩ := ranomize_ok hburst
  refine ⟨update m jobs.length
    (fun _ => freshProcess job jobs.length number 2), ?_, ?_⟩
  · cases hs'
    rw [loadedState_concat hfits]
    rfl
  · intro i
    have hfresh := hm i
    unfold FreshAt at hfresh ⊢
    rcases lt_trichotomy i jobs.length with hi | hi | hi
    · rw [List.getElem?_append_left hi, update_ne _ _ (by omega)]
      exact hfresh
    · subst hi
      rw [List.getElem?_concat_length, update_same]
      exact ⟨hB, number, 2, hnumber, rfl⟩
    · rw [List.getElem?_eq_none (by omega)] at hfresh
      rw [List.getElem?_eq_none (by simpa using hi), update_ne _ _ (by omega)]
      exact hfresh

theorem Loaded.steps
    {rest jobs : List Job} {s s' : State}
    (h : Loaded file jobs s)
    (hfits : (jobs ++ rest).length < 2 ^ 32)
    (hs' : rest.foldlM (loadStep file) s = .ok s') :
    Loaded file (jobs ++ rest) s' := by
  induction rest generalizing jobs s with
  | nil =>
      cases hs'
      rw [List.append_nil]
      exact h
  | cons job rest ih =>
      rw [List.foldlM_cons] at hs'
      obtain ⟨s₁, hs₁, hrest⟩ := Result.bind_eq_ok hs'
      simp only [List.length_append, List.length_cons] at hfits
      have h₁ := h.step (by omega) hs₁
      have := ih h₁ (by
        simp only [List.length_append, List.length_cons, List.length_nil]
        omega) hrest
      rwa [List.append_assoc] at this

theorem load_initial
    {W : Workload} {s : State}
    (h : load file W = .ok s) :
    ∃ a : Machine, Represents (openRandom s) a ∧ a.Initial file W := by
  have hloaded : Loaded file W.jobs s := by
    simpa using loaded_boot.steps (by simpa using W.fits) h
  obtain ⟨m, rfl, hm⟩ := hloaded
  apply exists_initial
  · exact
      { fresh := hm
        countPrime := rfl
        firstPrime := rfl
        namelessOp := rfl
        selection := rfl
        present := rfl
        totalPrime := rfl
        completion := rfl
        totalTimeNumber := rfl
        infinity := rfl }
  · exact ⟨rfl, rfl, rfl⟩
  · exact ⟨rfl, rfl, rfl⟩
  · exact ⟨rfl, rfl, rfl⟩

end Load

section Extra

variable {file : RandomFile} {W : Workload}

/-- The state of `Extra` with the array `m`, after `k` lines of the file. -/
def clearedState (s : State) (m : Nat → Process) (k : Nat) : State :=
  { s with
    Prime := m
    present := 0
    totalPrime := 0
    completion := 0
    totalTimeNumber := 0
    firstPrime := true
    namelessOp := none
    Afront := none
    Aback := none
    placement := 0
    Pausefront := none
    Pauseback := none
    PauseQ := 0
    Blockfront := none
    Blockback := none
    BlockQ := 0
    selection := none
    infinity := k }

theorem extra_eq
    (s : State) :
    extra file s =
      (List.range s.countPrime).foldlM (extraStep file)
        (clearedState s s.Prime 0) := by
  rfl

/-- The state of `Extra` after it has reset the first `k` processes. -/
def Reset (file : RandomFile) (W : Workload) (s : State) (k : Nat)
    (s' : State) : Prop :=
  ∃ m, s' = clearedState s m k ∧
    (∀ i < k, FreshAt file W.jobs m i) ∧
    ∀ i, k ≤ i → m i = s.Prime i

theorem Reset.step
    {s s₁ s' : State} {k : Nat}
    (h : Reset file W s k s₁)
    (hk : k < W.jobs.length)
    (hjob : (s.Prime k).processID = k ∧
      (s.Prime k).A = (W.jobs[k]).A.toNat ∧
      (s.Prime k).B = (W.jobs[k]).B.toNat ∧
      (s.Prime k).C = (W.jobs[k]).C.toNat ∧
      (s.Prime k).M = (W.jobs[k]).M.toNat)
    (hs' : extraStep file s₁ k = .ok s') :
    Reset file W s (k + 1) s' := by
  obtain ⟨m, rfl, hdone, hrest⟩ := h
  obtain ⟨hid, hA, hB, hC, hM⟩ := hjob
  obtain ⟨burst, hburst, hs'⟩ := Result.bind_eq_ok hs'
  obtain ⟨hpos, number, hnumber, rfl⟩ := ranomize_ok hburst
  have hmk : (clearedState s m k).Prime k = s.Prime k := hrest k (le_refl k)
  rw [hmk, hB] at hpos
  refine ⟨update m k (fun _ =>
    freshProcess W.jobs[k] k number (s.Prime k).quantum), ?_, ?_, ?_⟩
  · cases hs'
    have hupdate : (clearedState s m k).Prime = m := rfl
    have hfresh : update m k (fun _ =>
        freshProcess W.jobs[k] k number (s.Prime k).quantum) =
          update m k (fun p =>
            { p with
              condition := .unstarted
              freshPrime := none
              pushPrimeForward := none
              pushBlock := none
              finishingTime := -1
              CPUTime := 0
              Btime := 0
              currentWaitingTime := 0
              operating := false
              CPUBurst := (1 + number % (m k).B) % 2 ^ 32
              BurstTime := (p.M * ((1 + number % (m k).B) % 2 ^ 32)) %
                2 ^ 32 }) := by
      funext j
      by_cases hj : j = k
      · subst hj
        rw [update_same, update_same, hrest j (le_refl j)]
        simp only [freshProcess, hid, hA, hB, hC, hM]
      · rw [update_ne _ _ hj, update_ne _ _ hj]
    rw [hfresh]
    rfl
  · intro i hi
    by_cases hik : i = k
    · subst hik
      unfold FreshAt
      rw [List.getElem?_eq_getElem hk, update_same]
      exact ⟨hpos, number, (s.Prime i).quantum, hnumber, rfl⟩
    · have hfresh := hdone i (by omega)
      unfold FreshAt at hfresh ⊢
      rw [update_ne _ _ hik]
      exact hfresh
  · intro i hi
    rw [update_ne _ _ (by omega)]
    exact hrest i (by omega)

theorem extra_reset
    {s s' : State}
    (hcount : s.countPrime = W.jobs.length)
    (hjobs : ∀ i (h : i < W.jobs.length),
      (s.Prime i).processID = i ∧
      (s.Prime i).A = (W.jobs[i]).A.toNat ∧
      (s.Prime i).B = (W.jobs[i]).B.toNat ∧
      (s.Prime i).C = (W.jobs[i]).C.toNat ∧
      (s.Prime i).M = (W.jobs[i]).M.toNat)
    (h : extra file s = .ok s') :
    Reset file W s W.jobs.length s' := by
  rw [extra_eq, hcount] at h
  have key : ∀ k ≤ W.jobs.length, ∀ s',
      (List.range k).foldlM (extraStep file) (clearedState s s.Prime 0) =
        .ok s' →
      Reset file W s k s' := by
    intro k
    induction k with
    | zero =>
        intro _ s' hs'
        cases hs'
        exact ⟨s.Prime, rfl, by simp, fun _ _ => rfl⟩
    | succ k ih =>
        intro hk s' hs'
        rw [List.range_succ, List.foldlM_append] at hs'
        obtain ⟨s₁, hs₁, hs'⟩ := Result.bind_eq_ok hs'
        obtain ⟨s₂, hs₂, hs'⟩ := Result.bind_eq_ok hs'
        cases hs'
        exact (ih (by omega) s₁ hs₁).step (by omega) (hjobs k (by omega)) hs₂
  exact key _ (le_refl _) s' h

theorem extra_initial
    {s s' : State}
    (hcount : s.countPrime = W.jobs.length)
    (hjobs : ∀ i (h : i < W.jobs.length),
      (s.Prime i).processID = i ∧
      (s.Prime i).A = (W.jobs[i]).A.toNat ∧
      (s.Prime i).B = (W.jobs[i]).B.toNat ∧
      (s.Prime i).C = (W.jobs[i]).C.toNat ∧
      (s.Prime i).M = (W.jobs[i]).M.toNat)
    (hbeyond : ∀ i, W.jobs.length ≤ i → s.Prime i = default)
    (h : extra file s = .ok s') :
    ∃ a : Machine, Represents (openRandom s') a ∧ a.Initial file W := by
  obtain ⟨m, rfl, hdone, hrest⟩ := extra_reset hcount hjobs h
  apply exists_initial
  · exact
      { fresh := fun i => by
          by_cases hi : i < W.jobs.length
          · exact hdone i hi
          · unfold FreshAt
            rw [List.getElem?_eq_none (by omega)]
            exact (hrest i (by omega)).trans (hbeyond i (by omega))
        countPrime := hcount
        firstPrime := rfl
        namelessOp := rfl
        selection := rfl
        present := rfl
        totalPrime := rfl
        completion := rfl
        totalTimeNumber := rfl
        infinity := rfl }
  · exact ⟨rfl, rfl, rfl⟩
  · exact ⟨rfl, rfl, rfl⟩
  · exact ⟨rfl, rfl, rfl⟩

theorem Started.initial
    {s : State}
    (h : Started file W s) :
    ∃ a : Machine, Represents s a ∧ a.Initial file W := by
  cases h with
  | main hload => exact load_initial hload
  | extra hcount hjobs hbeyond hextra =>
      exact extra_initial hcount hjobs hbeyond hextra

end Extra

section Sample

/-- A small workload, for runs on fixed inputs. -/
def twoJobs : Workload where
  jobs := [⟨0, 2, 3, 1⟩, ⟨1, 1, 1, 1⟩]
  fits := by decide

/-- The file that always says 0. -/
def steadyFile : RandomFile :=
  fun _ => some 0

theorem steadyFile_endless :
    steadyFile.Endless :=
  fun _ => rfl

theorem twoJobs_started :
    ∃ s, Started steadyFile twoJobs s :=
  ⟨_, .main rfl⟩

end Sample

end Scheduler
end PastWork
