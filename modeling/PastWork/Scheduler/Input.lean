import PastWork.Library.Scanning
import PastWork.Scheduler.Replay
import PastWork.Scheduler.Summary

/-!
# The input file

`main` reads the processes with `fscanf`, and `printStart` and `printFinal` print them.
Every text in the format of the input is read as the processes that it writes; what
`printStart` prints is one of them, and `printFinal` prints the same processes in the
order in which they have terminated.
-/

namespace PastWork
namespace Scheduler

open Scanning

/-- What `%i` leaves in a `uint32_t`. -/
def stored (n : Int) : UInt32 :=
  .ofNat (n % 2 ^ 32).toNat

/-- `fscanf(inputFile, " %*c%i %i %i %i%*c", &A1, &A2, &A3, &A4)`, and what is left;
`none` when some of the variables stay unset. -/
def scanJob (text : List Char) : Option (Job × List Char) :=
  match skipSpace text with
  | [] => none
  | _ :: text => do
      let A1 ← scanInt text
      let A2 ← scanInt (skipSpace A1.2)
      let A3 ← scanInt (skipSpace A2.2)
      let A4 ← scanInt (skipSpace A3.2)
      some (⟨stored A1.1, stored A2.1, stored A3.1, stored A4.1⟩, A4.2.drop 1)

/-- The loop of `main` over the input. -/
def scanJobs : (allData : Nat) → List Char →
    Option { jobs : List Job // jobs.length = allData }
  | 0, _ => some ⟨[], rfl⟩
  | allData + 1, text => do
      let first ← scanJob text
      let rest ← scanJobs allData first.2
      some ⟨first.1 :: rest.val, by rw [List.length_cons, rest.property]⟩

/-- What `main` reads from the input file; `none` when it uses a variable that has not
been set. -/
def scanInput (text : List Char) : Option Workload := do
  let allData ← scanInt text
  let jobs ← scanJobs (stored allData.1).toNat allData.2
  some ⟨jobs.val, by rw [jobs.property]; exact UInt32.toNat_lt _⟩

/-- `printf(" ( %i %i %i %i)", ...)` -/
def printJob (p : Process) : List Char :=
  " ( ".toList ++ (printInt (toInt32 p.A) ++ (" ".toList ++ printInt (toInt32 p.B) ++
    (" ".toList ++ printInt (toInt32 p.C) ++ (" ".toList ++ printInt (toInt32 p.M) ++
      ")".toList))))

def printStart (s : State) : List Char :=
  "insert ".toList ++ (printInt (toInt32 s.countPrime) ++
    ((List.range s.countPrime).map s.Prime).flatMap printJob ++ "\n".toList)

/-- `none` when an element of `terminateAlg` is printed that has not been written. -/
def printFinal (s : State) : Option (List Char) :=
  ((List.range s.completion).mapM s.terminateAlg).map (fun terminated =>
    "The (sorted) input is: ".toList ++ (printInt (toInt32 s.countPrime) ++
      terminated.flatMap printJob ++ "\n".toList))

/-- A number that is stored as `x`, behind any blanks. -/
def Spells (x : UInt32) (text : List Char) : Prop :=
  ∃ gap n, (∀ c ∈ gap, isSpace c = true) ∧ -2 ^ 63 ≤ n ∧ n < 2 ^ 63 ∧
    stored n = x ∧ text = gap ++ printInt n

/-- The text writes the jobs one after another, each between two characters; anything
may follow. -/
inductive Written : List Job → List Char → Prop
  | nil
      (rest : List Char) :
      Written [] rest
  | cons
      {job : Job} {jobs : List Job}
      {gap a b c m rest : List Char} {opening closing : Char}
      (hgap : ∀ c ∈ gap, isSpace c = true)
      (hopening : isSpace opening = false)
      (ha : Spells job.A a)
      (hb : Spells job.B b ∧ Ends b)
      (hc : Spells job.C c ∧ Ends c)
      (hm : Spells job.M m ∧ Ends m)
      (hclosing : Ends [closing])
      (hrest : Written jobs rest) :
      Written (job :: jobs)
        (gap ++ opening :: (a ++ (b ++ (c ++ (m ++ closing :: rest)))))

section Reading

variable {x : UInt32} {text rest : List Char}

theorem Spells.ne_nil
    (h : Spells x text) :
    text ≠ [] := by
  obtain ⟨gap, n, _, _, _, _, rfl⟩ := h
  exact List.append_ne_nil_of_right_ne_nil _ (printInt_ne_nil n)

/-- What stands in front is all that matters. -/
theorem Spells.ends_append
    (h : Spells x text ∧ Ends text)
    (rest : List Char) :
    Ends (text ++ rest) := by
  intro c hc
  rw [List.head?_append_of_ne_nil _ h.1.ne_nil] at hc
  exact h.2 c hc

theorem Spells.scanInt
    (h : Spells x text)
    (hrest : Ends rest) :
    ∃ n, scanInt (text ++ rest) = some (n, rest) ∧ stored n = x := by
  obtain ⟨gap, n, hgap, hmin, hmax, hstored, rfl⟩ := h
  refine ⟨n, ?_, hstored⟩
  rw [List.append_assoc, scanInt_append hgap, scanInt_printInt hmin hmax hrest]

/-- The first job that is written is the first that is read. -/
theorem scanJob_written
    {job : Job}
    {gap a b c m : List Char} {opening closing : Char}
    (hgap : ∀ c ∈ gap, isSpace c = true)
    (hopening : isSpace opening = false)
    (ha : Spells job.A a)
    (hb : Spells job.B b ∧ Ends b)
    (hc : Spells job.C c ∧ Ends c)
    (hm : Spells job.M m ∧ Ends m)
    (hclosing : Ends [closing]) :
    scanJob (gap ++ opening :: (a ++ (b ++ (c ++ (m ++ closing :: rest))))) =
      some (job, rest) := by
  have hend : Ends (closing :: rest) := ends_cons.mpr (ends_cons.mp hclosing)
  obtain ⟨A1, hA1, hA⟩ :=
    ha.scanInt (Spells.ends_append hb (c ++ (m ++ closing :: rest)))
  obtain ⟨A2, hA2, hB⟩ :=
    hb.1.scanInt (Spells.ends_append hc (m ++ closing :: rest))
  obtain ⟨A3, hA3, hC⟩ :=
    hc.1.scanInt (Spells.ends_append hm (closing :: rest))
  obtain ⟨A4, hA4, hM⟩ := hm.1.scanInt hend
  have hskip : skipSpace (gap ++ opening :: (a ++ (b ++ (c ++ (m ++ closing :: rest))))) =
      opening :: (a ++ (b ++ (c ++ (m ++ closing :: rest)))) := by
    rw [skipSpace_append hgap, skipSpace_cons hopening]
  simp only [scanJob, hskip, scanInt_skipSpace, hA1, hA2, hA3, hA4, Option.bind_eq_bind,
    Option.bind_some, hA, hB, hC, hM, List.drop_succ_cons, List.drop_zero]

theorem Written.scanJobs
    {jobs : List Job}
    (h : Written jobs text) :
    scanJobs jobs.length text = some ⟨jobs, rfl⟩ := by
  induction h with
  | nil rest => rfl
  | cons hgap hopening ha hb hc hm hclosing _ ih =>
      simp only [List.length_cons, Scheduler.scanJobs, Option.bind_eq_bind,
        scanJob_written hgap hopening ha hb hc hm hclosing, Option.bind_some, ih]

/-- A text in the format of the input is read as the processes that it writes. -/
theorem scanInput_written
    {W : Workload} {count : List Char}
    (hcount : Spells (.ofNat W.jobs.length) count)
    (hends : Ends text)
    (h : Written W.jobs text) :
    scanInput (count ++ text) = some W := by
  obtain ⟨allData, hscan, hstored⟩ := hcount.scanInt hends
  have hlength : (stored allData).toNat = W.jobs.length := by
    rw [hstored, UInt32.toNat_ofNat', Nat.mod_eq_of_lt W.fits]
  have hjobs : (Scheduler.scanJobs (stored allData).toNat text).map Subtype.val =
      some W.jobs := by
    rw [hlength, h.scanJobs]
    rfl
  obtain ⟨jobs, hread, hval⟩ := Option.map_eq_some_iff.mp hjobs
  simp only [scanInput, hscan, Option.bind_eq_bind, Option.bind_some, hread]
  obtain ⟨W_jobs, fits⟩ := W
  cases hval
  rfl

/-- A line of the samples, with a comment behind the processes. -/
example :
    (scanInput "2 (0 1 5 1)  (3 1 5 1) should alternate".toList).map Workload.jobs =
      some [⟨0, 1, 5, 1⟩, ⟨3, 1, 5, 1⟩] := by
  decide +kernel

end Reading

section Printing

variable {W : Workload} {s : State}

/-- The numbers of a process that are read from the input. -/
def Process.job (p : Process) : Job :=
  ⟨.ofNat p.A, .ofNat p.B, .ofNat p.C, .ofNat p.M⟩

theorem toInt32_spec
    {x : Nat}
    (hx : x < 2 ^ 32) :
    -2 ^ 31 ≤ toInt32 x ∧ toInt32 x < 2 ^ 31 ∧ (toInt32 x % 2 ^ 32).toNat = x := by
  rw [toInt32]
  split <;> omega

/-- A `uint32_t` that is printed is read as itself. -/
theorem spells_toInt32
    {x : Nat}
    (hx : x < 2 ^ 32) :
    Spells (.ofNat x) (printInt (toInt32 x)) := by
  obtain ⟨hmin, hmax, hmod⟩ := toInt32_spec hx
  refine ⟨[], toInt32 x, by simp, by omega, by omega, ?_, rfl⟩
  rw [stored, hmod]

theorem isSpace_blank :
    ∀ c ∈ " ".toList, isSpace c = true :=
  List.forall_mem_singleton.mpr rfl

theorem spells_behind
    {x : Nat}
    (hx : x < 2 ^ 32) :
    Spells (.ofNat x) (" ".toList ++ printInt (toInt32 x)) ∧
      Ends (" ".toList ++ printInt (toInt32 x)) := by
  obtain ⟨gap, n, hgap, hmin, hmax, hstored, heq⟩ := spells_toInt32 hx
  refine ⟨⟨" ".toList ++ gap, n, ?_, hmin, hmax, hstored, ?_⟩, ?_⟩
  · intro c hc
    exact (List.mem_append.mp hc).elim (isSpace_blank c) (hgap c)
  · rw [heq, List.append_assoc]
  · exact ends_cons.mpr (by decide)

/-- Printed processes are in the format of the input. -/
theorem written_printJob
    {ps : List Process}
    (hfits : ∀ p ∈ ps, p.A < 2 ^ 32 ∧ p.B < 2 ^ 32 ∧ p.C < 2 ^ 32 ∧ p.M < 2 ^ 32)
    (rest : List Char) :
    Written (ps.map Process.job) (ps.flatMap printJob ++ rest) := by
  induction ps with
  | nil => exact .nil rest
  | cons p ps ih =>
      obtain ⟨hA, hB, hC, hM⟩ := hfits p List.mem_cons_self
      have htext : (p :: ps).flatMap printJob ++ rest =
          " ".toList ++ '(' :: ((" ".toList ++ printInt (toInt32 p.A)) ++
            ((" ".toList ++ printInt (toInt32 p.B)) ++
              ((" ".toList ++ printInt (toInt32 p.C)) ++
                ((" ".toList ++ printInt (toInt32 p.M)) ++
                  ')' :: (ps.flatMap printJob ++ rest))))) := by
        simp [List.flatMap_cons, printJob]
      rw [htext, List.map_cons]
      exact .cons isSpace_blank (by decide) (spells_behind hA).1 (spells_behind hB)
        (spells_behind hC) (spells_behind hM) (ends_cons.mpr (by decide))
        (ih (fun q hq => hfits q (List.mem_cons_of_mem p hq)))

/-- What is printed of processes is read as these processes. -/
theorem scanInput_printed
    {ps : List Process} {count : Nat}
    (hjobs : ps.map Process.job = W.jobs)
    (hcount : count = W.jobs.length)
    (hfits : ∀ p ∈ ps, p.A < 2 ^ 32 ∧ p.B < 2 ^ 32 ∧ p.C < 2 ^ 32 ∧ p.M < 2 ^ 32) :
    scanInput (printInt (toInt32 count) ++ ps.flatMap printJob ++ "\n".toList) =
      some W := by
  have hwritten := written_printJob hfits "\n".toList
  rw [hjobs] at hwritten
  have hends : Ends (ps.flatMap printJob ++ "\n".toList) := by
    cases ps with
    | nil => exact ends_cons.mpr (by decide)
    | cons p ps => exact ends_cons.mpr (by decide)
  have hspells : Spells (.ofNat W.jobs.length) (printInt (toInt32 count)) := by
    rw [hcount]
    exact spells_toInt32 W.fits
  rw [List.append_assoc]
  exact scanInput_written hspells hends hwritten

theorem Holds.fits
    (h : Holds W s)
    {i : Nat}
    (hi : i < W.jobs.length) :
    (s.Prime i).A < 2 ^ 32 ∧ (s.Prime i).B < 2 ^ 32 ∧ (s.Prime i).C < 2 ^ 32 ∧
      (s.Prime i).M < 2 ^ 32 := by
  obtain ⟨_, hA, hB, hC, hM⟩ := h.inputs i hi
  rw [hA, hB, hC, hM]
  exact ⟨UInt32.toNat_lt _, UInt32.toNat_lt _, UInt32.toNat_lt _, UInt32.toNat_lt _⟩

theorem Holds.jobs_eq
    (h : Holds W s) :
    ((List.range W.jobs.length).map s.Prime).map Process.job = W.jobs := by
  apply List.ext_getElem
  · simp
  · intro i _ hi
    obtain ⟨_, hA, hB, hC, hM⟩ := h.inputs i hi
    simp [Process.job, hA, hB, hC, hM]

/-- What `printStart` prints behind its first word is read as the input. -/
theorem Holds.printStart
    (h : Holds W s) :
    ∃ text, Scheduler.printStart s = "insert ".toList ++ text ∧
      scanInput text = some W := by
  refine ⟨_, rfl, ?_⟩
  rw [h.countPrime]
  refine scanInput_printed h.jobs_eq rfl (fun p hp => ?_)
  obtain ⟨i, hi, rfl⟩ := List.mem_map.mp hp
  exact h.fits (List.mem_range.mp hi)

theorem mapM_range
    {ps : List Process} {elements : Nat → Option Process}
    (h : ∀ k < ps.length, elements k = ps[k]?) :
    (List.range ps.length).mapM elements = some ps := by
  induction ps using List.reverseRecOn with
  | nil => rfl
  | append_singleton ps p ih =>
      have hfront : (List.range ps.length).mapM elements = some ps := by
        refine ih (fun k hk => ?_)
        rw [h k (by rw [List.length_append]; omega), List.getElem?_append_left hk]
      have hlast : elements ps.length = some p := by
        rw [h ps.length (by simp), List.getElem?_concat_length]
      rw [List.length_append, List.length_singleton, List.range_succ, List.mapM_append,
        hfront]
      simp [hlast]

/-- What `printFinal` prints is read as the same processes, in the order of their
finishing times. -/
theorem Holds.printFinal
    (h : Holds W s)
    (hdone : s.completion = s.countPrime)
    (harchived : Archived s) :
    ∃ text W', Scheduler.printFinal s = some ("The (sorted) input is: ".toList ++ text) ∧
      scanInput text = some W' ∧ W'.jobs.Perm W.jobs ∧
        ∃ order : List Nat, order.Perm (List.range W.jobs.length) ∧
          W'.jobs = order.map (fun i => (s.Prime i).job) ∧
            order.Pairwise (fun i j =>
              (s.Prime i).finishingTime < (s.Prime j).finishingTime) := by
  obtain ⟨order, hperm, hentries, hsorted⟩ := harchived
  have hlength : s.completion = (order.map s.Prime).length := by
    rw [hdone, List.length_map, hperm.length_eq, List.length_range]
  have hterminated : (List.range s.completion).mapM s.terminateAlg =
      some (order.map s.Prime) := by
    rw [hlength]
    refine mapM_range (fun k hk => ?_)
    obtain ⟨i, hi, hentry⟩ := hentries k (by omega)
    rw [hentry, List.getElem?_map, hi, Option.map_some]
  have hjobs : ((order.map s.Prime).map Process.job).Perm W.jobs := by
    rw [h.countPrime] at hperm
    calc
      ((order.map s.Prime).map Process.job).Perm
          (((List.range W.jobs.length).map s.Prime).map Process.job) :=
        (hperm.map _).map _
      _ = W.jobs := h.jobs_eq
  have hfits : ((order.map s.Prime).map Process.job).length < 2 ^ 32 := by
    rw [hjobs.length_eq]
    exact W.fits
  have hprinted : Scheduler.printFinal s =
      some ("The (sorted) input is: ".toList ++
        (printInt (toInt32 s.countPrime) ++ (order.map s.Prime).flatMap printJob ++
          "\n".toList)) := by
    rw [Scheduler.printFinal, hterminated, Option.map_some]
  rw [h.countPrime] at hperm
  refine ⟨_, ⟨_, hfits⟩, hprinted, scanInput_printed rfl ?_ ?_, hjobs, order, hperm,
    List.map_map, hsorted⟩
  · rw [h.countPrime, hjobs.length_eq]
  · intro p hp
    obtain ⟨i, hi, rfl⟩ := List.mem_map.mp hp
    exact h.fits (List.mem_range.mp (hperm.subset hi))

/-- At every moment of a run of any policy `printStart` prints what `main` reads as
the input, and at the end of a run that does not pause `printFinal` prints what `main`
reads as the same processes, sorted by their finishing times. -/
theorem printed_read_back
    {d : Policy} {file : RandomFile}
    (hstart : Started file W s) :
    (∀ t s', ticks d file t s = .ok s' →
      ∃ text, Scheduler.printStart s' = "insert ".toList ++ text ∧
        scanInput text = some W) ∧
    (d ≠ .block → (∀ job ∈ W.jobs, 1 ≤ job.C) →
      ∀ fuel < 2 ^ 31, ∀ s', simulate d file fuel s = .ok s' →
        ∃ text W',
          Scheduler.printFinal s' = some ("The (sorted) input is: ".toList ++ text) ∧
          scanInput text = some W' ∧ W'.jobs.Perm W.jobs ∧
            ∃ order : List Nat, order.Perm (List.range W.jobs.length) ∧
              W'.jobs = order.map (fun i => (s'.Prime i).job) ∧
                order.Pairwise (fun i j =>
                  (s'.Prime i).finishingTime < (s'.Prime j).finishingTime)) := by
  constructor
  · intro t s' hs'
    have hholds : Holds W s' := datapoint_stable.iterate s s' hstart.holds hs'
    exact hholds.printStart
  · intro hd hC fuel hfuel s' hs'
    obtain ⟨T, run, hle, hrun, rfl, hstop, _⟩ := whileLoop_rounds hs'
    have hholds : Holds W (run T) := simulate_stable _ _ hstart.holds hs'
    have hdone : (run T).completion = (run T).countPrime := by
      simpa using hstop
    obtain ⟨a, order, ha, _⟩ := Tallied.of_run hd hC hstart (by omega) hrun
    have hrep := ha.represents
    have harchived : Archived (run T) := by
      refine ha.archived ?_
      rwa [← hrep.completion, ← hrep.countPrime]
    exact hholds.printFinal hdone harchived

theorem twoJobs_read_back :
    ∃ s s', Started steadyFile twoJobs s ∧
      simulate .sjf steadyFile 12 s = .ok s' ∧
      (∃ text, Scheduler.printStart s = "insert ".toList ++ text ∧
        scanInput text = some twoJobs) ∧
      ∃ text W',
        Scheduler.printFinal s' = some ("The (sorted) input is: ".toList ++ text) ∧
        scanInput text = some W' ∧ W'.jobs.Perm twoJobs.jobs := by
  obtain ⟨s₀, hstart, s', hs', _⟩ :=
    exists_loaded steadyFile twoJobs
      (P := fun s => (simulate .sjf steadyFile 12 s).Returns (fun _ => True))
      (by decide +kernel)
  obtain ⟨hstarts, hfinals⟩ := printed_read_back (d := .sjf) hstart
  obtain ⟨text, W', hprinted, hscan, hperm, _⟩ :=
    hfinals (by decide) (by decide) 12 (by decide) s' hs'
  exact ⟨s₀, s', hstart, hs', hstarts 0 _ rfl, text, W', hprinted, hscan, hperm⟩

end Printing

end Scheduler
end PastWork
