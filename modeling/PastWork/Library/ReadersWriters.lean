import Mathlib.Algebra.BigOperators.Ring.Finset
import Mathlib.Data.Fintype.Basic

/-!
# Readers and writers with two semaphores

The lock in which the first reader takes the semaphore `w` and the last reader
gives it back, with a second semaphore `mutex` around the reader count.  There is
any finite number of threads, and each of their operations is a step of its own.
The invariant is about how many threads are at each stage.
-/

namespace PastWork
namespace ReadersWriters

universe u v

section Counting

variable {T : Type u} {σ : Type v} [Fintype T] [DecidableEq σ]
  {place : T → σ} {t u : T} {k : σ}

/-- How many threads are at a place. -/
def number (place : T → σ) (k : σ) : Nat :=
  (Finset.univ.filter (fun t => place t = k)).card

theorem number_pos
    (h : place t = k) :
    0 < number place k := by
  refine Finset.card_pos.mpr ⟨t, ?_⟩
  simpa using h

/-- Two threads at one place are one when there is only one there. -/
theorem eq_of_number_le_one
    (hle : number place k ≤ 1)
    (ht : place t = k) (hu : place u = k) :
    t = u :=
  Finset.card_le_one.mp hle t (by simpa using ht) u (by simpa using hu)

theorem number_const
    {b : σ} (h : b ≠ k) :
    number (fun _ : T => b) k = 0 := by
  simp [number, h]

/-- A thread that moves is counted at its new place and no more at its old. -/
theorem number_update
    [DecidableEq T]
    (place : T → σ) (t : T) (b k : σ) :
    number (Function.update place t b) k + (if place t = k then 1 else 0) =
      number place k + (if b = k then 1 else 0) := by
  simp only [number, Finset.card_filter]
  rw [← Finset.add_sum_erase _ _ (Finset.mem_univ t),
    ← Finset.add_sum_erase _ (fun u => if place u = k then 1 else 0)
      (Finset.mem_univ t)]
  have hothers : ∑ u ∈ Finset.univ.erase t,
      (if Function.update place t b u = k then 1 else 0) =
        ∑ u ∈ Finset.univ.erase t, (if place u = k then 1 else 0) := by
    refine Finset.sum_congr rfl (fun u hu => ?_)
    rw [Function.update_of_ne (Finset.ne_of_mem_erase hu)]
  rw [hothers, Function.update_self]
  omega

end Counting

/-- What a thread does next. -/
inductive Stage where
  | outside
  /-- a reader: `P(mutex)` -/
  | enter
  /-- `readcnt++` -/
  | count
  /-- `readcnt == 1` -/
  | first
  /-- `P(w)` -/
  | lock
  /-- `V(mutex)` -/
  | admitted
  | reading
  /-- `P(mutex)` -/
  | leave
  /-- `readcnt--` -/
  | uncount
  /-- `readcnt == 0` -/
  | last
  /-- `V(w)` -/
  | unlock
  /-- `V(mutex)` -/
  | finish
  /-- a writer: `P(w)` -/
  | await
  /-- writing, up to `V(w)` -/
  | writing
deriving DecidableEq, Repr

/-- A reader between its increment and its decrement of the count. -/
def Stage.counted : Stage → Bool
  | .first | .lock | .admitted | .reading | .leave | .uncount => true
  | _ => false

/-- The values of the semaphores and of the count. -/
structure Counters where
  mutex : Nat
  w : Nat
  readcnt : Int

/-- What a thread does to the counters, and the stage to which it moves.  The
operation `P` needs a value other than 0. -/
inductive Operation (c : Counters) : Stage → Counters → Stage → Prop
  | read : Operation c .outside c .enter
  | take {m : Nat} (h : c.mutex = m + 1) :
      Operation c .enter { c with mutex := m } .count
  | count :
      Operation c .count { c with readcnt := c.readcnt + 1 } .first
  | first (h : c.readcnt = 1) : Operation c .first c .lock
  | joined (h : c.readcnt ≠ 1) : Operation c .first c .admitted
  | lock {m : Nat} (h : c.w = m + 1) :
      Operation c .lock { c with w := m } .admitted
  | admitted :
      Operation c .admitted { c with mutex := c.mutex + 1 } .reading
  | leave : Operation c .reading c .leave
  | retake {m : Nat} (h : c.mutex = m + 1) :
      Operation c .leave { c with mutex := m } .uncount
  | uncount :
      Operation c .uncount { c with readcnt := c.readcnt - 1 } .last
  | last (h : c.readcnt = 0) : Operation c .last c .unlock
  | remaining (h : c.readcnt ≠ 0) : Operation c .last c .finish
  | unlock : Operation c .unlock { c with w := c.w + 1 } .finish
  | finish :
      Operation c .finish { c with mutex := c.mutex + 1 } .outside
  | await : Operation c .outside c .await
  | acquire {m : Nat} (h : c.w = m + 1) :
      Operation c .await { c with w := m } .writing
  | release : Operation c .writing { c with w := c.w + 1 } .outside

/-- The operation of a stage can be carried out. -/
def Counters.Admits (c : Counters) : Stage → Prop
  | .outside => False
  | .enter | .leave => 0 < c.mutex
  | .lock | .await => 0 < c.w
  | _ => True

section Balance

/-- The readers do not hold `w`, when the threads are as many as `n` says. -/
def Released (readcnt : Int) (n : Stage → Nat) : Prop :=
  n .last + n .unlock = 0 ∧
    (readcnt = 0 ∨ 0 < n .lock ∨ 0 < n .first ∧ readcnt = 1)

/-- How the semaphores and the count belong to the stages of the threads. -/
structure Balanced (c : Counters) (n : Stage → Nat) : Prop where
  mutex : c.mutex + n .count + n .first + n .lock + n .admitted +
    n .uncount + n .last + n .unlock + n .finish = 1
  readcnt : c.readcnt = n .first + n .lock + n .admitted + n .reading +
    n .leave + n .uncount
  locking : 0 < n .lock → c.readcnt = 1
  unlocking : 0 < n .unlock → c.readcnt = 0
  released : Released c.readcnt n → c.w + n .writing = 1
  held : ¬ Released c.readcnt n → c.w + n .writing = 0

variable {c c' : Counters} {a b : Stage} {n n' : Stage → Nat}

theorem Balanced.init
    (hn : ∀ k, k ≠ .outside → n k = 0) :
    Balanced { mutex := 1, w := 1, readcnt := 0 } n := by
  constructor <;> simp [Released, hn]

/-- The threads that hold `mutex`, and its value. -/
theorem Operation.mutex_kept
    (hop : Operation c a c' b)
    (hn : ∀ k, n' k + (if a = k then 1 else 0) =
      n k + (if b = k then 1 else 0)) :
    c'.mutex + n' .count + n' .first + n' .lock + n' .admitted +
        n' .uncount + n' .last + n' .unlock + n' .finish =
      c.mutex + n .count + n .first + n .lock + n .admitted +
        n .uncount + n .last + n .unlock + n .finish := by
  have hcount := hn .count
  have hfirst := hn .first
  have hlock := hn .lock
  have hadmitted := hn .admitted
  have huncount := hn .uncount
  have hlast := hn .last
  have hunlock := hn .unlock
  have hfinish := hn .finish
  clear hn
  cases hop <;>
    simp only [reduceCtorEq, if_true, if_false, Nat.add_zero] at * <;>
    omega

/-- The readers that are counted, and the count. -/
theorem Operation.readcnt_kept
    (hop : Operation c a c' b)
    (hn : ∀ k, n' k + (if a = k then 1 else 0) =
      n k + (if b = k then 1 else 0)) :
    c'.readcnt - (n' .first + n' .lock + n' .admitted + n' .reading +
        n' .leave + n' .uncount) =
      c.readcnt - (n .first + n .lock + n .admitted + n .reading +
        n .leave + n .uncount) := by
  have hfirst := hn .first
  have hlock := hn .lock
  have hadmitted := hn .admitted
  have hreading := hn .reading
  have hleave := hn .leave
  have huncount := hn .uncount
  clear hn
  cases hop <;>
    simp only [reduceCtorEq, if_true, if_false, Nat.add_zero] at * <;>
    omega

/-- At most one thread is between `P(mutex)` and `V(mutex)`. -/
theorem Balanced.guarded_le
    (h : Balanced c n) :
    n .count + n .first + n .lock + n .admitted + n .uncount + n .last +
      n .unlock + n .finish ≤ 1 := by
  have hmutex := h.mutex
  omega

/-- Who holds `w` depends on these numbers only. -/
theorem Released.congr
    {readcnt : Int}
    (hfirst : n' .first = n .first) (hlock : n' .lock = n .lock)
    (hlast : n' .last = n .last) (hunlock : n' .unlock = n .unlock) :
    Released readcnt n' ↔ Released readcnt n := by
  rw [Released, Released, hfirst, hlock, hlast, hunlock]

theorem Balanced.locking_kept
    (h : Balanced c n)
    (hop : Operation c a c' b)
    (hn : ∀ k, n' k + (if a = k then 1 else 0) =
      n k + (if b = k then 1 else 0)) :
    (0 < n' .lock → c'.readcnt = 1) ∧ (0 < n' .unlock → c'.readcnt = 0) := by
  have hone := h.guarded_le
  have hlocking := h.locking
  have hunlocking := h.unlocking
  have hcount := hn .count
  have hlock := hn .lock
  have huncount := hn .uncount
  have hunlock := hn .unlock
  clear hn h
  cases hop <;>
    simp only [reduceCtorEq, if_true, if_false, Nat.add_zero] at * <;>
    omega

/-- The semaphore `w` after an operation. -/
theorem Balanced.w_kept
    (h : Balanced c n)
    (hop : Operation c a c' b)
    (hn : ∀ k, n' k + (if a = k then 1 else 0) =
      n k + (if b = k then 1 else 0)) :
    (Released c'.readcnt n' → c'.w + n' .writing = 1) ∧
      (¬ Released c'.readcnt n' → c'.w + n' .writing = 0) := by
  have hone := h.guarded_le
  have hread := h.readcnt
  have hlocking := h.locking
  have hunlocking := h.unlocking
  have hrel := h.released
  have hheld := h.held
  have hcount := hn .count
  have hfirst := hn .first
  have hlock := hn .lock
  have huncount := hn .uncount
  have hlast := hn .last
  have hunlock := hn .unlock
  have hwriting := hn .writing
  clear hn h
  cases hop with
  | read | take | admitted | leave | retake | finish | await =>
      -- neither `w` nor anything that `Released` is about changes
      simp only [reduceCtorEq, if_true, if_false, Nat.add_zero] at *
      rw [Released.congr hfirst hlock hlast hunlock, hwriting]
      exact ⟨hrel, hheld⟩
  | acquire | release =>
      simp only [reduceCtorEq, if_true, if_false, Nat.add_zero] at *
      rw [Released.congr hfirst hlock hlast hunlock]
      constructor
      · intro hr
        have hw := hrel hr
        omega
      · intro hr
        have hw := hheld hr
        omega
  | _ =>
      simp only [reduceCtorEq, if_true, if_false, Nat.add_zero] at *
      unfold Released at *
      constructor <;> intro hr <;> omega

/-- Every operation keeps the balance. -/
theorem Balanced.operation
    (h : Balanced c n)
    (hop : Operation c a c' b)
    (hn : ∀ k, n' k + (if a = k then 1 else 0) =
      n k + (if b = k then 1 else 0)) :
    Balanced c' n' where
  mutex := by
    rw [hop.mutex_kept hn, h.mutex]
  readcnt := by
    have hkept := hop.readcnt_kept hn
    have hread := h.readcnt
    omega
  locking := (h.locking_kept hop hn).1
  unlocking := (h.locking_kept hop hn).2
  released := (h.w_kept hop hn).1
  held := (h.w_kept hop hn).2

/-- The states of the threads that matter: how many write and how many read. -/
theorem Balanced.exclusive
    (h : Balanced c n) :
    n .writing ≤ 1 ∧ (0 < n .reading → n .writing = 0) := by
  obtain ⟨hmutex, hread, hlock, hunlock, hrel, hheld⟩ := h
  unfold Released at hrel hheld
  constructor <;> omega

/-- When no thread is inside, the lock is as it was at the start. -/
theorem Balanced.quiet
    (h : Balanced c n)
    (hn : ∀ k, k ≠ .outside → n k = 0) :
    c = { mutex := 1, w := 1, readcnt := 0 } := by
  have hzero : n .count = 0 ∧ n .first = 0 ∧ n .lock = 0 ∧
      n .admitted = 0 ∧ n .reading = 0 ∧ n .leave = 0 ∧ n .uncount = 0 ∧
      n .last = 0 ∧ n .unlock = 0 ∧ n .finish = 0 ∧ n .writing = 0 := by
    simp [hn]
  obtain ⟨mutex, w, readcnt⟩ := c
  obtain ⟨hmutex, hread, hlock, hunlock, hrel, hheld⟩ := h
  unfold Released at hrel hheld
  simp only at hmutex hread hrel
  rw [Counters.mk.injEq]
  omega

/-- There is no deadlock: with a thread inside, some stage is admitted.  A reader that
waits for `w` holds `mutex`, and then nothing else can keep `w` but a writer. -/
theorem Balanced.some_admitted
    {k : Stage}
    (h : Balanced c n)
    (hk : k ≠ .outside)
    (hpos : 0 < n k) :
    ∃ k, 0 < n k ∧ c.Admits k := by
  by_contra hnone
  have hall : ∀ k, c.Admits k → n k = 0 := by
    intro k hadmits
    by_contra hne
    exact hnone ⟨k, Nat.pos_of_ne_zero hne, hadmits⟩
  have hcount := hall .count trivial
  have hfirst := hall .first trivial
  have hadmitted := hall .admitted trivial
  have hreading := hall .reading trivial
  have huncount := hall .uncount trivial
  have hlast := hall .last trivial
  have hunlock := hall .unlock trivial
  have hfinish := hall .finish trivial
  have hwriting := hall .writing trivial
  have henter : 0 < c.mutex → n .enter = 0 := hall .enter
  have hleave : 0 < c.mutex → n .leave = 0 := hall .leave
  have hlock : 0 < c.w → n .lock = 0 := hall .lock
  have hawait : 0 < c.w → n .await = 0 := hall .await
  obtain ⟨hmutex, hread, hlocking, _, hreleased, _⟩ := h
  unfold Released at hreleased
  have hfree : n .lock = 0 := by
    by_contra hne
    have hw := hreleased ⟨by omega, .inr (.inl (Nat.pos_of_ne_zero hne))⟩
    exact hne (hlock (by omega))
  have hnobody : n .enter = 0 ∧ n .leave = 0 :=
    ⟨henter (by omega), hleave (by omega)⟩
  have hw := hreleased ⟨by omega, .inl (by omega)⟩
  have hnowriter := hawait (by omega)
  cases k <;> first | omega | exact hk rfl

end Balance

section Threads

variable {T : Type u} [Fintype T] {c c' : Counters} {stage : T → Stage}
  {t u : T} {b : Stage}

/-- A thread moves. -/
theorem Balanced.move
    [DecidableEq T]
    (h : Balanced c (number stage))
    (hop : Operation c (stage t) c' b) :
    Balanced c' (number (Function.update stage t b)) :=
  h.operation hop (number_update stage t b)

/-- The count is the number of the readers that have been counted. -/
theorem Balanced.readcnt_eq
    (h : Balanced c (number stage)) :
    c.readcnt =
      (Finset.univ.filter (fun t => (stage t).counted = true)).card := by
  rw [h.readcnt]
  simp only [number, Finset.card_filter]
  push_cast
  simp only [← Finset.sum_add_distrib]
  refine Finset.sum_congr rfl (fun t _ => ?_)
  cases stage t <;> rfl

/-- A thread that writes is alone. -/
theorem Balanced.writer_alone
    (h : Balanced c (number stage))
    (ht : stage t = .writing)
    (hu : stage u = .writing ∨ stage u = .reading) :
    t = u := by
  obtain ⟨hone, hnone⟩ := h.exclusive
  rcases hu with hu | hu
  · exact eq_of_number_le_one hone ht hu
  · have hzero := hnone (number_pos hu)
    have hpos := number_pos ht
    omega

/-- With all threads outside, the lock is as it was at the start. -/
theorem Balanced.all_outside
    (h : Balanced c (number stage))
    (hout : ∀ t, stage t = .outside) :
    c = { mutex := 1, w := 1, readcnt := 0 } := by
  refine h.quiet (fun k hk => ?_)
  rw [funext hout]
  exact number_const hk.symm

/-- With a thread inside, some thread can go on. -/
theorem Balanced.admits
    (h : Balanced c (number stage))
    (ht : stage t ≠ .outside) :
    ∃ u, c.Admits (stage u) := by
  obtain ⟨k, hpos, hadmits⟩ := h.some_admitted ht (number_pos rfl)
  obtain ⟨u, hu⟩ := Finset.card_pos.mp hpos
  refine ⟨u, ?_⟩
  rwa [(Finset.mem_filter.mp hu).2]

end Threads

end ReadersWriters
end PastWork
