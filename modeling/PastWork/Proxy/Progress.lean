import PastWork.Library.Steps
import PastWork.Proxy.Atomic
import PastWork.Proxy.Doit

/-!
# Every request gets through

The threads never block each other for good, and the steps of a thread in `reader`
and `writer` are bounded by the length of the scan.  So every schedule brings all
threads back to `doit`, with the semaphores as they were at the start.  A writer may
have to wait for any number of readers before this, as long as new readers come.
-/

namespace PastWork
namespace Proxy

open Steps ReadersWriters

universe u

/-- The most steps that are left in `reader` or `writer`. -/
def Point.left : Point → Nat
  | .idle | .returned _ _ => 0
  | .enter _ => 21
  | .count _ => 20
  | .first _ => 19
  | .lock _ => 18
  | .admitted _ => 17
  | .scan _ i => 6 + (NUM_CACHE_LINE - i)
  | .leave _ _ => 5
  | .uncount _ _ => 4
  | .last _ _ => 3
  | .unlock _ _ => 2
  | .finish _ _ => 1
  | .await _ _ _ => 3
  | .write _ _ _ => 2
  | .release => 1

theorem Point.left_le
    (p : Point) :
    p.left ≤ 21 := by
  cases p <;> simp [Point.left, NUM_CACHE_LINE]
  omega

namespace Move

/-- A step of `reader` or `writer`. -/
def cost : Move → Nat
  | .proceed => 1
  | _ => 0

/-- The most steps of the function that is called. -/
def pay : Move → Nat
  | .accept _ => 21
  | .call _ => 3
  | _ => 0

end Move

/-- What `writer` copies ends inside its array. -/
def Terminated
    (uri : CStr) (buf : Buffer MAX_OBJECT_SIZE)
    (cache_i : Option (Fin NUM_CACHE_LINE)) : Prop :=
  cache_i = none → uri.length < MAXLINE ∧ 0 ∈ buf.bytes

instance
    (uri : CStr) (buf : Buffer MAX_OBJECT_SIZE)
    (cache_i : Option (Fin NUM_CACHE_LINE)) :
    Decidable (Terminated uri buf cache_i) :=
  inferInstanceAs (Decidable (cache_i = none → _ ∧ _))

/-- A thread in `writer` has strings. -/
def Point.Supplied : Point → Prop
  | .await uri buf cache_i | .write uri buf cache_i => Terminated uri buf cache_i
  | _ => True

namespace Threads

variable {T : Type u} {s s' : Threads T} {t : T}

/-- A call of `writer` that copies hands over strings. -/
def Writable (s : Threads T) : T × Move → Prop
  | (t, .call buf) =>
      match s.point t with
      | .returned uri cache_i => Terminated uri buf cache_i
      | _ => True
  | _ => True

instance (s : Threads T) (e : T × Move) : Decidable (s.Writable e) := by
  unfold Writable
  split
  · split <;> infer_instance
  · infer_instance

/-- The threads in `writer` have strings. -/
def Supplied (s : Threads T) : Prop :=
  ∀ t, (s.point t).Supplied

theorem Supplied.start
    (memory : Fin NUM_CACHE_LINE → CacheLine) :
    (start memory : Threads T).Supplied := by
  intro t
  trivial

section Going

variable [DecidableEq T]

/-- A thread that moves to a point with a string. -/
theorem Supplied.update
    {p : Point}
    (h : s.Supplied)
    (hpoint : s'.point = Function.update s.point t p)
    (hp : p.Supplied) :
    s'.Supplied := by
  intro u
  rw [hpoint]
  by_cases hu : u = t
  · subst hu
    rw [Function.update_self]
    exact hp
  · rw [Function.update_of_ne hu]
    exact h u

/-- `writer` returns when it has strings. -/
theorem writer_returns
    {uri : CStr} {buf : Buffer MAX_OBJECT_SIZE}
    {cache_i : Option (Fin NUM_CACHE_LINE)}
    (h : Terminated uri buf cache_i)
    (c : Cache) :
    ∃ c', c.writer uri buf cache_i = .ok c' := by
  cases cache_i with
  | some i =>
      exact ⟨_, rfl⟩
  | none =>
      obtain ⟨huri, hbuf⟩ := h rfl
      exact Cache.writer_none_ok huri hbuf c

/-- A thread that is admitted goes on. -/
theorem proceed_of_admits
    (hsupplied : s.Supplied)
    (hadmits : s.toCounters.Admits (s.stages t)) :
    ∃ s', s.proceed t = some s' := by
  have hP : ∀ {value : Nat}, 0 < value → ∃ m, P value = some m := by
    intro value hpos
    obtain ⟨m, rfl⟩ := Nat.exists_eq_succ_of_ne_zero hpos.ne'
    exact ⟨m, rfl⟩
  have hown := hsupplied t
  unfold proceed
  unfold stages at hadmits
  cases hc : s.point t with
  | idle | returned =>
      rw [hc] at hadmits
      exact hadmits.elim
  | enter | leave =>
      rw [hc] at hadmits
      obtain ⟨m, hm⟩ := hP hadmits
      simp only [hm]
      exact ⟨_, rfl⟩
  | lock | await =>
      rw [hc] at hadmits
      obtain ⟨m, hm⟩ := hP hadmits
      simp only [hm]
      exact ⟨_, rfl⟩
  | write uri buf cache_i =>
      rw [hc] at hown
      obtain ⟨c', hc'⟩ := writer_returns hown s.cache
      simp only [hc']
      exact ⟨_, rfl⟩
  | _ =>
      exact ⟨_, rfl⟩

/-- One step of `reader` or `writer` leaves fewer steps. -/
theorem proceed_left
    (h : s.proceed t = some s') :
    ∃ p, s'.point = Function.update s.point t p ∧ p.left < (s.point t).left ∧
      (s.Supplied → s'.Supplied) := by
  unfold proceed at h
  cases hc : s.point t with
  | idle | returned =>
      simp only [hc] at h
      cases h
  | enter | lock | leave =>
      simp only [hc] at h
      obtain ⟨m, _, rfl⟩ := Option.map_eq_some_iff.mp h
      exact ⟨_, rfl, by simp [Point.left], fun hs => hs.update rfl trivial⟩
  | await uri buf cache_i =>
      simp only [hc] at h
      obtain ⟨m, _, rfl⟩ := Option.map_eq_some_iff.mp h
      refine ⟨_, rfl, by simp [Point.left], fun hs => hs.update rfl ?_⟩
      have hown := hs t
      rw [hc] at hown
      exact hown
  | first | last =>
      simp only [hc] at h
      cases h
      refine ⟨_, rfl, by split <;> simp [Point.left], fun hs => hs.update rfl ?_⟩
      split <;> trivial
  | scan uri i =>
      simp only [hc] at h
      cases h
      have hle := s.cache.usedcnt_le
      unfold scan
      split
      next hi =>
          simp only
          split
          · exact ⟨_, rfl, by simp only [Point.left]; omega,
              fun hs => hs.update rfl trivial⟩
          · exact ⟨_, rfl, by simp only [Point.left]; omega,
              fun hs => hs.update rfl trivial⟩
      next =>
          exact ⟨_, rfl, by simp only [Point.left]; omega,
            fun hs => hs.update rfl trivial⟩
  | write uri buf cache_i =>
      simp only [hc] at h
      split at h
      next =>
          cases h
          exact ⟨_, rfl, by simp [Point.left], fun hs => hs.update rfl trivial⟩
      next => cases h
  | count | admitted | uncount | unlock | finish | release =>
      simp only [hc] at h
      cases h
      exact ⟨_, rfl, by simp [Point.left, NUM_CACHE_LINE],
        fun hs => hs.update rfl trivial⟩

/-- A call of `reader` or `writer`, or the end of a request, moves one thread. -/
theorem call_left
    {m : Move}
    (h : step s (t, m) = some s')
    (hm : m.cost = 0) :
    ∃ p, s'.point = Function.update s.point t p ∧
      p.left ≤ (s.point t).left + m.pay ∧
      (s.Supplied → s.Writable (t, m) → s'.Supplied) := by
  cases m with
  | proceed => cases hm
  | accept uri =>
      cases hc : s.point t <;> simp only [step, hc] at h <;> cases h
      exact ⟨_, rfl, by simp [Point.left, Move.pay],
        fun hs _ => hs.update rfl trivial⟩
  | call buf =>
      cases hc : s.point t <;> simp only [step, hc] at h <;> cases h
      refine ⟨_, rfl, by simp [Point.left, Move.pay],
        fun hs hw => hs.update rfl ?_⟩
      simp only [Writable, hc] at hw
      exact hw
  | skip =>
      cases hc : s.point t <;> simp only [step, hc] at h <;> try cases h
      next uri cache_i =>
        cases cache_i with
        | some i => cases h
        | none =>
            cases h
            exact ⟨_, rfl, by simp [Point.left], fun hs _ => hs.update rfl trivial⟩

theorem Supplied.step
    {e : T × Move}
    (h : s.Supplied)
    (hstep : Threads.step s e = some s')
    (hwritable : s.Writable e) :
    s'.Supplied := by
  obtain ⟨t, m⟩ := e
  by_cases hm : m.cost = 0
  · obtain ⟨_, _, _, hkept⟩ := call_left hstep hm
    exact hkept h hwritable
  · cases m with
    | proceed =>
        obtain ⟨_, _, _, hkept⟩ := proceed_left hstep
        exact hkept h
    | _ => exact absurd rfl hm

/-- A thread that goes on takes from its own steps only. -/
theorem proceed_own
    {u : T}
    (h : s.proceed t = some s') :
    (s'.point u).left + (if t = u then 1 else 0) ≤ (s.point u).left := by
  obtain ⟨p, hpoint, hless, _⟩ := proceed_left h
  rw [hpoint]
  by_cases hu : t = u
  · subst hu
    rw [Function.update_self, if_pos rfl]
    omega
  · rw [Function.update_of_ne (Ne.symm hu), if_neg hu, Nat.add_zero]

/-- However the threads go on, each has at most 21 steps. -/
theorem order_count_le
    {order : List T}
    (h : exec proceed s order = some s')
    (u : T) :
    order.count u ≤ 21 := by
  have hown : ∀ (s : Threads T) t s', s.proceed t = some s' →
      (s'.point u).left + (if t = u then 1 else 0) ≤ (s.point u).left + 0 :=
    fun _ _ _ => proceed_own
  have hpaid := exec_paid hown h
  have hcount : (order.map (fun t => if t = u then 1 else 0)).sum = order.count u := by
    clear h hown hpaid
    induction order with
    | nil => rfl
    | cons t order ih =>
        rw [List.map_cons, List.sum_cons, ih, List.count_cons, Nat.add_comm]
        simp
  have hmost := (s.point u).left_le
  simp only [List.map_const', List.sum_replicate_nat, Nat.mul_zero] at hpaid
  omega

end Going

section Complete

variable [Fintype T]

/-- The steps that are left to all threads. -/
def left (s : Threads T) : Nat :=
  ∑ t, (s.point t).left

theorem left_le
    (s : Threads T) :
    s.left ≤ 21 * Fintype.card T := by
  have hsum := Finset.sum_le_card_nsmul Finset.univ (fun t => (s.point t).left) 21
    (fun t _ => Point.left_le _)
  rw [Finset.card_univ, smul_eq_mul, mul_comm] at hsum
  exact hsum

variable [DecidableEq T]

theorem left_update
    {p : Point}
    (hpoint : s'.point = Function.update s.point t p) :
    s'.left + (s.point t).left = s.left + p.left := by
  have hothers : ∑ u ∈ Finset.univ.erase t, (s'.point u).left =
      ∑ u ∈ Finset.univ.erase t, (s.point u).left := by
    refine Finset.sum_congr rfl (fun u hu => ?_)
    rw [hpoint, Function.update_of_ne (Finset.ne_of_mem_erase hu)]
  unfold left
  rw [← Finset.add_sum_erase _ _ (Finset.mem_univ t),
    ← Finset.add_sum_erase _ (fun u => (s.point u).left) (Finset.mem_univ t),
    hothers, hpoint, Function.update_self]
  omega

theorem proceed_less
    (h : s.proceed t = some s') :
    s'.left < s.left := by
  obtain ⟨p, hpoint, hless, _⟩ := proceed_left h
  have hsum := left_update hpoint
  omega

/-- The steps of `reader` and `writer` are paid by their calls. -/
theorem step_paid
    {e : T × Move}
    (h : step s e = some s') :
    s'.left + e.2.cost ≤ s.left + e.2.pay := by
  obtain ⟨t, m⟩ := e
  by_cases hm : m.cost = 0
  · obtain ⟨p, hpoint, hle, _⟩ := call_left h hm
    have hsum := left_update hpoint
    simp only [hm]
    omega
  · cases m with
    | proceed =>
        have hless := proceed_less h
        simp only [Move.cost, Move.pay]
        omega
    | _ => exact absurd rfl hm

/-- When no thread can go on, all threads are outside. -/
theorem outside_of_stuck
    (hagrees : s.Agrees)
    (hsupplied : s.Supplied)
    (hstuck : ∀ t, s.proceed t = none) :
    ∀ t, s.Outside t := by
  intro t
  by_contra ht
  rw [outside_iff] at ht
  obtain ⟨u, hu⟩ := Balanced.admits hagrees ht
  obtain ⟨s', hs'⟩ := proceed_of_admits hsupplied hu
  rw [hstuck u] at hs'
  cases hs'

/-- The request of `t` has missed and calls `writer`, and the one of `q` comes. -/
def busy (t q : T) : List (T × Move) :=
  (t, .accept []) :: List.replicate 11 (t, .proceed) ++
    [(t, .call zeros), (q, .accept []), (q, .proceed)]

end Complete

section Waiting

variable [DecidableEq T] {q r : T} {uri : CStr} {buf : Buffer MAX_OBJECT_SIZE}

/-- A request up to the scan. -/
def entering (t : T) (uri : CStr) : List (T × Move) :=
  (t, .accept uri) :: List.replicate 4 (t, .proceed)

/-- The scan of an empty cache and the rest of a request that is not answered. -/
def leaving (t : T) : List (T × Move) :=
  List.replicate 5 (t, .proceed) ++ [(t, .skip)]

theorem exec_entering
    (hmutex : s.mutex = 1)
    (hreadcnt : s.readcnt + 1 ≠ 1)
    (hidle : s.point q = .idle) :
    exec step s (entering q uri) =
      some { s with
        readcnt := s.readcnt + 1
        point := Function.update s.point q (.scan uri 0) } := by
  obtain ⟨⟨mutex, w, readcnt⟩, cache, point⟩ := s
  simp only at hmutex hreadcnt hidle
  subst hmutex
  simp [entering, List.replicate, exec, step, proceed, goto, P, V, hidle, hreadcnt]

theorem exec_leaving
    (hmutex : s.mutex = 1)
    (hreadcnt : s.readcnt - 1 ≠ 0)
    (husedcnt : s.cache.usedcnt = 0)
    (hscan : s.point r = .scan uri 0) :
    exec step s (leaving r) =
      some { s with
        readcnt := s.readcnt - 1
        point := Function.update s.point r .idle } := by
  obtain ⟨⟨mutex, w, readcnt⟩, cache, point⟩ := s
  simp only at hmutex hreadcnt husedcnt hscan
  subst hmutex
  simp [leaving, List.replicate, exec, step, proceed, goto, scan, P, V, hscan,
    hreadcnt, husedcnt]

/-- The thread `t` waits for `w` while `r` reads and `q` is idle, and nothing is in
the cache. -/
structure Contested
    (s : Threads T) (t r q : T) (uri : CStr) (buf : Buffer MAX_OBJECT_SIZE) :
    Prop where
  mutex : s.mutex = 1
  w : s.w = 0
  readcnt : s.readcnt = 1
  usedcnt : s.cache.usedcnt = 0
  waits : s.point t = .await uri buf none
  reads : s.point r = .scan uri 0
  idle : s.point q = .idle

/-- Another reader comes before the first one goes. -/
theorem Contested.turn
    (h : s.Contested t r q uri buf)
    (htr : t ≠ r) (htq : t ≠ q) (hqr : q ≠ r) :
    ∃ s', exec step s (entering q uri ++ leaving r) = some s' ∧
      s'.Contested t q r uri buf := by
  have henter : exec step s (entering q uri) =
      some { s with
        readcnt := s.readcnt + 1
        point := Function.update s.point q (.scan uri 0) } :=
    exec_entering h.mutex (by rw [h.readcnt]; decide) h.idle
  have hreads : Function.update s.point q (.scan uri 0) r = .scan uri 0 := by
    simp [hqr.symm, h.reads]
  have hleave := exec_leaving
    (s := { s with
      readcnt := s.readcnt + 1
      point := Function.update s.point q (.scan uri 0) })
    h.mutex (by simp [h.readcnt]) h.usedcnt hreads
  refine ⟨_, by rw [exec_append, henter, Option.bind_some, hleave], ?_⟩
  constructor <;>
    simp [h.mutex, h.w, h.readcnt, h.usedcnt, h.waits, htr, htq, hqr]

/-- Any number of readers, one after another. -/
theorem Contested.turns
    (h : s.Contested t r q uri buf)
    (htr : t ≠ r) (htq : t ≠ q) (hqr : q ≠ r)
    (n : Nat) :
    ∃ s', exec step s (List.replicate n
        (entering q uri ++ leaving r ++ (entering r uri ++ leaving q))).flatten =
          some s' ∧
      s'.Contested t r q uri buf := by
  induction n with
  | zero =>
      exact ⟨s, rfl, h⟩
  | succ n ih =>
      obtain ⟨a, ha, hcontested⟩ := ih
      obtain ⟨b, hb, hturned⟩ := hcontested.turn htr htq hqr
      obtain ⟨s', hs', hback⟩ := hturned.turn htq htr hqr.symm
      refine ⟨s', ?_, hback⟩
      rw [List.replicate_succ', List.flatten_append, exec_append, ha,
        Option.bind_some, List.flatten_singleton, exec_append, hb, Option.bind_some]
      exact hs'

/-- The thread `t` misses and calls `writer`, and the thread `r` comes to read. -/
def awaiting
    (t r : T) (uri : CStr) (buf : Buffer MAX_OBJECT_SIZE) :
    List (T × Move) :=
  (t, .accept uri) :: List.replicate 11 (t, .proceed) ++ [(t, .call buf)] ++
    (r, .accept uri) :: List.replicate 5 (r, .proceed)

theorem awaiting_contested
    (memory : Fin NUM_CACHE_LINE → CacheLine)
    (uri : CStr) (buf : Buffer MAX_OBJECT_SIZE) :
    ∃ s, exec step (start memory) (awaiting (0 : Fin 3) 1 uri buf) = some s ∧
      s.Contested 0 1 2 uri buf := by
  refine ⟨_, rfl, ?_⟩
  constructor <;> rfl

/-- While other requests keep coming, a thread may wait in `writer` for as many of
them as there are, though each of them ends. -/
theorem writer_overtaken
    (memory : Fin NUM_CACHE_LINE → CacheLine)
    (uri : CStr) (buf : Buffer MAX_OBJECT_SIZE)
    (n : Nat) :
    ∃ s, exec step (start memory) (awaiting (0 : Fin 3) 1 uri buf ++ (List.replicate n
        (entering 2 uri ++ leaving 1 ++ (entering 1 uri ++ leaving 2))).flatten) =
          some s ∧
      s.point 0 = .await uri buf none ∧ s.proceed 0 = none := by
  obtain ⟨a, ha, hcontested⟩ := awaiting_contested memory uri buf
  obtain ⟨s, hs, h⟩ :=
    hcontested.turns (by decide) (by decide) (by decide) n
  refine ⟨s, by rw [exec_append, ha, Option.bind_some, hs], h.waits, ?_⟩
  simp [proceed, h.waits, h.w, P]

end Waiting

end Threads

end Proxy
end PastWork
