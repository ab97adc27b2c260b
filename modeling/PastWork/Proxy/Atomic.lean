import PastWork.Proxy.Locks

/-!
# The sections are atomic

Every run of the threads with single semaphore operations is a run of the threads
whose sections are atomic: a call of `reader` takes effect at the end of its scan,
a call of `writer` when it changes the cache.  No line changes during a scan,
because no thread is in `writer`'s section then.
-/

namespace PastWork
namespace Proxy

open Steps ReadersWriters

universe u

/-- Where a thread is when the sections are atomic. -/
def Point.phase : Point → Phase
  | .leave uri cache_i | .uncount uri cache_i | .last uri cache_i
  | .unlock uri cache_i | .finish uri cache_i | .returned uri cache_i
  | .await uri _ cache_i | .write uri _ cache_i =>
      Serving.outcome uri cache_i
  | _ => .idle

namespace Threads

variable {T : Type u} {s s' : Threads T} {t : T}

def serving (s : Threads T) : Serving T where
  cache := s.cache
  phase := fun t => (s.point t).phase

/-- No name that a scan has passed is the one that it looks for. -/
def Scanned (s : Threads T) : Prop :=
  ∀ t uri i, s.point t = .scan uri i →
    ∀ j : Fin NUM_CACHE_LINE, j < i → j < s.cache.usedcnt →
      (s.cache.cache j).name ≠ uri

variable [DecidableEq T]

/-- A step of a thread is none, or one, of the thread with atomic sections. -/
def Mimics (s : Threads T) (t : T) (s' : Threads T) : Prop :=
  s'.serving = s.serving ∨
    ∃ act, Serving.step s.serving (t, act) = some s'.serving

theorem phase_update
    (point : T → Point) (t : T) (p : Point) :
    (fun u => (Function.update point t p u).phase) =
      Function.update (fun u => (point u).phase) t p.phase := by
  funext u
  by_cases hu : u = t
  · subst hu
    simp
  · simp [hu]

/-- A step at which nothing takes effect. -/
theorem Mimics.quiet
    {p : Point}
    (hcache : s'.cache = s.cache)
    (hpoint : s'.point = Function.update s.point t p)
    (hphase : p.phase = (s.point t).phase) :
    Mimics s t s' := by
  refine .inl ?_
  simp only [serving, hcache, hpoint, phase_update, hphase]
  rw [Function.update_eq_self t (fun u => (s.point u).phase)]

/-- The end of a scan is the lookup. -/
theorem Mimics.lookup
    {uri : CStr} {i : Nat} {cache_i : Option (Fin NUM_CACHE_LINE)}
    (hc : s.point t = .scan uri i)
    (hread : s.cache.reader uri = cache_i) :
    Mimics s t (s.goto t (.leave uri cache_i)) := by
  refine .inr ⟨.lookup uri, ?_⟩
  have hidle : s.serving.phase t = .idle := by
    simp only [serving, hc]
    rfl
  simp only [Serving.step, hidle]
  simp only [serving, goto, phase_update, hread]
  rfl

theorem scan_mimics
    {uri : CStr} {i : Nat}
    (h : s.Scanned)
    (hc : s.point t = .scan uri i) :
    Mimics s t (s.scan t uri i) := by
  unfold scan
  split
  next hi =>
      simp only
      split
      next hname =>
          refine .lookup hc (Cache.reader_eq_some_of_first hi hname ?_)
          exact fun j hj hused => h t uri i hc j hj hused
      next => exact .quiet rfl rfl (hc ▸ rfl)
  next hi =>
      refine .lookup hc (Cache.reader_eq_none_of_all ?_)
      exact fun j hused => h t uri i hc j (by omega) hused

/-- The change of the cache is the call of `writer`. -/
theorem Mimics.store
    {uri : CStr} {buf : Buffer MAX_OBJECT_SIZE}
    {cache_i : Option (Fin NUM_CACHE_LINE)} {cache : Cache}
    (hc : s.point t = .write uri buf cache_i)
    (hwrite : s.cache.writer uri buf cache_i = .ok cache) :
    Mimics s t ({ s with cache := cache }.goto t .release) := by
  refine .inr ⟨.store buf, ?_⟩
  have hphase : s.serving.phase t = Serving.outcome uri cache_i := by
    simp only [serving, hc]
    rfl
  have hcache : s.serving.cache = s.cache := rfl
  cases cache_i with
  | none =>
      simp only [Serving.step, hphase, Serving.outcome, Serving.write, hcache,
        hwrite]
      simp only [serving, goto, phase_update]
      rfl
  | some i =>
      simp only [Serving.step, hphase, Serving.outcome, Serving.write, hcache,
        hwrite]
      simp only [serving, goto, phase_update]
      rfl

theorem proceed_mimics
    (h : s.Scanned)
    (hstep : s.proceed t = some s') :
    Mimics s t s' := by
  unfold proceed at hstep
  cases hc : s.point t with
  | idle | returned =>
      simp only [hc] at hstep
      cases hstep
  | enter | lock | leave | await =>
      simp only [hc] at hstep
      obtain ⟨m, _, rfl⟩ := Option.map_eq_some_iff.mp hstep
      exact .quiet rfl rfl (hc ▸ rfl)
  | first | last =>
      simp only [hc] at hstep
      cases hstep
      split <;> exact .quiet rfl rfl (hc ▸ rfl)
  | scan uri i =>
      simp only [hc] at hstep
      cases hstep
      exact scan_mimics h hc
  | write uri buf cache_i =>
      simp only [hc] at hstep
      split at hstep
      next cache hwrite =>
          cases hstep
          exact .store hc hwrite
      next => cases hstep
  | count | admitted | uncount | unlock | finish | release =>
      simp only [hc] at hstep
      cases hstep
      exact .quiet rfl rfl (hc ▸ rfl)

theorem step_mimics
    {m : Move}
    (h : s.Scanned)
    (hstep : step s (t, m) = some s') :
    Mimics s t s' := by
  cases m with
  | proceed => exact proceed_mimics h hstep
  | accept uri =>
      cases hc : s.point t <;> simp only [step, hc] at hstep <;> cases hstep
      exact .quiet rfl rfl (hc ▸ rfl)
  | call buf =>
      cases hc : s.point t <;> simp only [step, hc] at hstep <;> cases hstep
      exact .quiet rfl rfl (hc ▸ rfl)
  | skip =>
      cases hc : s.point t <;> simp only [step, hc] at hstep <;>
        try cases hstep
      next uri cache_i =>
        cases cache_i with
        | some i => cases hstep
        | none =>
            cases hstep
            refine .inr ⟨.skip, ?_⟩
            have hphase : s.serving.phase t = .miss uri := by
              simp only [serving, hc]
              rfl
            simp only [Serving.step, hphase]
            simp only [serving, goto, phase_update]
            rfl

/-- What a step changes: the point of its thread, the cache only at the change in
`writer`, and a scan goes on only past a line with another name. -/
structure Frame (s : Threads T) (t : T) (p : Point) (s' : Threads T) : Prop where
  point : s'.point = Function.update s.point t p
  cache : s'.cache = s.cache ∨ s.InWriter t ∧ p = .release
  scan : ∀ uri i, p = .scan uri i → i = 0 ∨
    ∃ k, s.point t = .scan uri k ∧ i = k + 1 ∧
      ∀ j : Fin NUM_CACHE_LINE, j = k → (s.cache.cache j).name ≠ uri

/-- A step that leaves the cache alone and ends outside the scan. -/
theorem Frame.of_other
    {p : Point}
    (hpoint : s'.point = Function.update s.point t p)
    (hcache : s'.cache = s.cache)
    (hscan : p.stage ≠ .reading) :
    Frame s t p s' where
  point := hpoint
  cache := .inl hcache
  scan := by
    rintro uri i rfl
    exact absurd rfl hscan

theorem scan_frame
    {uri : CStr} {i : Nat}
    (hc : s.point t = .scan uri i) :
    ∃ p, Frame s t p (s.scan t uri i) := by
  unfold scan
  split
  next hi =>
      simp only
      split
      next => exact ⟨_, .of_other rfl rfl (by simp [Point.stage])⟩
      next hname =>
          refine ⟨.scan uri (i + 1), rfl, .inl rfl, ?_⟩
          rintro uri' i' heq
          cases heq
          refine .inr ⟨i, hc, rfl, ?_⟩
          rintro j rfl
          exact hname
  next => exact ⟨_, .of_other rfl rfl (by simp [Point.stage])⟩

theorem proceed_frame
    (hstep : s.proceed t = some s') :
    ∃ p, Frame s t p s' := by
  unfold proceed at hstep
  cases hc : s.point t with
  | idle | returned =>
      simp only [hc] at hstep
      cases hstep
  | enter | lock | leave | await =>
      simp only [hc] at hstep
      obtain ⟨m, _, rfl⟩ := Option.map_eq_some_iff.mp hstep
      exact ⟨_, .of_other rfl rfl (by simp [Point.stage])⟩
  | first | last =>
      simp only [hc] at hstep
      cases hstep
      exact ⟨_, .of_other rfl rfl (by split <;> simp [Point.stage])⟩
  | admitted uri =>
      simp only [hc] at hstep
      cases hstep
      refine ⟨.scan uri 0, rfl, .inl rfl, ?_⟩
      rintro uri' i heq
      cases heq
      exact .inl rfl
  | scan uri i =>
      simp only [hc] at hstep
      cases hstep
      exact scan_frame hc
  | write uri buf cache_i =>
      simp only [hc] at hstep
      split at hstep
      next =>
          cases hstep
          refine ⟨.release, rfl, .inr ⟨?_, rfl⟩, ?_⟩
          · unfold InWriter
            rw [hc]
            trivial
          · rintro uri' i ⟨⟩
      next => cases hstep
  | count | uncount | unlock | finish | release =>
      simp only [hc] at hstep
      cases hstep
      exact ⟨_, .of_other rfl rfl (by simp [Point.stage])⟩

theorem step_frame
    {m : Move}
    (hstep : step s (t, m) = some s') :
    ∃ p, Frame s t p s' := by
  cases m with
  | proceed => exact proceed_frame hstep
  | accept uri =>
      cases hc : s.point t <;> simp only [step, hc] at hstep <;> cases hstep
      exact ⟨_, .of_other rfl rfl (by simp [Point.stage])⟩
  | call buf =>
      cases hc : s.point t <;> simp only [step, hc] at hstep <;> cases hstep
      exact ⟨_, .of_other rfl rfl (by simp [Point.stage])⟩
  | skip =>
      cases hc : s.point t <;> simp only [step, hc] at hstep <;>
        try cases hstep
      next uri cache_i =>
        cases cache_i with
        | some i => cases hstep
        | none =>
            cases hstep
            exact ⟨_, .of_other rfl rfl (by simp [Point.stage])⟩

/-- The scans stay where they are while the cache is the same, and the cache is
changed only while there is no scan. -/
theorem Scanned.step
    [Fintype T]
    {e : T × Move}
    (h : s.Scanned)
    (hagrees : s.Agrees)
    (hstep : Threads.step s e = some s') :
    s'.Scanned := by
  obtain ⟨t, m⟩ := e
  obtain ⟨p, hframe⟩ := step_frame hstep
  obtain ⟨hpoint, hcache, hscan⟩ := hframe
  intro u uri i hc j hj hused
  rw [hpoint] at hc
  by_cases hu : u = t
  · subst hu
    rw [Function.update_self] at hc
    rcases hcache with hcache | ⟨_, hrelease⟩
    · rw [hcache] at hused ⊢
      rcases hscan uri i hc with rfl | ⟨k, hk, rfl, hname⟩
      · exact absurd hj (Nat.not_lt_zero _)
      · rcases Nat.lt_succ_iff_lt_or_eq.mp hj with hlt | heq
        · exact h u uri k hk j hlt hused
        · exact hname j heq
    · rw [hrelease] at hc
      cases hc
  · rw [Function.update_of_ne hu] at hc
    rcases hcache with hcache | ⟨hwriter, _⟩
    · rw [hcache] at hused ⊢
      exact h u uri i hc j hj hused
    · have hscanning : s.InScan u := by
        unfold InScan
        rw [hc]
        trivial
      exact absurd (hagrees.exclusive.writer t u hwriter (.inr hscanning)).symm
        hu

/-- Every run is a run of threads with atomic sections. -/
theorem atomic_run
    [Fintype T]
    {memory : Fin NUM_CACHE_LINE → CacheLine} {events : List (T × Move)}
    (h : exec step (start memory) events = some s) :
    ∃ acts, exec Serving.step (Serving.start memory) acts = some s.serving := by
  have hinit : (start memory : Threads T).Agrees ∧
      (start memory : Threads T).Scanned := by
    refine ⟨Agrees.start memory, ?_⟩
    rintro t uri i ⟨⟩
  refine exec_mimics (fun s => s.Agrees ∧ s.Scanned) serving hinit ?_ h
  rintro s ⟨t, m⟩ s' ⟨hagrees, hscanned⟩ hstep
  refine ⟨⟨hagrees.step hstep, hscanned.step hagrees hstep⟩, ?_⟩
  rcases step_mimics hscanned hstep with hquiet | ⟨act, hact⟩
  · exact .inl hquiet
  · exact .inr ⟨(t, act), hact⟩

end Threads

end Proxy
end PastWork
