import PastWork.Proxy.Doit
import PastWork.Proxy.Serving

/-!
# Between a lookup and a store

A thread calls `writer` some time after `reader`, and other threads run in
between.  Two threads that miss the same key store it in two lines, and a line
that has been found can hold another object when it is refreshed.  Both happen at
stores after a miss only.
-/

namespace PastWork
namespace Proxy
namespace Serving

open Steps

universe u

variable {T : Type u} [DecidableEq T] {s s' : Serving T}

/-- What a step does: a lookup by an idle thread, a refresh, a store, or a thread
that ends. -/
inductive Effect (s : Serving T) : T × Act → Serving T → Prop
  | lookup {t : T} {uri : CStr}
      (hidle : s.phase t = .idle) :
      Effect s (t, .lookup uri)
        { s with
          phase := Function.update s.phase t
            (outcome uri (s.cache.reader uri)) }
  | refresh {t : T} {uri : CStr} {i : Fin NUM_CACHE_LINE}
      (hhit : s.phase t = .hit uri i)
      (object_buf : Buffer MAX_OBJECT_SIZE) :
      Effect s (t, .store object_buf)
        { cache := s.cache.put i
            { s.cache.cache i with timestamp := s.cache.gtime }
            s.cache.usedcnt s.cache.usedcnt_le
          phase := Function.update s.phase t .idle }
  | insert {t : T} {uri : CStr} {line : CacheLine}
      (hmiss : s.phase t = .miss uri)
      (object_buf : Buffer MAX_OBJECT_SIZE)
      (hname : line.name = uri) :
      Effect s (t, .store object_buf)
        { cache := s.cache.put s.cache.victim
            { line with timestamp := s.cache.gtime }
            (min (s.cache.usedcnt + 1) NUM_CACHE_LINE)
            (Nat.min_le_right _ _)
          phase := Function.update s.phase t .idle }
  | skip {t : T} {uri : CStr}
      (hmiss : s.phase t = .miss uri) :
      Effect s (t, .skip)
        { s with phase := Function.update s.phase t .idle }

theorem step_effect
    {e : T × Act}
    (h : step s e = some s') :
    Effect s e s' := by
  obtain ⟨t, act⟩ := e
  cases act with
  | lookup uri =>
      cases hc : s.phase t <;> simp only [step, hc] at h <;> cases h
      exact .lookup hc
  | store object_buf =>
      cases hc : s.phase t with
      | idle =>
          simp only [step, hc] at h
          cases h
      | hit uri i =>
          simp only [step, hc, write, Cache.writer] at h
          cases h
          exact .refresh hc object_buf
      | miss uri =>
          simp only [step, hc, write] at h
          split at h
          next cache hwrite =>
              cases h
              obtain ⟨line, hline, rfl⟩ := Cache.writer_none hwrite
              exact .insert hc object_buf (Cache.copy_spec hline).1
          next => cases h
  | skip =>
      cases hc : s.phase t <;> simp only [step, hc] at h <;> cases h
      exact .skip hc

section Duplicates

/-- No two lines in use have the same name. -/
def Distinct (s : Serving T) : Prop :=
  ∀ i j : Fin NUM_CACHE_LINE, i < s.cache.usedcnt → j < s.cache.usedcnt →
    (s.cache.cache i).name = (s.cache.cache j).name → i = j

/-- What is stored after a miss is in no line but the one that is overwritten. -/
def StoresNew (s : Serving T) : T × Act → Prop
  | (t, .store _) =>
      ∀ uri, s.phase t = .miss uri →
        ∀ i : Fin NUM_CACHE_LINE, i < s.cache.usedcnt →
          (s.cache.cache i).name = uri → i = s.cache.victim
  | _ => True

/-- A line in use after a store is the one that has been written or was in use. -/
theorem used_of_put
    {c : Cache} {i : Fin NUM_CACHE_LINE}
    (h : i < min (c.usedcnt + 1) NUM_CACHE_LINE)
    (hne : i ≠ c.victim) :
    i < c.usedcnt := by
  unfold Cache.victim at hne
  split at hne
  next hlt =>
      rw [Ne, Fin.ext_iff] at hne
      simp only at hne
      omega
  next hfull =>
      have := c.usedcnt_le
      omega

theorem Distinct.step
    {e : T × Act}
    (h : s.Distinct)
    (hstep : Serving.step s e = some s')
    (hnew : s.StoresNew e) :
    s'.Distinct := by
  cases step_effect hstep with
  | lookup => exact h
  | skip => exact h
  | @refresh t uri i hhit object_buf =>
      have hname : ∀ j, ((s.cache.put i
          { s.cache.cache i with timestamp := s.cache.gtime }
          s.cache.usedcnt s.cache.usedcnt_le).cache j).name =
            (s.cache.cache j).name := by
        intro j
        by_cases hj : j = i
        · rw [hj, Cache.put_same]
        · rw [Cache.put_ne hj]
      intro j k hj hk heq
      simp only [hname] at heq
      exact h j k hj hk heq
  | @insert t uri line hmiss object_buf hname =>
      intro j k hj hk heq
      by_cases hjv : j = s.cache.victim <;> by_cases hkv : k = s.cache.victim
      · exact hjv.trans hkv.symm
      · simp only [hjv, Cache.put_same, Cache.put_ne hkv] at heq
        have hused := used_of_put hk hkv
        exact absurd (hnew uri hmiss k hused (heq.symm.trans hname)) hkv
      · simp only [hkv, Cache.put_same, Cache.put_ne hjv] at heq
        have hused := used_of_put hj hjv
        exact absurd (hnew uri hmiss j hused (heq.trans hname)) hjv
      · simp only [Cache.put_ne hjv, Cache.put_ne hkv] at heq
        exact h j k (used_of_put hj hjv) (used_of_put hk hkv) heq

theorem Distinct.storesNew
    {e : T × Act}
    (hstep : Serving.step s e = some s')
    (h : s'.Distinct) :
    s.StoresNew e := by
  cases step_effect hstep with
  | lookup => trivial
  | skip => trivial
  | refresh hhit =>
      intro uri hmiss
      rw [hhit] at hmiss
      cases hmiss
  | @insert t uri line hmiss object_buf hname =>
      intro uri' hmiss' i hi heq
      rw [hmiss] at hmiss'
      cases hmiss'
      by_contra hne
      refine hne (h i s.cache.victim ?_ (Cache.victim_lt s.cache) ?_)
      · show (i : Nat) < min (s.cache.usedcnt + 1) NUM_CACHE_LINE
        have := i.isLt
        omega
      · simp only [Cache.put_same, Cache.put_ne hne]
        exact heq.trans hname.symm

omit [DecidableEq T] in
theorem Distinct.start
    (memory : Fin NUM_CACHE_LINE → CacheLine) :
    (start memory : Serving T).Distinct :=
  fun _ _ hi => absurd hi (Nat.not_lt_zero _)

/-- No two lines have the same name exactly as long as every store after a miss is
of a key that no line holds but the one that is overwritten. -/
theorem distinct_iff
    (memory : Fin NUM_CACHE_LINE → CacheLine)
    (events : List (T × Act)) :
    Always step (start memory) events Distinct ↔
      EachStep step (start memory) events StoresNew :=
  always_iff_eachStep (Distinct.start memory) (fun _ h => h)
    (fun _ _ _ h hstep hnew => h.step hstep hnew)
    (fun _ _ _ _ hstep h => h.storesNew hstep)

/-- Two threads miss the same key, and then both store it. -/
def twoMisses {ι : Type} (t u : ι) : List (ι × Act) :=
  [(t, .lookup [47]), (u, .lookup [47]), (t, .store zeros),
    (u, .store zeros)]

/-- The key is in the first two lines. -/
theorem twoMisses_duplicate :
    ¬ ∀ (memory : Fin NUM_CACHE_LINE → CacheLine)
      (events : List (Fin 2 × Act)),
      Always step (start memory) events Distinct := by
  intro hclaim
  have hlast : ∃ s, exec step
      (start (fun _ => { name := [], payload := zeros, timestamp := 0 }))
      (twoMisses (0 : Fin 2) 1) = some s ∧ s.cache.usedcnt = 2 ∧
        (s.cache.cache 0).name = (s.cache.cache 1).name := by
    refine ⟨_, rfl, ?_⟩
    decide +kernel
  obtain ⟨s, hs, hused, hname⟩ := hlast
  have hdistinct := hclaim _ (twoMisses 0 1) _ (List.prefix_refl _) s hs
  have heq := hdistinct 0 1 (by rw [hused]; decide) (by rw [hused]; decide)
    hname
  cases heq

/-- A key is looked up only while no thread fetches it. -/
def FetchesApart (s : Serving T) : T × Act → Prop
  | (_, .lookup uri) => ∀ u, s.phase u ≠ .miss uri
  | _ => True

/-- The keys that are fetched are different, and in no line. -/
structure Apart (s : Serving T) : Prop where
  distinct : s.Distinct
  absent : ∀ t uri, s.phase t = .miss uri →
    ∀ i : Fin NUM_CACHE_LINE, i < s.cache.usedcnt →
      (s.cache.cache i).name ≠ uri
  alone : ∀ t u uri, s.phase t = .miss uri → s.phase u = .miss uri → t = u

theorem phase_of_update
    {phase : T → Phase} {t u : T} {p : Phase}
    (hp : ∀ uri, p ≠ .miss uri)
    {uri : CStr}
    (h : Function.update phase t p u = .miss uri) :
    u ≠ t ∧ phase u = .miss uri := by
  by_cases hu : u = t
  · rw [hu, Function.update_self] at h
    exact absurd h (hp uri)
  · rw [Function.update_of_ne hu] at h
    exact ⟨hu, h⟩

/-- A thread that does not begin a fetch leaves the keys that are fetched
different. -/
theorem Apart.alone_of_update
    {t : T} {p : Phase}
    (h : s.Apart)
    (hp : ∀ uri, p ≠ .miss uri)
    (u v : T) (uri : CStr)
    (hu : Function.update s.phase t p u = .miss uri)
    (hv : Function.update s.phase t p v = .miss uri) :
    u = v :=
  h.alone u v uri (phase_of_update hp hu).2 (phase_of_update hp hv).2

omit [DecidableEq T] in
theorem Apart.storesNew
    (h : s.Apart)
    (e : T × Act) :
    s.StoresNew e := by
  obtain ⟨t, act⟩ := e
  cases act with
  | store object_buf =>
      intro uri hmiss i hi heq
      exact absurd heq (h.absent t uri hmiss i hi)
  | _ => trivial

/-- A thread that looks its key up and finds nothing begins a fetch. -/
theorem fetching_of_lookup
    {t u : T} {uri uri' : CStr}
    (h : Function.update s.phase t (outcome uri none) u = .miss uri') :
    u = t ∧ uri' = uri ∨ s.phase u = .miss uri' := by
  by_cases hut : u = t
  · rw [hut, Function.update_self] at h
    cases h
    exact .inl ⟨hut, rfl⟩
  · rw [Function.update_of_ne hut] at h
    exact .inr h

theorem Apart.step
    {e : T × Act}
    (h : s.Apart)
    (hstep : Serving.step s e = some s')
    (happart : s.FetchesApart e) :
    s'.Apart := by
  have hidle : ∀ uri : CStr, Phase.idle ≠ .miss uri := by
    rintro uri ⟨⟩
  have hdistinct := h.distinct.step hstep (h.storesNew e)
  cases step_effect hstep with
  | @lookup t uri ht =>
      have hnobody : ∀ u, s.phase u ≠ .miss uri := happart
      cases hread : s.cache.reader uri with
      | some i =>
          have hhit : ∀ uri', outcome uri (some i) ≠ .miss uri' := by
            rintro uri' ⟨⟩
          rw [hread] at hdistinct
          refine ⟨hdistinct, ?_, h.alone_of_update hhit⟩
          intro u uri' hu
          exact h.absent u uri' (phase_of_update hhit hu).2
      | none =>
          rw [hread] at hdistinct
          refine ⟨hdistinct, ?_, ?_⟩
          · intro u uri' hu i hi
            rcases fetching_of_lookup hu with ⟨_, rfl⟩ | hu
            · exact Cache.reader_eq_none hread hi
            · exact h.absent u uri' hu i hi
          · intro u v uri' hu hv
            rcases fetching_of_lookup hu with ⟨hut, hkey⟩ | hfetch
            · rcases fetching_of_lookup hv with ⟨hvt, _⟩ | hfetch'
              · exact hut.trans hvt.symm
              · exact absurd (hkey ▸ hfetch') (hnobody v)
            · rcases fetching_of_lookup hv with ⟨_, hkey⟩ | hfetch'
              · exact absurd (hkey ▸ hfetch) (hnobody u)
              · exact h.alone u v uri' hfetch hfetch'
  | @refresh t uri i hhit object_buf =>
      refine ⟨hdistinct, ?_, h.alone_of_update hidle⟩
      intro u uri' hu j hj
      have hold := h.absent u uri' (phase_of_update hidle hu).2 j hj
      by_cases hji : j = i
      · simpa only [hji, Cache.put_same] using hji ▸ hold
      · simpa only [Cache.put_ne hji] using hold
  | @insert t uri line hmiss object_buf hname =>
      refine ⟨hdistinct, ?_, h.alone_of_update hidle⟩
      intro u uri' hu j hj
      obtain ⟨hut, hu⟩ := phase_of_update hidle hu
      by_cases hjv : j = s.cache.victim
      · simp only [hjv, Cache.put_same, hname]
        rintro rfl
        exact hut (h.alone u t uri hu hmiss)
      · simpa only [Cache.put_ne hjv] using
          h.absent u uri' hu j (used_of_put hj hjv)
  | @skip t uri hmiss =>
      refine ⟨hdistinct, ?_, h.alone_of_update hidle⟩
      intro u uri' hu
      exact h.absent u uri' (phase_of_update hidle hu).2

/-- No two lines have the same name when no key is looked up while it is
fetched. -/
theorem distinct_of_apart
    {memory : Fin NUM_CACHE_LINE → CacheLine}
    {events : List (T × Act)}
    (h : EachStep step (start memory) events FetchesApart) :
    Always step (start memory) events Distinct := by
  have hstart : (start memory : Serving T).Apart := by
    refine ⟨Distinct.start memory, ?_, ?_⟩
    · rintro t uri ⟨⟩
    · rintro t u uri ⟨⟩
  intro pre hpre s hs
  exact (h.invariant hstart (fun _ _ _ hs hstep hc => hs.step hstep hc)
    pre hpre s hs).distinct

end Duplicates

section Refreshes

/-- A thread that is about to refresh a line finds the name there under which it
has found the line. -/
def Current (s : Serving T) : Prop :=
  ∀ t uri i, s.phase t = .hit uri i → (s.cache.cache i).name = uri

/-- A store after a miss does not give another name to a line that a thread has
found and not yet refreshed. -/
def SparesFound (s : Serving T) : T × Act → Prop
  | (t, .store _) =>
      ∀ uri, s.phase t = .miss uri →
        ∀ u uri', s.phase u = .hit uri' s.cache.victim → uri' = uri
  | _ => True

omit [DecidableEq T] in
theorem Current.start
    (memory : Fin NUM_CACHE_LINE → CacheLine) :
    (start memory : Serving T).Current := by
  rintro t uri i ⟨⟩

theorem hit_of_update
    {phase : T → Phase} {t u : T} {p : Phase}
    (hp : ∀ uri i, p ≠ .hit uri i)
    {uri : CStr} {i : Fin NUM_CACHE_LINE}
    (h : Function.update phase t p u = .hit uri i) :
    phase u = .hit uri i := by
  by_cases hu : u = t
  · rw [hu, Function.update_self] at h
    exact absurd h (hp uri i)
  · rwa [Function.update_of_ne hu] at h

theorem Current.step
    {e : T × Act}
    (h : s.Current)
    (hstep : Serving.step s e = some s')
    (hspares : s.SparesFound e) :
    s'.Current := by
  have hidle : ∀ uri i, Phase.idle ≠ .hit uri i := by
    rintro uri i ⟨⟩
  cases step_effect hstep with
  | @lookup t uri ht =>
      intro u uri' i hu
      by_cases hut : u = t
      · rw [hut] at hu
        simp only [Function.update_self] at hu
        cases hread : s.cache.reader uri with
        | none =>
            rw [hread] at hu
            cases hu
        | some j =>
            rw [hread] at hu
            cases hu
            exact (Cache.reader_eq_some hread).2
      · simp only [Function.update_of_ne hut] at hu
        exact h u uri' i hu
  | @refresh t uri i hhit object_buf =>
      intro u uri' j hu
      have hold := h u uri' j (hit_of_update hidle hu)
      by_cases hji : j = i
      · simpa only [hji, Cache.put_same] using hji ▸ hold
      · simpa only [Cache.put_ne hji] using hold
  | @insert t uri line hmiss object_buf hname =>
      intro u uri' j hu
      have hu := hit_of_update hidle hu
      by_cases hjv : j = s.cache.victim
      · simp only [hjv, Cache.put_same, hname]
        exact (hspares uri hmiss u uri' (hjv ▸ hu)).symm
      · simpa only [Cache.put_ne hjv] using h u uri' j hu
  | skip hmiss =>
      intro u uri' j hu
      exact h u uri' j (hit_of_update hidle hu)

theorem Current.sparesFound
    {e : T × Act}
    (hstep : Serving.step s e = some s')
    (h : s'.Current) :
    s.SparesFound e := by
  cases step_effect hstep with
  | lookup => trivial
  | skip => trivial
  | refresh hhit =>
      intro uri hmiss
      rw [hhit] at hmiss
      cases hmiss
  | @insert t uri line hmiss object_buf hname =>
      intro uri' hmiss' u uri'' hu
      rw [hmiss] at hmiss'
      cases hmiss'
      have hut : u ≠ t := by
        rintro rfl
        rw [hmiss] at hu
        cases hu
      have hname' := h u uri'' s.cache.victim
        (by simpa only [Function.update_of_ne hut] using hu)
      simp only [Cache.put_same] at hname'
      exact hname'.symm.trans hname

/-- Every call of `writer` after a hit finds the name of the object in its line
exactly as long as no store after a miss gives another name to a line that a
thread has found and not yet refreshed. -/
theorem current_iff
    (memory : Fin NUM_CACHE_LINE → CacheLine)
    (events : List (T × Act)) :
    Always step (start memory) events Current ↔
      EachStep step (start memory) events SparesFound :=
  always_iff_eachStep (Current.start memory) (fun _ h => h)
    (fun _ _ _ h hstep hspares => h.step hstep hspares)
    (fun _ _ _ _ hstep h => h.sparesFound hstep)

/-- A request for the object `k` that is a miss. -/
def missOf {ι : Type} (t : ι) (k : Byte) : List (ι × Act) :=
  [(t, .lookup [47, k]), (t, .store zeros)]

/-- The cache is filled; then the oldest object is found, and before its line is
refreshed another thread stores an object. -/
def lateRefresh {ι : Type} (t u : ι) : List (ι × Act) :=
  ([1, 2, 3, 4, 5, 6, 7, 8, 9, 10].flatMap (missOf t)) ++
    (t, .lookup [47, 1]) :: missOf u 11

/-- The first thread refreshes the line of the other object. -/
theorem lateRefresh_stale :
    ¬ ∀ (memory : Fin NUM_CACHE_LINE → CacheLine)
      (events : List (Fin 2 × Act)),
      Always step (start memory) events Current := by
  intro hclaim
  have hlast : ∃ s, exec step
      (start (fun _ => { name := [], payload := zeros, timestamp := 0 }))
      (lateRefresh (0 : Fin 2) 1) = some s ∧ s.phase 0 = .hit [47, 1] 0 ∧
        (s.cache.cache 0).name = [47, 11] := by
    refine ⟨_, rfl, ?_⟩
    decide +kernel
  obtain ⟨s, hs, hhit, hname⟩ := hlast
  have hcurrent := hclaim _ (lateRefresh 0 1) _ (List.prefix_refl _) s hs
    0 [47, 1] 0 hhit
  rw [hname] at hcurrent
  exact absurd hcurrent (by decide)

end Refreshes

end Serving
end Proxy
end PastWork
