import PastWork.Proxy.Doit

/-!
# The cache as a least recently used list

The lines in use, listed by falling timestamps, are the keys of the reference
list in its order.  Every request that is served moves both on alike: a hit
refreshes a timestamp, a miss takes the next free line or the line with the least
timestamp, which is that of the last key of the list.
-/

namespace PastWork
namespace Proxy

open Recency

/-- The cache has the content that the reference list has. -/
structure LeastRecentlyUsed (c : Cache) (recent : List CStr) : Prop where
  keys : ∀ key, key ∈ recent ↔
    ∃ i : Fin NUM_CACHE_LINE, i < c.usedcnt ∧ (c.cache i).name = key
  names : ∀ i j : Fin NUM_CACHE_LINE, i < c.usedcnt → j < c.usedcnt →
    (c.cache i).name = (c.cache j).name → i = j
  stamps : ∀ i j : Fin NUM_CACHE_LINE, i < c.usedcnt → j < c.usedcnt →
    (c.cache i).timestamp = (c.cache j).timestamp → i = j
  clock : ∀ i : Fin NUM_CACHE_LINE, i < c.usedcnt →
    (c.cache i).timestamp < c.gtime
  /-- the line that a miss overwrites is that of the oldest key -/
  oldest : c.usedcnt = NUM_CACHE_LINE →
    recent.getLast? = some (c.cache c.victim).name

/-- The lines in use, by falling timestamps. -/
structure Listed
    (c : Cache) (order : List (Fin NUM_CACHE_LINE)) (recent : List CStr) :
    Prop where
  ordered : Ordered (fun i => (c.cache i).name)
    (fun i => (c.cache i).timestamp) c.gtime order
  used : ∀ i, i ∈ order ↔ i < c.usedcnt
  length : order.length = c.usedcnt
  recent : recent = order.map (fun i => (c.cache i).name)

section States

variable {c c' : Cache} {order : List (Fin NUM_CACHE_LINE)}
  {recent : List CStr} {i : Fin NUM_CACHE_LINE} {line : CacheLine}

theorem Listed.start
    (memory : Fin NUM_CACHE_LINE → CacheLine) :
    Listed (initializeCache memory) [] [] where
  ordered := ⟨.nil, by simp, .nil⟩
  used := by simp [initializeCache]
  length := rfl
  recent := rfl

/-- The line with the least timestamp is the last one when all are in use. -/
theorem Listed.lru_last
    (h : Listed c order recent)
    (hfull : c.usedcnt = NUM_CACHE_LINE) :
    order = order.dropLast ++ [c.lru] := by
  have hmem : c.lru ∈ order := by
    rw [h.used, hfull]
    exact c.lru.isLt
  exact h.ordered.last hmem (fun j _ => Cache.lru_le c j)

theorem Listed.leastRecentlyUsed
    (h : Listed c order recent) :
    LeastRecentlyUsed c recent where
  keys := by
    intro key
    simp [h.recent, h.used]
  names := by
    intro i j hi hj heq
    exact h.ordered.name_inj ((h.used i).mpr hi) ((h.used j).mpr hj) heq
  stamps := by
    intro i j hi hj heq
    exact h.ordered.stamp_inj ((h.used i).mpr hi) ((h.used j).mpr hj) heq
  clock := by
    intro i hi
    exact h.ordered.below i ((h.used i).mpr hi)
  oldest := by
    intro hfull
    have hvictim : c.victim = c.lru := dif_neg (by omega)
    rw [h.recent, h.lru_last hfull, hvictim]
    simp

/-- Writing to a line that is not listed puts it first. -/
theorem Listed.put
    {usedcnt : Nat} {hle : usedcnt ≤ NUM_CACHE_LINE}
    {base : List (Fin NUM_CACHE_LINE)}
    (h : Listed c order recent)
    (hbase : base.Sublist order)
    (hi : i ∉ base)
    (hkey : line.name ∉ base.map (fun i => (c.cache i).name))
    (hclock : c.gtime + 1 < 2 ^ 64)
    (hused : ∀ j, j ∈ i :: base ↔ j < usedcnt)
    (hlength : (i :: base).length = usedcnt) :
    Listed (c.put i { line with timestamp := c.gtime } usedcnt hle)
      (i :: base)
      (line.name :: base.map (fun i => (c.cache i).name)) := by
  have hother : ∀ j ∈ base,
      (c.put i { line with timestamp := c.gtime } usedcnt hle).cache j =
        c.cache j := by
    intro j hj
    refine Cache.put_ne ?_
    rintro rfl
    exact hi hj
  have hnames : base.map (fun j =>
      ((c.put i { line with timestamp := c.gtime } usedcnt hle).cache j).name) =
        base.map (fun j => (c.cache j).name) := by
    refine List.map_congr_left (fun j hj => ?_)
    rw [hother j hj]
  have hgtime :
      (c.put i { line with timestamp := c.gtime } usedcnt hle).gtime =
        c.gtime + 1 :=
    Nat.mod_eq_of_lt hclock
  refine ⟨?_, hused, hlength, ?_⟩
  · rw [hgtime]
    have hframe : Ordered
        (fun j => ((c.put i { line with timestamp := c.gtime } usedcnt
          hle).cache j).name)
        (fun j => ((c.put i { line with timestamp := c.gtime } usedcnt
          hle).cache j).timestamp) c.gtime base :=
      (h.ordered.sublist hbase).frame (fun j hj => by rw [hother j hj])
        (fun j hj => by rw [hother j hj])
    refine hframe.push hi ?_ ?_
    · rw [hnames, Cache.put_same]
      exact hkey
    · rw [Cache.put_same]
  · rw [List.map_cons, hnames, Cache.put_same]

/-- A hit moves the line to the front. -/
theorem Listed.hit
    {key : CStr}
    (h : Listed c order recent)
    (hread : c.reader key = some i)
    (hclock : c.gtime + 1 < 2 ^ 64) :
    key ∈ recent ∧
      Listed
        (c.put i { c.cache i with timestamp := c.gtime } c.usedcnt
          c.usedcnt_le)
        (i :: order.erase i) (touch NUM_CACHE_LINE recent key) := by
  obtain ⟨hi, rfl⟩ := Cache.reader_eq_some hread
  have hmem : i ∈ order := (h.used i).mpr hi
  have hnodup := h.ordered.nodup
  have hrecent : (c.cache i).name ∈ recent := by
    rw [h.recent]
    exact List.mem_map_of_mem hmem
  have herase := map_erase_of_inj (fun i => (c.cache i).name)
    (fun j hj heq => h.ordered.name_inj hj hmem heq)
  rw [← h.recent] at herase
  have hperm := List.perm_cons_erase hmem
  refine ⟨hrecent, ?_⟩
  rw [touch, if_pos hrecent, ← herase]
  refine h.put List.erase_sublist (hnodup.not_mem_erase) ?_ hclock ?_ ?_
  · rw [herase]
    have hnames := h.ordered.names
    rw [← h.recent] at hnames
    exact hnames.not_mem_erase
  · intro j
    rw [← hperm.mem_iff]
    exact h.used j
  · rw [← hperm.length_eq]
    exact h.length

/-- A miss puts its line first; when all lines were in use, the last one goes. -/
theorem Listed.miss
    {key : CStr} {buf : Buffer MAX_OBJECT_SIZE}
    (h : Listed c order recent)
    (hread : c.reader key = none)
    (hwrite : c.writer key buf none = .ok c')
    (hclock : c.gtime + 1 < 2 ^ 64) :
    key ∉ recent ∧
      ∃ order', Listed c' order' (touch NUM_CACHE_LINE recent key) := by
  have hkey : key ∉ recent := by
    rw [h.leastRecentlyUsed.keys]
    rintro ⟨j, hj, heq⟩
    exact Cache.reader_eq_none hread hj heq
  refine ⟨hkey, ?_⟩
  obtain ⟨line, hline, rfl⟩ := Cache.writer_none hwrite
  obtain ⟨rfl, _⟩ := Cache.copy_spec hline
  have hlength : recent.length = c.usedcnt := by
    rw [h.recent, List.length_map, h.length]
  rw [touch, if_neg hkey, hlength]
  split
  next hlt =>
      have hvictim : c.victim = ⟨c.usedcnt, hlt⟩ := dif_pos hlt
      have hfresh : c.victim ∉ order := by
        rw [h.used, hvictim]
        exact lt_irrefl _
      rw [h.recent] at hkey ⊢
      refine ⟨c.victim :: order,
        h.put (List.Sublist.refl _) hfresh hkey hclock ?_ ?_⟩
      · intro j
        rw [List.mem_cons, h.used, hvictim, Fin.ext_iff,
          Nat.min_eq_left hlt]
        show (j : Nat) = c.usedcnt ∨ (j : Nat) < c.usedcnt ↔ _
        omega
      · rw [List.length_cons, h.length]
        omega
  next hnot =>
      have hle := c.usedcnt_le
      have hfull : c.usedcnt = NUM_CACHE_LINE := by
        omega
      have hvictim : c.victim = c.lru := dif_neg hnot
      have hlast := h.lru_last hfull
      have hnodup := h.ordered.nodup
      rw [hlast] at hnodup
      have hfresh : c.victim ∉ order.dropLast := by
        rw [hvictim]
        exact fun hmem =>
          (List.nodup_append.mp hnodup).2.2 _ hmem _ (by simp) rfl
      have hperm : (c.victim :: order.dropLast).Perm order := by
        conv_rhs => rw [hlast, ← hvictim]
        exact (List.perm_append_singleton _ _).symm
      have hkey' : line.name ∉
          order.dropLast.map (fun i => (c.cache i).name) := by
        intro hmem
        rw [h.recent] at hkey
        exact hkey (List.map_subset _ (List.dropLast_subset _) hmem)
      rw [h.recent, ← List.map_dropLast]
      refine ⟨c.victim :: order.dropLast,
        h.put (List.dropLast_sublist _) hfresh hkey' hclock ?_ ?_⟩
      · intro j
        rw [hperm.mem_iff, h.used]
        omega
      · rw [hperm.length_eq, h.length]
        omega

end States

section Runs

variable {c c' : Cache} {order : List (Fin NUM_CACHE_LINE)}
  {recent : List CStr} {req : Request} {reqs : List Request}
  {out : Served} {outs : List Served}

/-- A request that has been served moves the reference list on. -/
theorem Listed.doit
    (h : Listed c order recent)
    (hshort : req.response.length < MAX_OBJECT_SIZE)
    (hclock : c.gtime + 1 < 2 ^ 64)
    (hdoit : Proxy.doit req c = .ok (out, c')) :
    out.isHit = decide (req.line.key ∈ recent) ∧
      c'.gtime = c.gtime + 1 ∧
      ∃ order', Listed c' order'
        (touch NUM_CACHE_LINE recent req.line.key) := by
  rcases doit_cases hdoit with
    ⟨i, hread, rfl, rfl⟩ | ⟨hread, rfl, r, _, ⟨_, hwrite⟩ | ⟨hlong, _⟩⟩
  · obtain ⟨hmem, hlisted⟩ := h.hit hread hclock
    exact ⟨(decide_eq_true hmem).symm, Nat.mod_eq_of_lt hclock, _, hlisted⟩
  · obtain ⟨hmem, hlisted⟩ := h.miss hread hwrite hclock
    obtain ⟨line, _, rfl⟩ := Cache.writer_none hwrite
    exact ⟨(decide_eq_false hmem).symm, Nat.mod_eq_of_lt hclock, hlisted⟩
  · omega

/-- Requests that are served one after another hit and miss as those of the
reference list do, and leave its keys in the cache. -/
theorem Listed.serve
    (h : Listed c order recent)
    (hshort : ∀ req ∈ reqs, req.response.length < MAX_OBJECT_SIZE)
    (hclock : c.gtime + reqs.length < 2 ^ 64)
    (hserve : Proxy.serve reqs c = .ok (outs, c')) :
    outs.map Served.isHit =
        (run NUM_CACHE_LINE recent (reqs.map (fun req => req.line.key))).1 ∧
      ∃ order', Listed c' order'
        (run NUM_CACHE_LINE recent (reqs.map (fun req => req.line.key))).2 := by
  induction reqs generalizing c order recent outs with
  | nil =>
      cases hserve
      exact ⟨rfl, order, h⟩
  | cons req reqs ih =>
      rw [Proxy.serve] at hserve
      obtain ⟨⟨out, m⟩, hm, hserve⟩ := Result.bind_eq_ok hserve
      obtain ⟨⟨outs', m'⟩, hm', hserve⟩ := Result.bind_eq_ok hserve
      cases hserve
      rw [List.length_cons] at hclock
      obtain ⟨hhit, hgtime, order', hlisted⟩ :=
        h.doit (hshort req List.mem_cons_self) (by omega) hm
      obtain ⟨hhits, hrest⟩ := ih hlisted
        (fun r hr => hshort r (List.mem_cons_of_mem _ hr)) (by omega) hm'
      refine ⟨?_, hrest⟩
      rw [List.map_cons, hhit, hhits]
      rfl

/-- A request can be served: its key fits in `uri`, and `object_buf` is written or
holds a string anyway. -/
def Request.Servable (req : Request) : Prop :=
  req.line.key.length < MAXLINE ∧
    (req.response ≠ [] ∨ 0 ∈ req.object_buf.bytes)

theorem serve_ok
    (hshort : ∀ req ∈ reqs, req.response.length < MAX_OBJECT_SIZE)
    (hservable : ∀ req ∈ reqs, req.Servable)
    (c : Cache) :
    ∃ outs c', Proxy.serve reqs c = .ok (outs, c') := by
  induction reqs generalizing c with
  | nil =>
      exact ⟨[], c, rfl⟩
  | cons req reqs ih =>
      have hone : ∃ out m, Proxy.doit req c = .ok (out, m) := by
        obtain ⟨hkey, hbuf⟩ := hservable req List.mem_cons_self
        cases hread : c.reader req.line.key with
        | some i => exact ⟨_, _, doit_hit hkey hread⟩
        | none =>
            obtain ⟨m, hm⟩ := doit_miss hkey hread
              (hshort req List.mem_cons_self) hbuf
            exact ⟨_, m, hm⟩
      obtain ⟨out, m, hm⟩ := hone
      obtain ⟨outs, c', hc'⟩ := ih
        (fun r hr => hshort r (List.mem_cons_of_mem _ hr))
        (fun r hr => hservable r (List.mem_cons_of_mem _ hr)) m
      refine ⟨out :: outs, c', ?_⟩
      rw [Proxy.serve, hm, Result.ok_bind]
      simp only [hc', Result.ok_bind]

end Runs

/-- Fewer than `2 ^ 64` requests with short responses, handled one after another,
meet a least recently used cache; and they are handled. -/
theorem serve_lru
    (memory : Fin NUM_CACHE_LINE → CacheLine)
    (reqs : List Request)
    (hcount : reqs.length < 2 ^ 64)
    (hshort : ∀ req ∈ reqs, req.response.length < MAX_OBJECT_SIZE) :
    (∀ outs c, serve reqs (initializeCache memory) = .ok (outs, c) →
      outs.map Served.isHit =
          (run NUM_CACHE_LINE [] (reqs.map (fun req => req.line.key))).1 ∧
        LeastRecentlyUsed c
          (run NUM_CACHE_LINE [] (reqs.map (fun req => req.line.key))).2) ∧
    ((∀ req ∈ reqs, req.Servable) →
      ∃ outs c, serve reqs (initializeCache memory) = .ok (outs, c)) := by
  constructor
  · intro outs c hserve
    have hclock : (initializeCache memory).gtime + reqs.length < 2 ^ 64 := by
      simpa [initializeCache] using hcount
    obtain ⟨hhits, order, hlisted⟩ :=
      (Listed.start memory).serve hshort hclock hserve
    exact ⟨hhits, hlisted.leastRecentlyUsed⟩
  · exact fun hservable => serve_ok hshort hservable _

/-- The same request twice: a miss and a hit. -/
theorem hiRequest_lru :
    ∃ outs c, serve [hiRequest, hiRequest] freshCache = .ok (outs, c) ∧
      outs.map Served.isHit = [false, true] ∧
      LeastRecentlyUsed c [hiRequest.line.key] := by
  have hall : ∀ req ∈ [hiRequest, hiRequest],
      req.response.length < MAX_OBJECT_SIZE ∧ req.Servable := by
    intro req hreq
    have heq : req = hiRequest := by simpa using hreq
    subst heq
    exact ⟨by decide, by decide, .inl (by decide)⟩
  obtain ⟨hspec, hok⟩ := serve_lru
    (fun _ => { name := [], payload := zeros, timestamp := 0 })
    [hiRequest, hiRequest] (by decide) (fun req hreq => (hall req hreq).1)
  obtain ⟨outs, c, hserve⟩ := hok (fun req hreq => (hall req hreq).2)
  exact ⟨outs, c, hserve, hspec outs c hserve⟩

end Proxy
end PastWork
