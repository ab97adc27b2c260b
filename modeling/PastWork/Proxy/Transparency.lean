import PastWork.Proxy.Doit

/-!
# What a hit writes

A hit writes the whole payload array, whatever the length of the object, so that
it never writes what the miss has written.  An object without NUL bytes is at
least what a hit begins with.
-/

namespace PastWork
namespace Proxy

/-- The key is found after every prefix of the requests. -/
def Stays (key : CStr) (reqs : List Request) (c : Cache) : Prop :=
  ∀ pre, pre <+: reqs → ∀ outs c', serve pre c = .ok (outs, c') →
    (c'.reader key).isSome

/-- When the request has been served on a miss, every later hit for its key
writes the same bytes, until the line is evicted. -/
def Transparent (req : Request) (c : Cache) : Prop :=
  ∀ sent c₁, doit req c = .ok (.miss sent, c₁) →
    ∀ reqs outs c₂, serve reqs c₁ = .ok (outs, c₂) →
      Stays req.line.key reqs c₁ →
        ∀ again bytes c₃, again.line.key = req.line.key →
          doit again c₂ = .ok (.hit bytes, c₃) → bytes = sent

section Hits

variable {req again : Request} {c c' : Cache} {bytes sent : List Byte}

/-- A hit writes as many bytes as the payload array has. -/
theorem length_of_hit
    (h : doit again c = .ok (.hit bytes, c')) :
    bytes.length = MAX_OBJECT_SIZE := by
  rcases doit_cases h with ⟨i, _, hout, _⟩ | ⟨_, hout, _⟩
  · cases hout
    exact (c.cache i).payload.length_bytes
  · cases hout

/-- What has been cached is found under its key. -/
theorem reader_after_miss
    (hshort : req.response.length < MAX_OBJECT_SIZE)
    (h : doit req c = .ok (.miss sent, c')) :
    ∃ i, c'.reader req.line.key = some i := by
  rcases doit_cases h with ⟨i, _, hout, _⟩ | ⟨_, _, r, _, hcached⟩
  · cases hout
  · rcases hcached with ⟨_, hwrite⟩ | ⟨hlong, _⟩
    · obtain ⟨line, hline, rfl⟩ := Cache.writer_none hwrite
      have hname : ((c.put c.victim { line with timestamp := c.gtime }
          (min (c.usedcnt + 1) NUM_CACHE_LINE) (Nat.min_le_right _ _)).cache
            c.victim).name = req.line.key := by
        rw [Cache.put_same]
        exact (Cache.copy_spec hline).1
      rw [← hname]
      exact Cache.reader_of_name (Cache.victim_lt c)
    · omega

/-- The request again, right after the miss, is a hit. -/
theorem not_transparent
    (hshort : req.response.length < MAX_OBJECT_SIZE)
    (h : doit req c = .ok (.miss sent, c')) :
    ¬ Transparent req c := by
  intro htrans
  obtain ⟨i, hi⟩ := reader_after_miss hshort h
  have hkey : req.line.key.length < MAXLINE := by
    by_contra hlong
    unfold doit at h
    simp only [if_neg hlong] at h
    cases h
  have hhit := doit_hit hkey hi
  have hstays : Stays req.line.key [] c' := by
    intro pre hpre outs c₂ hserve
    rw [List.prefix_nil.mp hpre] at hserve
    cases hserve
    rw [hi]
    rfl
  have heq := htrans sent c' h [] [] c' rfl hstays req _ _ rfl hhit
  have hlength := length_of_hit hhit
  have hmiss : sent = req.response := by
    rcases doit_cases h with ⟨_, _, hout, _⟩ | ⟨_, hout, _⟩ <;> cases hout
    rfl
  rw [heq, hmiss] at hlength
  omega

/-- No request that is cached is transparent, and no hit at all writes what a
miss with a short response has written. -/
theorem hits_differ
    (hshort : req.response.length < MAX_OBJECT_SIZE)
    (hmiss : doit req c = .ok (.miss sent, c')) :
    ¬ Transparent req c ∧
      ∀ again bytes c₂ c₃, doit again c₂ = .ok (.hit bytes, c₃) →
        bytes ≠ sent := by
  refine ⟨not_transparent hshort hmiss, ?_⟩
  rintro again bytes c₂ c₃ hhit rfl
  have hlength := length_of_hit hhit
  rcases doit_cases hmiss with ⟨_, _, hout, _⟩ | ⟨_, hout, _⟩ <;> cases hout
  omega

end Hits

section Example

theorem hiRequest_served :
    ∃ c', doit hiRequest freshCache = .ok (.miss hiRequest.response, c') := by
  refine doit_miss ?_ ?_ ?_ (.inl ?_)
  · decide
  · simp [Cache.reader, freshCache, initializeCache]
  · decide
  · decide

theorem hiRequest_differs :
    ¬ Transparent hiRequest freshCache := by
  obtain ⟨c', hmiss⟩ := hiRequest_served
  have hshort : hiRequest.response.length < MAX_OBJECT_SIZE := by
    decide
  exact (hits_differ hshort hmiss).1

/-- The client that gets the three bytes on a miss gets 102400 on a hit. -/
theorem hiRequest_opaque :
    ¬ ∀ memory reqs outs c,
      serve reqs (initializeCache memory) = .ok (outs, c) →
        ∀ req, req.response.length < MAX_OBJECT_SIZE →
          Transparent req c := by
  intro hclaim
  obtain ⟨c', hmiss⟩ := hiRequest_served
  have hshort : hiRequest.response.length < MAX_OBJECT_SIZE := by
    decide
  exact not_transparent hshort hmiss
    (hclaim _ [] [] freshCache rfl hiRequest hshort)

end Example

end Proxy
end PastWork
