import PastWork.Library.Faults

/-!
# Intrusive singly linked lists

A queue threaded through its own elements: every node carries one link, the
queue itself is a front and a back pointer.  `next` is the link field, read as
a function of the node, and an update of a link field is any `next'` that
agrees with `next` elsewhere.

`Linked next front back l` says that the nodes of the queue are `l`, in this
order.  The lemmas give one rule for each way of editing such a queue
(appending, removing the front, unlinking an inner or the last node) and one
for the loop that looks for the node before a given one.
-/

namespace PastWork
namespace Links

universe u

variable {ν : Type u}

/-- Following `next` from `p` visits the nodes of `l` and then meets NULL. -/
def Chain (next : ν → Option ν) : Option ν → List ν → Prop
  | p, [] => p = none
  | p, x :: l => p = some x ∧ Chain next (next x) l

/-- A queue with the nodes `l`; nodes outside it have no link. -/
structure Linked
    (next : ν → Option ν)
    (front back : Option ν)
    (l : List ν) : Prop where
  chain : Chain next front l
  back_eq : back = l.getLast?
  nodup : l.Nodup
  off : ∀ x, x ∉ l → next x = none

/-- `while (!stop(x->next)) x = x->next;` -/
def walkBefore
    (next : ν → Option ν) (stop : ν → Bool) :
    Nat → ν → Result ν
  | 0, _ => .error .endless
  | fuel + 1, x =>
      match next x with
      | none => .error .nullPointer
      | some y =>
          if stop y then
            .ok x
          else
            walkBefore next stop fuel y

/-- The node after `k` links. -/
def walk (next : ν → Option ν) : Nat → Option ν → Option ν
  | 0, p => p
  | k + 1, p => walk next k (p.bind next)

section Chains

variable {next next' : ν → Option ν}

@[simp] theorem chain_nil
    {p : Option ν} :
    Chain next p [] ↔ p = none := by
  rfl

@[simp] theorem chain_cons
    {p : Option ν} {x : ν} {l : List ν} :
    Chain next p (x :: l) ↔ p = some x ∧ Chain next (next x) l := by
  rfl

theorem Chain.front_eq
    {p : Option ν} {l : List ν}
    (h : Chain next p l) :
    p = l.head? := by
  cases l with
  | nil =>
      exact h
  | cons x l =>
      exact h.1

theorem Chain.congr
    {p : Option ν} {l : List ν}
    (h : Chain next p l)
    (heq : ∀ x ∈ l, next' x = next x) :
    Chain next' p l := by
  induction l generalizing p with
  | nil =>
      exact h
  | cons x l ih =>
      refine ⟨h.1, ?_⟩
      rw [heq x (by simp)]
      exact ih h.2 (fun y hy => heq y (by simp [hy]))

theorem Chain.walk_eq
    {p : Option ν} {l : List ν}
    (h : Chain next p l)
    (k : Nat) :
    walk next k p = l[k]? := by
  induction k generalizing p l with
  | zero =>
      rw [h.front_eq, walk, List.head?_eq_getElem?]
  | succ k ih =>
      cases l with
      | nil =>
          rw [chain_nil.mp h, walk]
          exact ih (l := []) rfl
      | cons x l =>
          rw [h.1, walk, List.getElem?_cons_succ]
          exact ih h.2

/-- The links alone say which nodes follow. -/
theorem Chain.unique
    {p : Option ν} {l l' : List ν}
    (h : Chain next p l)
    (h' : Chain next p l') :
    l = l' := by
  induction l generalizing p l' with
  | nil =>
      cases l' with
      | nil => rfl
      | cons y l' =>
          rw [chain_nil.mp h] at h'
          cases h'.1
  | cons x l ih =>
      cases l' with
      | nil =>
          rw [chain_nil.mp h'] at h
          cases h.1
      | cons y l' =>
          obtain rfl := Option.some.inj (h.1.symm.trans h'.1)
          rw [ih h.2 h'.2]

/-- What follows a node is a chain from its link on. -/
theorem Chain.after
    {p : Option ν} {l post : List ν} {x : ν}
    (h : Chain next p (l ++ x :: post)) :
    Chain next (next x) post := by
  induction l generalizing p with
  | nil =>
      exact h.2
  | cons y l ih =>
      exact ih h.2

/-- The last node of a chain has no link, every other node has one. -/
theorem Chain.next_eq_none_iff
    {p : Option ν} {l : List ν} {y : ν}
    (h : Chain next p (l ++ [y]))
    {z : ν} (hz : z ∈ l ++ [y]) (hnd : (l ++ [y]).Nodup) :
    next z = none ↔ z = y := by
  induction l generalizing p with
  | nil =>
      simp at hz
      subst z
      simp only [iff_true]
      exact h.2
  | cons x l ih =>
      have htail : Chain next (next x) (l ++ [y]) := h.2
      rcases List.mem_cons.mp hz with rfl | hz
      · have hsome : next z ≠ none := by
          rw [htail.front_eq]
          cases l <;> simp
        have hne : z ≠ y := by
          rintro rfl
          simp at hnd
        simp [hsome, hne]
      · exact ih htail hz (List.nodup_cons.mp hnd).2

theorem Chain.next_eq
    {p : Option ν} {l post : List ν} {x y : ν}
    (h : Chain next p (l ++ y :: x :: post)) :
    next y = some x := by
  induction l generalizing p with
  | nil => exact h.2.1
  | cons z l ih => exact ih h.2

theorem Chain.push
    {p : Option ν} {l : List ν} {x y : ν}
    (h : Chain next p (l ++ [y]))
    (hx : next' x = none)
    (hy : next' y = some x)
    (heq : ∀ z ∈ l, next' z = next z) :
    Chain next' p (l ++ [y] ++ [x]) := by
  induction l generalizing p with
  | nil =>
      exact ⟨h.1, hy, hx⟩
  | cons z l ih =>
      refine ⟨h.1, ?_⟩
      rw [heq z (by simp)]
      exact ih h.2 (fun w hw => heq w (by simp [hw]))

theorem Chain.unlink
    {p : Option ν} {l post : List ν} {x y : ν}
    (h : Chain next p (l ++ y :: x :: post))
    (hy : next' y = next x)
    (hl : ∀ z ∈ l, next' z = next z)
    (hpost : ∀ z ∈ post, next' z = next z) :
    Chain next' p (l ++ y :: post) := by
  induction l generalizing p with
  | nil =>
      refine ⟨h.1, ?_⟩
      rw [hy]
      exact h.2.2.congr hpost
  | cons z l ih =>
      refine ⟨h.1, ?_⟩
      rw [hl z (by simp)]
      exact ih h.2 (fun w hw => hl w (by simp [hw]))

/-- The search loop stops at the node whose successor is the first to satisfy
`stop`. -/
theorem Chain.walkBefore_eq
    {stop : ν → Bool}
    {f x y : ν} {l post : List ν} {fuel : Nat}
    (h : Chain next (some f) (l ++ y :: x :: post))
    (hfuel : l.length < fuel)
    (hx : stop x = true)
    (hstop : ∀ z ∈ l ++ [y], stop z = false) :
    walkBefore next stop fuel f = .ok y := by
  induction l generalizing f fuel with
  | nil =>
      obtain ⟨hf, hy, _⟩ := h
      obtain rfl : f = y := Option.some.inj hf
      cases fuel with
      | zero => simp at hfuel
      | succ fuel => simp [walkBefore, hy, hx]
  | cons z l ih =>
      obtain ⟨hf, htail⟩ := h
      obtain rfl : f = z := Option.some.inj hf
      cases fuel with
      | zero => simp at hfuel
      | succ fuel =>
          have hlen : l.length < fuel := by simpa using hfuel
          obtain ⟨w, hw⟩ :
              ∃ w, (l ++ y :: x :: post).head? = some w := by
            cases l <;> simp
          have hnext : next f = some w :=
            htail.front_eq.trans hw
          have hmem : w ∈ l ++ [y] := by
            cases l with
            | nil => simp at hw; simp [hw]
            | cons v l => simp at hw; simp [hw]
          simp only [walkBefore, hnext,
            hstop w (List.mem_cons_of_mem _ hmem)]
          exact ih (hnext ▸ htail) hlen
            (fun v hv => hstop v (List.mem_cons_of_mem _ hv))

end Chains

section Queues

variable {next next' : ν → Option ν}
variable {front back : Option ν} {l : List ν}

/-- The queue without nodes. -/
theorem Linked.empty
    (h : ∀ x, next x = none) :
    Linked next none none [] where
  chain := rfl
  back_eq := rfl
  nodup := List.nodup_nil
  off := fun x _ => h x

theorem Linked.front_eq
    (h : Linked next front back l) :
    front = l.head? :=
  h.chain.front_eq

theorem Linked.front_none
    (h : Linked next front back l) :
    front = none ↔ l = [] := by
  rw [h.front_eq, List.head?_eq_none_iff]

theorem Linked.back_none
    (h : Linked next front back l) :
    back = none ↔ l = [] := by
  rw [h.back_eq, List.getLast?_eq_none_iff]

/-- The same queue under a link field that agrees with the old one. -/
theorem Linked.congr
    (h : Linked next front back l)
    (heq : ∀ x, next' x = next x) :
    Linked next' front back l where
  chain := h.chain.congr (fun x _ => heq x)
  back_eq := h.back_eq
  nodup := h.nodup
  off := fun x hx => (heq x).trans (h.off x hx)

/-- The first node of an empty queue needs no link to be set. -/
theorem Linked.pushFirst
    (h : Linked next front back [])
    (x : ν) :
    Linked next (some x) (some x) [x] where
  chain := ⟨rfl, h.off x (by simp)⟩
  back_eq := rfl
  nodup := List.nodup_singleton x
  off := fun y _ => h.off y (by simp)

/-- Appending behind the last node. -/
theorem Linked.pushBack
    {x y : ν}
    (h : Linked next front (some y) l)
    (next' : ν → Option ν)
    (hmem : x ∉ l)
    (hx : next' x = none)
    (hy : next' y = some x)
    (heq : ∀ z, z ≠ x → z ≠ y → next' z = next z) :
    Linked next' front (some x) (l ++ [x]) := by
  obtain ⟨l', rfl⟩ : ∃ l', l = l' ++ [y] :=
    List.getLast?_eq_some_iff.mp h.back_eq.symm
  have hxl : x ∉ l' := fun hx' => hmem (by simp [hx'])
  have hyl : y ∉ l' := by
    have := h.nodup
    simp [List.nodup_append] at this
    exact fun hy' => this.2 y hy' rfl
  refine ⟨?_, by simp, ?_, ?_⟩
  · apply h.chain.push hx hy
    intro z hz
    exact heq z (fun hzx => hxl (hzx ▸ hz)) (fun hzy => hyl (hzy ▸ hz))
  · rw [List.nodup_append]
    refine ⟨h.nodup, List.nodup_singleton x, ?_⟩
    intro a ha b hb
    simp only [List.mem_singleton] at hb
    subst hb
    exact fun hab => hmem (hab ▸ ha)
  · intro z hz
    simp only [List.mem_append, List.mem_singleton, not_or] at hz
    rw [heq z hz.2 hz.1.2]
    exact h.off z (by simp [hz.1])

/-- Removing the front node and clearing its link. -/
theorem Linked.popFront
    {x : ν}
    (h : Linked next front back (x :: l))
    (next' : ν → Option ν)
    (hx : next' x = none)
    (heq : ∀ z, z ≠ x → next' z = next z) :
    Linked next' (next x)
      (if l = [] then none else back) l := by
  have hnd := List.nodup_cons.mp h.nodup
  refine ⟨?_, ?_, hnd.2, ?_⟩
  · apply h.chain.2.congr
    intro z hz
    exact heq z (fun hzx => hnd.1 (hzx ▸ hz))
  · cases l with
    | nil => rfl
    | cons y l =>
        rw [h.back_eq]
        simp [List.getLast?_cons_cons]
  · intro z hz
    by_cases hzx : z = x
    · rw [hzx, hx]
    · rw [heq z hzx]
      exact h.off z (by simp [hzx, hz])

/-- Unlinking a node behind another one; the back pointer moves when the node
was the last one. -/
theorem Linked.unlinkAfter
    {pre post : List ν} {x y : ν}
    (h : Linked next front back (pre ++ y :: x :: post))
    (next' : ν → Option ν)
    (hx : next' x = none)
    (hy : next' y = next x)
    (heq : ∀ z, z ≠ x → z ≠ y → next' z = next z) :
    Linked next' front
      (if post = [] then some y else back)
      (pre ++ y :: post) := by
  have hnd := h.nodup
  have hsub : (pre ++ y :: post).Sublist (pre ++ y :: x :: post) :=
    List.Sublist.append_left
      (List.Sublist.cons_cons y (List.sublist_cons_self x post)) pre
  simp only [List.nodup_append, List.nodup_cons, List.mem_cons] at hnd
  obtain ⟨_, ⟨hy1, hx1, _⟩, hdisj⟩ := hnd
  refine ⟨?_, ?_, h.nodup.sublist hsub, ?_⟩
  · apply h.chain.unlink hy
    · intro z hz
      exact heq z (hdisj z hz x (Or.inr (Or.inl rfl)))
        (hdisj z hz y (Or.inl rfl))
    · intro z hz
      exact heq z (fun hzx => hx1 (hzx ▸ hz))
        (fun hzy => hy1 (Or.inr (hzy ▸ hz)))
  · cases post with
    | nil => simp
    | cons z post =>
        rw [h.back_eq]
        simp [List.getLast?_append, List.getLast?_cons_cons]
  · intro z hz
    by_cases hzx : z = x
    · rw [hzx, hx]
    · have hzy : z ≠ y := fun hzy => hz (by simp [hzy])
      rw [heq z hzx hzy]
      apply h.off
      simp only [List.mem_append, List.mem_cons, not_or] at hz ⊢
      exact ⟨hz.1, hz.2.1, hzx, hz.2.2⟩

/-- The last node is the only one without a link. -/
theorem Linked.next_eq_none_iff
    {x z : ν}
    (h : Linked next front (some x) l)
    (hz : z ∈ l) :
    next z = none ↔ z = x := by
  obtain ⟨l', rfl⟩ : ∃ l', l = l' ++ [x] :=
    List.getLast?_eq_some_iff.mp h.back_eq.symm
  exact h.chain.next_eq_none_iff hz h.nodup

/-- The back pointer is at a node exactly when nothing follows the node. -/
theorem Linked.back_eq_some_iff
    {pre post : List ν} {x : ν}
    (h : Linked next front back (pre ++ x :: post)) :
    back = some x ↔ post = [] := by
  rw [h.back_eq]
  constructor
  · intro hlast
    by_contra hpost
    obtain ⟨z, hz⟩ : ∃ z, post.getLast? = some z :=
      Option.ne_none_iff_exists'.mp
        (fun hnone => hpost (List.getLast?_eq_none_iff.mp hnone))
    have hxz : z = x := by
      simpa [List.getLast?_append, List.getLast?_cons, hz] using hlast
    have hnd := (List.nodup_append.mp h.nodup).2.1
    exact (List.nodup_cons.mp hnd).1 (hxz ▸ List.mem_of_getLast? hz)
  · rintro rfl
    simp

/-- A member that is not the front has a node before it. -/
theorem exists_predecessor
    {l : List ν} {x : ν}
    (hmem : x ∈ l)
    (hhead : l.head? ≠ some x) :
    ∃ pre y post, l = pre ++ y :: x :: post := by
  obtain ⟨s, t, rfl⟩ := List.append_of_mem hmem
  rcases List.eq_nil_or_concat s with rfl | ⟨pre, y, rfl⟩
  · simp at hhead
  · exact ⟨pre, y, t, by simp⟩

/-- A member other than the front is found by walking to the node before it. -/
theorem Linked.locate
    {f x : ν}
    (h : Linked next front back l)
    (hfront : front = some f)
    (hmem : x ∈ l)
    (hne : x ≠ f) :
    ∃ pre y post, l = pre ++ y :: x :: post ∧
      next y = some x ∧
      (back = some x ↔ post = []) ∧
      ∀ (stop : ν → Bool) (fuel : Nat), l.length ≤ fuel →
        stop x = true → (∀ z ∈ l, z ≠ x → stop z = false) →
        walkBefore next stop fuel f = .ok y := by
  have hhead : l.head? ≠ some x := by
    rw [← h.front_eq, hfront]
    simpa using fun heq => hne heq.symm
  obtain ⟨pre, y, post, rfl⟩ := exists_predecessor hmem hhead
  have hchain : Chain next (some f) (pre ++ y :: x :: post) :=
    hfront ▸ h.chain
  refine ⟨pre, y, post, rfl, hchain.next_eq, ?_, ?_⟩
  · have hsplit : Linked next front back ((pre ++ [y]) ++ x :: post) := by
      simpa using h
    exact hsplit.back_eq_some_iff
  · intro stop fuel hfuel hx hstop
    have hlen : pre.length < fuel := by
      simp only [List.length_append, List.length_cons] at hfuel
      omega
    apply hchain.walkBefore_eq hlen hx
    intro z hz
    have hnd : ((pre ++ [y]) ++ x :: post).Nodup := by
      simpa using h.nodup
    have hzx : z ≠ x := (List.nodup_append.mp hnd).2.2 z hz x (by simp)
    apply hstop z _ hzx
    simp only [List.mem_append, List.mem_cons] at hz ⊢
    tauto

end Queues

/-- Removing a member that has a node before it. -/
theorem erase_after
    [DecidableEq ν]
    {pre post : List ν} {x y : ν}
    (hnd : (pre ++ y :: x :: post).Nodup) :
    (pre ++ y :: x :: post).erase x = pre ++ y :: post := by
  have hdisj := (List.nodup_append.mp hnd).2.2
  have hpre : x ∉ pre := fun hx => hdisj x hx x (by simp) rfl
  have hyx : y ≠ x := by
    have := (List.nodup_append.mp hnd).2.1
    simp only [List.nodup_cons, List.mem_cons, not_or] at this
    exact this.1.1
  rw [List.erase_append_right _ hpre, List.erase_cons_tail (by simpa using hyx),
    List.erase_cons_head]

/-- A list of distinct numbers below `n` has at most `n` elements. -/
theorem length_le_of_nodup
    {l : List Nat} {n : Nat}
    (hnd : l.Nodup)
    (hlt : ∀ i ∈ l, i < n) :
    l.length ≤ n := by
  have hsub : l ⊆ List.range n :=
    fun i hi => List.mem_range.mpr (hlt i hi)
  simpa using (List.subperm_of_subset hnd hsub).length_le

end Links
end PastWork
