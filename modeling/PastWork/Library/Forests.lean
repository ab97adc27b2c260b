import PastWork.Library.Links

/-!
# Trees in child and sibling links

A node points to its first child, to its next sibling and to its parent.
`Planted` says that these links hold a tree with given child lists; every node
then has exactly one route from the root.  Two changes keep it: a new last child,
and the loss of a first child that has no children.
-/

namespace PastWork
namespace Forests

open Links

universe u

variable {ν : Type u}

/-- Nodes and their links. -/
structure Shape (ν : Type u) where
  root : ν
  live : ν → Prop
  first : ν → Option ν
  next : ν → Option ν
  up : ν → Option ν

inductive Link where
  | child
  | sibling
deriving DecidableEq

/-- A route from the root to a node, its last link first. -/
inductive Route (t : Shape ν) : List Link → ν → Prop
  | root :
      Route t [] t.root
  | child {r : List Link} {p a : ν}
      (hroute : Route t r p)
      (hlink : t.first p = some a) :
      Route t (.child :: r) a
  | sibling {r : List Link} {b a : ν}
      (hroute : Route t r b)
      (hlink : t.next b = some a) :
      Route t (.sibling :: r) a

/-- The links hold a tree with the child lists `kids`. -/
structure Planted
    (t : Shape ν) (kids : ν → List ν) (depth : ν → Nat) : Prop where
  root_live : t.live t.root
  root_next : t.next t.root = none
  chain : ∀ p, t.live p → Chain t.next (t.first p) (kids p)
  nodup : ∀ p, t.live p → (kids p).Nodup
  mem_iff : ∀ p a, t.live p →
    (a ∈ kids p ↔ t.live a ∧ a ≠ t.root ∧ t.up a = some p)
  up_live : ∀ a, t.live a → a ≠ t.root →
    ∃ p, t.up a = some p ∧ t.live p ∧ depth p < depth a

namespace Planted

variable {t : Shape ν} {kids : ν → List ν} {depth : ν → Nat}
variable {a b p z c : ν} {r r' : List Link}

/-- The parent of a node has it in its child list. -/
theorem exists_parent
    (h : Planted t kids depth)
    (ha : t.live a)
    (hne : a ≠ t.root) :
    ∃ p, t.up a = some p ∧ t.live p ∧ a ∈ kids p := by
  obtain ⟨p, hup, hp, _⟩ := h.up_live a ha hne
  exact ⟨p, hup, hp, (h.mem_iff p a hp).mpr ⟨ha, hne, hup⟩⟩

theorem first_eq
    (h : Planted t kids depth)
    (hp : t.live p) :
    t.first p = (kids p).head? :=
  (h.chain p hp).front_eq

theorem kids_eq_cons
    (h : Planted t kids depth)
    (hp : t.live p)
    (hfirst : t.first p = some a) :
    ∃ rest, kids p = a :: rest := by
  rw [h.first_eq hp] at hfirst
  exact List.head?_eq_some_iff.mp hfirst

/-- A node and its next sibling are neighbours in a child list. -/
theorem kids_eq_append
    (h : Planted t kids depth)
    (hb : t.live b)
    (hnext : t.next b = some a) :
    ∃ p pre post, t.live p ∧ t.up b = some p ∧
      kids p = pre ++ b :: a :: post := by
  have hne : b ≠ t.root := by
    intro heq
    rw [heq, h.root_next] at hnext
    cases hnext
  obtain ⟨p, hup, hp, hmem⟩ := h.exists_parent hb hne
  obtain ⟨pre, post, hkids⟩ := List.append_of_mem hmem
  have hchain := h.chain p hp
  have hnodup := h.nodup p hp
  cases post with
  | nil =>
      rw [hkids] at hchain hnodup hmem
      have hnone := (hchain.next_eq_none_iff hmem hnodup).mpr rfl
      rw [hnext] at hnone
      cases hnone
  | cons x post =>
      rw [hkids] at hchain
      obtain rfl : x = a :=
        Option.some_inj.mp (hchain.next_eq.symm.trans hnext)
      exact ⟨p, pre, post, hp, hup, hkids⟩

theorem live_of_route
    (h : Planted t kids depth)
    (hroute : Route t r a) :
    t.live a := by
  induction hroute with
  | root =>
      exact h.root_live
  | child _ hlink ih =>
      obtain ⟨rest, hkids⟩ := h.kids_eq_cons ih hlink
      exact ((h.mem_iff _ _ ih).mp (by simp [hkids])).1
  | sibling _ hlink ih =>
      obtain ⟨p, pre, post, hp, _, hkids⟩ := h.kids_eq_append ih hlink
      exact ((h.mem_iff p _ hp).mp (by simp [hkids])).1

/-- A first child is not the root, and its parent link leads back. -/
theorem of_first
    (h : Planted t kids depth)
    (hp : t.live p)
    (hfirst : t.first p = some a) :
    a ≠ t.root ∧ t.up a = some p := by
  obtain ⟨rest, hkids⟩ := h.kids_eq_cons hp hfirst
  exact ((h.mem_iff p a hp).mp (by simp [hkids])).2

theorem of_next
    (h : Planted t kids depth)
    (hb : t.live b)
    (hnext : t.next b = some a) :
    a ≠ t.root ∧ t.up a = t.up b := by
  obtain ⟨p, pre, post, hp, hup, hkids⟩ := h.kids_eq_append hb hnext
  obtain ⟨_, hne, hupa⟩ := (h.mem_iff p a hp).mp (by simp [hkids])
  exact ⟨hne, hupa.trans hup.symm⟩

/-- A first child is nobody's next sibling. -/
theorem next_ne_of_first
    (h : Planted t kids depth)
    (hp : t.live p)
    (hfirst : t.first p = some a)
    (hb : t.live b) :
    t.next b ≠ some a := by
  intro hnext
  obtain ⟨q, pre, post, hq, hup, hkids⟩ := h.kids_eq_append hb hnext
  have hsame := (h.of_next hb hnext).2.symm.trans (h.of_first hp hfirst).2
  obtain rfl : q = p := Option.some_inj.mp (hup.symm.trans hsame)
  obtain ⟨rest, hcons⟩ := h.kids_eq_cons hp hfirst
  have hnodup := h.nodup q hp
  rw [hkids] at hcons hnodup
  cases pre with
  | nil =>
      obtain ⟨rfl, _⟩ := List.cons.inj hcons
      simp at hnodup
  | cons x pre =>
      obtain ⟨rfl, _⟩ := List.cons.inj hcons
      simp at hnodup

/-- Two nodes with the same next sibling are the same. -/
theorem next_inj
    (h : Planted t kids depth)
    (hb : t.live b)
    (hc : t.live c)
    (hnext : t.next b = some a)
    (hnext' : t.next c = some a) :
    b = c := by
  obtain ⟨p, pre, post, hp, hup, hkids⟩ := h.kids_eq_append hb hnext
  obtain ⟨q, pre', post', hq, hup', hkids'⟩ := h.kids_eq_append hc hnext'
  have hsame := (h.of_next hb hnext).2.symm.trans (h.of_next hc hnext').2
  obtain rfl : p = q :=
    Option.some_inj.mp ((hup.symm.trans hsame).trans hup')
  have hnodup := h.nodup p hp
  rw [hkids] at hkids' hnodup
  have hsplit : (pre ++ [b]) ++ a :: post = (pre' ++ [c]) ++ a :: post' := by
    simpa using hkids'
  rw [List.append_cons, List.nodup_append] at hnodup
  obtain ⟨_, htail, hdisjoint⟩ := hnodup
  have hpre : a ∉ pre ++ [b] := fun ha => hdisjoint a ha a (by simp) rfl
  have hpost : a ∉ post := (List.nodup_cons.mp htail).1
  have hfront : pre ++ [b] = pre' ++ [c] :=
    ((List.append_cons_inj_of_notMem hpre hpost).mp hsplit).1
  simpa using (List.append_inj' hfront rfl).2

/-- A node has at most one route. -/
theorem route_unique
    (h : Planted t kids depth)
    (hr : Route t r a)
    (hr' : Route t r' a) :
    r = r' := by
  induction hr generalizing r' with
  | root =>
      cases hr' with
      | root =>
          rfl
      | child hroute hlink =>
          exact absurd rfl (h.of_first (h.live_of_route hroute) hlink).1
      | sibling hroute hlink =>
          exact absurd rfl (h.of_next (h.live_of_route hroute) hlink).1
  | @child r p a hroute hlink ih =>
      have hp := h.live_of_route hroute
      cases hr' with
      | root =>
          exact absurd rfl (h.of_first hp hlink).1
      | @child _ q _ hroute' hlink' =>
          have hq := h.live_of_route hroute'
          have hup := (h.of_first hp hlink).2
          rw [(h.of_first hq hlink').2] at hup
          obtain rfl := Option.some_inj.mp hup
          rw [ih hroute']
      | sibling hroute' hlink' =>
          exact absurd hlink'
            (h.next_ne_of_first hp hlink (h.live_of_route hroute'))
  | @sibling r b a hroute hlink ih =>
      have hb := h.live_of_route hroute
      cases hr' with
      | root =>
          exact absurd rfl (h.of_next hb hlink).1
      | child hroute' hlink' =>
          exact absurd hlink
            (h.next_ne_of_first (h.live_of_route hroute') hlink' hb)
      | @sibling _ c _ hroute' hlink' =>
          obtain rfl :=
            h.next_inj hb (h.live_of_route hroute') hlink hlink'
          rw [ih hroute']

/-- The members of a chain have routes when its start has. -/
theorem exists_route_of_chain
    {q : Option ν} {l : List ν}
    (hchain : Chain t.next q l)
    (hq : ∀ x, q = some x → ∃ r, Route t r x)
    (ha : a ∈ l) :
    ∃ r, Route t r a := by
  induction l generalizing q with
  | nil =>
      cases ha
  | cons x l ih =>
      obtain ⟨hx, htail⟩ := chain_cons.mp hchain
      obtain ⟨r, hr⟩ := hq x hx
      rcases List.mem_cons.mp ha with rfl | ha
      · exact ⟨r, hr⟩
      · exact ih htail (fun y hy => ⟨_, .sibling hr hy⟩) ha

theorem exists_route
    (h : Planted t kids depth)
    (ha : t.live a) :
    ∃ r, Route t r a := by
  generalize hn : depth a = n
  induction n using Nat.strong_induction_on generalizing a with
  | _ n ih =>
      by_cases hroot : a = t.root
      · exact ⟨[], hroot ▸ .root⟩
      · obtain ⟨p, hup, hp, hlt⟩ := h.up_live a ha hroot
        obtain ⟨r, hr⟩ := ih (depth p) (hn ▸ hlt) hp rfl
        exact exists_route_of_chain (h.chain p hp)
          (fun x hx => ⟨_, .child hr hx⟩)
          ((h.mem_iff p a hp).mpr ⟨ha, hroot, hup⟩)

/-- In a tree every node has exactly one route. -/
theorem exists_unique_route
    (h : Planted t kids depth)
    (ha : t.live a) :
    ∃! r, Route t r a := by
  obtain ⟨r, hr⟩ := h.exists_route ha
  exact ⟨r, hr, fun r' hr' => h.route_unique hr' hr⟩

end Planted

/-- `t'` is `t` with the new node `z` behind the children `l` of `p`. -/
structure Grafted (t t' : Shape ν) (l : List ν) (p z : ν) : Prop where
  root : t'.root = t.root
  live : ∀ q, t'.live q ↔ t.live q ∨ q = z
  up : ∀ q, t.live q → t'.up q = t.up q
  up_new : t'.up z = some p
  first : ∀ q, t.live q → q ≠ p → t'.first q = t.first q
  first_parent : t'.first p = (l ++ [z]).head?
  first_new : t'.first z = none
  next : ∀ q, t.live q → l.getLast? ≠ some q → t'.next q = t.next q
  next_last : ∀ q, l.getLast? = some q → t'.next q = some z
  next_new : t'.next z = none

/-- `t'` is `t` without the first child `c` of `p`. -/
structure Pruned (t t' : Shape ν) (p c : ν) : Prop where
  root : t'.root = t.root
  live : ∀ q, t'.live q ↔ t.live q ∧ q ≠ c
  up : ∀ q, q ≠ c → t'.up q = t.up q
  next : ∀ q, q ≠ c → t'.next q = t.next q
  first : ∀ q, q ≠ c → q ≠ p → t'.first q = t.first q
  first_parent : t'.first p = t.next c

namespace Planted

variable {t t' : Shape ν} {kids : ν → List ν} {depth : ν → Nat}
variable {a p q z c : ν} {rest : List ν}

theorem kid_live
    (h : Planted t kids depth)
    (hp : t.live p)
    (ha : a ∈ kids p) :
    t.live a :=
  ((h.mem_iff p a hp).mp ha).1

/-- No node is in two child lists. -/
theorem parent_unique
    (h : Planted t kids depth)
    (hp : t.live p)
    (hq : t.live q)
    (ha : a ∈ kids p)
    (ha' : a ∈ kids q) :
    p = q := by
  have hup := ((h.mem_iff p a hp).mp ha).2.2
  have hup' := ((h.mem_iff q a hq).mp ha').2.2
  exact Option.some_inj.mp (hup.symm.trans hup')

theorem parent_ne
    (h : Planted t kids depth)
    (hp : t.live p)
    (hc : c ∈ kids p) :
    p ≠ c := by
  rintro rfl
  obtain ⟨hlive, hroot, hup⟩ := (h.mem_iff p p hp).mp hc
  obtain ⟨x, hx, _, hlt⟩ := h.up_live p hlive hroot
  rw [hup] at hx
  cases hx
  exact lt_irrefl _ hlt

section Graft

/-- The child list that grows. -/
theorem graft_chain_parent
    (h : Planted t kids depth)
    (hg : Grafted t t' (kids p) p z)
    (hp : t.live p) :
    Chain t'.next (t'.first p) (kids p ++ [z]) := by
  rw [hg.first_parent]
  cases hkids : kids p using List.reverseRecOn with
  | nil =>
      simpa using hg.next_new
  | append_singleton l y =>
      have hchain := h.chain p hp
      have hlast : (kids p).getLast? = some y := by simp [hkids]
      rw [h.first_eq hp, hkids] at hchain
      have hpush := hchain.push hg.next_new (hg.next_last y hlast) ?_
      · simpa using hpush
      · intro x hx
        apply hg.next x (h.kid_live hp (by simp [hkids, hx]))
        intro hxlast
        have hnodup := h.nodup p hp
        rw [hkids, List.nodup_append] at hnodup
        have hxy : y = x := Option.some_inj.mp (hlast.symm.trans hxlast)
        exact hnodup.2.2 x hx y (by simp) hxy.symm

/-- The other child lists stay. -/
theorem graft_chain
    (h : Planted t kids depth)
    (hg : Grafted t t' (kids p) p z)
    (hp : t.live p)
    (hq : t.live q)
    (hqp : q ≠ p) :
    Chain t'.next (t'.first q) (kids q) := by
  rw [hg.first q hq hqp]
  refine (h.chain q hq).congr ?_
  intro x hx
  apply hg.next x (h.kid_live hq hx)
  intro hlast
  exact hqp (h.parent_unique hq hp hx (List.mem_of_getLast? hlast))

theorem graft_mem_iff
    [DecidableEq ν]
    (h : Planted t kids depth)
    (hg : Grafted t t' (kids p) p z)
    (hz : ¬ t.live z)
    (hq : t.live q)
    (a : ν) :
    a ∈ (if q = p then kids p ++ [z] else kids q) ↔
      t'.live a ∧ a ≠ t'.root ∧ t'.up a = some q := by
  rw [hg.live, hg.root]
  by_cases haz : a = z
  · subst haz
    have hroot : a ≠ t.root := fun heq => hz (heq ▸ h.root_live)
    rw [hg.up_new]
    by_cases hqp : q = p
    · simp [hqp, hroot]
    · have hnot : a ∉ kids q := fun hmem => hz (h.kid_live hq hmem)
      simp [hqp, hnot, Ne.symm hqp]
  · have hsame : a ∈ (if q = p then kids p ++ [z] else kids q) ↔
        a ∈ kids q := by
      split
      next hqp => simp [hqp, haz]
      next => rfl
    rw [hsame, h.mem_iff q a hq]
    constructor
    · rintro ⟨ha, hroot, hup⟩
      exact ⟨.inl ha, hroot, (hg.up a ha).trans hup⟩
    · rintro ⟨ha | ha, hroot, hup⟩
      · exact ⟨ha, hroot, (hg.up a ha).symm.trans hup⟩
      · exact absurd ha haz

/-- Nothing is below the new node. -/
theorem graft_up_ne
    (h : Planted t kids depth)
    (hg : Grafted t t' (kids p) p z)
    (hp : t.live p)
    (hz : ¬ t.live z)
    (ha : t'.live a)
    (hroot : a ≠ t.root) :
    t'.up a ≠ some z := by
  intro hup
  rcases (hg.live a).mp ha with ha | rfl
  · obtain ⟨x, hx, hxlive, _⟩ := h.up_live a ha hroot
    rw [hg.up a ha, hx] at hup
    exact hz (Option.some_inj.mp hup ▸ hxlive)
  · rw [hg.up_new] at hup
    exact hz (Option.some_inj.mp hup ▸ hp)

/-- A tree with a new last child is a tree. -/
theorem graft
    [DecidableEq ν]
    (h : Planted t kids depth)
    (hg : Grafted t t' (kids p) p z)
    (hp : t.live p)
    (hz : ¬ t.live z) :
    Planted t'
      (fun q => if q = z then [] else if q = p then kids p ++ [z] else kids q)
      (fun q => if q = z then depth p + 1 else depth q) := by
  have hne : ∀ q, t.live q → q ≠ z := fun q hq heq => hz (heq ▸ hq)
  refine ⟨?_, ?_, ?_, ?_, ?_, ?_⟩
  · rw [hg.root, hg.live]
    exact .inl h.root_live
  · rw [hg.root, hg.next _ h.root_live]
    · exact h.root_next
    · intro hlast
      have hmem := List.mem_of_getLast? hlast
      exact ((h.mem_iff p _ hp).mp hmem).2.1 rfl
  · intro q hq
    rcases (hg.live q).mp hq with hq | rfl
    · rw [if_neg (hne q hq)]
      split
      next hqp =>
        rw [hqp]
        exact h.graft_chain_parent hg hp
      next hqp =>
        exact h.graft_chain hg hp hq hqp
    · rw [if_pos rfl, hg.first_new]
      rfl
  · intro q hq
    rcases (hg.live q).mp hq with hq | rfl
    · rw [if_neg (hne q hq)]
      split
      next =>
        refine (h.nodup p hp).append (List.nodup_singleton z) ?_
        simpa using fun hmem => hz (h.kid_live hp hmem)
      next =>
        exact h.nodup q hq
    · simp
  · intro q a hq
    rcases (hg.live q).mp hq with hq | rfl
    · rw [if_neg (hne q hq)]
      exact h.graft_mem_iff hg hz hq a
    · rw [if_pos rfl]
      constructor
      · intro hmem
        cases hmem
      · rintro ⟨ha, hroot, hup⟩
        exact absurd hup (h.graft_up_ne hg hp hz ha (hg.root ▸ hroot))
  · intro a ha hroot
    rw [hg.root] at hroot
    rcases (hg.live a).mp ha with ha | rfl
    · obtain ⟨x, hx, hxlive, hlt⟩ := h.up_live a ha hroot
      refine ⟨x, (hg.up a ha).trans hx, (hg.live x).mpr (.inl hxlive), ?_⟩
      rw [if_neg (hne x hxlive), if_neg (hne a ha)]
      exact hlt
    · refine ⟨p, hg.up_new, (hg.live p).mpr (.inl hp), ?_⟩
      rw [if_neg (hne p hp), if_pos rfl]
      exact Nat.lt_succ_self _

end Graft

section Prune

/-- Nothing is below a node without children. -/
theorem up_ne_of_leaf
    (h : Planted t kids depth)
    (hc : t.live c)
    (hleaf : t.first c = none)
    (ha : t.live a)
    (hroot : a ≠ t.root) :
    t.up a ≠ some c := by
  intro hup
  have hmem := (h.mem_iff c a hc).mpr ⟨ha, hroot, hup⟩
  have hhead := h.first_eq hc
  rw [hleaf] at hhead
  rw [List.head?_eq_none_iff.mp hhead.symm] at hmem
  cases hmem

/-- The child list without its first member, and the others. -/
theorem prune_chain
    [DecidableEq ν]
    (h : Planted t kids depth)
    (hg : Pruned t t' p c)
    (hp : t.live p)
    (hkids : kids p = c :: rest)
    (hq : t.live q)
    (hqc : q ≠ c) :
    Chain t'.next (t'.first q) (if q = p then rest else kids q) := by
  have hc : c ∈ kids p := by simp [hkids]
  split
  next hqp =>
    subst hqp
    have hchain := h.chain q hp
    have hnodup := h.nodup q hp
    rw [hkids] at hchain hnodup
    rw [hg.first_parent]
    refine (chain_cons.mp hchain).2.congr ?_
    intro x hx
    exact hg.next x (fun heq => (List.nodup_cons.mp hnodup).1 (heq ▸ hx))
  next hqp =>
    rw [hg.first q hqc hqp]
    refine (h.chain q hq).congr ?_
    intro x hx
    exact hg.next x (fun heq => hqp (h.parent_unique hq hp (heq ▸ hx) hc))

theorem prune_mem_iff
    [DecidableEq ν]
    (h : Planted t kids depth)
    (hg : Pruned t t' p c)
    (hp : t.live p)
    (hkids : kids p = c :: rest)
    (hq : t.live q)
    (a : ν) :
    a ∈ (if q = p then rest else kids q) ↔
      t'.live a ∧ a ≠ t'.root ∧ t'.up a = some q := by
  have hc : c ∈ kids p := by simp [hkids]
  rw [hg.live, hg.root]
  by_cases hac : a = c
  · subst hac
    have hnodup := h.nodup p hp
    rw [hkids] at hnodup
    have hnot : a ∉ (if q = p then rest else kids q) := by
      split
      next => exact (List.nodup_cons.mp hnodup).1
      next hqp => exact fun hmem => hqp (h.parent_unique hq hp hmem hc)
    simp [hnot]
  · have hsame : a ∈ (if q = p then rest else kids q) ↔ a ∈ kids q := by
      split
      next hqp => simp [hqp, hkids, hac]
      next => rfl
    rw [hsame, h.mem_iff q a hq, hg.up a hac]
    simp [hac]

/-- A tree without a first child that has no children is a tree. -/
theorem prune
    [DecidableEq ν]
    (h : Planted t kids depth)
    (hg : Pruned t t' p c)
    (hp : t.live p)
    (hkids : kids p = c :: rest)
    (hleaf : t.first c = none) :
    Planted t' (fun q => if q = p then rest else kids q) depth := by
  obtain ⟨hc, hroot, _⟩ := (h.mem_iff p c hp).mp (by simp [hkids])
  refine ⟨?_, ?_, ?_, ?_, ?_, ?_⟩
  · rw [hg.root, hg.live]
    exact ⟨h.root_live, hroot.symm⟩
  · rw [hg.root, hg.next _ hroot.symm]
    exact h.root_next
  · intro q hq
    obtain ⟨hq, hqc⟩ := (hg.live q).mp hq
    exact h.prune_chain hg hp hkids hq hqc
  · intro q hq
    obtain ⟨hq, _⟩ := (hg.live q).mp hq
    split
    next =>
      have hnodup := h.nodup p hp
      rw [hkids] at hnodup
      exact (List.nodup_cons.mp hnodup).2
    next =>
      exact h.nodup q hq
  · intro q a hq
    exact h.prune_mem_iff hg hp hkids ((hg.live q).mp hq).1 a
  · intro a ha hroota
    rw [hg.root] at hroota
    obtain ⟨ha, hac⟩ := (hg.live a).mp ha
    obtain ⟨x, hx, hxlive, hlt⟩ := h.up_live a ha hroota
    have hxc : x ≠ c := fun heq =>
      h.up_ne_of_leaf hc hleaf ha hroota (heq ▸ hx)
    exact ⟨x, (hg.up a hac).trans hx, (hg.live x).mpr ⟨hxlive, hxc⟩, hlt⟩

end Prune

end Planted

end Forests
end PastWork
