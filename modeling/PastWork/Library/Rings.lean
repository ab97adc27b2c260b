import PastWork.Library.Faults

/-!
# Rings of doubly linked nodes

Lists in the style of the Linux kernel: a head and the nodes of the list form a
ring, and every node has a link in both directions.  `Ring l head xs` says that
`xs` are the nodes after the head, in this order.

The last section is the loop that may delete the node it is at: it has read the
link of that node before.
-/

namespace PastWork
namespace Rings

universe u

variable {ν : Type u}

/-- The `struct list_head` of every node. -/
structure Heads (ν : Type u) where
  next : ν → ν
  prev : ν → ν

namespace Heads

section Operations

variable [DecidableEq ν]

def setNext (l : Heads ν) (a b : ν) : Heads ν :=
  { l with next := Function.update l.next a b }

def setPrev (l : Heads ν) (a b : ν) : Heads ν :=
  { l with prev := Function.update l.prev a b }

/-- `INIT_LIST_HEAD(a)` -/
def init (l : Heads ν) (a : ν) : Heads ν :=
  (l.setNext a a).setPrev a a

/-- `__list_add(new, prev, next)` -/
def insert (l : Heads ν) (new prev next : ν) : Heads ν :=
  (((l.setPrev next new).setNext new next).setPrev new prev).setNext prev new

/-- `list_add(new, head)` -/
def add (l : Heads ν) (new head : ν) : Heads ν :=
  l.insert new head (l.next head)

/-- `list_del(entry)`, with what it leaves in the links of the entry. -/
def del (l : Heads ν) (entry poison₁ poison₂ : ν) : Heads ν :=
  (((l.setPrev (l.next entry) (l.prev entry)).setNext (l.prev entry)
    (l.next entry)).setNext entry poison₁).setPrev entry poison₂

@[simp] theorem setNext_next
    (l : Heads ν) (a b : ν) :
    (l.setNext a b).next = Function.update l.next a b := by
  rfl

@[simp] theorem setNext_prev
    (l : Heads ν) (a b : ν) :
    (l.setNext a b).prev = l.prev := by
  rfl

@[simp] theorem setPrev_prev
    (l : Heads ν) (a b : ν) :
    (l.setPrev a b).prev = Function.update l.prev a b := by
  rfl

@[simp] theorem setPrev_next
    (l : Heads ν) (a b : ν) :
    (l.setPrev a b).next = l.next := by
  rfl

/-- The `next` of another node after a deletion. -/
theorem del_next
    {entry z : ν}
    (l : Heads ν) (poison₁ poison₂ : ν)
    (hz : z ≠ entry) :
    (l.del entry poison₁ poison₂).next z =
      if z = l.prev entry then l.next entry else l.next z := by
  simp [del, Function.update_apply, hz]

/-- The `prev` of another node after a deletion. -/
theorem del_prev
    {entry z : ν}
    (l : Heads ν) (poison₁ poison₂ : ν)
    (hz : z ≠ entry) :
    (l.del entry poison₁ poison₂).prev z =
      if z = l.next entry then l.prev entry else l.prev z := by
  simp [del, Function.update_apply, hz]

end Operations

/-- The nodes between `a` and `b`, linked both ways. -/
def Path (l : Heads ν) : ν → List ν → ν → Prop
  | a, [], b => l.next a = b ∧ l.prev b = a
  | a, x :: xs, b => (l.next a = x ∧ l.prev x = a) ∧ Path l x xs b

end Heads

open Heads

section Paths

variable {l l' : Heads ν} {a b x : ν} {xs ys : List ν}

theorem path_append :
    l.Path a (xs ++ x :: ys) b ↔ l.Path a xs x ∧ l.Path x ys b := by
  induction xs generalizing a with
  | nil =>
      rfl
  | cons y xs ih =>
      simp only [List.cons_append, Heads.Path, ih, and_assoc]

/-- A path depends on its own links only. -/
theorem path_congr
    (hnext : ∀ y ∈ a :: xs, l'.next y = l.next y)
    (hprev : ∀ y ∈ xs ++ [b], l'.prev y = l.prev y)
    (h : l.Path a xs b) :
    l'.Path a xs b := by
  induction xs generalizing a with
  | nil =>
      refine ⟨?_, ?_⟩
      · rw [hnext a (by simp)]
        exact h.1
      · rw [hprev b (by simp)]
        exact h.2
  | cons y xs ih =>
      refine ⟨⟨?_, ?_⟩, ih ?_ ?_ h.2⟩
      · rw [hnext a (by simp)]
        exact h.1.1
      · rw [hprev y (by simp)]
        exact h.1.2
      · intro z hz
        exact hnext z (List.mem_cons_of_mem a hz)
      · intro z hz
        exact hprev z (by simp_all)

theorem next_of_path
    (h : l.Path a xs b) :
    l.next a = xs.headD b := by
  cases xs with
  | nil => exact h.1
  | cons y xs => exact h.1.1

/-- The node before the end of a path is on it. -/
theorem prev_mem_of_path
    (h : l.Path a xs b) :
    l.prev b ∈ a :: xs := by
  induction xs generalizing a with
  | nil =>
      rw [h.2]
      exact List.mem_cons_self
  | cons y xs ih =>
      exact List.mem_cons_of_mem a (ih h.2)

/-- The nodes on the way to `b` can be read off. -/
theorem path_unique
    (hxs : l.Path a xs b) (hys : l.Path a ys b)
    (hbx : b ∉ xs) (hby : b ∉ ys) :
    xs = ys := by
  have hnext := (next_of_path hxs).symm.trans (next_of_path hys)
  induction xs generalizing a ys with
  | nil =>
      cases ys with
      | nil => rfl
      | cons y ys =>
          rw [List.headD_nil, List.headD_cons] at hnext
          exact absurd (hnext ▸ List.mem_cons_self) hby
  | cons x xs ih =>
      cases ys with
      | nil =>
          rw [List.headD_nil, List.headD_cons] at hnext
          exact absurd (hnext ▸ List.mem_cons_self) hbx
      | cons y ys =>
          obtain rfl : x = y := hnext
          rw [ih hxs.2 hys.2 (fun h => hbx (List.mem_cons_of_mem x h))
            (fun h => hby (List.mem_cons_of_mem x h))
            ((next_of_path hxs.2).symm.trans (next_of_path hys.2))]

theorem headD_mem
    (xs : List ν) (b : ν) :
    xs.headD b ∈ xs ++ [b] := by
  cases xs <;> simp

end Paths

/-- The head and the nodes `xs` form a ring. -/
structure Ring (l : Heads ν) (head : ν) (xs : List ν) : Prop where
  path : l.Path head xs head
  nodup : (head :: xs).Nodup

section Editing

variable [DecidableEq ν] {l : Heads ν} {a b x new head : ν} {xs ys : List ν}

theorem init_congr
    (h : Ring l head xs)
    (hnew : new ∉ head :: xs) :
    Ring (l.init new) head xs where
  path := by
    refine path_congr ?_ ?_ h.path
    · intro y hy
      have hne : y ≠ new := fun heq => hnew (heq ▸ hy)
      simp [init, Function.update_of_ne hne]
    · intro y hy
      have hmem : y ∈ head :: xs := by
        simp only [List.mem_append, List.mem_singleton] at hy
        exact List.mem_cons.mpr hy.symm
      have hne : y ≠ new := fun heq => hnew (heq ▸ hmem)
      simp [init, Function.update_of_ne hne]
  nodup := h.nodup

/-- A new node after the head. -/
theorem Ring.add
    (h : Ring l head xs)
    (hnew : new ∉ head :: xs) :
    Ring (l.add new head) head (new :: xs) where
  path := by
    have hne : head ≠ new := fun heq => hnew (heq ▸ List.mem_cons_self)
    have hfirst := next_of_path h.path
    cases xs with
    | nil =>
        simp only [List.headD_nil] at hfirst
        simp [Heads.Path, Heads.add, Heads.insert, hfirst, hne, hne.symm]
    | cons x xs =>
        simp only [List.headD_cons] at hfirst
        simp only [List.mem_cons, not_or] at hnew
        have hnodup := h.nodup
        simp only [List.nodup_cons, List.mem_cons, not_or] at hnodup
        refine ⟨?_, ?_, ?_⟩
        · simp [Heads.add, Heads.insert]
        · simp [Heads.add, Heads.insert, hfirst, hne.symm, Ne.symm hnew.2.1]
        · refine path_congr ?_ ?_ h.path.2
          · intro y hy
            have hhead : y ≠ head := by
              rintro rfl
              simp_all
            have hnew' : y ≠ new := by
              rintro rfl
              simp_all
            simp [Heads.add, Heads.insert, Function.update_of_ne hhead,
              Function.update_of_ne hnew']
          · intro y hy
            have hx : y ≠ x := by
              rintro rfl
              simp_all
            have hnew' : y ≠ new := by
              rintro rfl
              simp_all
            simp [Heads.add, Heads.insert, hfirst, Function.update_of_ne hx,
              Function.update_of_ne hnew']
  nodup := by
    rw [List.mem_cons, not_or] at hnew
    have hnodup := List.nodup_cons.mp h.nodup
    refine List.nodup_cons.mpr ⟨?_, List.nodup_cons.mpr ⟨hnew.2, hnodup.2⟩⟩
    rw [List.mem_cons, not_or]
    exact ⟨Ne.symm hnew.1, hnodup.1⟩

/-- The links of the two neighbours after a deletion. -/
theorem path_del
    {p q : ν}
    (hxs : l.Path a xs x)
    (hys : l.Path x ys b)
    (hnodup : (a :: xs ++ x :: ys).Nodup)
    (hb : b ∉ xs ++ x :: ys) :
    (l.del x p q).Path a (xs ++ ys) b := by
  have hnext := next_of_path hys
  have hbx : b ≠ x := by
    rintro rfl
    simp at hb
  induction xs generalizing a with
  | nil =>
      have hprev : l.prev x = a := hxs.2
      rw [List.nil_append] at hb ⊢
      obtain ⟨ha, hnodup'⟩ := List.nodup_cons.mp hnodup
      have hxys := (List.nodup_cons.mp hnodup').1
      have hax : a ≠ x := fun heq => ha (heq ▸ List.mem_cons_self)
      have hnext_a : (l.del x p q).next a = l.next x := by
        rw [Heads.del_next l p q hax, hprev, if_pos rfl]
      have hprev_next : l.next x ≠ x →
          (l.del x p q).prev (l.next x) = a := by
        intro hne
        rw [Heads.del_prev l p q hne, if_pos rfl, hprev]
      cases ys with
      | nil =>
          rw [List.headD_nil] at hnext
          rw [hnext] at hnext_a hprev_next
          exact ⟨hnext_a, hprev_next hbx⟩
      | cons y ys =>
          rw [List.headD_cons] at hnext
          rw [hnext] at hnext_a hprev_next
          have hyx : y ≠ x := fun heq => hxys (heq ▸ List.mem_cons_self)
          refine ⟨⟨hnext_a, hprev_next hyx⟩, path_congr ?_ ?_ hys.2⟩
          · intro z hz
            have hzx : z ≠ x := fun heq => hxys (heq ▸ hz)
            have hza : z ≠ a := fun heq =>
              ha (heq ▸ List.mem_cons_of_mem x hz)
            rw [Heads.del_next l p q hzx, hprev, if_neg hza]
          · intro z hz
            have hzx : z ≠ x := by
              rintro rfl
              simp_all
            have hzy : z ≠ y := by
              rintro rfl
              simp_all
            rw [Heads.del_prev l p q hzx, hnext, if_neg hzy]
  | cons z zs ih =>
      have hprev := prev_mem_of_path hxs.2
      have hlast := headD_mem ys b
      rw [← hnext] at hlast
      have hax : a ≠ x := by
        rintro rfl
        simp at hnodup
      have hap : a ≠ l.prev x := by
        intro heq
        rw [← heq] at hprev
        simp_all
      have hzx : z ≠ x := by
        rintro rfl
        simp at hnodup
      have hzn : z ≠ l.next x := by
        intro heq
        rw [← heq] at hlast
        simp_all
      refine ⟨⟨?_, ?_⟩, ih hxs.2 ?_ ?_⟩
      · rw [Heads.del_next l p q hax, if_neg hap, hxs.1.1]
      · rw [Heads.del_prev l p q hzx, if_neg hzn, hxs.1.2]
      · exact (List.nodup_cons.mp hnodup).2
      · exact fun hmem => hb (List.mem_cons_of_mem z hmem)

/-- A node in between is unlinked. -/
theorem Ring.del
    {p q : ν}
    (h : Ring l head (xs ++ x :: ys)) :
    Ring (l.del x p q) head (xs ++ ys) where
  path := by
    obtain ⟨hxs, hys⟩ := path_append.mp h.path
    exact path_del hxs hys h.nodup (List.nodup_cons.mp h.nodup).1
  nodup := by
    refine h.nodup.sublist (List.Sublist.cons_cons head ?_)
    exact List.Sublist.append_left (List.sublist_cons_self x ys) xs

end Editing

section Reading

variable {l : Heads ν} {x head : ν} {xs ys : List ν}

theorem Ring.unique
    (h : Ring l head xs) (h' : Ring l head ys) :
    xs = ys :=
  path_unique h.path h'.path (List.nodup_cons.mp h.nodup).1
    (List.nodup_cons.mp h'.nodup).1

theorem Ring.next_head
    (h : Ring l head xs) :
    l.next head = xs.headD head :=
  next_of_path h.path

theorem Ring.next_node
    (h : Ring l head (xs ++ x :: ys)) :
    l.next x = ys.headD head :=
  next_of_path (path_append.mp h.path).2

theorem Ring.prev_mem
    (h : Ring l head (xs ++ x :: ys)) :
    l.prev x ∈ head :: xs :=
  prev_mem_of_path (path_append.mp h.path).1

end Reading

section Traversal

variable {ν σ : Type} [DecidableEq ν]

/-- `list_for_each_entry_safe(cur, temp, head, ...)` from the nodes `cur` and
`temp` on; `link` reads the `next` of a node, and `.done` is a `return` from the
body. -/
def forEachFrom
    (link : σ → ν → Result ν) (head : ν)
    (body : ν → σ → Result (ForInStep σ)) :
    Nat → ν → ν → σ → Result (ForInStep σ)
  | 0, _, _, _ => .error .endless
  | fuel + 1, cur, temp, s =>
      if cur = head then
        .ok (.yield s)
      else do
        match ← body cur s with
        | .done s => .ok (.done s)
        | .yield s => do
            let after ← link s temp
            forEachFrom link head body fuel temp after s

def forEach
    (link : σ → ν → Result ν) (head : ν)
    (body : ν → σ → Result (ForInStep σ)) (fuel : Nat) (s : σ) :
    Result (ForInStep σ) := do
  let cur ← link s head
  let temp ← link s cur
  forEachFrom link head body fuel cur temp s

variable {link : σ → ν → Result ν} {head : ν}
  {body : ν → σ → Result (ForInStep σ)}

/-- What has to hold before the rounds that visit the nodes `ys`, and after a
`return`. -/
structure Visits
    (link : σ → ν → Result ν) (head : ν)
    (body : ν → σ → Result (ForInStep σ))
    (I : List ν → σ → Prop) (Q : ForInStep σ → Prop) : Prop where
  read : ∀ y ys s, I (y :: ys) s →
    y ≠ head ∧ link s y = .ok (ys.headD head)
  round : ∀ y ys s, I (y :: ys) s →
    (∃ s', body y s = .ok (.done s') ∧ Q (.done s')) ∨
      ∃ s', body y s = .ok (.yield s') ∧ I ys s'
  last : ∀ s, I [] s → (∃ n, link s head = .ok n) ∧ Q (.yield s)

theorem forEachFrom_outcome
    {I : List ν → σ → Prop} {Q : ForInStep σ → Prop}
    (h : Visits link head body I Q)
    {ys : List ν} {s : σ} {temp : ν}
    (hI : I ys s)
    (htemp : ∀ y zs, ys = y :: zs → temp = zs.headD head)
    (fuel : Nat) :
    (∃ r, forEachFrom link head body fuel (ys.headD head) temp s = .ok r ∧ Q r) ∨
      fuel ≤ ys.length ∧
        forEachFrom link head body fuel (ys.headD head) temp s = .error .endless := by
  induction fuel generalizing ys s temp with
  | zero =>
      exact .inr ⟨Nat.zero_le _, rfl⟩
  | succ fuel ih =>
      cases ys with
      | nil =>
          rw [List.headD_nil, forEachFrom, if_pos rfl]
          exact .inl ⟨_, rfl, (h.last s hI).2⟩
      | cons y zs =>
          have htemp := htemp y zs rfl
          obtain ⟨hne, _⟩ := h.read y zs s hI
          rw [List.headD_cons, forEachFrom, if_neg hne]
          rcases h.round y zs s hI with ⟨s', hbody, hQ⟩ | ⟨s', hbody, hI'⟩
          · rw [hbody]
            exact .inl ⟨_, rfl, hQ⟩
          · have hafter : ∃ after, link s' temp = .ok after ∧
                ∀ z us, zs = z :: us → after = us.headD head := by
              cases zs with
              | nil =>
                  obtain ⟨n, hn⟩ := (h.last s' hI').1
                  refine ⟨n, htemp ▸ hn, ?_⟩
                  intro z us heq
                  cases heq
              | cons z us =>
                  refine ⟨us.headD head, htemp ▸ (h.read z us s' hI').2, ?_⟩
                  rintro _ _ ⟨⟩
                  rfl
            obtain ⟨after, hlink, hafter⟩ := hafter
            rw [hbody, htemp]
            rw [htemp] at hlink
            simp only [Result.ok_bind, hlink]
            have hrest := ih hI' hafter
            rw [List.length_cons, Nat.succ_le_succ_iff]
            exact hrest

/-- The loop ends as `Visits` says, or its fuel is used up. -/
theorem forEach_outcome
    {I : List ν → σ → Prop} {Q : ForInStep σ → Prop}
    (h : Visits link head body I Q)
    {ys : List ν} {s : σ}
    (hI : I ys s)
    (hfirst : link s head = .ok (ys.headD head))
    (fuel : Nat) :
    (∃ r, forEach link head body fuel s = .ok r ∧ Q r) ∨
      fuel ≤ ys.length ∧ forEach link head body fuel s = .error .endless := by
  have htemp : ∃ temp, link s (ys.headD head) = .ok temp ∧
      ∀ y zs, ys = y :: zs → temp = zs.headD head := by
    cases ys with
    | nil =>
        refine ⟨head, hfirst, ?_⟩
        intro y zs heq
        cases heq
    | cons y zs =>
        refine ⟨zs.headD head, (h.read y zs s hI).2, ?_⟩
        rintro _ _ ⟨⟩
        rfl
  obtain ⟨temp, hlink, htemp⟩ := htemp
  rw [forEach, hfirst, Result.ok_bind, hlink, Result.ok_bind]
  exact forEachFrom_outcome h hI htemp fuel

/-- The rule of the loop: it ends as `Visits` says, and with enough fuel it does
end. -/
theorem forEach_rule
    {I : List ν → σ → Prop} {Q : ForInStep σ → Prop}
    (h : Visits link head body I Q)
    {ys : List ν} {s : σ}
    (hI : I ys s)
    (hfirst : link s head = .ok (ys.headD head))
    (fuel : Nat) :
    (forEach link head body fuel s).Ensures Q ∧
      (ys.length < fuel → ∃ r, forEach link head body fuel s = .ok r) := by
  rcases forEach_outcome h hI hfirst fuel with ⟨r, hr, hQ⟩ | ⟨hfuel, hr⟩
  · rw [hr]
    exact ⟨Result.ensures_ok.mpr hQ, fun _ => ⟨r, rfl⟩⟩
  · rw [hr]
    exact ⟨Result.ensures_error, fun hlt => absurd hlt (Nat.not_lt.mpr hfuel)⟩

/-- What the rounds that visit the nodes of `as` come to, when they may stop at a
fault. -/
structure Computes {α : Type} (node : α → ν)
    (link : σ → ν → Result ν) (head : ν)
    (body : ν → σ → Result (ForInStep σ))
    (I : List α → σ → Prop) (E : List α → σ → Result (ForInStep σ)) : Prop where
  read : ∀ a as s, I (a :: as) s →
    node a ≠ head ∧ link s (node a) = .ok ((as.map node).headD head)
  round : ∀ a as s, I (a :: as) s →
    (∃ e, body (node a) s = .error e ∧ E (a :: as) s = .error e) ∨
      ∃ s', body (node a) s = .ok (.yield s') ∧ I as s' ∧
        E (a :: as) s = E as s'
  last : ∀ s, I [] s → (∃ n, link s head = .ok n) ∧ E [] s = .ok (.yield s)

variable {α : Type} {node : α → ν} {I : List α → σ → Prop}
  {E : List α → σ → Result (ForInStep σ)} {as : List α} {s : σ}

omit [DecidableEq ν] in
/-- The node after the next one is read before the round. -/
theorem Computes.link_temp
    (h : Computes node link head body I E)
    (hI : I as s) :
    ∃ temp, link s ((as.map node).headD head) = .ok temp ∧
      ∀ b bs, as = b :: bs → temp = (bs.map node).headD head := by
  cases as with
  | nil =>
      obtain ⟨n, hn⟩ := (h.last s hI).1
      refine ⟨n, hn, ?_⟩
      intro b bs heq
      cases heq
  | cons a as =>
      refine ⟨(as.map node).headD head, (h.read a as s hI).2, ?_⟩
      rintro _ _ ⟨⟩
      rfl

theorem forEachFrom_computes
    {temp : ν}
    (h : Computes node link head body I E)
    (hI : I as s)
    (htemp : ∀ b bs, as = b :: bs → temp = (bs.map node).headD head)
    (fuel : Nat) :
    forEachFrom link head body fuel ((as.map node).headD head) temp s = E as s ∨
      fuel ≤ as.length ∧
        forEachFrom link head body fuel ((as.map node).headD head) temp s =
          .error .endless := by
  induction fuel generalizing as s temp with
  | zero =>
      exact .inr ⟨Nat.zero_le _, rfl⟩
  | succ fuel ih =>
      cases as with
      | nil =>
          rw [List.map_nil, List.headD_nil, forEachFrom, if_pos rfl,
            (h.last s hI).2]
          exact .inl rfl
      | cons a as =>
          obtain ⟨hne, _⟩ := h.read a as s hI
          rw [List.map_cons, List.headD_cons, forEachFrom, if_neg hne]
          rcases h.round a as s hI with ⟨e, hbody, hE⟩ | ⟨s', hbody, hI', hE⟩
          · rw [hbody, hE]
            exact .inl rfl
          · obtain ⟨after, hlink, hafter⟩ := h.link_temp hI'
            obtain rfl := htemp a as rfl
            rw [hbody, hE]
            simp only [Result.ok_bind, hlink]
            have hrest := ih hI' hafter
            rw [List.length_cons, Nat.succ_le_succ_iff]
            exact hrest

/-- The loop is what its rounds come to, or its fuel is used up. -/
theorem forEach_computes
    (h : Computes node link head body I E)
    (hI : I as s)
    (hfirst : link s head = .ok ((as.map node).headD head))
    (fuel : Nat) :
    forEach link head body fuel s = E as s ∨
      fuel ≤ as.length ∧ forEach link head body fuel s = .error .endless := by
  obtain ⟨temp, hlink, htemp⟩ := h.link_temp hI
  rw [forEach, hfirst, Result.ok_bind, hlink, Result.ok_bind]
  exact forEachFrom_computes h hI htemp fuel

end Traversal

end Rings
end PastWork
