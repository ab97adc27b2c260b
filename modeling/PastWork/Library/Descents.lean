import PastWork.Library.Forests

/-!
# Paths of names

In a tree whose siblings have different names, a path of names from the root leads
to one node, and every node has one such path.  The two changes of a child list:
a list that loses a member, and a list that gets a new last one.
-/

namespace PastWork
namespace Descents

open Forests

universe u v

variable {ν : Type u} {κ : Type v} [DecidableEq κ]

/-- The first child with a name. -/
def child
    (kids : ν → List ν) (name : ν → Option κ) (p : ν) (k : κ) : Option ν :=
  (kids p).find? (fun a => name a = some k)

/-- Follow the names down from a node. -/
def descend
    (kids : ν → List ν) (name : ν → Option κ) : List κ → ν → Option ν
  | [], a => some a
  | k :: ks, a => (child kids name a k).bind (descend kids name ks)

section Descending

variable {kids : ν → List ν} {name : ν → Option κ}
variable {a b p : ν} {k : κ} {ks : List κ}

theorem of_child
    (h : child kids name p k = some a) :
    a ∈ kids p ∧ name a = some k :=
  ⟨List.mem_of_find?_eq_some h, by simpa using List.find?_some h⟩

theorem child_eq_none :
    child kids name p k = none ↔ ∀ a ∈ kids p, name a ≠ some k := by
  simp [child]

theorem descend_append
    (ks ks' : List κ) (a : ν) :
    descend kids name (ks ++ ks') a =
      (descend kids name ks a).bind (descend kids name ks') := by
  induction ks generalizing a with
  | nil =>
      rfl
  | cons k ks ih =>
      rw [List.cons_append, descend, descend]
      cases child kids name a k with
      | none =>
          rfl
      | some b =>
          exact ih b

/-- Names that agree on the children of the nodes that are met. -/
theorem descend_congr
    {name' : ν → Option κ} {P : ν → Prop}
    (h : ∀ q, P q → ∀ f ∈ kids q, P f ∧ name' f = name f)
    (ha : P a) :
    descend kids name' ks a = descend kids name ks a := by
  induction ks generalizing a with
  | nil =>
      rfl
  | cons k ks ih =>
      have hchild : child kids name' a k = child kids name a k :=
        List.find?_congr (fun f hf => by rw [(h a ha f hf).2])
      rw [descend, descend, hchild]
      cases hk : child kids name a k with
      | none =>
          rfl
      | some f =>
          exact ih (h a ha f (List.mem_of_find?_eq_some hk)).1

/-- The last name of a path leads from a node to its child. -/
theorem descend_concat :
    descend kids name (ks ++ [k]) a = some b ↔
      ∃ p, descend kids name ks a = some p ∧
        child kids name p k = some b := by
  rw [descend_append, Option.bind_eq_some_iff]
  simp [descend]

end Descending

section Changing

variable [DecidableEq ν] {kids : ν → List ν} {p : ν} {l : List ν}

/-- The child lists with `l` for the children of `p`. -/
def replaced (kids : ν → List ν) (p : ν) (l : List ν) : ν → List ν :=
  fun q => if q = p then l else kids q

/-- The child lists with a new last child `z` of `p`. -/
def extended (kids : ν → List ν) (p z : ν) : ν → List ν :=
  fun q => if q = z then [] else if q = p then kids p ++ [z] else kids q

theorem replaced_subset
    (hl : l ⊆ kids p)
    (q : ν) :
    replaced kids p l q ⊆ kids q := by
  unfold replaced
  split
  next hqp => exact hqp ▸ hl
  next => exact fun _ ha => ha

end Changing

/-- The links hold a tree in which every node has a name, and siblings have
different ones. -/
structure Labelled
    (t : Shape ν) (kids : ν → List ν) (depth : ν → Nat)
    (name : ν → Option κ) : Prop where
  planted : Planted t kids depth
  names : ∀ p, t.live p → ((kids p).map name).Nodup
  named : ∀ a, t.live a → ∃ k, name a = some k

namespace Labelled

variable {t : Shape ν} {kids : ν → List ν} {depth : ν → Nat}
variable {name : ν → Option κ} {a b p c z : ν} {k : κ} {ks ks' : List κ}

/-- A child is found by its name. -/
theorem child_eq
    (h : Labelled t kids depth name)
    (hp : t.live p) :
    child kids name p k = some a ↔ a ∈ kids p ∧ name a = some k := by
  constructor
  · exact of_child
  · rintro ⟨ha, hk⟩
    obtain ⟨x, hx⟩ : ∃ x, child kids name p k = some x := by
      rw [← Option.isSome_iff_exists, child, List.find?_isSome]
      exact ⟨a, ha, by simpa using hk⟩
    obtain ⟨hmem, hname⟩ := of_child hx
    have hsame : x = a :=
      List.inj_on_of_nodup_map (h.names p hp) hmem ha (hname.trans hk.symm)
    exact hsame ▸ hx

theorem descend_live
    (h : Labelled t kids depth name)
    (ha : t.live a)
    (hks : descend kids name ks a = some b) :
    t.live b := by
  induction ks generalizing a with
  | nil =>
      cases hks
      exact ha
  | cons k ks ih =>
      obtain ⟨x, hx, hks⟩ := Option.bind_eq_some_iff.mp hks
      exact ih (h.planted.kid_live ha (of_child hx).1) hks

/-- Every node has a path of names from the root. -/
theorem exists_path
    (h : Labelled t kids depth name)
    (ha : t.live a) :
    ∃ ks, descend kids name ks t.root = some a := by
  generalize hn : depth a = n
  induction n using Nat.strong_induction_on generalizing a with
  | _ n ih =>
      by_cases hroot : a = t.root
      · exact ⟨[], by rw [hroot, descend]⟩
      · obtain ⟨p, hup, hp, hlt⟩ := h.planted.up_live a ha hroot
        obtain ⟨ks, hks⟩ := ih (depth p) (hn ▸ hlt) hp rfl
        obtain ⟨k, hk⟩ := h.named a ha
        have hmem := (h.planted.mem_iff p a hp).mpr ⟨ha, hroot, hup⟩
        exact ⟨ks ++ [k],
          descend_concat.mpr ⟨p, hks, (h.child_eq hp).mpr ⟨hmem, hk⟩⟩⟩

/-- A node has one path of names from the root. -/
theorem path_unique
    (h : Labelled t kids depth name)
    (hks : descend kids name ks t.root = some a)
    (hks' : descend kids name ks' t.root = some a) :
    ks = ks' := by
  have hlive : ∀ {l x}, descend kids name l t.root = some x → t.live x :=
    fun hl => h.descend_live h.planted.root_live hl
  have hroot : ∀ {l x}, descend kids name (l ++ [x]) t.root ≠ some t.root := by
    intro l x hl
    obtain ⟨p, hp, hchild⟩ := descend_concat.mp hl
    have hmem := (of_child hchild).1
    exact ((h.planted.mem_iff p _ (hlive hp)).mp hmem).2.1 rfl
  induction ks using List.reverseRecOn generalizing a ks' with
  | nil =>
      cases hks
      cases ks' using List.reverseRecOn with
      | nil =>
          rfl
      | append_singleton ks' k' =>
          exact absurd hks' hroot
  | append_singleton ks k ih =>
      cases ks' using List.reverseRecOn with
      | nil =>
          cases hks'
          exact absurd hks hroot
      | append_singleton ks' k' =>
          obtain ⟨p, hp, hchild⟩ := descend_concat.mp hks
          obtain ⟨p', hp', hchild'⟩ := descend_concat.mp hks'
          obtain ⟨hmem, hname⟩ := of_child hchild
          obtain ⟨hmem', hname'⟩ := of_child hchild'
          obtain rfl :=
            h.planted.parent_unique (hlive hp) (hlive hp') hmem hmem'
          rw [hname] at hname'
          rw [ih hp hp', Option.some_inj.mp hname']

/-- No path leads back to where it starts. -/
theorem eq_nil_of_descend
    (h : Labelled t kids depth name)
    (ha : t.live a)
    (hks : descend kids name ks a = some a) :
    ks = [] := by
  obtain ⟨front, hfront⟩ := h.exists_path ha
  have hlonger : descend kids name (front ++ ks) t.root = some a := by
    rw [descend_append, hfront, Option.bind_some, hks]
  simpa using h.path_unique hlonger hfront

/-- A path is shorter than there are nodes: its fronts all lead to different
ones. -/
theorem path_length_lt
    (h : Labelled t kids depth name)
    {nodes : Finset ν}
    (hnodes : ∀ a, t.live a → a ∈ nodes)
    (hks : descend kids name ks t.root = some a) :
    ks.length < nodes.card := by
  have hfront : ∀ i, ∃ b, descend kids name (ks.take i) t.root = some b := by
    intro i
    rw [← List.take_append_drop i ks, descend_append] at hks
    obtain ⟨b, hb, _⟩ := Option.bind_eq_some_iff.mp hks
    exact ⟨b, hb⟩
  choose f hf using hfront
  have hcard : (Finset.range (ks.length + 1)).card ≤ nodes.card := by
    refine Finset.card_le_card_of_injOn f ?_ ?_
    · intro i _
      exact hnodes _ (h.descend_live h.planted.root_live (hf i))
    · intro i hi j hj hij
      have hsame := h.path_unique (hf i) (hij ▸ hf j)
      have hlength := congrArg List.length hsame
      rw [List.length_take, List.length_take] at hlength
      simp only [Finset.coe_range, Set.mem_Iio] at hi hj
      omega
  rwa [Finset.card_range, Nat.add_one_le_iff] at hcard

section Losing

variable [DecidableEq ν] {l : List ν}

/-- Within a shorter list a child is still found by its name. -/
theorem replaced_child
    (h : Labelled t kids depth name)
    (hl : l ⊆ kids p)
    (ha : t.live a) :
    child (replaced kids p l) name a k = some b ↔
      child kids name a k = some b ∧ b ∈ replaced kids p l a := by
  constructor
  · intro hchild
    obtain ⟨hmem, hname⟩ := of_child hchild
    exact ⟨(h.child_eq ha).mpr ⟨replaced_subset hl a hmem, hname⟩, hmem⟩
  · rintro ⟨hchild, hmem⟩
    obtain ⟨x, hx⟩ : ∃ x, child (replaced kids p l) name a k = some x := by
      rw [← Option.isSome_iff_exists, child, List.find?_isSome]
      exact ⟨b, hmem, by simpa using (of_child hchild).2⟩
    obtain ⟨hmem', hname'⟩ := of_child hx
    have hx' := (h.child_eq ha).mpr ⟨replaced_subset hl a hmem', hname'⟩
    rw [hchild] at hx'
    rw [hx, hx']

section Without

variable
  (h : Labelled t kids depth name)
  (hp : t.live p)
  (hc : c ∈ kids p)
  (hl : ∀ f, f ∈ l ↔ f ∈ kids p ∧ f ≠ c)

include h hp hc hl

omit [DecidableEq κ] in
theorem mem_without
    (ha : t.live a)
    (hb : b ∈ kids a) :
    b ∈ replaced kids p l a ↔ b ≠ c := by
  unfold replaced
  split
  next hap => rw [hl, ← hap, and_iff_right hb]
  next hap =>
    have hbc : b ≠ c := fun heq =>
      hap (h.planted.parent_unique ha hp (heq ▸ hb) hc)
    exact iff_of_true hb hbc

/-- When the list loses `c` alone, the other children are found as before. -/
theorem child_without
    (ha : t.live a) :
    child (replaced kids p l) name a k = some b ↔
      child kids name a k = some b ∧ b ≠ c := by
  have hsub : l ⊆ kids p := fun f hf => ((hl f).mp hf).1
  rw [h.replaced_child hsub ha]
  exact and_congr_right
    (fun hchild => h.mem_without hp hc hl ha (of_child hchild).1)

/-- When the list loses the leaf `c` alone, the paths lose its path alone. -/
theorem descend_without
    (hleaf : kids c = [])
    (ha : t.live a)
    (hac : a ≠ c) :
    descend (replaced kids p l) name ks a = some b ↔
      descend kids name ks a = some b ∧ b ≠ c := by
  induction ks generalizing a with
  | nil =>
      rw [descend, descend, Option.some_inj]
      exact ⟨fun heq => ⟨heq, heq ▸ hac⟩, And.left⟩
  | cons k ks ih =>
      rw [descend, descend, Option.bind_eq_some_iff, Option.bind_eq_some_iff]
      constructor
      · rintro ⟨x, hx, hks⟩
        obtain ⟨hchild, hxc⟩ := (h.child_without hp hc hl ha).mp hx
        have hxlive := h.planted.kid_live ha (of_child hchild).1
        obtain ⟨hks, hbc⟩ := (ih hxlive hxc).mp hks
        exact ⟨⟨x, hchild, hks⟩, hbc⟩
      · rintro ⟨⟨x, hchild, hks⟩, hbc⟩
        have hxlive := h.planted.kid_live ha (of_child hchild).1
        by_cases hxc : x = c
        · -- nothing is below the leaf
          subst hxc
          exfalso
          cases ks with
          | nil =>
              cases hks
              exact hbc rfl
          | cons k' ks =>
              rw [descend, child, hleaf] at hks
              cases hks
        · exact ⟨x, (h.child_without hp hc hl ha).mpr ⟨hchild, hxc⟩,
            (ih hxlive hxc).mpr ⟨hks, hbc⟩⟩

end Without

/-- The paths lose the path of `c` alone exactly when the list loses `c`
alone. -/
theorem loses_iff
    (h : Labelled t kids depth name)
    (hp : t.live p)
    (hc : c ∈ kids p)
    (hleaf : kids c = [])
    (hl : l ⊆ kids p)
    (hcl : c ∉ l) :
    (∀ ks b, descend (replaced kids p l) name ks t.root = some b ↔
        descend kids name ks t.root = some b ∧ b ≠ c) ↔
      ∀ f ∈ kids p, f ≠ c → f ∈ l := by
  constructor
  · intro hpaths f hf hfc
    obtain ⟨ks, hks⟩ := h.exists_path hp
    obtain ⟨k, hk⟩ := h.named f (h.planted.kid_live hp hf)
    have hpath : descend kids name (ks ++ [k]) t.root = some f :=
      descend_concat.mpr ⟨p, hks, (h.child_eq hp).mpr ⟨hf, hk⟩⟩
    -- the sibling is still found below some node, which is its parent
    obtain ⟨q, hq, hchild⟩ :=
      descend_concat.mp ((hpaths _ f).mpr ⟨hpath, hfc⟩)
    have hqlive := h.descend_live h.planted.root_live ((hpaths _ q).mp hq).1
    have hmem := (of_child hchild).1
    have hqp := h.planted.parent_unique hqlive hp
      (replaced_subset hl q hmem) hf
    rw [replaced, if_pos hqp] at hmem
    exact hmem
  · intro hall ks b
    have hroot := ((h.planted.mem_iff p c hp).mp hc).2.1
    refine h.descend_without hp hc ?_ hleaf h.planted.root_live hroot.symm
    intro f
    constructor
    · exact fun hf => ⟨hl hf, fun hfc => hcl (hfc ▸ hf)⟩
    · exact fun hf => hall f hf.1 hf.2

end Losing

section Gaining

variable [DecidableEq ν] {name' : ν → Option κ}

theorem extended_child
    (h : Labelled t kids depth name)
    (hname : ∀ q, t.live q → name' q = name q)
    (hnew : name' z = some k)
    (hfree : ∀ f ∈ kids p, name f ≠ some k)
    (hz : ¬ t.live z)
    (ha : t.live a)
    (k' : κ) :
    child (extended kids p z) name' a k' =
      if a = p ∧ k' = k then some z else child kids name a k' := by
  have haz : a ≠ z := fun heq => hz (heq ▸ ha)
  have hold : (kids a).find? (fun f => name' f = some k') =
      child kids name a k' := by
    refine List.find?_congr (fun f hf => ?_)
    rw [hname f (h.planted.kid_live ha hf)]
  unfold child extended
  rw [if_neg haz]
  by_cases hap : a = p
  · subst hap
    rw [if_pos rfl, List.find?_append, hold]
    by_cases hk : k' = k
    · subst hk
      have hnone : child kids name a k' = none := child_eq_none.mpr hfree
      simp [hnone, hnew]
    · have hne : k ≠ k' := fun heq => hk heq.symm
      simp [hk, hnew, hne]
      rfl
  · rw [if_neg hap, hold, if_neg (fun hboth => hap hboth.1)]
    rfl

/-- The paths gain those of the new node alone. -/
theorem descend_extended
    (h : Labelled t kids depth name)
    (hname : ∀ q, t.live q → name' q = name q)
    (hnew : name' z = some k)
    (hfree : ∀ f ∈ kids p, name f ≠ some k)
    (hz : ¬ t.live z)
    (ha : t.live a) :
    descend (extended kids p z) name' ks a = some b ↔
      descend kids name ks a = some b ∨
        b = z ∧ ∃ ks', descend kids name ks' a = some p ∧ ks = ks' ++ [k] := by
  induction ks generalizing a with
  | nil =>
      simp [descend]
  | cons k' ks ih =>
      rw [descend, descend, Option.bind_eq_some_iff,
        h.extended_child hname hnew hfree hz ha]
      by_cases hlast : a = p ∧ k' = k
      · -- the step to the new node, below which there is nothing
        obtain ⟨rfl, rfl⟩ := hlast
        have hnone : child kids name a k' = none := child_eq_none.mpr hfree
        rw [if_pos ⟨rfl, rfl⟩, hnone, Option.bind_none]
        constructor
        · rintro ⟨x, hx, hks⟩
          cases hx
          cases ks with
          | nil =>
              cases hks
              exact .inr ⟨rfl, [], rfl, rfl⟩
          | cons k ks =>
              rw [descend, child, extended, if_pos rfl] at hks
              cases hks
        · rintro (hks | ⟨rfl, ks', hks', heq⟩)
          · cases hks
          · rw [h.eq_nil_of_descend ha hks', List.nil_append] at heq
            obtain ⟨_, rfl⟩ := List.cons.inj heq
            exact ⟨b, rfl, rfl⟩
      · rw [if_neg hlast]
        constructor
        · rintro ⟨x, hx, hks⟩
          have hxlive := h.planted.kid_live ha (of_child hx).1
          rcases (ih hxlive).mp hks with hks | ⟨rfl, ks', hks', rfl⟩
          · exact .inl (by rw [hx, Option.bind_some, hks])
          · exact .inr ⟨rfl, k' :: ks', by rw [descend, hx, Option.bind_some,
              hks'], rfl⟩
        · rintro (hks | ⟨rfl, ks', hks', heq⟩)
          · obtain ⟨x, hx, hks⟩ := Option.bind_eq_some_iff.mp hks
            have hxlive := h.planted.kid_live ha (of_child hx).1
            exact ⟨x, hx, (ih hxlive).mpr (.inl hks)⟩
          · cases ks' with
            | nil =>
                obtain ⟨rfl, _⟩ := List.cons.inj heq
                exact absurd ⟨Option.some_inj.mp hks', rfl⟩ hlast
            | cons k'' ks' =>
                obtain ⟨rfl, rfl⟩ := List.cons.inj heq
                obtain ⟨x, hx, hks'⟩ := Option.bind_eq_some_iff.mp hks'
                have hxlive := h.planted.kid_live ha (of_child hx).1
                exact ⟨x, hx, (ih hxlive).mpr (.inr ⟨rfl, ks', hks', rfl⟩)⟩

end Gaining

end Labelled

end Descents
end PastWork
