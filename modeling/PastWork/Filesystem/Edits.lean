import PastWork.Filesystem.Tree

/-!
# What the commands do to the tree

`insert_child` attaches a new node behind the children of its parent.  `rmdir` and
`rm` cut the child list of the parent and free the node; the tree survives this
when the node is the first child and its list is cut right behind it.
-/

namespace PastWork
namespace Filesystem

open Links Forests

/-- `s'` is `s` with the node `z` behind the children `l` of `p`. -/
structure Attached
    (s s' : State) (p z : Nat) (node : Node) (l : List Nat) : Prop where
  root : s'.root = s.root
  cwd : s'.cwd = s.cwd
  new : s'.heap.lookup z =
    some { node with
      Pptr := some p
      Cptr := none
      Sptr := none }
  old : ∀ q, q ≠ z → s'.heap.lookup q = (s.heap.lookup q).map (fun node =>
    { node with
      Cptr := if q = p ∧ l = [] then some z else node.Cptr
      Sptr := if l.getLast? = some q then some z else node.Sptr })

/-- `s'` is `s` without the node `c`, and the children of `p` start at `first`. -/
structure Cut (s s' : State) (p c : Nat) (first : Ptr) : Prop where
  root : s'.root = s.root
  cwd : s'.cwd = s.cwd
  gone : s'.heap.lookup c = none
  old : ∀ q, q ≠ c → s'.heap.lookup q = (s.heap.lookup q).map (fun node =>
    { node with Cptr := if q = p then first else node.Cptr })

section Attach

variable {s s' : State} {kids : Nat → List Nat} {depth : Nat → Nat}
variable {p z : Nat} {node : Node}

/-- The scan for the last child, when the new node is in the heap already. -/
theorem lastChild_eq
    {c : Nat} {l : List Nat}
    (h : Planted s.shape kids depth)
    (hp : p ∈ s.heap)
    (hz : z ∉ s.heap)
    (node : Node)
    (hkids : kids p = c :: l) :
    ∃ y, State.lastFrom { s with heap := s.heap.insert z node }
        (State.size { s with heap := s.heap.insert z node }) c = .ok y ∧
      (kids p).getLast? = some y := by
  have hmem : ∀ a ∈ c :: l, a ∈ s.heap :=
    fun a ha => h.kid_live hp (hkids ▸ ha)
  have hchain := h.chain p hp
  rw [h.first_eq hp, hkids] at hchain
  have hchain' : Chain
      (State.shape { s with heap := s.heap.insert z node }).next
      (some c) (c :: l) := by
    refine hchain.congr ?_
    intro a ha
    have haz : a ≠ z := fun heq => hz (heq ▸ hmem a ha)
    simp only [State.shape]
    rw [Finmap.lookup_insert_of_ne _ haz]
  have hlength := kids_length h hp
  rw [hkids, List.length_cons] at hlength
  have hsize : s.size ≤
      State.size { s with heap := s.heap.insert z node } := by
    apply Finset.card_le_card
    intro a ha
    rw [Finmap.mem_keys] at ha ⊢
    exact Finmap.mem_insert.mpr (.inr ha)
  rw [hkids]
  exact lastFrom_eq hchain'
    (fun a ha => Finmap.mem_insert.mpr (.inr (hmem a ha))) (by omega)

/-- The end of the child list is the parent itself, or the last child. -/
theorem linkLast_eq
    (h : Planted s.shape kids depth)
    (hp : p ∈ s.heap)
    (hz : z ∉ s.heap)
    (node : Node) :
    ∃ s', { s with heap := s.heap.insert z node }.linkLast
        (some p) (some z) = .ok s' ∧
      s'.root = s.root ∧ s'.cwd = s.cwd ∧
      s'.heap.lookup z = some node ∧
      ∀ q, q ≠ z → s'.heap.lookup q = (s.heap.lookup q).map (fun node =>
        { node with
          Cptr := if q = p ∧ kids p = [] then some z else node.Cptr
          Sptr :=
            if (kids p).getLast? = some q then some z else node.Sptr }) := by
  have hpz : p ≠ z := fun heq => hz (heq ▸ hp)
  obtain ⟨parent, hparent⟩ := lookup_of_mem hp
  have hfirst := cptr_eq h hparent
  have hlookup : ∀ q, q ≠ z →
      (s.heap.insert z node).lookup q = s.heap.lookup q :=
    fun q hq => Finmap.lookup_insert_of_ne _ hq
  have hparent₁ : (s.heap.insert z node).lookup p = some parent :=
    (hlookup p hpz).trans hparent
  unfold State.linkLast
  rw [load_eq hparent₁, Result.ok_bind, hfirst]
  cases hkids : kids p with
  | nil =>
      refine ⟨_, modify_eq hparent₁, rfl, rfl, ?_, ?_⟩
      · simp only
        rw [Finmap.lookup_insert_of_ne _ hpz.symm, Finmap.lookup_insert]
      · intro q hq
        by_cases hqp : q = p
        · subst hqp
          simp [hparent]
        · simp [hqp, hlookup q hq]
  | cons c l =>
      obtain ⟨y, hy, hlast⟩ := lastChild_eq h hp hz node hkids
      have hymem := h.kid_live hp (List.mem_of_getLast? hlast)
      have hyz : y ≠ z := fun heq => hz (heq ▸ hymem)
      obtain ⟨last, hlastnode⟩ := lookup_of_mem hymem
      have hlast₁ : (s.heap.insert z node).lookup y = some last :=
        (hlookup y hyz).trans hlastnode
      simp only [List.head?_cons, hy, Result.ok_bind]
      refine ⟨_, modify_eq hlast₁, rfl, rfl, ?_, ?_⟩
      · simp only
        rw [Finmap.lookup_insert_of_ne _ hyz.symm, Finmap.lookup_insert]
      · intro q hq
        rw [hkids] at hlast
        rw [hlast]
        by_cases hqy : q = y
        · subst hqy
          simp [hlastnode]
        · have hyq : y ≠ q := fun heq => hqy heq.symm
          simp [hqy, hyq, hlookup q hq]

/-- `insert_child` for a node that has just been allocated. -/
theorem insert_child_eq
    (h : Planted s.shape kids depth)
    (hp : p ∈ s.heap)
    (hz : z ∉ s.heap)
    (node : Node) :
    ∃ s', { s with heap := s.heap.insert z node }.insert_child
        (some p) (some z) = .ok s' ∧
      Attached s s' p z node (kids p) := by
  obtain ⟨s₁, hs₁, hroot, hcwd, hnew, hold⟩ := linkLast_eq h hp hz node
  rw [State.insert_child, hs₁, Result.ok_bind, modify_eq hnew]
  refine ⟨_, rfl, hroot, hcwd, Finmap.lookup_insert _, ?_⟩
  intro q hq
  rw [← hold q hq]
  exact Finmap.lookup_insert_of_ne _ hq

/-- Attaching a node adds it and no other. -/
theorem Attached.mem_iff
    {l : List Nat}
    (hs' : Attached s s' p z node l)
    (q : Nat) :
    q ∈ s'.heap ↔ q ∈ s.heap ∨ q = z := by
  by_cases hqz : q = z
  · subst hqz
    exact iff_of_true (mem_of_lookup hs'.new) (.inr rfl)
  · rw [← Finmap.lookup_isSome, hs'.old q hqz, Option.isSome_map,
      Finmap.lookup_isSome, or_iff_left hqz]

/-- What attaching changes, link by link. -/
theorem Attached.grafted
    {l : List Nat}
    (hs' : Attached s s' p z node l)
    (hp : p ∈ s.heap)
    (hz : z ∉ s.heap)
    (hfirst : s.shape.first p = l.head?)
    (hl : ∀ a ∈ l, a ∈ s.heap) :
    Grafted s.shape s'.shape l p z := by
  have hne : ∀ q, q ∈ s.heap → q ≠ z := fun q hq heq => hz (heq ▸ hq)
  have hold : ∀ q, q ∈ s.heap → ∃ old, s.heap.lookup q = some old ∧
      s'.heap.lookup q = some
        { old with
          Cptr := if q = p ∧ l = [] then some z else old.Cptr
          Sptr := if l.getLast? = some q then some z else old.Sptr } := by
    intro q hq
    obtain ⟨old, hold⟩ := lookup_of_mem hq
    refine ⟨old, hold, ?_⟩
    rw [hs'.old q (hne q hq), hold, Option.map_some]
  refine ⟨hs'.root, ?_, ?_, ?_, ?_, ?_, ?_, ?_, ?_, ?_⟩
  · exact hs'.mem_iff
  · intro q hq
    obtain ⟨old, hq, hq'⟩ := hold q hq
    simp [State.shape, hq, hq']
  · simp [State.shape, hs'.new]
  · intro q hq hqp
    obtain ⟨old, hq, hq'⟩ := hold q hq
    simp [State.shape, hq, hq', hqp]
  · obtain ⟨old, hq, hq'⟩ := hold p hp
    cases l with
    | nil =>
        simp [State.shape, hq']
    | cons c l =>
        have hcptr : old.Cptr = some c := by
          simpa [State.shape, hq] using hfirst
        simp [State.shape, hq', hcptr]
  · simp [State.shape, hs'.new]
  · intro q hq hlast
    obtain ⟨old, hq, hq'⟩ := hold q hq
    simp [State.shape, hq, hq', hlast]
  · intro q hlast
    obtain ⟨old, hq, hq'⟩ := hold q (hl q (List.mem_of_getLast? hlast))
    simp [State.shape, hq', hlast]
  · simp [State.shape, hs'.new]

theorem Attached.nameOf_eq
    {l : List Nat} {q : Nat}
    (hs' : Attached s s' p z node l)
    (hq : q ≠ z) :
    s'.nameOf q = s.nameOf q := by
  simp only [State.nameOf, hs'.old q hq, Option.map_map]
  rfl

/-- Siblings still have different names when the new one has a name of its own. -/
theorem Attached.names
    (hs' : Attached s s' p z node (kids p))
    (h : Planted s.shape kids depth)
    (hnames : ∀ q ∈ s.heap, ((kids q).map s.nameOf).Nodup)
    (hp : p ∈ s.heap)
    (hz : z ∉ s.heap)
    (hname : ∀ a ∈ kids p, s.nameOf a ≠ some node.nm) :
    ∀ q ∈ s'.heap,
      ((if q = z then [] else if q = p then kids p ++ [z] else kids q).map
        s'.nameOf).Nodup := by
  have hne : ∀ q, q ∈ s.heap → q ≠ z := fun q hq heq => hz (heq ▸ hq)
  have hkids : ∀ q, q ∈ s.heap →
      (kids q).map s'.nameOf = (kids q).map s.nameOf := fun q hq =>
    List.map_congr_left (fun a ha => hs'.nameOf_eq (hne a (h.kid_live hq ha)))
  intro q hq
  rcases (hs'.mem_iff q).mp hq with hq | rfl
  · rw [if_neg (hne q hq)]
    split
    next =>
      have hnewname : s'.nameOf z = some node.nm := by
        simp [State.nameOf, hs'.new]
      rw [List.map_append, hkids p hp]
      refine (hnames p hp).append (List.nodup_singleton _) ?_
      simpa [hnewname] using hname
    next =>
      rw [hkids q hq]
      exact hnames q hq
  · simp

/-- A tree with a new node of a new name under a directory is a tree. -/
theorem Tree.attached
    (h : Tree s kids depth)
    (hs' : Attached s s' p z node (kids p))
    (hp : p ∈ s.heap)
    (hz : z ∉ s.heap)
    (hdir : ∀ parent, s.heap.lookup p = some parent → parent.type ≠ .G)
    (hname : ∀ a ∈ kids p, s.nameOf a ≠ some node.nm) :
    ∃ depth', Tree s'
      (fun q => if q = z then [] else if q = p then kids p ++ [z] else kids q)
      depth' := by
  have hne : ∀ q, q ∈ s.heap → q ≠ z := fun q hq heq => hz (heq ▸ hq)
  have hgrafted := hs'.grafted hp hz (h.planted.first_eq hp)
    (fun a ha => h.kids_mem hp ha)
  refine ⟨_, h.planted.graft hgrafted hp hz, ?_,
    hs'.names h.planted h.names hp hz hname, ?_, ?_⟩
  · have hroot : s'.shape.up s.root = some s.root :=
      (hgrafted.up _ h.root_mem).trans h.root_up
    rw [hs'.root]
    exact hroot
  · intro a new hnew htype
    by_cases haz : a = z
    · subst haz
      rw [hs'.new] at hnew
      cases hnew
      rfl
    · rw [hs'.old a haz] at hnew
      obtain ⟨old, hold, rfl⟩ := Option.map_eq_some_iff.mp hnew
      have hap : ¬ (a = p ∧ kids p = []) := by
        rintro ⟨rfl, _⟩
        exact hdir old hold htype
      simp only [if_neg hap]
      exact h.files a old hold htype
  · obtain ⟨old, hold, htype⟩ := h.cwd
    have hcwd := hs'.old s.cwd (hne _ h.cwd_mem)
    rw [hold, Option.map_some] at hcwd
    rw [hs'.cwd]
    exact ⟨_, hcwd, htype⟩

end Attach

section Detach

variable {s s' : State} {kids : Nat → List Nat} {depth : Nat → Nat}
variable {p c : Nat} {node : Node} {first : Ptr}

/-- Cutting the child list of the parent and freeing the node. -/
theorem Tree.cut_eq
    (h : Tree s kids depth)
    (hp : p ∈ s.heap)
    (hc : c ∈ kids p)
    (hnode : s.heap.lookup c = some node)
    (first : Ptr) :
    ∃ s₁, s.modify node.Pptr (fun zero => { zero with Cptr := first }) =
        .ok s₁ ∧
      Cut s { s₁ with heap := s₁.heap.erase c } p c first := by
  have hup := ((h.planted.mem_iff p c hp).mp hc).2.2
  have hpptr : node.Pptr = some p := by
    simpa [State.shape, hnode] using hup
  obtain ⟨parent, hparent⟩ := lookup_of_mem hp
  rw [hpptr, modify_eq hparent]
  refine ⟨_, rfl, rfl, rfl, Finmap.lookup_erase _ _, ?_⟩
  intro q hq
  simp only
  rw [Finmap.lookup_erase_ne hq]
  by_cases hqp : q = p
  · subst hqp
    simp [hparent]
  · simp [hqp]

/-- Cutting a node removes it and no other. -/
theorem Cut.mem_iff
    (hs' : Cut s s' p c first)
    (q : Nat) :
    q ∈ s'.heap ↔ q ∈ s.heap ∧ q ≠ c := by
  by_cases hqc : q = c
  · subst hqc
    simp [← Finmap.lookup_isSome, hs'.gone]
  · rw [← Finmap.lookup_isSome, hs'.old q hqc, Option.isSome_map,
      Finmap.lookup_isSome, and_iff_left hqc]

/-- What cutting changes when the list starts right behind the node. -/
theorem Cut.pruned
    (hs' : Cut s s' p c first)
    (hp : p ∈ s.heap)
    (hpc : p ≠ c)
    (hnext : s.shape.next c = first) :
    Pruned s.shape s'.shape p c := by
  refine ⟨hs'.root, ?_, ?_, ?_, ?_, ?_⟩
  · exact hs'.mem_iff
  · intro q hq
    simp only [State.shape, hs'.old q hq]
    cases s.heap.lookup q <;> rfl
  · intro q hq
    simp only [State.shape, hs'.old q hq]
    cases s.heap.lookup q <;> rfl
  · intro q hq hqp
    simp only [State.shape, hs'.old q hq, if_neg hqp]
    cases s.heap.lookup q <;> rfl
  · obtain ⟨parent, hparent⟩ := lookup_of_mem hp
    rw [hnext]
    simp [State.shape, hs'.old p hpc, hparent]

theorem Cut.nameOf_eq
    {q : Nat}
    (hs' : Cut s s' p c first)
    (hq : q ≠ c) :
    s'.nameOf q = s.nameOf q := by
  simp only [State.nameOf, hs'.old q hq, Option.map_map]
  rfl

/-- A tree without its first child of some node is a tree, if that child had no
children itself. -/
theorem Tree.cut
    {parent : Node}
    (h : Tree s kids depth)
    (hs' : Cut s s' p c first)
    (hparent : s.heap.lookup p = some parent)
    (hcptr : parent.Cptr = some c)
    (hnode : s.heap.lookup c = some node)
    (hempty : node.Cptr = none)
    (hbehind : node.Sptr = first)
    (hcwd : c ≠ s.cwd) :
    ∃ kids' depth', Tree s' kids' depth' := by
  have hp := mem_of_lookup hparent
  have hhead := cptr_eq h.planted hparent
  rw [hcptr] at hhead
  obtain ⟨rest, hkids⟩ := List.head?_eq_some_iff.mp hhead.symm
  have hc : c ∈ kids p := by simp [hkids]
  have hroot := ((h.planted.mem_iff p c hp).mp hc).2.1
  have hpruned := hs'.pruned hp (h.planted.parent_ne hp hc)
    (by simp [State.shape, hnode, hbehind])
  have hleaf : s.shape.first c = none := by
    simp [State.shape, hnode, hempty]
  have hplanted := h.planted.prune hpruned hp hkids hleaf
  refine ⟨_, _, hplanted, ?_, ?_, ?_, ?_⟩
  · have hup : s'.shape.up s.root = some s.root :=
      (hpruned.up _ hroot.symm).trans h.root_up
    rw [hs'.root]
    exact hup
  · intro q hlive
    obtain ⟨hq, _⟩ := (hpruned.live q).mp hlive
    have hsub : (if q = p then rest else kids q).Sublist (kids q) := by
      split
      next hqp => rw [hqp, hkids]; exact List.sublist_cons_self _ _
      next => exact List.Sublist.refl _
    have hsame : (if q = p then rest else kids q).map s'.nameOf =
        (if q = p then rest else kids q).map s.nameOf := by
      apply List.map_congr_left
      intro a ha
      have halive : s'.shape.live a := hplanted.kid_live hlive ha
      exact hs'.nameOf_eq ((hpruned.live a).mp halive).2
    rw [hsame]
    exact (h.names q hq).sublist (hsub.map _)
  · intro a new hnew htype
    have hac : a ≠ c := by
      rintro rfl
      rw [hs'.gone] at hnew
      cases hnew
    rw [hs'.old a hac] at hnew
    obtain ⟨old, hold, rfl⟩ := Option.map_eq_some_iff.mp hnew
    have hap : a ≠ p := by
      rintro rfl
      rw [hparent] at hold
      cases hold
      rw [h.files a parent hparent htype] at hcptr
      cases hcptr
    simp only [if_neg hap]
    exact h.files a old hold htype
  · obtain ⟨old, hold, htype⟩ := h.cwd
    have hcwd' := hs'.old s.cwd hcwd.symm
    rw [hold, Option.map_some] at hcwd'
    rw [hs'.cwd]
    exact ⟨_, hcwd', htype⟩

end Detach

end Filesystem
end PastWork
