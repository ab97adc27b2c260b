import Mathlib.Data.List.Nodup
import Mathlib.Data.List.Infix
import Mathlib.Order.Lattice

/-!
# Least recently used

The reference policy keeps the keys in a list, the most recently used first.  A
cache that marks its lines with the time of their last use instead is related to
it by `Ordered`: the lines in use, listed by falling time stamps.  The rules say
how a use, a new line and the reuse of a line change this list, and that the line
with the least time stamp is its last one.
-/

namespace PastWork
namespace Recency

universe u v

section Policy

variable {κ : Type u} [BEq κ] [LawfulBEq κ]

/-- The keys of the cache after a request, the most recent first. -/
def touch (capacity : Nat) (recent : List κ) (key : κ) : List κ :=
  if key ∈ recent then key :: recent.erase key
  else if recent.length < capacity then key :: recent
  else key :: recent.dropLast

/-- For each request whether it hits, and the keys at the end. -/
def run (capacity : Nat) : List κ → List κ → List Bool × List κ
  | recent, [] => ([], recent)
  | recent, key :: keys =>
      let rest := run capacity (touch capacity recent key) keys
      (decide (key ∈ recent) :: rest.1, rest.2)

end Policy

section Scan

variable {ι : Type u}

/-- One round of a scan for the least time stamp. -/
def older (stamp : ι → Nat) (best : ι × Nat) (i : ι) : ι × Nat :=
  if stamp i < best.2 then (i, stamp i) else best

/-- The scan finds a line with the least time stamp. -/
theorem foldl_older
    (stamp : ι → Nat) (l : List ι) (i : ι) :
    (l.foldl (older stamp) (i, stamp i)).1 ∈ i :: l ∧
      ∀ j ∈ i :: l,
        stamp (l.foldl (older stamp) (i, stamp i)).1 ≤ stamp j := by
  induction l generalizing i with
  | nil =>
      simp
  | cons k l ih =>
      simp only [List.foldl_cons, older]
      split
      next hless =>
          obtain ⟨hmem, hmin⟩ := ih k
          refine ⟨List.mem_cons_of_mem _ hmem, ?_⟩
          intro j hj
          rcases List.mem_cons.mp hj with rfl | hj
          · exact (hmin k List.mem_cons_self).trans hless.le
          · exact hmin j hj
      next hless =>
          obtain ⟨hmem, hmin⟩ := ih i
          refine ⟨?_, ?_⟩
          · rcases List.mem_cons.mp hmem with heq | hmem
            · rw [heq]
              exact List.mem_cons_self
            · exact List.mem_cons_of_mem _ (List.mem_cons_of_mem _ hmem)
          · intro j hj
            rcases List.mem_cons.mp hj with rfl | hj
            · exact hmin j List.mem_cons_self
            · rcases List.mem_cons.mp hj with rfl | hj
              · exact (hmin i List.mem_cons_self).trans (by omega)
              · exact hmin j (List.mem_cons_of_mem _ hj)

end Scan

section Stamps

variable {ι : Type u} {κ : Type v} {name name' : ι → κ}
  {stamp stamp' : ι → Nat} {clock : Nat} {order : List ι} {i : ι}

/-- The lines in use, by falling times of their last use. -/
structure Ordered
    (name : ι → κ) (stamp : ι → Nat) (clock : Nat) (order : List ι) :
    Prop where
  sorted : order.Pairwise (fun i j => stamp j < stamp i)
  below : ∀ i ∈ order, stamp i < clock
  names : (order.map name).Nodup

theorem Ordered.nodup
    (h : Ordered name stamp clock order) :
    order.Nodup :=
  h.sorted.imp (fun hlt heq => by rw [heq] at hlt; exact lt_irrefl _ hlt)

theorem Ordered.sublist
    {order' : List ι}
    (h : Ordered name stamp clock order)
    (hsub : order'.Sublist order) :
    Ordered name stamp clock order' where
  sorted := h.sorted.sublist hsub
  below := fun i hi => h.below i (hsub.subset hi)
  names := h.names.sublist (hsub.map name)

/-- Two lines in use have the same name or time stamp only if they are one. -/
theorem Ordered.name_inj
    {j : ι}
    (h : Ordered name stamp clock order)
    (hi : i ∈ order) (hj : j ∈ order)
    (heq : name i = name j) :
    i = j :=
  List.inj_on_of_nodup_map h.names hi hj heq

theorem Ordered.stamp_inj
    {j : ι}
    (h : Ordered name stamp clock order)
    (hi : i ∈ order) (hj : j ∈ order)
    (heq : stamp i = stamp j) :
    i = j := by
  have hnodup : (order.map stamp).Nodup :=
    List.pairwise_map.mpr (h.sorted.imp (fun hlt => hlt.ne'))
  exact List.inj_on_of_nodup_map hnodup hi hj heq

/-- Lines that are not written keep their place. -/
theorem Ordered.frame
    (h : Ordered name stamp clock order)
    (hname : ∀ j ∈ order, name' j = name j)
    (hstamp : ∀ j ∈ order, stamp' j = stamp j) :
    Ordered name' stamp' clock order where
  sorted := by
    refine h.sorted.imp_of_mem ?_
    intro i j hi hj hlt
    rw [hstamp i hi, hstamp j hj]
    exact hlt
  below := by
    intro i hi
    rw [hstamp i hi]
    exact h.below i hi
  names := by
    rw [List.map_congr_left hname]
    exact h.names

/-- A line that is used now comes first. -/
theorem Ordered.push
    (h : Ordered name stamp clock order)
    (hi : i ∉ order)
    (hkey : name i ∉ order.map name)
    (hstamp : stamp i = clock) :
    Ordered name stamp (clock + 1) (i :: order) where
  sorted := by
    refine List.pairwise_cons.mpr ⟨?_, h.sorted⟩
    intro j hj
    rw [hstamp]
    exact h.below j hj
  below := by
    intro j hj
    rcases List.mem_cons.mp hj with rfl | hj
    · omega
    · exact (h.below j hj).trans (Nat.lt_succ_self _)
  names := List.nodup_cons.mpr ⟨hkey, h.names⟩

theorem map_erase_of_inj
    [BEq ι] [LawfulBEq ι] [BEq κ] [LawfulBEq κ]
    (name : ι → κ)
    (hinj : ∀ j ∈ order, name j = name i → j = i) :
    (order.erase i).map name = (order.map name).erase (name i) := by
  induction order with
  | nil =>
      rfl
  | cons j order ih =>
      by_cases hj : j = i
      · subst hj
        simp
      · have hne : name j ≠ name i := fun heq =>
          hj (hinj j List.mem_cons_self heq)
        rw [List.erase_cons_tail (by simpa using hj), List.map_cons,
          List.map_cons, List.erase_cons_tail (by simpa using hne), ih]
        exact fun k hk => hinj k (List.mem_cons_of_mem _ hk)

/-- The line with the least time stamp is the last one. -/
theorem Ordered.last
    (h : Ordered name stamp clock order)
    (hi : i ∈ order)
    (hmin : ∀ j ∈ order, stamp i ≤ stamp j) :
    order = order.dropLast ++ [i] := by
  have hne : order ≠ [] := List.ne_nil_of_mem hi
  have hsplit := List.dropLast_append_getLast hne
  have hsorted := h.sorted
  rw [← hsplit] at hi hsorted
  rcases List.mem_append.mp hi with hfront | hlast
  · have hlt := (List.pairwise_append.mp hsorted).2.2 i hfront _
      List.mem_cons_self
    have := hmin _ (List.getLast_mem hne)
    omega
  · rw [List.mem_singleton] at hlast
    rw [hlast]
    exact hsplit.symm

end Stamps

end Recency
end PastWork
