import Mathlib.Data.Finset.Card
import Mathlib.Data.Finset.Image
import Mathlib.Data.Fintype.Basic
import Mathlib.Data.Fintype.Card
import Mathlib.Logic.Function.Basic

/-!
# Finite maps of bounded capacity

A map with at most `n` keys, whose operations say whether they have been carried
out, and what it means that a table of `n` slots holds the bindings of such a map.
A binding can be put into any free slot, and there is one exactly when the map is
not full.
-/

namespace PastWork

universe u v

/-- A map that binds at most `n` keys. -/
structure BoundedMap (κ : Type u) (β : Type v) (n : Nat) where
  find : κ → Option β
  keys : Finset κ
  mem_keys : ∀ key, key ∈ keys ↔ find key ≠ none
  card_le : keys.card ≤ n

namespace BoundedMap

variable {κ : Type u} {β : Type v} {n : Nat}

def empty : BoundedMap κ β n where
  find := fun _ => none
  keys := ∅
  mem_keys := by simp
  card_le := Nat.zero_le n

variable [DecidableEq κ]

/-- A new key is bound if the map has room. -/
def insert (key : κ) (value : β) (m : BoundedMap κ β n) :
    Bool × BoundedMap κ β n :=
  if h : key ∉ m.keys ∧ m.keys.card < n then
    (true,
      { find := Function.update m.find key (some value)
        keys := Insert.insert key m.keys
        mem_keys := by
          intro other
          by_cases hother : other = key
          · simp [hother]
          · simp [hother, m.mem_keys]
        card_le := by
          rw [Finset.card_insert_of_notMem h.1]
          exact h.2 })
  else
    (false, m)

/-- The binding of a key is removed. -/
def erase (key : κ) (m : BoundedMap κ β n) : Bool × BoundedMap κ β n :=
  (decide (key ∈ m.keys),
    { find := Function.update m.find key none
      keys := m.keys.erase key
      mem_keys := by
        intro other
        by_cases hother : other = key
        · simp [hother]
        · simp [hother, m.mem_keys]
      card_le := (Finset.card_erase_le).trans m.card_le })

section Operations

variable {m : BoundedMap κ β n} {key : κ} {value : β}

theorem insert_find
    (h : key ∉ m.keys)
    (hroom : m.keys.card < n) :
    (m.insert key value).2.find =
      Function.update m.find key (some value) := by
  rw [insert, dif_pos ⟨h, hroom⟩]

theorem insert_full
    (hfull : ¬ m.keys.card < n) :
    m.insert key value = (false, m) := by
  rw [insert, dif_neg]
  exact fun h => hfull h.2

theorem erase_find :
    (m.erase key).2.find = Function.update m.find key none :=
  rfl

omit [DecidableEq κ] in
theorem find_eq_none
    (h : key ∉ m.keys) :
    m.find key = none := by
  rw [m.mem_keys, not_not] at h
  exact h

/-- Removing a key that is not bound changes nothing. -/
theorem erase_absent
    (h : key ∉ m.keys) :
    (m.erase key).2.find = m.find := by
  rw [erase_find, ← find_eq_none h, Function.update_eq_self]

end Operations

/-- A table of slots, each free or with a binding. -/
abbrev Slots (κ : Type u) (β : Type v) (n : Nat) := Fin n → Option (κ × β)

omit [DecidableEq κ] in
/-- The table has the bindings of the map, each in one slot. -/
structure InSlots (m : BoundedMap κ β n) (slots : Slots κ β n) : Prop where
  find_iff : ∀ key value,
    m.find key = some value ↔ ∃ k, slots k = some (key, value)
  unique : ∀ k j key value value',
    slots k = some (key, value) → slots j = some (key, value') → k = j

namespace InSlots

variable {m : BoundedMap κ β n} {slots : Slots κ β n}
variable {k : Fin n} {key : κ} {value : β}

omit [DecidableEq κ] in
theorem empty_free :
    InSlots (empty : BoundedMap κ β n) (fun _ => none) where
  find_iff := by simp [empty]
  unique := by simp

omit [DecidableEq κ] in
theorem mem_keys_iff
    (h : InSlots m slots) :
    key ∈ m.keys ↔ ∃ k value, slots k = some (key, value) := by
  rw [m.mem_keys, Option.ne_none_iff_exists']
  constructor
  · rintro ⟨value, hvalue⟩
    obtain ⟨k, hk⟩ := (h.find_iff key value).mp hvalue
    exact ⟨k, value, hk⟩
  · rintro ⟨k, value, hk⟩
    exact ⟨value, (h.find_iff key value).mpr ⟨k, hk⟩⟩

omit [DecidableEq κ] in
/-- There are as many slots in use as keys. -/
theorem card_keys
    (h : InSlots m slots) :
    (Finset.univ.filter (fun k => (slots k).isSome)).card = m.keys.card := by
  have hused : ∀ {k}, k ∈ Finset.univ.filter (fun k => (slots k).isSome) →
      ∃ key value, slots k = some (key, value) := by
    intro k hk
    obtain ⟨⟨key, value⟩, hvalue⟩ :=
      Option.isSome_iff_exists.mp (Finset.mem_filter.mp hk).2
    exact ⟨key, value, hvalue⟩
  refine Finset.card_bij (fun k hk => (hused hk).choose) ?_ ?_ ?_
  · intro k hk
    exact h.mem_keys_iff.mpr ⟨k, (hused hk).choose_spec⟩
  · intro k hk j hj heq
    obtain ⟨value, hvalue⟩ := (hused hk).choose_spec
    obtain ⟨value', hvalue'⟩ := (hused hj).choose_spec
    exact h.unique k j _ value value' hvalue (heq ▸ hvalue')
  · intro key hkey
    obtain ⟨k, value, hk⟩ := h.mem_keys_iff.mp hkey
    have hin : k ∈ Finset.univ.filter (fun k => (slots k).isSome) := by
      simp [hk]
    refine ⟨k, hin, ?_⟩
    obtain ⟨value', hvalue'⟩ := (hused hin).choose_spec
    exact congrArg Prod.fst (Option.some_inj.mp (hvalue'.symm.trans hk))

omit [DecidableEq κ] in
/-- A slot is free exactly when the map has room. -/
theorem exists_free_iff
    (h : InSlots m slots) :
    (∃ k, slots k = none) ↔ m.keys.card < n := by
  have hcard := h.card_keys
  constructor
  · rintro ⟨k, hk⟩
    rw [← hcard]
    have hlt := Finset.card_lt_univ_of_notMem (x := k)
      (s := Finset.univ.filter (fun k => (slots k).isSome)) (by simp [hk])
    simpa using hlt
  · intro hlt
    by_contra hused
    push Not at hused
    have hall : Finset.univ.filter (fun k => (slots k).isSome) =
        Finset.univ := by
      refine Finset.filter_true_of_mem ?_
      intro k _
      exact Option.isSome_iff_ne_none.mpr (hused k)
    rw [hall, Finset.card_fin] at hcard
    omega

/-- A new binding is put into a free slot. -/
theorem put
    (h : InSlots m slots)
    (hk : slots k = none)
    (hkey : key ∉ m.keys) :
    InSlots (m.insert key value).2
      (Function.update slots k (some (key, value))) := by
  have hroom := h.exists_free_iff.mp ⟨k, hk⟩
  have hnew : ∀ j value', slots j ≠ some (key, value') := by
    intro j value' hj
    exact hkey (h.mem_keys_iff.mpr ⟨j, value', hj⟩)
  constructor
  · intro other value'
    rw [insert_find hkey hroom]
    by_cases hother : other = key
    · subst hother
      rw [Function.update_self, Option.some_inj]
      constructor
      · rintro rfl
        exact ⟨k, Function.update_self k _ _⟩
      · rintro ⟨j, hj⟩
        by_cases hjk : j = k
        · rw [hjk, Function.update_self, Option.some_inj] at hj
          exact congrArg Prod.snd hj
        · rw [Function.update_of_ne hjk] at hj
          exact absurd hj (hnew j value')
    · rw [Function.update_of_ne hother, h.find_iff]
      constructor
      · rintro ⟨j, hj⟩
        refine ⟨j, ?_⟩
        rw [Function.update_of_ne, hj]
        rintro rfl
        rw [hk] at hj
        cases hj
      · rintro ⟨j, hj⟩
        by_cases hjk : j = k
        · rw [hjk, Function.update_self, Option.some_inj] at hj
          exact absurd (congrArg Prod.fst hj).symm hother
        · rw [Function.update_of_ne hjk] at hj
          exact ⟨j, hj⟩
  · intro i j other value' value'' hi hj
    by_cases hik : i = k <;> by_cases hjk : j = k
    · exact hik.trans hjk.symm
    · rw [hik, Function.update_self] at hi
      rw [Function.update_of_ne hjk] at hj
      cases hi
      exact absurd hj (hnew j value'')
    · rw [hjk, Function.update_self] at hj
      rw [Function.update_of_ne hik] at hi
      cases hj
      exact absurd hi (hnew i value')
    · rw [Function.update_of_ne hik] at hi
      rw [Function.update_of_ne hjk] at hj
      exact h.unique i j other value' value'' hi hj

/-- The slot of a key is cleared. -/
theorem clear
    (h : InSlots m slots)
    (hk : slots k = some (key, value)) :
    InSlots (m.erase key).2 (Function.update slots k none) := by
  constructor
  · intro other value'
    rw [erase_find]
    by_cases hother : other = key
    · subst hother
      rw [Function.update_self]
      refine iff_of_false (by simp) ?_
      rintro ⟨j, hj⟩
      by_cases hjk : j = k
      · rw [hjk, Function.update_self] at hj
        cases hj
      · rw [Function.update_of_ne hjk] at hj
        exact hjk (h.unique j k other value' value hj hk)
    · rw [Function.update_of_ne hother, h.find_iff]
      constructor
      · rintro ⟨j, hj⟩
        refine ⟨j, ?_⟩
        rw [Function.update_of_ne, hj]
        rintro rfl
        rw [hk, Option.some_inj] at hj
        exact hother (congrArg Prod.fst hj).symm
      · rintro ⟨j, hj⟩
        by_cases hjk : j = k
        · rw [hjk, Function.update_self] at hj
          cases hj
        · rw [Function.update_of_ne hjk] at hj
          exact ⟨j, hj⟩
  · intro i j other value' value'' hi hj
    by_cases hik : i = k
    · rw [hik, Function.update_self] at hi
      cases hi
    · by_cases hjk : j = k
      · rw [hjk, Function.update_self] at hj
        cases hj
      · rw [Function.update_of_ne hik] at hi
        rw [Function.update_of_ne hjk] at hj
        exact h.unique i j other value' value'' hi hj

end InSlots

end BoundedMap

end PastWork
