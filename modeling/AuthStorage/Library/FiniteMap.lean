/-
This file is about finite maps that are walked in no particular order. A walk is
some arrangement of the entries, and what holds of one walk in a way that does
not depend on the arrangement holds of all. A total over a map adds one summand
for each entry; writing to one key changes one summand.
-/

import Mathlib.Data.List.AList
import Mathlib.Algebra.BigOperators.Group.List.Basic
import Mathlib.Algebra.Order.Group.Multiset

variable {K V : Type} [DecidableEq K]

/-- A finite map, as an association list without repeated keys. -/
abbrev FiniteMap (K V : Type) := AList fun _ : K => V

/-- How a hash map is walked: in some order of its entries. -/
structure Walk (K V : Type) where
  entries : FiniteMap K V → List (K × V)
  perm : ∀ map, (entries map).Perm (map.entries.map fun entry => (entry.1, entry.2))

namespace FiniteMap

/-! ### Walks -/

/-- The order in which the entries are kept. -/
def inOrder : Walk K V where
  entries map := map.entries.map fun entry => (entry.1, entry.2)
  perm _ := List.Perm.refl _

theorem mem_walk (walk : Walk K V) {map : FiniteMap K V} {key : K} {value : V} :
    (key, value) ∈ walk.entries map ↔ map.lookup key = some value := by
  rw [(walk.perm map).mem_iff, ← Option.mem_def, AList.mem_lookup_iff, List.mem_map]
  constructor
  · rintro ⟨⟨other, stored⟩, member, same⟩
    obtain ⟨rfl, rfl⟩ := Prod.mk.inj same
    exact member
  · exact fun member => ⟨⟨key, value⟩, member, rfl⟩

omit [DecidableEq K] in
theorem nodup_walk (walk : Walk K V) (map : FiniteMap K V) :
    ((walk.entries map).map Prod.fst).Nodup := by
  rw [((walk.perm map).map Prod.fst).nodup_iff, List.map_map]
  exact map.nodupKeys

/-! ### Maps with the same entries -/

theorem entries_perm {first second : FiniteMap K V}
    (same : ∀ key, first.lookup key = second.lookup key) :
    first.entries.Perm second.entries := by
  refine List.lookup_ext first.nodupKeys second.nodupKeys fun key value => ?_
  have agree : first.entries.dlookup key = second.entries.dlookup key := same key
  rw [agree]

theorem erase_of_lookup_none {map : FiniteMap K V} {key : K} (absent : map.lookup key = none) :
    map.erase key = map :=
  AList.ext (List.kerase_of_notMem_keys (AList.lookup_eq_none.mp absent))

theorem lookup_insert_same {map : FiniteMap K V} {key : K} {value : V}
    (stored : map.lookup key = some value) (other : K) :
    (map.insert key value).lookup other = map.lookup other := by
  by_cases same : other = key
  · rw [same, AList.lookup_insert, stored]
  · exact AList.lookup_insert_ne same

theorem lookup_erase_eq (map : FiniteMap K V) (key other : K) :
    (map.erase key).lookup other = if other = key then none else map.lookup other := by
  by_cases same : other = key
  · rw [if_pos same, same, AList.lookup_erase]
  · rw [if_neg same, AList.lookup_erase_ne same]

theorem lookup_insert_eq (map : FiniteMap K V) (key other : K) (value : V) :
    (map.insert key value).lookup other = if other = key then some value else map.lookup other := by
  by_cases same : other = key
  · rw [if_pos same, same, AList.lookup_insert]
  · rw [if_neg same, AList.lookup_insert_ne same]

/-! ### Totals -/

section Total

variable {M : Type} [AddCommMonoid M]

/-- One summand for each entry. -/
def total (summand : K → V → M) (map : FiniteMap K V) : M :=
  (map.entries.map fun entry => summand entry.1 entry.2).sum

omit [DecidableEq K] in
@[simp] theorem total_empty (summand : K → V → M) : total summand (∅ : FiniteMap K V) = 0 := rfl

theorem total_congr (summand : K → V → M) {first second : FiniteMap K V}
    (same : ∀ key, first.lookup key = second.lookup key) :
    total summand first = total summand second :=
  ((entries_perm same).map _).sum_eq

theorem total_insert (summand : K → V → M) (map : FiniteMap K V) (key : K) (value : V) :
    total summand (map.insert key value) = summand key value + total summand (map.erase key) := by
  have shape : (map.insert key value).entries = ⟨key, value⟩ :: (map.erase key).entries := rfl
  rw [total, shape, List.map_cons, List.sum_cons]
  rfl

theorem total_of_lookup (summand : K → V → M) {map : FiniteMap K V} {key : K} {value : V}
    (stored : map.lookup key = some value) :
    total summand map = summand key value + total summand (map.erase key) := by
  rw [← total_insert, total_congr summand (lookup_insert_same stored)]

theorem total_insert_of_none (summand : K → V → M) {map : FiniteMap K V} {key : K}
    (absent : map.lookup key = none) (value : V) :
    total summand (map.insert key value) = summand key value + total summand map := by
  rw [total_insert, erase_of_lookup_none absent]

theorem total_le_total {first second : FiniteMap K V} {summand : K → V → Nat}
    (covered : ∀ key value, first.lookup key = some value →
      ∃ other, second.lookup key = some other ∧ summand key value ≤ summand key other) :
    total summand first ≤ total summand second := by
  induction first using AList.insertRec generalizing second with
  | H0 => exact Nat.zero_le _
  | IH key value first absent inductionHypothesis =>
    have none := AList.lookup_eq_none.mpr absent
    obtain ⟨other, stored, less⟩ := covered key value (AList.lookup_insert first)
    rw [total_insert_of_none _ none, total_of_lookup _ stored]
    refine Nat.add_le_add less (inductionHypothesis fun key' value' stored' => ?_)
    have apart : key' ≠ key := by
      rintro rfl
      rw [none] at stored'
      cases stored'
    obtain ⟨other', found, less'⟩ := covered key' value' (by rwa [AList.lookup_insert_ne apart])
    exact ⟨other', by rwa [AList.lookup_erase_ne apart], less'⟩

end Total

/-- What is in a total of multisets is in some summand. -/
theorem mem_total {Item : Type} (summand : K → V → Multiset Item) (map : FiniteMap K V)
    (item : Item) :
    item ∈ total summand map ↔ ∃ key value, map.lookup key = some value ∧ item ∈ summand key value := by
  have parts : ∀ entries : List (Σ _ : K, V),
      item ∈ (entries.map fun entry => summand entry.1 entry.2).sum ↔
        ∃ entry ∈ entries, item ∈ summand entry.1 entry.2 := by
    intro entries
    induction entries with
    | nil => simp
    | cons head tail inductionHypothesis =>
      rw [List.map_cons, List.sum_cons, Multiset.mem_add, inductionHypothesis]
      simp
  rw [total, parts]
  constructor
  · rintro ⟨⟨key, value⟩, member, inside⟩
    exact ⟨key, value, AList.mem_lookup_iff.mpr member, inside⟩
  · rintro ⟨key, value, stored, inside⟩
    exact ⟨⟨key, value⟩, AList.mem_lookup_iff.mp stored, inside⟩

/-- An item occurs in a total of multisets at most as often as in the summands together. -/
theorem count_total_le {Item : Type} [DecidableEq Item] {summand : K → V → Multiset Item}
    {bound : K → V → Nat} {map : FiniteMap K V} {item : Item}
    (each : ∀ key value, map.lookup key = some value →
      (summand key value).count item ≤ bound key value) :
    (total summand map).count item ≤ total bound map := by
  have parts : ∀ entries : List (Σ _ : K, V),
      (∀ entry ∈ entries, (summand entry.1 entry.2).count item ≤ bound entry.1 entry.2) →
        ((entries.map fun entry => summand entry.1 entry.2).sum).count item ≤
          (entries.map fun entry => bound entry.1 entry.2).sum := by
    intro entries less
    induction entries with
    | nil => simp
    | cons head tail inductionHypothesis =>
      rw [List.map_cons, List.map_cons, List.sum_cons, List.sum_cons, Multiset.count_add]
      exact Nat.add_le_add (less head List.mem_cons_self)
        (inductionHypothesis fun entry member => less entry (List.mem_cons_of_mem _ member))
  exact parts map.entries fun entry member =>
    each entry.1 entry.2 (AList.mem_lookup_iff.mpr member)

end FiniteMap
