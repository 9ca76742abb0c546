import FlowraValidator.Lib.OrdMap

/-!
# Sets with an order

The ordered sets of the standard library, for elements with a linear order, used as a queue from
which the first or the last element is taken.

* `mem_insert_iff`, `mem_erase_iff`: what is in the set after a change.
* `popLast_eq_some_iff`: what is taken, and what is left.
-/

namespace FlowraValidator
open Option Std.ExtTreeSet

/-- A set of ordered elements. -/
abbrev OrdSet (K : Type) [LinearOrder K] := Std.ExtTreeSet K compare

namespace OrdSet
variable {K : Type} [LinearOrder K] {s s' : OrdSet K} {k a : K}

theorem mem_insert_iff : a ∈ s.insert k ↔ k = a ∨ a ∈ s := by
  rw [mem_insert, compare_eq_iff_eq]

theorem mem_erase_iff : a ∈ s.erase k ↔ k ≠ a ∧ a ∈ s := by
  rw [mem_erase, Ne, compare_eq_iff_eq]

/-- Takes the greatest element. -/
def popLast (s : OrdSet K) : Option (K × OrdSet K) := s.max?.map fun k => (k, s.erase k)

/-- Takes the least element. -/
def popFirst (s : OrdSet K) : Option (K × OrdSet K) := s.min?.map fun k => (k, s.erase k)

theorem popLast_eq_some_iff :
    popLast s = some (k, s') ↔ k ∈ s ∧ (∀ a ∈ s, a ≤ k) ∧ s' = s.erase k := by
  rw [popLast, map_eq_some_iff]
  constructor
  · rintro ⟨m, hm, heq⟩
    cases heq
    obtain ⟨hmem, hmax⟩ := max?_eq_some_iff_mem_and_forall.mp hm
    exact ⟨hmem, fun a ha => compare_le_iff_le.mp (Ordering.isLE_iff_ne_gt.mp (hmax a ha)), rfl⟩
  · rintro ⟨hmem, hmax, rfl⟩
    refine ⟨k, max?_eq_some_iff_mem_and_forall.mpr ⟨hmem, fun a ha => ?_⟩, rfl⟩
    exact Ordering.isLE_iff_ne_gt.mpr (compare_le_iff_le.mpr (hmax a ha))

theorem popLast_eq_none_iff : popLast s = none ↔ ∀ a, a ∉ s := by
  rw [popLast, map_eq_none_iff, max?_eq_none_iff]
  constructor
  · rintro rfl a
    exact not_mem_empty
  · intro h
    exact ext_mem fun a => ⟨fun ha => absurd ha (h a),
      fun ha => absurd ha not_mem_empty⟩

end OrdSet
end FlowraValidator
