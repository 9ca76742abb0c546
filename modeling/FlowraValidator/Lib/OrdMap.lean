import Mathlib

/-!
# Maps with ordered keys

The ordered maps of the standard library, for keys with a linear order. Their rules are about the
outcome of a comparison; for a linear order the outcome is equality iff the keys are equal.

* `get_insert`, `get_erase`, `get_modify`: what is found after a change.
* `mem_toList_iff`, `pairwise_toList`: the list of entries, in the order of their keys.
* `total`, `total_insert`: sums over all entries.
* `get_insertMany_of_mem`, `total_insertMany`: several entries are replaced.
-/

namespace FlowraValidator
open List Option Std.ExtTreeMap

/-- A map with ordered keys. -/
abbrev OrdMap (K V : Type) [LinearOrder K] := Std.ExtTreeMap K V compare

namespace OrdMap
variable {K V : Type} [LinearOrder K]

instance : Std.TransCmp (compare : K → K → Ordering) := inferInstance

instance : Std.LawfulEqCmp (compare : K → K → Ordering) where
  eq_of_compare h := compare_eq_iff_eq.mp h

variable (m : OrdMap K V) (k k' : K)

theorem get_insert (v : V) : (m.insert k v)[k']? = if k = k' then some v else m[k']? := by
  rw [Std.ExtTreeMap.getElem?_insert]
  simp only [compare_eq_iff_eq]

theorem get_erase : (m.erase k)[k']? = if k = k' then none else m[k']? := by
  rw [getElem?_erase]
  simp only [compare_eq_iff_eq]

theorem get_modify (f : V → V) : (m.modify k f)[k']? = if k = k' then m[k]?.map f else m[k']? := by
  rw [Std.ExtTreeMap.getElem?_modify]
  simp only [compare_eq_iff_eq]

theorem mem_toList_iff {v : V} : (k, v) ∈ m.toList ↔ m[k]? = some v :=
  mem_toList_iff_getElem?_eq_some

theorem pairwise_toList : m.toList.Pairwise fun a b => a.1 < b.1 :=
  ordered_keys_toList.imp fun h => compare_lt_iff_lt.mp h

/-! ## Sums -/

theorem nodup_toList : m.toList.Nodup := by
  refine (pairwise_toList m).imp fun {a b} hlt => ?_
  rintro rfl
  exact lt_irrefl _ hlt

/-- The entries for other keys. -/
def others : List (K × V) := m.toList.filter fun e => decide (e.1 ≠ k)

theorem mem_others_iff {e : K × V} : e ∈ m.others k ↔ m[e.1]? = some e.2 ∧ e.1 ≠ k := by
  rw [others, mem_filter, decide_eq_true_iff]
  exact and_congr_left fun _ => m.mem_toList_iff e.1

theorem nodup_others : (m.others k).Nodup := m.nodup_toList.filter _

theorem perm_toList_of_get {v : V} (h : m[k]? = some v) : m.toList.Perm ((k, v) :: m.others k) := by
  refine (perm_ext_iff_of_nodup m.nodup_toList (nodup_cons.mpr ⟨?_, ?_⟩)).mpr ?_
  · exact fun hmem => ((m.mem_others_iff k).mp hmem).2 rfl
  · exact m.nodup_others k
  · rintro ⟨k', v'⟩
    rw [mem_toList_iff, mem_cons, mem_others_iff]
    constructor
    · intro h'
      by_cases heq : k' = k
      · subst heq
        rw [h] at h'
        exact .inl (congrArg (Prod.mk k') (some_inj.mp h').symm)
      · exact .inr ⟨h', heq⟩
    · rintro (heq | h')
      · cases heq
        exact h
      · exact h'.1

theorem others_of_get_none (h : m[k]? = none) : m.others k = m.toList := by
  refine filter_eq_self.mpr fun e he => decide_eq_true fun heq => ?_
  have hget := (m.mem_toList_iff e.1).mp he
  rw [heq, h] at hget
  cases hget

theorem others_insert_perm (v : V) : (others (m.insert k v) k).Perm (others m k) := by
  refine (perm_ext_iff_of_nodup (nodup_others _ k) (nodup_others m k)).mpr ?_
  intro e
  rw [mem_others_iff, mem_others_iff, get_insert]
  exact and_congr_left fun hne => by rw [if_neg fun heq => hne heq.symm]

/-- The sum over all entries. -/
def total (f : K → V → ℕ) : ℕ := (m.toList.map fun e => f e.1 e.2).sum

/-- One entry, and all others. -/
theorem total_eq (f : K → V → ℕ) :
    m.total f = m[k]?.elim 0 (f k) + ((m.others k).map fun e => f e.1 e.2).sum := by
  cases h : m[k]? with
  | none =>
    rw [others_of_get_none m k h]
    exact (Nat.zero_add _).symm
  | some v =>
    rw [total, ((m.perm_toList_of_get k h).map _).sum_nat, map_cons, sum_cons]
    rfl

/-- The sum after an entry was replaced. -/
theorem total_insert (f : K → V → ℕ) (v : V) :
    total (m.insert k v) f + m[k]?.elim 0 (f k) = total m f + f k v := by
  rw [total_eq (m.insert k v) k, total_eq m k, ((others_insert_perm m k v).map _).sum_nat,
    get_insert, if_pos rfl]
  show f k v + _ + _ = _
  omega

theorem total_eq_zero {f : K → V → ℕ} (h : ∀ k v, m[k]? = some v → f k v = 0) : total m f = 0 := by
  refine sum_eq_zero fun a ha => ?_
  obtain ⟨e, he, rfl⟩ := mem_map.mp ha
  exact h e.1 e.2 ((mem_toList_iff m e.1).mp he)

/-- The sums of functions that differ at one key. -/
theorem total_congr_except {f g : K → V → ℕ} (h : ∀ k', k' ≠ k → ∀ v, f k' v = g k' v) :
    m.total f + m[k]?.elim 0 (g k) = m.total g + m[k]?.elim 0 (f k) := by
  have hothers : ((m.others k).map fun e => f e.1 e.2) = (m.others k).map fun e => g e.1 e.2 := by
    refine map_congr_left fun e he => ?_
    exact h e.1 ((m.mem_others_iff k).mp he).2 e.2
  rw [total_eq m k f, total_eq m k g, hothers]
  omega

/-! ## Several entries -/

section
variable {m k} {l : List (K × V)}

theorem get_insertMany_of_mem (hnodup : (l.map Prod.fst).Nodup) {v : V} (h : (k, v) ∈ l) :
    (m.insertMany l)[k]? = some v := by
  refine getElem?_insertMany_list_of_mem (compare_eq_iff_eq.mpr rfl) ?_ h
  exact (pairwise_map.mp hnodup).imp fun hne heq => hne (compare_eq_iff_eq.mp heq)

/-- The sum after entries with different keys were replaced. -/
theorem total_insertMany (f : K → V → ℕ) (hnodup : (l.map Prod.fst).Nodup) :
    total (m.insertMany l) f + (l.map fun e => m[e.1]?.elim 0 (f e.1)).sum =
      total m f + (l.map fun e => f e.1 e.2).sum := by
  induction l generalizing m with
  | nil => rfl
  | cons e l ih =>
    rw [map_cons, nodup_cons] at hnodup
    have hold : (l.map fun e' => (m.insert e.1 e.2)[e'.1]?.elim 0 (f e'.1)) =
        l.map fun e' => m[e'.1]?.elim 0 (f e'.1) := by
      refine map_congr_left fun e' he' => ?_
      have hne : e.1 ≠ e'.1 := fun heq => hnodup.1 (heq ▸ mem_map_of_mem he')
      rw [get_insert, if_neg hne]
    have hrest := ih hnodup.2 (m := m.insert e.1 e.2)
    have hfirst := total_insert m e.1 f e.2
    rw [hold] at hrest
    rw [insertMany_cons, map_cons, map_cons, sum_cons, sum_cons]
    omega

end
end OrdMap
end FlowraValidator
