import Mathlib

/-!
# Maps that keep their entries in a row

An `IndexMap` holds its entries in a row, new ones at the end, and an entry that is removed by
`swap_remove` is replaced by the last one. An entry is found by its key or by its position.

* `get?`, `indexOf?`: the value and the position of a key.
* `get?_insert`, `get?_swapRemove`: what is found after a change.
-/

namespace FlowraValidator
open List Option Prod

/-! ## Rows -/

section
variable {α : Type}

/-- The entry at the position is replaced by the last one, which is removed from the end. -/
def swapRemoveAt (row : List α) (i : ℕ) : List α :=
  match (row.drop (i + 1)).getLast? with
  | none => row.take i
  | some last => row.take i ++ last :: (row.drop (i + 1)).dropLast

/-- All other entries are kept. -/
theorem perm_swapRemoveAt {row : List α} {i : ℕ} {x : α} (h : row[i]? = some x) :
    row.Perm (x :: swapRemoveAt row i) := by
  obtain ⟨hi, hx⟩ := List.getElem?_eq_some_iff.mp h
  have hsplit : row = row.take i ++ x :: row.drop (i + 1) := by
    rw [← hx, ← drop_eq_getElem_cons hi, take_append_drop]
  rw [swapRemoveAt]
  cases hlast : (row.drop (i + 1)).getLast? with
  | none =>
    rw [getLast?_eq_none_iff.mp hlast] at hsplit
    conv_lhs => rw [hsplit]
    exact perm_append_singleton _ _
  | some last =>
    obtain ⟨rest, hrest⟩ := getLast?_eq_some_iff.mp hlast
    conv_lhs => rw [hsplit]
    rw [hrest, dropLast_concat]
    refine perm_middle.trans (List.Perm.cons x ?_)
    exact List.Perm.append_left _ (perm_append_singleton _ _)

/-- `IndexSet::insert`. -/
def setInsert [DecidableEq α] (x : α) (row : List α) : List α := if x ∈ row then row else row ++ [x]

/-- `IndexSet::swap_remove`. -/
def setSwapRemove [DecidableEq α] (x : α) (row : List α) : List α :=
  match row.findIdx? fun y => decide (y = x) with
  | none => row
  | some i => swapRemoveAt row i

end

/-! ## Maps -/

/-- Entries in a row, with different keys. -/
structure IndexMap (K V : Type) where
  entries : List (K × V)
  nodup : (entries.map fst).Nodup

namespace IndexMap
variable {K V : Type} [DecidableEq K] (m : IndexMap K V) (k k' : K) (v : V)

instance : EmptyCollection (IndexMap K V) := ⟨⟨[], nodup_nil⟩⟩

def get? : Option V := (m.entries.find? fun e => decide (e.1 = k)).map snd

/-- The position of a key. -/
def indexOf? : Option ℕ := m.entries.findIdx? fun e => decide (e.1 = k)

def size : ℕ := m.entries.length

variable {m k v} in
theorem get?_eq_some_iff : m.get? k = some v ↔ (k, v) ∈ m.entries := by
  rw [get?, map_eq_some_iff]
  constructor
  · rintro ⟨⟨k', v'⟩, hfind, rfl⟩
    have hk : k' = k := by simpa using find?_some hfind
    rw [← hk]
    exact mem_of_find?_eq_some hfind
  · intro hmem
    cases hfind : m.entries.find? fun e => decide (e.1 = k) with
    | none => exact absurd (find?_eq_none.mp hfind (k, v) hmem) (by simp)
    | some e =>
      have hk : e.1 = k := by simpa using find?_some hfind
      have he := inj_on_of_nodup_map m.nodup (mem_of_find?_eq_some hfind) hmem hk
      exact ⟨e, rfl, congrArg snd he⟩

variable {m k} in
theorem get?_eq_none_iff : m.get? k = none ↔ k ∉ m.entries.map fst := by
  rw [Option.eq_none_iff_forall_ne_some, List.mem_map]
  constructor
  · rintro h ⟨⟨_, v⟩, hmem, rfl⟩
    exact h v (get?_eq_some_iff.mpr hmem)
  · intro h v hget
    exact h ⟨(k, v), get?_eq_some_iff.mp hget, rfl⟩

/-- The value of a key is replaced in its place, and a new key goes to the end. -/
def insert : IndexMap K V where
  entries :=
    if k ∈ m.entries.map fst then m.entries.map fun e => if e.1 = k then (k, v) else e
    else m.entries ++ [(k, v)]
  nodup := by
    split_ifs with hk
    · have hkeys : (m.entries.map fun e => if e.1 = k then (k, v) else e).map fst =
          m.entries.map fst := by
        rw [List.map_map]
        refine map_congr_left fun e _ => ?_
        show (if e.1 = k then (k, v) else e).1 = e.1
        split_ifs with he
        · exact he.symm
        · rfl
      rw [hkeys]
      exact m.nodup
    · rw [map_append, map_singleton]
      refine nodup_append.mpr ⟨m.nodup, nodup_singleton _, fun a ha b hb heq => hk ?_⟩
      have hbk : b = k := mem_singleton.mp hb
      rwa [← hbk, ← heq]

theorem get?_insert : (m.insert k v).get? k' = if k = k' then some v else m.get? k' := by
  have hentries : ∀ v', (k', v') ∈ (m.insert k v).entries ↔
      if k = k' then v' = v else (k', v') ∈ m.entries := by
    intro v'
    show (k', v') ∈ (if k ∈ m.entries.map fst then
      m.entries.map fun e => if e.1 = k then (k, v) else e else m.entries ++ [(k, v)]) ↔ _
    by_cases hmem : k ∈ m.entries.map fst <;> by_cases heq : k = k'
    · rw [if_pos hmem, if_pos heq]
      obtain ⟨e, he, hk⟩ := mem_map.mp hmem
      rw [List.mem_map]
      constructor
      · rintro ⟨e', -, he'⟩
        split_ifs at he' with hk'
        · exact (congrArg snd he').symm
        · exact absurd ((congrArg fst he').trans heq.symm) hk'
      · rintro rfl
        exact ⟨e, he, by rw [if_pos hk, heq]⟩
    · rw [if_pos hmem, if_neg heq, List.mem_map]
      constructor
      · rintro ⟨e', hmem', he'⟩
        split_ifs at he' with hk'
        · exact absurd (congrArg fst he') heq
        · rwa [← he']
      · intro hin
        exact ⟨(k', v'), hin, if_neg fun h => heq h.symm⟩
    · rw [if_neg hmem, if_pos heq, mem_append, mem_singleton, ← heq]
      constructor
      · rintro (hin | hone)
        · exact absurd (mem_map_of_mem hin) hmem
        · exact congrArg snd hone
      · rintro rfl
        exact .inr rfl
    · rw [if_neg hmem, if_neg heq, mem_append, mem_singleton]
      exact or_iff_left fun h => heq (congrArg fst h).symm
  refine Option.ext fun v' => ?_
  rw [get?_eq_some_iff, hentries]
  split_ifs
  · rw [some_inj, eq_comm]
  · rw [get?_eq_some_iff]

/-- The position and the value of a key, and the map without it. -/
def swapRemove : Option (ℕ × V × IndexMap K V) :=
  match m.indexOf? k with
  | none => none
  | some i =>
    match hi : m.entries[i]? with
    | none => none
    | some e => some (i, e.2, ⟨swapRemoveAt m.entries i,
        (nodup_cons.mp (((perm_swapRemoveAt hi).map fst).nodup_iff.mp m.nodup)).2⟩)

variable {m k} in
theorem get?_eq_none_of_swapRemove (h : m.swapRemove k = none) : m.get? k = none := by
  unfold swapRemove at h
  split at h
  · rename_i hindex
    refine get?_eq_none_iff.mpr fun hmem => ?_
    obtain ⟨e, he, hk⟩ := mem_map.mp hmem
    have hfalse := findIdx?_eq_none_iff.mp hindex e he
    exact absurd hk (of_decide_eq_false hfalse)
  · rename_i i hindex
    obtain ⟨hi, -, -⟩ := findIdx?_eq_some_iff_getElem.mp hindex
    split at h
    · rename_i hget
      exact absurd hi (Nat.not_lt.mpr (getElem?_eq_none_iff.mp hget))
    · cases h

variable {m k} in
theorem get?_swapRemove {i : ℕ} {m' : IndexMap K V} (h : m.swapRemove k = some (i, v, m')) :
    m.get? k = some v ∧ ∀ k', m'.get? k' = if k = k' then none else m.get? k' := by
  unfold swapRemove at h
  split at h
  · cases h
  · rename_i i' hindex
    split at h
    · cases h
    · rename_i e he
      have hperm := perm_swapRemoveAt he
      obtain ⟨rfl, rfl, rfl⟩ : i' = i ∧ e.2 = v ∧ _ = m' := by
        simpa using h
      have hk : e.1 = k := by
        obtain ⟨hi, hdec, -⟩ := findIdx?_eq_some_iff_getElem.mp hindex
        rw [getElem?_eq_getElem hi, some_inj] at he
        rw [← he]
        exact of_decide_eq_true hdec
      subst hk
      have hnodup := (hperm.map fst).nodup_iff.mp m.nodup
      refine ⟨get?_eq_some_iff.mpr (hperm.mem_iff.mpr mem_cons_self), fun k' => ?_⟩
      split_ifs with heq
      · rw [← heq]
        exact get?_eq_none_iff.mpr (nodup_cons.mp hnodup).1
      · refine Option.ext fun v' => ?_
        rw [get?_eq_some_iff, get?_eq_some_iff, hperm.mem_iff, mem_cons]
        exact (or_iff_right fun h' => heq (congrArg fst h').symm).symm

end IndexMap
end FlowraValidator
