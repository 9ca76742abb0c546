import Mathlib

/-!
# Ordered maps stored under a key of their own values

A `BTreeMap<K, V>` in which every value sits under a key computed from the value itself is a list
of values in strictly increasing key order. Three operations are needed of it: `insertNew`, which
refuses a key that is already present (the `insert(..).unwrap_none()` idiom), `upsert`, which
replaces what was under the key, and `removeKey`, which refuses a key that is absent (the
`remove(..).unwrap()` idiom).

* `sorted_of_insertNew`, `mem_of_insertNew`: an insertion keeps the order and adds one value.
* `insertNew_of_forall_lt`, `insertNew_of_forall_gt`: a value above (below) every key goes to the
  end (to the front).
* `sorted_upsert`, `mem_upsert`: the same for a replacing insertion.
* `sorted_of_removeKey`, `mem_of_removeKey`: a removal keeps the order and drops one value.
-/

namespace FlowraValidator.KeyedList
open List Option List.Pairwise

variable {α κ : Type*} [LinearOrder κ] (key : α → κ)

/-- Strictly increasing key order: the order of the entries, and that no key occurs twice. -/
def Sorted (l : List α) : Prop := l.Pairwise fun x y => key x < key y

/-- `insert(key, x).unwrap_none()`: insertion of a fresh key, `none` where the key is present. -/
def insertNew (x : α) (l : List α) : Option (List α) :=
  if ∃ y ∈ l, key y = key x then none
  else some (l.orderedInsert (fun a b => key a ≤ key b) x)

/-- `insert(key, x)`: insertion that replaces the entry of the key. -/
def upsert (x : α) (l : List α) : List α :=
  (l.filter fun y => key y ≠ key x).orderedInsert (fun a b => key a ≤ key b) x

/-- `remove(key).unwrap()`: removal of a key, `none` where the key is absent. -/
def removeKey (k : κ) (l : List α) : Option (List α) :=
  if ∃ y ∈ l, key y = k then some (l.filter fun y => key y ≠ k) else none

variable {key}

theorem sorted_nil : Sorted key ([] : List α) := nil

theorem sorted_singleton (x : α) : Sorted key [x] := pairwise_singleton _ x

variable {l : List α} {x y : α} {k : κ}

theorem sorted_cons : Sorted key (x :: l) ↔ (∀ y ∈ l, key x < key y) ∧ Sorted key l := pairwise_cons

/-- In a sorted list the key determines the value. -/
theorem Sorted.eq_of_key_eq (h : Sorted key l) (hx : x ∈ l) (hy : y ∈ l) (hxy : key x = key y) :
    x = y := by
  induction l with
  | nil => cases hx
  | cons z l ih =>
    obtain ⟨hz, hl⟩ := sorted_cons.mp h
    rcases mem_cons.mp hx with rfl | hx'
    · rcases mem_cons.mp hy with rfl | hy'
      · rfl
      · exact absurd hxy (hz y hy').ne
    · rcases mem_cons.mp hy with rfl | hy'
      · exact absurd hxy (hz x hx').ne'
      · exact ih hl hx' hy'

theorem Sorted.nodup (h : Sorted key l) : l.Nodup := by
  refine imp (fun {x y} hxy => ?_) h
  rintro rfl
  exact lt_irrefl _ hxy

theorem Sorted.filter (h : Sorted key l) (p : α → Bool) : Sorted key (l.filter p) :=
  List.Pairwise.filter p h

/-! ## Insertion -/

variable {l' : List α}

theorem insertNew_eq_some_iff :
    insertNew key x l = some l' ↔
      (∀ y ∈ l, key y ≠ key x) ∧ l.orderedInsert (fun a b => key a ≤ key b) x = l' := by
  unfold insertNew
  split_ifs with h
  · obtain ⟨y, hy, hyx⟩ := h
    refine ⟨fun h => absurd h (by simp), fun h => absurd hyx (h.1 y hy)⟩
  · push Not at h
    rw [some_inj]
    exact ⟨fun e => ⟨h, e⟩, fun e => e.2⟩

theorem exists_insertNew (h : ∀ y ∈ l, key y ≠ key x) : ∃ l', insertNew key x l = some l' :=
  ⟨_, insertNew_eq_some_iff.mpr ⟨h, rfl⟩⟩

theorem mem_of_insertNew (h : insertNew key x l = some l') : y ∈ l' ↔ y = x ∨ y ∈ l := by
  rw [← (insertNew_eq_some_iff.mp h).2]
  exact mem_orderedInsert _

theorem sorted_of_insertNew (hl : Sorted key l) (h : insertNew key x l = some l') :
    Sorted key l' := by
  obtain ⟨hne, rfl⟩ := insertNew_eq_some_iff.mp h
  clear h
  induction l with
  | nil => exact sorted_singleton x
  | cons z l ih =>
    obtain ⟨hz, hl'⟩ := sorted_cons.mp hl
    have hzx : key z ≠ key x := hne z mem_cons_self
    rw [orderedInsert_cons]
    split_ifs with hle
    · have hlt : key x < key z := lt_of_le_of_ne hle (Ne.symm hzx)
      refine sorted_cons.mpr ⟨fun y hy => ?_, hl⟩
      rcases mem_cons.mp hy with rfl | hy'
      · exact hlt
      · exact hlt.trans (hz y hy')
    · refine sorted_cons.mpr ⟨fun y hy => ?_, ih hl' fun y hy => hne y (mem_cons_of_mem _ hy)⟩
      rcases (mem_orderedInsert _).mp hy with rfl | hy'
      · exact not_le.mp hle
      · exact hz y hy'

/-- A key above every other one goes to the end. -/
theorem insertNew_of_forall_lt (h : ∀ y ∈ l, key y < key x) :
    insertNew key x l = some (l ++ [x]) := by
  refine insertNew_eq_some_iff.mpr ⟨fun y hy => (h y hy).ne, ?_⟩
  induction l with
  | nil => rfl
  | cons z l ih =>
    have hz : ¬ key x ≤ key z := not_le.mpr (h z mem_cons_self)
    rw [orderedInsert_cons, if_neg hz, ih fun y hy => h y (mem_cons_of_mem _ hy)]
    rfl

/-- A key below every other one goes to the front. -/
theorem insertNew_of_forall_gt (h : ∀ y ∈ l, key x < key y) :
    insertNew key x l = some (x :: l) := by
  refine insertNew_eq_some_iff.mpr ⟨fun y hy => (h y hy).ne', ?_⟩
  cases l with
  | nil => rfl
  | cons z l => rw [orderedInsert_cons, if_pos (h z mem_cons_self).le]

/-! ## Replacement -/

theorem insertNew_filter (x : α) (l : List α) :
    insertNew key x (l.filter fun y => key y ≠ key x) = some (upsert key x l) :=
  insertNew_eq_some_iff.mpr ⟨fun y hy => by simpa using (mem_filter.mp hy).2, rfl⟩

theorem mem_upsert : y ∈ upsert key x l ↔ y = x ∨ y ∈ l ∧ key y ≠ key x := by
  rw [mem_of_insertNew (insertNew_filter x l), mem_filter]
  simp

theorem sorted_upsert (hl : Sorted key l) : Sorted key (upsert key x l) :=
  sorted_of_insertNew (hl.filter _) (insertNew_filter x l)

/-! ## Removal -/

theorem removeKey_eq_some_iff :
    removeKey key k l = some l' ↔ (∃ y ∈ l, key y = k) ∧ l.filter (fun y => key y ≠ k) = l' := by
  unfold removeKey
  split_ifs with h
  · rw [some_inj]
    exact ⟨fun e => ⟨h, e⟩, fun e => e.2⟩
  · exact ⟨fun e => absurd e (by simp), fun e => absurd e.1 h⟩

theorem mem_of_removeKey (h : removeKey key k l = some l') : y ∈ l' ↔ y ∈ l ∧ key y ≠ k := by
  rw [← (removeKey_eq_some_iff.mp h).2, mem_filter]
  simp

theorem sorted_of_removeKey (hl : Sorted key l) (h : removeKey key k l = some l') :
    Sorted key l' := by
  rw [← (removeKey_eq_some_iff.mp h).2]
  exact hl.filter _

theorem length_of_removeKey (hl : Sorted key l) (h : removeKey key k l = some l') :
    l'.length + 1 = l.length := by
  obtain ⟨⟨y, hy, hk⟩, rfl⟩ := removeKey_eq_some_iff.mp h
  clear h
  induction l with
  | nil => cases hy
  | cons z l ih =>
    obtain ⟨hz, hl'⟩ := sorted_cons.mp hl
    rcases mem_cons.mp hy with rfl | hy'
    · have hall : l.filter (fun x => decide (key x ≠ k)) = l := by
        refine filter_eq_self.mpr fun x hx => ?_
        rw [decide_eq_true_iff, ← hk]
        exact (hz x hx).ne'
      rw [filter_cons_of_neg (by simp [hk]), hall, length_cons]
    · have hne : key z ≠ k := by
        rw [← hk]
        exact (hz y hy').ne
      rw [filter_cons_of_pos (by simpa using hne), length_cons, length_cons, ih hl' hy']

end FlowraValidator.KeyedList
