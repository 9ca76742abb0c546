import FlowraValidator.Lib.OrdMap

/-!
# The ranks of the validators of an epoch

Votes and certificates name a validator by its rank. `BLSPubkeyToRankMap::new` goes through the
vote accounts of the epoch in the order of a hash map, keeps those with stake and a BLS key, and
sorts them by stake and then by BLS key. The vote account itself takes no part in the comparison,
and the ranks are stored by BLS key.

* `perm_sortedPubkeys`, `pairwise_sortedPubkeys`: the table is a sorted rearrangement of the
  staked accounts.
* `getRank_of_getElem?`, `len_of_nodup`: the two containers agree when the BLS keys differ.
* `sound_iff`: nodes agree on the ranks, and the ranks on the table, exactly when no two
  staked accounts share a BLS key and the ranks fit in sixteen bits.
-/

namespace FlowraValidator.Runtime
open List Option Std.ExtTreeMap

/-- `BLSPubkeyStakeEntry`. -/
structure BLSPubkeyStakeEntry (P B : Type) where
  pubkey : P
  blsPubkey : B
  stake : ℕ

/-- `BLSPubkeyToRankMap`. -/
structure BLSPubkeyToRankMap (P B : Type) [LinearOrder B] where
  /-- The rank of a BLS key. -/
  rankMap : OrdMap B ℕ
  /-- The entry of a rank. -/
  sortedPubkeys : List (BLSPubkeyStakeEntry P B)

namespace BLSPubkeyToRankMap
variable {P B A : Type} [LinearOrder B] (blsPubkeyOf : A → Option B)

/-- The entry of a vote account with stake and a BLS key. `blsPubkeyOf` reads the key from the
account's vote state and decompresses it. -/
def entryOf : P × ℕ × A → Option (BLSPubkeyStakeEntry P B)
  | (pubkey, stake, account) =>
    if 0 < stake then (blsPubkeyOf account).map fun blsPubkey => ⟨pubkey, blsPubkey, stake⟩
    else none

/-- The comparison of the sort: more stake first, then the smaller BLS key. -/
def le (a b : BLSPubkeyStakeEntry P B) : Bool :=
  ((compare b.stake a.stake).then (compare a.blsPubkey b.blsPubkey)).isLE

/-- `BLSPubkeyToRankMap::new`, for the vote accounts in the order in which the hash map is
iterated. -/
def new (accounts : List (P × ℕ × A)) : BLSPubkeyToRankMap P B :=
  let sorted := (accounts.filterMap (entryOf blsPubkeyOf)).mergeSort le
  { rankMap := (∅ : OrdMap B ℕ).insertMany
      (sorted.zipIdx.map fun ranked => (ranked.1.blsPubkey, ranked.2 % 2 ^ 16))
    sortedPubkeys := sorted }

/-- `BLSPubkeyToRankMap::len`. -/
def len (m : BLSPubkeyToRankMap P B) : ℕ := m.rankMap.size

/-- `BLSPubkeyToRankMap::get_rank`. -/
def getRank (m : BLSPubkeyToRankMap P B) (blsPubkey : B) : Option ℕ := m.rankMap[blsPubkey]?

/-- `BLSPubkeyToRankMap::get_pubkey_stake_entry`. -/
def getPubkeyStakeEntry (m : BLSPubkeyToRankMap P B) (index : ℕ) :
    Option (BLSPubkeyStakeEntry P B) := m.sortedPubkeys[index]?

variable {a b c : BLSPubkeyStakeEntry P B} {accounts : List (P × ℕ × A)}

theorem le_iff :
    le a b = true ↔ b.stake < a.stake ∨ b.stake = a.stake ∧ a.blsPubkey ≤ b.blsPubkey := by
  rw [le, Ordering.isLE_then_iff_or, compare_lt_iff_lt, compare_eq_iff_eq, Ordering.isLE_iff_ne_gt,
    ← Ne, compare_le_iff_le]

theorem trans_le (a b c : BLSPubkeyStakeEntry P B) (hab : le a b = true) (hbc : le b c = true) :
    le a c = true := by
  rw [le_iff] at hab hbc ⊢
  rcases hab with hab | ⟨hab, hkey⟩ <;> rcases hbc with hbc | ⟨hbc, hkey'⟩
  · exact .inl (hbc.trans hab)
  · exact .inl (hbc ▸ hab)
  · exact .inl (hab ▸ hbc)
  · exact .inr ⟨hbc.trans hab, hkey.trans hkey'⟩

theorem total_le (a b : BLSPubkeyStakeEntry P B) : (le a b || le b a) = true := by
  rw [Bool.or_eq_true, le_iff, le_iff]
  rcases lt_trichotomy a.stake b.stake with h | h | h
  · exact .inr (.inl h)
  · rcases le_total a.blsPubkey b.blsPubkey with hkey | hkey
    · exact .inl (.inr ⟨h.symm, hkey⟩)
    · exact .inr (.inr ⟨h, hkey⟩)
  · exact .inl (.inl h)

section
variable (accounts)

/-- The table holds the staked accounts with a BLS key. -/
theorem perm_sortedPubkeys :
    (new blsPubkeyOf accounts).sortedPubkeys.Perm (accounts.filterMap (entryOf blsPubkeyOf)) :=
  mergeSort_perm _ _

theorem pairwise_sortedPubkeys :
    (new blsPubkeyOf accounts).sortedPubkeys.Pairwise fun a b => le a b = true :=
  pairwise_mergeSort trans_le total_le _

end

open BLSPubkeyStakeEntry

section
variable {blsPubkeyOf}
  (h : ((new blsPubkeyOf accounts).sortedPubkeys.map blsPubkey).Nodup)
include h
theorem nodup_ranked :
    (((new blsPubkeyOf accounts).sortedPubkeys.zipIdx.map fun ranked =>
      (ranked.1.blsPubkey, ranked.2 % 2 ^ 16)).map Prod.fst).Nodup := by
  rw [← zipIdx_map_fst 0 (new blsPubkeyOf accounts).sortedPubkeys, List.map_map] at h
  rwa [List.map_map]

/-- The rank stored for the key of an entry is the entry's own, in sixteen bits. -/
theorem getRank_of_getElem? {r : ℕ}
    (hr : (new blsPubkeyOf accounts).getPubkeyStakeEntry r = some a) :
    (new blsPubkeyOf accounts).getRank a.blsPubkey = some (r % 2 ^ 16) := by
  refine OrdMap.get_insertMany_of_mem (nodup_ranked h) (mem_map.mpr ⟨(a, r), ?_, rfl⟩)
  exact mk_mem_zipIdx_iff_getElem?.mpr hr

theorem len_of_nodup :
    (new blsPubkeyOf accounts).len = (new blsPubkeyOf accounts).sortedPubkeys.length := by
  have hsize := size_insertMany_list (t := (∅ : OrdMap B ℕ))
    ((pairwise_map.mp (nodup_ranked h)).imp fun hne heq => hne (compare_eq_iff_eq.mp heq))
    (fun _ hmem => absurd hmem not_mem_empty)
  rwa [size_empty, length_map, length_zipIdx, Nat.zero_add] at hsize

/-- Another order of iteration gives the same table. -/
theorem sortedPubkeys_eq_of_perm {order : List (P × ℕ × A)} (hperm : order.Perm accounts) :
    (new blsPubkeyOf order).sortedPubkeys = (new blsPubkeyOf accounts).sortedPubkeys := by
  have htable : (new blsPubkeyOf order).sortedPubkeys.Perm
      (new blsPubkeyOf accounts).sortedPubkeys :=
    ((perm_sortedPubkeys _ order).trans (hperm.filterMap _)).trans (perm_sortedPubkeys _ _).symm
  refine htable.eq_of_pairwise (fun a b ha hb hab hba => ?_) (pairwise_sortedPubkeys _ _)
    (pairwise_sortedPubkeys _ _)
  refine inj_on_of_nodup_map h (htable.mem_iff.mp ha) hb ?_
  rw [le_iff] at hab hba
  have hkey : a.blsPubkey ≤ b.blsPubkey := (hab.resolve_left (by omega)).2
  exact le_antisymm hkey (hba.resolve_left (by omega)).2

end

/-- The ranks of an epoch are sound: every order of iteration gives the same table, the rank of an
entry's key is the entry's own, and the number of ranks is the number of entries. -/
structure Sound (accounts : List (P × ℕ × A)) : Prop where
  sortedPubkeys_eq : ∀ {o o'}, o.Perm accounts → o'.Perm accounts →
    (new blsPubkeyOf o).sortedPubkeys = (new blsPubkeyOf o').sortedPubkeys
  getRank_eq : ∀ {o}, o.Perm accounts → ∀ {r entry},
    (new blsPubkeyOf o).getPubkeyStakeEntry r = some entry →
    (new blsPubkeyOf o).getRank entry.blsPubkey = some r
  len_eq : ∀ {o}, o.Perm accounts →
    (new blsPubkeyOf o).len = (new blsPubkeyOf o).sortedPubkeys.length

/-- **The ranks are sound exactly when no two staked accounts share a BLS key and there are at
most `2 ^ 16` of them.** -/
theorem sound_iff (accounts : List (P × ℕ × A)) :
    Sound blsPubkeyOf accounts ↔
      ((accounts.filterMap (entryOf blsPubkeyOf)).map blsPubkey).Nodup ∧
        (accounts.filterMap (entryOf blsPubkeyOf)).length ≤ 2 ^ 16 := by
  have hnodup : ∀ {o}, o.Perm accounts →
      (((new blsPubkeyOf o).sortedPubkeys.map blsPubkey).Nodup ↔
        ((accounts.filterMap (entryOf blsPubkeyOf)).map blsPubkey).Nodup) :=
    fun ho => (((perm_sortedPubkeys _ _).trans (ho.filterMap _)).map _).nodup_iff
  have hlength : ∀ {o}, o.Perm accounts → (new blsPubkeyOf o).sortedPubkeys.length =
      (accounts.filterMap (entryOf blsPubkeyOf)).length :=
    fun ho => ((perm_sortedPubkeys _ _).trans (ho.filterMap _)).length_eq
  constructor
  · intro hs
    have hget {r : ℕ} (hr : r < (new blsPubkeyOf accounts).sortedPubkeys.length) :=
      hs.getRank_eq (Perm.refl _) (getElem?_eq_getElem hr)
    have hkeys : ((new blsPubkeyOf accounts).sortedPubkeys.map
        blsPubkey).Nodup := by
      -- Two entries with one key both have the rank stored for that key.
      refine pairwise_map.mpr (pairwise_iff_getElem.mpr fun i j hi hj hij heq => ?_)
      have hrank := hget hi
      rw [heq, hget hj] at hrank
      exact hij.ne' (some_inj.mp hrank)
    refine ⟨(hnodup (Perm.refl _)).mp hkeys, ?_⟩
    rw [← hlength (Perm.refl _)]
    refine le_of_forall_lt fun r hr => ?_
    have hrank := getRank_of_getElem? hkeys (getElem?_eq_getElem hr)
    rw [hget hr] at hrank
    rw [some_inj.mp hrank]
    exact Nat.mod_lt _ (by decide)
  · rintro ⟨hkeys, hle⟩
    have hsame := (hnodup (Perm.refl _)).mpr hkeys
    refine ⟨fun ho ho' => ?_, fun {_} ho {r entry} hr => ?_, fun ho => ?_⟩
    · rw [sortedPubkeys_eq_of_perm hsame ho, sortedPubkeys_eq_of_perm hsame ho']
    · rw [getRank_of_getElem? ((hnodup ho).mpr hkeys) hr, Nat.mod_eq_of_lt]
      obtain ⟨hlt, -⟩ := List.getElem?_eq_some_iff.mp hr
      exact hlt.trans_le (hlength ho ▸ hle)
    · exact len_of_nodup ((hnodup ho).mpr hkeys)

/-- Two vote accounts with one BLS key and equal stake: their ranks depend on the order of
iteration, the key's rank is that of the second entry, and only one of two ranks is counted. -/
theorem not_sound_of_shared_key :
    let accounts := [(0, 5, some 7), (1, 5, some 7)]
    (new id accounts).sortedPubkeys = [⟨0, 7, 5⟩, ⟨1, 7, 5⟩] ∧
      (new id accounts.reverse).sortedPubkeys = [⟨1, 7, 5⟩, ⟨0, 7, 5⟩] ∧
      (new id accounts).getPubkeyStakeEntry 0 = some ⟨0, 7, 5⟩ ∧
      (new id accounts).getRank 7 = some 1 ∧ (new id accounts).len = 1 := by
  simp [new, entryOf, List.mergeSort, le, getRank, len, getPubkeyStakeEntry,
    insertMany_cons, size_insert]

end BLSPubkeyToRankMap
end FlowraValidator.Runtime
