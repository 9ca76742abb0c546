import FlowraValidator.Lib.OrdMap

/-!
# Cleaning the accounts index

`accounts-db/src/accounts_index.rs`: for each key the index holds a list of slots in which the
account was written, in any order. A bank reads the newest slot that is one of its ancestors or a
root. `clean_rooted_entries` removes old entries from the list. It keeps the newest root up to a
bound, everything from the bound on, and what is only cached.

Cleaning does not wait for a newer root: an entry that is newer than the newest root of the list but
older than the bound is removed too, since its slot cannot become a root any more
(`clean_removes_unrooted`). A bank whose ancestors up to the bound are roots does not see such an
entry, and it does not see the other entries that are removed because it sees the newest root.

* `latestSlot`: the entry that is read.
* `purgeOlderRootEntries`, `cleanRootedEntries`: cleaning.
* `latestEntry_spec`: what is read is the newest visible entry.
* `cleanRootedEntries_read`: what cleaning removes, and that live banks read the same.
-/

namespace FlowraValidator.AccountsDb
open List Option OrdMap Prod

/-- `trait IsCached`. -/
class IsCached (T : Type) where
  isCached : T → Bool

/-- The alive roots. Roots are looked up below `maxExclusive` only, which may be greater than the
greatest root. -/
structure AliveRoots where
  items : Finset ℕ
  maxExclusive : ℕ

namespace AliveRoots

def contains (roots : AliveRoots) (slot : ℕ) : Bool :=
  decide (slot < roots.maxExclusive ∧ slot ∈ roots.items)

def maxInclusive (roots : AliveRoots) : ℕ := roots.maxExclusive - 1

end AliveRoots

variable {K T : Type}

/-! ## Reading -/

/-- The loops of `latest_slot` over slots and positions: the position of the newest slot so far that
passes the test, and this slot. -/
def newestLoop (test : ℕ → Bool) :
    Option ℕ × ℕ → List (ℕ × ℕ) → Option ℕ × ℕ
  | acc, [] => acc
  | (rv, currentMax), (slot, i) :: rest =>
    if (rv.isNone || decide (slot > currentMax)) && test slot then
      newestLoop test (some i, slot) rest
    else newestLoop test (rv, currentMax) rest

/-- The slots from the last one on, with their positions. -/
def positions (slotList : List (ℕ × T)) : List (ℕ × ℕ) := (slotList.reverse.map fst).zipIdx

/-- The test of the first loop. There are no ancestors if none are given. -/
def isAncestor (ancestors : Option (Finset ℕ)) (slot : ℕ) : Bool :=
  ancestors.elim false fun ancestors => decide (slot ∈ ancestors)

/-- The test of the second loop. No slot is greater than the default of `max_root_inclusive`. -/
def isRoot (roots : AliveRoots) (maxRootInclusive : Option ℕ) (slot : ℕ) : Bool :=
  maxRootInclusive.elim true (fun maxRoot => decide (slot ≤ maxRoot)) && roots.contains slot

def latestSlot (roots : AliveRoots) (ancestors : Option (Finset ℕ)) (slotList : List (ℕ × T))
    (maxRootInclusive : Option ℕ) : Option ℕ :=
  let acc := newestLoop (isAncestor ancestors) (none, 0) (positions slotList)
  let acc := newestLoop (isRoot roots maxRootInclusive) acc (positions slotList)
  acc.1.map fun index => slotList.length - 1 - index

/-- The entry at the latest slot. -/
def latestEntry (roots : AliveRoots) (ancestors : Option (Finset ℕ)) (slotList : List (ℕ × T))
    (maxRootInclusive : Option ℕ) : Option (ℕ × T) :=
  (latestSlot roots ancestors slotList maxRootInclusive).bind fun index => slotList[index]?

/-! ## Cleaning -/

def getNewestRootInSlotList (roots : AliveRoots) (slotList : List (ℕ × T))
    (maxAllowedRootInclusive : Option ℕ) : ℕ :=
  (((slotList.map fst).filter fun slot =>
    maxAllowedRootInclusive.elim true fun maxRoot => decide (slot ≤ maxRoot)).filter
      fun slot => roots.contains slot).max?.getD 0

def canPurgeOlderEntries (maxCleanRootExclusive newestRootInSlotList slot : ℕ) : Bool :=
  decide (slot < maxCleanRootExclusive) && decide (slot ≠ newestRootInSlotList)

/-- The bound of the cleaning. -/
def cleanBound (roots : AliveRoots) (maxCleanRootInclusive : Option ℕ) : ℕ :=
  maxCleanRootInclusive.getD roots.maxInclusive

section Clean
variable [IsCached T]

/-- The test of the loop in `purge_older_root_entries`. -/
def shouldPurge (roots : AliveRoots) (slotList : List (ℕ × T)) (maxCleanRootInclusive : Option ℕ)
    (entry : ℕ × T) : Bool :=
  canPurgeOlderEntries (cleanBound roots maxCleanRootInclusive)
    (getNewestRootInSlotList roots slotList maxCleanRootInclusive) entry.1 &&
    !IsCached.isCached entry.2

/-- The slot list, the reclaims, and whether the slot list is empty. -/
def purgeOlderRootEntries (roots : AliveRoots) (slotList reclaims : List (ℕ × T))
    (maxCleanRootInclusive : Option ℕ) : List (ℕ × T) × List (ℕ × T) × Bool :=
  let kept := slotList.filter fun entry => !shouldPurge roots slotList maxCleanRootInclusive entry
  (kept, reclaims ++ slotList.filter (shouldPurge roots slotList maxCleanRootInclusive),
    decide (kept.length = 0))

end Clean

/-- The slot lists of all keys, and the roots. -/
structure AccountsIndex (K T : Type) [LinearOrder K] where
  accountMaps : OrdMap K (List (ℕ × T))
  aliveRoots : AliveRoots

namespace AccountsIndex
variable [LinearOrder K]

/-- The entry of a key that is read. -/
def read (index : AccountsIndex K T) (pubkey : K) (ancestors : Option (Finset ℕ))
    (maxRootInclusive : Option ℕ) : Option (ℕ × T) :=
  index.accountMaps[pubkey]?.bind fun slotList =>
    latestEntry index.aliveRoots ancestors slotList maxRootInclusive

/-- `remove_if_slot_list_empty`: whether the key is not in the index any more. -/
def removeIfSlotListEmpty (index : AccountsIndex K T) (pubkey : K) : Bool × AccountsIndex K T :=
  match index.accountMaps[pubkey]? with
  | none => (true, index)
  | some slotList =>
    if slotList.length = 0 then
      (true, { index with accountMaps := index.accountMaps.erase pubkey })
    else (false, index)

/-- Whether the key was removed or was not there, the reclaims, and the index. -/
def cleanRootedEntries [IsCached T] (index : AccountsIndex K T) (pubkey : K)
    (reclaims : List (ℕ × T)) (maxCleanRootInclusive : Option ℕ) :
    Bool × List (ℕ × T) × AccountsIndex K T :=
  match index.accountMaps[pubkey]? with
  | none => (true, reclaims, index)
  | some slotList =>
    match purgeOlderRootEntries index.aliveRoots slotList reclaims maxCleanRootInclusive with
    | (slotList, reclaims, isSlotListEmpty) =>
      let index := { index with accountMaps := index.accountMaps.insert pubkey slotList }
      if isSlotListEmpty then
        match index.removeIfSlotListEmpty pubkey with
        | (removed, index) => (removed, reclaims, index)
      else (false, reclaims, index)

end AccountsIndex

/-! ## The newest visible entry -/

variable {roots : AliveRoots} {ancestors : Option (Finset ℕ)} {slotList : List (ℕ × T)}
  {maxRoot maxClean : Option ℕ} {entry : ℕ × T}

/-- A bank sees a slot. -/
def Visible (roots : AliveRoots) (ancestors : Option (Finset ℕ)) (maxRoot : Option ℕ)
    (slot : ℕ) : Prop :=
  isAncestor ancestors slot = true ∨ isRoot roots maxRoot slot = true

/-- The newest one of some slots with their positions. -/
def IsNewest (candidates : List (ℕ × ℕ)) (acc : Option ℕ × ℕ) : Prop :=
  match acc.1 with
  | none => candidates = []
  | some i => (acc.2, i) ∈ candidates ∧ ∀ c ∈ candidates, c.1 ≤ acc.2

/-- **The loop finds the newest slot that passes the test.** -/
theorem IsNewest.newestLoop {candidates : List (ℕ × ℕ)} {acc : Option ℕ × ℕ}
    (h : IsNewest candidates acc) (test : ℕ → Bool) (items : List (ℕ × ℕ)) :
    IsNewest (candidates ++ items.filter fun c => test c.1) (newestLoop test acc items) := by
  induction items generalizing candidates acc with
  | nil => rwa [filter_nil, append_nil]
  | cons item rest ih =>
    obtain ⟨rv, currentMax⟩ := acc
    obtain ⟨slot, i⟩ := item
    rw [AccountsDb.newestLoop]
    by_cases htest : test slot = true
    · rw [filter_cons_of_pos (p := fun c : ℕ × ℕ => test c.1) htest, append_cons]
      split_ifs with hnew
      · refine ih ⟨mem_append_right _ (mem_singleton_self _), fun c hc => ?_⟩
        rcases mem_append.mp hc with hold | hone
        · cases rv with
          | none =>
            rw [show candidates = [] from h] at hold
            cases hold
          | some j =>
            have hlt : currentMax < slot := by simpa [htest] using hnew
            exact (h.2 c hold).trans hlt.le
        · rw [mem_singleton.mp hone]
      · refine ih ?_
        cases rv with
        | none => simp [htest] at hnew
        | some j =>
          have hle : slot ≤ currentMax := by simpa [htest] using hnew
          refine ⟨mem_append_left _ h.1, fun c hc => ?_⟩
          rcases mem_append.mp hc with hold | hone
          · exact h.2 c hold
          · rwa [mem_singleton.mp hone]
    · rw [filter_cons_of_neg (p := fun c : ℕ × ℕ => test c.1) htest, if_neg (by simp [htest])]
      exact ih h

/-- An entry and its position from the end. -/
theorem mem_positions_iff {slot i : ℕ} :
    (slot, i) ∈ positions slotList ↔
      i < slotList.length ∧ ∃ info, slotList[slotList.length - 1 - i]? = some (slot, info) := by
  rw [positions, mem_zipIdx_iff_getElem?, getElem?_map]
  by_cases hi : i < slotList.length
  · rw [getElem?_reverse hi, map_eq_some_iff]
    constructor
    · rintro ⟨e, he, rfl⟩
      exact ⟨hi, e.2, he⟩
    · rintro ⟨-, info, he⟩
      exact ⟨_, he, rfl⟩
  · rw [getElem?_eq_none (by rw [length_reverse]; exact not_lt.mp hi)]
    simp [hi]

theorem exists_mem_positions (h : entry ∈ slotList) : ∃ i, (entry.1, i) ∈ positions slotList := by
  have hmem : entry.1 ∈ slotList.reverse.map fst := mem_map_of_mem (mem_reverse.mpr h)
  obtain ⟨i, hi, hget⟩ := mem_iff_getElem.mp hmem
  exact ⟨i, List.mem_zipIdx_iff_getElem?.mpr (List.getElem?_eq_some_iff.mpr ⟨hi, hget⟩)⟩

/-- **What is read is the newest visible entry**, if there is one. -/
theorem latestEntry_spec (roots : AliveRoots) (ancestors : Option (Finset ℕ))
    (slotList : List (ℕ × T)) (maxRoot : Option ℕ) :
    match latestEntry roots ancestors slotList maxRoot with
    | none => ∀ e ∈ slotList, ¬Visible roots ancestors maxRoot e.1
    | some entry => entry ∈ slotList ∧ Visible roots ancestors maxRoot entry.1 ∧
        ∀ e ∈ slotList, Visible roots ancestors maxRoot e.1 → e.1 ≤ entry.1 := by
  have hstart : IsNewest [] (none, 0) := rfl
  have hnewest := (hstart.newestLoop (isAncestor ancestors) (positions slotList)).newestLoop
    (isRoot roots maxRoot) (positions slotList)
  rw [nil_append] at hnewest
  have hcand : ∀ c, c ∈ (positions slotList).filter (fun c => isAncestor ancestors c.1) ++
      (positions slotList).filter (fun c => isRoot roots maxRoot c.1) ↔
      c ∈ positions slotList ∧ Visible roots ancestors maxRoot c.1 := by
    intro c
    rw [mem_append, mem_filter, mem_filter, ← and_or_left]
    rfl
  rw [latestEntry, latestSlot]
  generalize newestLoop (isRoot roots maxRoot)
    (newestLoop (isAncestor ancestors) (none, 0) (positions slotList)) (positions slotList) =
      acc at hnewest
  obtain ⟨rv, currentMax⟩ := acc
  cases rv with
  | none =>
    intro e he hvisible
    obtain ⟨i, hi⟩ := exists_mem_positions he
    have hmem := (hcand (e.1, i)).mpr ⟨hi, hvisible⟩
    rw [show _ = [] from hnewest] at hmem
    exact not_mem_nil hmem
  | some i =>
    obtain ⟨hmem, hmax⟩ := hnewest
    obtain ⟨hpos, hvisible⟩ := (hcand _).mp hmem
    obtain ⟨-, info, hget⟩ := mem_positions_iff.mp hpos
    rw [map_some, bind_some, hget]
    refine ⟨mem_of_getElem? hget, hvisible, fun e he hvis => ?_⟩
    obtain ⟨j, hj⟩ := exists_mem_positions he
    exact hmax _ ((hcand (e.1, j)).mpr ⟨hj, hvis⟩)

/-- There is one newest visible entry. -/
theorem latestEntry_eq_some (hnodup : (slotList.map fst).Nodup) (hmem : entry ∈ slotList)
    (hvisible : Visible roots ancestors maxRoot entry.1)
    (hmax : ∀ e ∈ slotList, Visible roots ancestors maxRoot e.1 → e.1 ≤ entry.1) :
    latestEntry roots ancestors slotList maxRoot = some entry := by
  have hspec := latestEntry_spec roots ancestors slotList maxRoot
  cases hlatest : latestEntry roots ancestors slotList maxRoot with
  | none =>
    rw [hlatest] at hspec
    exact absurd hvisible (hspec entry hmem)
  | some e =>
    rw [hlatest] at hspec
    obtain ⟨he, hvis, hmax'⟩ := hspec
    have hslot : e.1 = entry.1 := le_antisymm (hmax e he hvis) (hmax' entry hmem hvisible)
    rw [inj_on_of_nodup_map hnodup he hmem hslot]

/-! ## What is kept -/

/-- A root of the list up to the bound is not newer than the newest one, which is in the list. -/
theorem exists_newestRoot (hmem : entry ∈ slotList) (hroot : roots.contains entry.1 = true)
    (hle : entry.1 ≤ cleanBound roots maxClean) :
    entry.1 ≤ getNewestRootInSlotList roots slotList maxClean ∧
      roots.contains (getNewestRootInSlotList roots slotList maxClean) = true ∧
      getNewestRootInSlotList roots slotList maxClean ≤ cleanBound roots maxClean ∧
      ∃ e ∈ slotList, e.1 = getNewestRootInSlotList roots slotList maxClean := by
  set candidates := ((slotList.map fst).filter fun slot =>
    maxClean.elim true fun maxRoot => decide (slot ≤ maxRoot)).filter
      fun slot => roots.contains slot with hcandidates
  have hiff : ∀ slot, slot ∈ candidates ↔ (∃ e ∈ slotList, e.1 = slot) ∧
      slot ≤ cleanBound roots maxClean ∧ roots.contains slot = true := by
    intro slot
    rw [hcandidates, List.mem_filter, List.mem_filter, List.mem_map, and_assoc]
    refine and_congr_right fun _ => and_congr_left fun hcontains => ?_
    cases maxClean with
    | none => exact iff_of_true rfl (Nat.le_sub_one_of_lt (of_decide_eq_true hcontains).1)
    | some bound => exact decide_eq_true_iff
  have hin : entry.1 ∈ candidates := (hiff _).mpr ⟨⟨entry, hmem, rfl⟩, hle, hroot⟩
  obtain ⟨newest, hnewest⟩ : ∃ newest, candidates.max? = some newest := by
    refine isSome_iff_exists.mp ?_
    rw [isSome_max?_iff]
    exact ne_nil_of_mem hin
  have heq : getNewestRootInSlotList roots slotList maxClean = newest := by
    rw [getNewestRootInSlotList, ← hcandidates, hnewest]
    rfl
  obtain ⟨hnewestMem, hnewestMax⟩ := max?_eq_some_iff.mp hnewest
  obtain ⟨hlist, hbound, hcontains⟩ := (hiff newest).mp hnewestMem
  rw [heq]
  exact ⟨hnewestMax _ hin, hcontains, hbound, hlist⟩

section Clean
variable [IsCached T]

theorem shouldPurge_iff :
    shouldPurge roots slotList maxClean entry = true ↔
      entry.1 < cleanBound roots maxClean ∧
        entry.1 ≠ getNewestRootInSlotList roots slotList maxClean ∧
        IsCached.isCached entry.2 = false := by
  simp [shouldPurge, canPurgeOlderEntries, and_assoc]

/-- **A bank reads the same after cleaning**, if its ancestors up to the bound are roots, and it
sees the roots up to the bound. -/
theorem latestEntry_filter_shouldPurge (hnodup : (slotList.map fst).Nodup)
    (hancestors : ∀ slot, isAncestor ancestors slot = true → slot ≤ cleanBound roots maxClean →
      roots.contains slot = true)
    (hmaxRoot : ∀ m, maxRoot = some m → cleanBound roots maxClean ≤ m) :
    latestEntry roots ancestors
        (slotList.filter fun e => !shouldPurge roots slotList maxClean e) maxRoot =
      latestEntry roots ancestors slotList maxRoot := by
  set kept := slotList.filter fun e => !shouldPurge roots slotList maxClean e
  have hsub : ∀ e ∈ kept, e ∈ slotList := fun e he => mem_of_mem_filter he
  have hspec := latestEntry_spec roots ancestors slotList maxRoot
  cases hlatest : latestEntry roots ancestors slotList maxRoot with
  | none =>
    rw [hlatest] at hspec
    have hspec' := latestEntry_spec roots ancestors kept maxRoot
    cases hlatest' : latestEntry roots ancestors kept maxRoot with
    | none => rfl
    | some e =>
      rw [hlatest'] at hspec'
      exact absurd hspec'.2.1 (hspec e (hsub e hspec'.1))
  | some entry =>
    rw [hlatest] at hspec
    obtain ⟨hmem, hvisible, hmax⟩ := hspec
    have hnodup' : (kept.map fst).Nodup := hnodup.sublist (filter_sublist.map _)
    refine latestEntry_eq_some hnodup' (mem_filter.mpr ⟨hmem, ?_⟩) hvisible
      fun e he hvis => hmax e (hsub e he) hvis
    -- otherwise the newest root would be visible and newer
    rw [Bool.not_eq_true', Bool.eq_false_iff, Ne, shouldPurge_iff]
    rintro ⟨hlt, hne, -⟩
    have hroot : roots.contains entry.1 = true := by
      rcases hvisible with hanc | hroot
      · exact hancestors _ hanc hlt.le
      · exact (Bool.and_eq_true_iff.mp hroot).2
    obtain ⟨hle, hcontains, hbound, e, he, heq⟩ := exists_newestRoot hmem hroot hlt.le
    have hvis : Visible roots ancestors maxRoot e.1 := by
      refine .inr (Bool.and_eq_true_iff.mpr ⟨?_, heq ▸ hcontains⟩)
      cases hm : maxRoot with
      | none => rfl
      | some m => exact decide_eq_true (heq ▸ hbound.trans (hmaxRoot m hm))
    exact hne (le_antisymm hle (heq ▸ hmax e he hvis))

end Clean

/-! ## The index -/

namespace AccountsIndex
variable [LinearOrder K] [IsCached T] {index : AccountsIndex K T} {pubkey : K}
  {reclaims : List (ℕ × T)}

/-- The slot list of a key, which is empty if the key is not in the index. -/
def entriesOf (index : AccountsIndex K T) (pubkey : K) : List (ℕ × T) :=
  index.accountMaps[pubkey]?.getD []

/-- The entries that cleaning removes. -/
def purgedOf (index : AccountsIndex K T) (pubkey : K) (maxClean : Option ℕ) : List (ℕ × T) :=
  (index.entriesOf pubkey).filter (shouldPurge index.aliveRoots (index.entriesOf pubkey) maxClean)

/-- The entries that cleaning leaves. -/
def keptOf (index : AccountsIndex K T) (pubkey : K) (maxClean : Option ℕ) : List (ℕ × T) :=
  (index.entriesOf pubkey).filter fun e =>
    !shouldPurge index.aliveRoots (index.entriesOf pubkey) maxClean e

omit [IsCached T] in
theorem read_eq (index : AccountsIndex K T) (pubkey : K) (ancestors : Option (Finset ℕ))
    (maxRoot : Option ℕ) :
    index.read pubkey ancestors maxRoot =
      latestEntry index.aliveRoots ancestors (index.entriesOf pubkey) maxRoot := by
  unfold read entriesOf
  cases index.accountMaps[pubkey]? with
  | none => rfl
  | some slotList => rfl

omit [IsCached T] in
/-- The new slot list is stored, and the key is removed if the list is empty. -/
theorem exists_store_eq (index : AccountsIndex K T) (pubkey : K) (kept reclaims : List (ℕ × T)) :
    ∃ maps, (if decide (kept.length = 0) = true then
        match removeIfSlotListEmpty ⟨index.accountMaps.insert pubkey kept, index.aliveRoots⟩ pubkey
        with
        | (removed, index) => (removed, reclaims, index)
      else (false, reclaims, ⟨index.accountMaps.insert pubkey kept, index.aliveRoots⟩)) =
        (decide (maps[pubkey]? = none), reclaims, (⟨maps, index.aliveRoots⟩ : AccountsIndex K T)) ∧
      maps[pubkey]?.getD [] = kept ∧
      ∀ key, key ≠ pubkey → maps[key]? = index.accountMaps[key]? := by
  have hinsert : (index.accountMaps.insert pubkey kept)[pubkey]? = some kept :=
    (get_insert _ _ _ _).trans (if_pos rfl)
  have hother : ∀ key, key ≠ pubkey →
      (index.accountMaps.insert pubkey kept)[key]? = index.accountMaps[key]? := fun key hne =>
    (get_insert _ _ _ _).trans (if_neg hne.symm)
  by_cases hlen : kept.length = 0
  · have herase : ((index.accountMaps.insert pubkey kept).erase pubkey)[pubkey]? = none :=
      (get_erase _ _ _).trans (if_pos rfl)
    refine ⟨(index.accountMaps.insert pubkey kept).erase pubkey, ?_, ?_, fun key hne =>
      ((get_erase _ _ _).trans (if_neg hne.symm)).trans (hother key hne)⟩
    · rw [if_pos (decide_eq_true hlen), removeIfSlotListEmpty]
      rw [hinsert]
      dsimp only
      rw [if_pos hlen, decide_eq_true herase]
    · rw [herase, length_eq_zero_iff.mp hlen]
      rfl
  · refine ⟨index.accountMaps.insert pubkey kept, ?_, by rw [hinsert]; rfl, hother⟩
    rw [if_neg (by simpa using hlen), hinsert]
    rfl

/-- **Cleaning, all at once.**  The key is in the index afterwards iff something is left. -/
theorem exists_cleanRootedEntries_eq (index : AccountsIndex K T) (pubkey : K)
    (reclaims : List (ℕ × T)) (maxClean : Option ℕ) :
    ∃ maps, index.cleanRootedEntries pubkey reclaims maxClean =
        (decide (maps[pubkey]? = none), reclaims ++ index.purgedOf pubkey maxClean,
          ⟨maps, index.aliveRoots⟩) ∧
      maps[pubkey]?.getD [] = index.keptOf pubkey maxClean ∧
      ∀ key, key ≠ pubkey → maps[key]? = index.accountMaps[key]? := by
  unfold cleanRootedEntries purgedOf keptOf entriesOf
  cases hget : index.accountMaps[pubkey]? with
  | none =>
    refine ⟨index.accountMaps, ?_, by rw [hget]; rfl, fun _ _ => rfl⟩
    rw [decide_eq_true hget]
    simp
  | some slotList => exact exists_store_eq index pubkey _ _

/-- **Cleaning does not change what live banks read.**  What is removed are the entries before the
bound that are not cached and not at the newest root, and these are the reclaims. The result is
true iff the key is not in the index afterwards; other keys are as before. -/
theorem cleanRootedEntries_read (index : AccountsIndex K T) (pubkey : K) (reclaims : List (ℕ × T))
    (maxClean : Option ℕ) (hnodup : ((index.entriesOf pubkey).map fst).Nodup) :
    ∃ removed index' gone,
      index.cleanRootedEntries pubkey reclaims maxClean = (gone, reclaims ++ removed, index') ∧
      (∀ ancestors maxRoot,
        (∀ slot, isAncestor ancestors slot = true → slot ≤ cleanBound index.aliveRoots maxClean →
          index.aliveRoots.contains slot = true) →
        (∀ m, maxRoot = some m → cleanBound index.aliveRoots maxClean ≤ m) →
        index'.read pubkey ancestors maxRoot = index.read pubkey ancestors maxRoot) ∧
      (index'.entriesOf pubkey ++ removed).Perm (index.entriesOf pubkey) ∧
      (∀ entry ∈ index.entriesOf pubkey, entry ∈ removed ↔
        entry.1 < cleanBound index.aliveRoots maxClean ∧
          entry.1 ≠
            getNewestRootInSlotList index.aliveRoots (index.entriesOf pubkey) maxClean ∧
          IsCached.isCached entry.2 = false) ∧
      (gone = true ↔ index'.accountMaps[pubkey]? = none) ∧
      ∀ key, key ≠ pubkey → index'.accountMaps[key]? = index.accountMaps[key]? := by
  obtain ⟨maps, heq, hkept, hother⟩ := exists_cleanRootedEntries_eq index pubkey reclaims maxClean
  have hentries : entriesOf ⟨maps, index.aliveRoots⟩ pubkey = index.keptOf pubkey maxClean := hkept
  refine ⟨index.purgedOf pubkey maxClean, ⟨maps, index.aliveRoots⟩, _, heq, ?_, ?_, ?_,
    decide_eq_true_iff, hother⟩
  · intro ancestors maxRoot hancestors hmaxRoot
    rw [read_eq, read_eq, hentries]
    exact latestEntry_filter_shouldPurge hnodup hancestors hmaxRoot
  · rw [hentries, keptOf, purgedOf]
    exact perm_append_comm.trans (filter_append_perm _ _)
  · intro entry hentry
    rw [purgedOf, mem_filter, and_iff_right hentry]
    exact shouldPurge_iff

end AccountsIndex

/-! ## A slot that did not become a root -/

/-- `impl IsCached for bool`. -/
instance : IsCached Bool := ⟨fun _ => false⟩

/-- Slots `3` and `5` of one key, where `3` is a root. -/
def exampleIndex : AccountsIndex ℕ Bool where
  accountMaps := (∅ : OrdMap ℕ (List (ℕ × Bool))).insert 0 [(3, true), (5, false)]
  aliveRoots := ⟨{3}, 4⟩

/-- The entries can be cleaned, for a bank with the ancestors `3` and `12`. -/
theorem cleanRootedEntries_read_exampleIndex :
    ∃ removed index' gone,
      exampleIndex.cleanRootedEntries 0 [] (some 10) = (gone, [] ++ removed, index') ∧
      index'.read 0 (some {3, 12}) (some 10) = exampleIndex.read 0 (some {3, 12}) (some 10) := by
  obtain ⟨removed, index', gone, heq, hread, -⟩ :=
    AccountsIndex.cleanRootedEntries_read exampleIndex 0 [] (some 10)
      (by decide +kernel)
  refine ⟨removed, index', gone, heq, hread _ (some 10) (fun slot hanc hle => ?_) fun m hm => ?_⟩
  · have hbound : cleanBound exampleIndex.aliveRoots (some 10) < 12 := by decide +kernel
    rcases Finset.mem_insert.mp (of_decide_eq_true hanc) with rfl | hmem
    · decide +kernel
    · rw [Finset.mem_singleton.mp hmem] at hle
      omega
  · cases hm
    exact le_rfl

/-- **The entry of a slot that is not a root is removed** although it is newer than the newest root
of the list. -/
theorem clean_removes_unrooted :
    exampleIndex.entriesOf 0 = [(3, true), (5, false)] ∧
      exampleIndex.aliveRoots.contains 5 = false ∧
      getNewestRootInSlotList exampleIndex.aliveRoots (exampleIndex.entriesOf 0) (some 10) = 3 ∧
      (exampleIndex.cleanRootedEntries 0 [] (some 10)).2.1 = [(5, false)] := by
  decide +kernel

end FlowraValidator.AccountsDb
