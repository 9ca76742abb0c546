import FlowraValidator.Lib.OrdMap
import FlowraValidator.Lib.Wire

/-!
# The status cache

The status cache remembers which transactions were processed. Its first index goes from a recent
blockhash to the highest slot in which a transaction with this blockhash was recorded, the offset
of the part of a key that is kept, and for each such part the slots with their results; its second
index goes from a slot to what was recorded in it. Roots are kept in a window: when there are too
many, the least one goes, with every blockhash that was not recorded in a later slot.

An offset is drawn at random when a blockhash is recorded first; it is an argument here.

* `insert`, `getStatus`, `addRoot`, `clearSlotEntries`: the operations, `none` where they panic.
* `Window`: which roots are kept; `Recorded`: a key of a slot is found, unless a root that is not
  older than the slot left the window.
* `presentIn_insert`, `PresentIn.insert`, `Recorded.addRoot`, `PresentIn.clearBlockhash`: what is
  recorded stays recorded.
* `PresentIn.getStatus`: what is recorded is found from every fork through its slot.
-/

namespace FlowraValidator.Runtime
open List Option OrdMap Wire Set

/-- `MAX_CACHE_ENTRIES`, the number of recent blockhashes. -/
def maxCacheEntries : ℕ := 300

/-- `CACHED_KEY_SIZE`. -/
def cachedKeySize : ℕ := 20

/-- The slots of the forks in which a key was recorded, with its results. -/
abbrev ForkStatus (T : Type) := List (ℕ × T)

abbrev KeyMap (T : Type) := OrdMap (List ℕ) (ForkStatus T)

/-- What is kept for a blockhash: the highest slot, the offset in the keys, and the keys. -/
structure KeyStatus (T : Type) where
  maxSlot : ℕ
  keyIndex : ℕ
  keyMap : KeyMap T

/-- What was recorded in one slot, by blockhash: the offset in the keys, and the keys. -/
abbrev Status (T : Type) := OrdMap ℕ (ℕ × List (List ℕ × T))

structure StatusCache (T : Type) where
  cache : OrdMap ℕ (KeyStatus T)
  roots : Finset ℕ
  slotDeltas : OrdMap ℕ (Status T)

namespace StatusCache
variable {T : Type}

/-- `StatusCache::default`: slot 0 is always a root. -/
def default : StatusCache T where
  cache := ∅
  roots := {0}
  slotDeltas := ∅

/-- The last offset at which a part of the key can begin. -/
def maxKeyIndex (key : List ℕ) : ℕ := key.length - (cachedKeySize + 1)

/-- The part of the key that is kept. -/
def keySlice (key : List ℕ) (keyIndex : ℕ) : Option (List ℕ) :=
  slice key (min keyIndex (maxKeyIndex key)) cachedKeySize

/-- `get_status`. -/
def getStatus (c : StatusCache T) (key : List ℕ) (transactionBlockhash : ℕ)
    (ancestors : Finset ℕ) : Option (Option (ℕ × T)) :=
  match c.cache[transactionBlockhash]? with
  | none => some none
  | some status => do
    let part ← keySlice key status.keyIndex
    match status.keyMap[part]? with
    | none => pure none
    | some storedForks =>
      pure (storedForks.find? fun fork => decide (fork.1 ∈ ancestors ∨ fork.1 ∈ c.roots))

/-- `add_to_slot_delta`. -/
def addToSlotDelta (c : StatusCache T) (transactionBlockhash slot keyIndex : ℕ) (part : List ℕ)
    (res : T) : StatusCache T :=
  let forkEntry := c.slotDeltas[slot]?.getD ∅
  let hashEntry := forkEntry[transactionBlockhash]?.getD (keyIndex, [])
  let forkEntry' := forkEntry.insert transactionBlockhash
    (hashEntry.1, hashEntry.2 ++ [(part, res)])
  { c with slotDeltas := c.slotDeltas.insert slot forkEntry' }

/-- `insert`, with the offset that is drawn when the blockhash is new. -/
def insert (c : StatusCache T) (transactionBlockhash : ℕ) (key : List ℕ) (slot : ℕ) (res : T)
    (draw : ℕ) : Option (StatusCache T) := do
  let status := c.cache[transactionBlockhash]?.getD ⟨slot, draw, ∅⟩
  let part ← keySlice key status.keyIndex
  let forks := status.keyMap[part]?.getD []
  let status' : KeyStatus T :=
    { status with
      maxSlot := max slot status.maxSlot
      keyMap := status.keyMap.insert part (forks ++ [(slot, res)]) }
  let c' := { c with cache := c.cache.insert transactionBlockhash status' }
  pure (c'.addToSlotDelta transactionBlockhash slot (min status.keyIndex (maxKeyIndex key)) part
    res)

/-- `purge_roots`. -/
def purgeRoots (c : StatusCache T) : StatusCache T :=
  if c.roots.card > maxCacheEntries then
    if h : c.roots.Nonempty then
      let min := c.roots.min' h
      { c with
        roots := c.roots.erase min
        cache := c.cache.filter fun _ status => decide (status.maxSlot > min)
        slotDeltas := c.slotDeltas.filter fun slot _ => decide (slot > min) }
    else c
  else c

/-- `add_root`. -/
def addRoot (c : StatusCache T) (fork : ℕ) : StatusCache T :=
  ({ c with roots := Insert.insert fork c.roots } : StatusCache T).purgeRoots

/-- One key of a slot that is cleared; it panics when the key is not there. -/
def clearKey (slot : ℕ) (keyMap : KeyMap T) (part : List ℕ) : Option (KeyMap T) := do
  let keyList ← keyMap[part]?
  let keyList := keyList.filter fun fork => decide (fork.1 ≠ slot)
  pure (if keyList.isEmpty then keyMap.erase part else keyMap.insert part keyList)

/-- The keys of one blockhash of a slot that is cleared; it panics when the blockhash is not
there. -/
def clearBlockhash (slot : ℕ) (cache : OrdMap ℕ (KeyStatus T)) (blockhash : ℕ)
    (keyList : List (List ℕ × T)) : Option (OrdMap ℕ (KeyStatus T)) := do
  let status ← cache[blockhash]?
  let keyMap ← keyList.foldlM (fun keyMap entry => clearKey slot keyMap entry.1) status.keyMap
  pure (if keyMap.isEmpty then cache.erase blockhash
    else cache.insert blockhash { status with keyMap := keyMap })

/-- `clear_slot_entries`. -/
def clearSlotEntries (c : StatusCache T) (slot : ℕ) : Option (StatusCache T) :=
  match c.slotDeltas[slot]? with
  | none => some c
  | some slotDeltas => do
    let cache ← slotDeltas.toList.foldlM
      (fun cache entry => clearBlockhash slot cache entry.1 entry.2.2) c.cache
    pure { c with cache := cache, slotDeltas := c.slotDeltas.erase slot }

/-! ## The window of the roots -/

/-- Of the roots that were added, all are kept, or the greatest ones that fill the window. -/
structure Window (added : Set ℕ) (c : StatusCache T) : Prop where
  mem_added : ∀ r ∈ c.roots, r ∈ added
  card_le : c.roots.card ≤ maxCacheEntries
  kept : ∀ r ∈ added, r ∉ c.roots → c.roots.card = maxCacheEntries ∧ ∀ r' ∈ c.roots, r < r'

variable {c c' : StatusCache T} {added : Set ℕ} {fork : ℕ}

/-- What is left when the least root leaves the window. -/
def withoutRoot (c : StatusCache T) (least : ℕ) : StatusCache T where
  roots := c.roots.erase least
  cache := c.cache.filter fun _ status => decide (status.maxSlot > least)
  slotDeltas := c.slotDeltas.filter fun slot _ => decide (slot > least)

/-- A new root fits into the window, or the least root leaves it. -/
theorem addRoot_cases (c : StatusCache T) (fork : ℕ) :
    (Insert.insert fork c.roots).card ≤ maxCacheEntries ∧
        c.addRoot fork = { c with roots := Insert.insert fork c.roots } ∨
      (Insert.insert fork c.roots).card > maxCacheEntries ∧
        ∃ least ∈ Insert.insert fork c.roots, (∀ r ∈ Insert.insert fork c.roots, least ≤ r) ∧
          c.addRoot fork =
            ({ c with roots := Insert.insert fork c.roots } : StatusCache T).withoutRoot least := by
  rw [addRoot, purgeRoots]
  split
  · rename_i hcard
    have hnonempty : (Insert.insert fork c.roots).Nonempty := Finset.insert_nonempty fork c.roots
    refine .inr ⟨hcard, (Insert.insert fork c.roots).min' hnonempty, Finset.min'_mem _ _,
      fun r hr => Finset.min'_le _ r hr, ?_⟩
    rw [dif_pos hnonempty]
    rfl
  · rename_i hcard
    exact .inl ⟨not_lt.mp hcard, rfl⟩

/-- The window after a root was added. -/
theorem Window.addRoot (h : Window added c) (fork : ℕ) :
    Window (Insert.insert fork added) (c.addRoot fork) := by
  have hadded : ∀ r ∈ Insert.insert fork c.roots, r ∈ Insert.insert fork added := by
    intro r hr
    rcases Finset.mem_insert.mp hr with rfl | hr
    · exact mem_insert _ _
    · exact mem_insert_of_mem _ (h.mem_added r hr)
  rcases c.addRoot_cases fork with ⟨hcard, heq⟩ | ⟨hcard, least, hleast, hmin, heq⟩
  · rw [heq]
    refine ⟨hadded, hcard, fun r hr hout => ?_⟩
    have hne : r ≠ fork := fun h => hout (h ▸ Finset.mem_insert_self fork c.roots)
    obtain ⟨hfull, hlt⟩ := h.kept r (hr.resolve_left hne)
      fun hr => hout (Finset.mem_insert_of_mem hr)
    have hfork : fork ∈ c.roots := by
      by_contra hnew
      rw [Finset.card_insert_of_notMem hnew] at hcard
      omega
    rw [show Insert.insert fork c.roots = c.roots from Finset.insert_eq_of_mem hfork]
    exact ⟨hfull, hlt⟩
  · have hle := h.card_le
    have hfull : (Insert.insert fork c.roots).card = maxCacheEntries + 1 := by
      have := Finset.card_insert_le fork c.roots
      omega
    have hcard' : ((Insert.insert fork c.roots).erase least).card = maxCacheEntries := by
      rw [Finset.card_erase_of_mem hleast, hfull]
      rfl
    have hlt : ∀ r ∈ (Insert.insert fork c.roots).erase least, least < r := by
      intro r hr
      obtain ⟨hne, hr⟩ := Finset.mem_erase.mp hr
      exact lt_of_le_of_ne (hmin r hr) hne.symm
    rw [heq]
    refine ⟨fun r hr => hadded r (Finset.mem_of_mem_erase hr), hcard'.le, fun r hr hout => ?_⟩
    refine ⟨hcard', fun r' hr' => ?_⟩
    by_cases hin : r ∈ Insert.insert fork c.roots
    · have hr : r = least := by
        by_contra hne
        exact hout (Finset.mem_erase.mpr ⟨hne, hin⟩)
      exact hr ▸ hlt r' hr'
    · have hne : r ≠ fork := fun h => hin (h ▸ Finset.mem_insert_self fork c.roots)
      obtain ⟨-, hkept⟩ := h.kept r (hr.resolve_left hne)
        fun hr => hin (Finset.mem_insert_of_mem hr)
      rcases Finset.mem_insert.mp (Finset.mem_of_mem_erase hr') with rfl | hr''
      · -- the new root is not the least one, so it is above an older root
        rcases Finset.mem_insert.mp hleast with rfl | hleast
        · exact absurd hr' (Finset.notMem_erase _ _)
        · exact (hkept least hleast).trans (hlt _ hr')
      · exact hkept r' hr''

/-- A root that left the window does not come back. -/
theorem Window.notMem_addRoot (h : Window added c) {r : ℕ} (hr : r ∈ added)
    (hout : r ∉ c.roots) : r ∉ (c.addRoot fork).roots := by
  obtain ⟨hfull, hlt⟩ := h.kept r hr hout
  intro hin
  rcases c.addRoot_cases fork with ⟨hcard, heq⟩ | ⟨-, least, hleast, hmin, heq⟩
  · rw [heq] at hin
    rcases Finset.mem_insert.mp hin with rfl | hin
    · rw [Finset.card_insert_of_notMem hout] at hcard
      omega
    · exact hout hin
  · rw [heq] at hin
    obtain ⟨hne, hin⟩ := Finset.mem_erase.mp hin
    rcases Finset.mem_insert.mp hin with rfl | hin
    · rcases Finset.mem_insert.mp hleast with rfl | hleast
      · exact hne rfl
      · exact absurd (hmin _ hin) (not_le.mpr (hlt _ hleast))
    · exact hout hin

/-! ## What is recorded -/

/-- A key that was recorded in a slot for a blockhash. -/
structure Entry where
  blockhash : ℕ
  key : List ℕ
  slot : ℕ

/-- The slot is among the forks of the key. -/
def HasFork (keyMap : KeyMap T) (part : List ℕ) (slot : ℕ) : Prop :=
  ∃ forks, keyMap[part]? = some forks ∧ ∃ res, (slot, res) ∈ forks

/-- The entry is in the cache, under the part of the key that is kept. -/
def PresentIn (cache : OrdMap ℕ (KeyStatus T)) (e : Entry) : Prop :=
  ∃ status part, cache[e.blockhash]? = some status ∧ e.slot ≤ status.maxSlot ∧
    keySlice e.key status.keyIndex = some part ∧ HasFork status.keyMap part e.slot

/-- The entry is present, or a root that is not older left the window. -/
def Recorded (added : Set ℕ) (c : StatusCache T) (e : Entry) : Prop :=
  (∃ r ∈ added, r ∉ c.roots ∧ e.slot ≤ r) ∨ PresentIn c.cache e

variable {e : Entry}

/-- A root that is added may only drop what is not younger than a root that leaves. -/
theorem Recorded.addRoot (hw : Window added c) (h : Recorded added c e) (fork : ℕ) :
    Recorded (Insert.insert fork added) (c.addRoot fork) e := by
  rcases h with ⟨r, hr, hout, hle⟩ | ⟨status, part, hget, hslot, hpart, hfork⟩
  · exact .inl ⟨r, mem_insert_of_mem _ hr, hw.notMem_addRoot hr hout, hle⟩
  · rcases c.addRoot_cases fork with ⟨-, heq⟩ | ⟨-, least, hleast, -, heq⟩
    · rw [heq]
      exact .inr ⟨status, part, hget, hslot, hpart, hfork⟩
    · rw [heq]
      by_cases hyounger : status.maxSlot > least
      · refine .inr ⟨status, part, ?_, hslot, hpart, hfork⟩
        show (c.cache.filter _)[e.blockhash]? = some status
        rw [Std.ExtTreeMap.getElem?_filter', hget, filter_some, if_pos]
        exact decide_eq_true hyounger
      · refine .inl ⟨least, ?_, Finset.notMem_erase _ _, hslot.trans (not_lt.mp hyounger)⟩
        rcases Finset.mem_insert.mp hleast with rfl | hleast
        · exact mem_insert _ _
        · exact mem_insert_of_mem _ (hw.mem_added _ hleast)

/-- The roots and what is recorded, after a row of roots was added. -/
theorem Window.foldl_addRoot (hw : Window added c) (forks : List ℕ) :
    Window (added ∪ { r | r ∈ forks }) (forks.foldl StatusCache.addRoot c) ∧
      ∀ e, Recorded added c e →
        Recorded (added ∪ { r | r ∈ forks }) (forks.foldl StatusCache.addRoot c) e := by
  induction forks generalizing c added with
  | nil =>
    have hset : added ∪ { r | r ∈ ([] : List ℕ) } = added := by simp
    rw [hset]
    exact ⟨hw, fun e h => h⟩
  | cons fork forks ih =>
    have hset : added ∪ { r | r ∈ fork :: forks } =
        Insert.insert fork added ∪ { r | r ∈ forks } := by
      ext r
      simp only [mem_union, mem_ofPred_eq, mem_cons, mem_insert_iff]
      tauto
    obtain ⟨hw', hrec⟩ := ih (hw.addRoot fork)
    rw [hset]
    exact ⟨hw', fun e h => hrec e (h.addRoot hw fork)⟩

variable {blockhash draw slot : ℕ} {key : List ℕ} {res : T} {keyMap keyMap' : KeyMap T} {slot' : ℕ}
  {keyList : List (List ℕ × T)}

/-- The parts of an insertion that succeeds. -/
theorem insert_eq_some (h : c.insert blockhash key slot res draw = some c') :
    ∃ status part, c.cache[blockhash]?.getD ⟨slot, draw, ∅⟩ = status ∧
      keySlice key status.keyIndex = some part ∧ c'.roots = c.roots ∧
      c'.cache = c.cache.insert blockhash
        { status with
          maxSlot := max slot status.maxSlot
          keyMap := status.keyMap.insert part
            (status.keyMap[part]?.getD [] ++ [(slot, res)]) } := by
  obtain ⟨part, hpart, h⟩ := bind_eq_some_iff.mp h
  cases h
  exact ⟨_, part, rfl, hpart, rfl, rfl⟩

/-- **What was inserted is present.** -/
theorem presentIn_insert (h : c.insert blockhash key slot res draw = some c') :
    PresentIn c'.cache ⟨blockhash, key, slot⟩ := by
  obtain ⟨status, part, -, hpart, -, hcache⟩ := insert_eq_some h
  rw [hcache]
  refine ⟨_, part, (get_insert _ _ _ _).trans (if_pos rfl), le_max_left _ _, hpart, ?_⟩
  refine ⟨_, (get_insert _ _ _ _).trans (if_pos rfl), res, ?_⟩
  exact mem_append_right _ mem_cons_self

/-- An insertion keeps what is present. -/
theorem PresentIn.insert (hpresent : PresentIn c.cache e)
    (h : c.insert blockhash key slot res draw = some c') :
    PresentIn c'.cache e := by
  obtain ⟨status, part, hget, hslot, hpart, forks, hforks, res', hmem⟩ := hpresent
  obtain ⟨status', part', hstatus', -, -, hcache⟩ := insert_eq_some h
  rw [hcache]
  by_cases hblockhash : blockhash = e.blockhash
  · subst hblockhash
    rw [hget, getD_some] at hstatus'
    subst hstatus'
    refine ⟨_, part, (get_insert _ _ _ _).trans (if_pos rfl),
      hslot.trans (le_max_right _ _), hpart, ?_⟩
    by_cases hsame : part' = part
    · subst hsame
      refine ⟨_, (get_insert _ _ _ _).trans (if_pos rfl), res', ?_⟩
      rw [hforks, getD_some]
      exact mem_append_left _ hmem
    · exact ⟨forks, (get_insert _ _ _ _).trans ((if_neg hsame).trans hforks), res', hmem⟩
  · exact ⟨status, part, (get_insert _ _ _ _).trans ((if_neg hblockhash).trans hget), hslot,
      hpart, forks, hforks, res', hmem⟩

/-! ## Clearing a slot -/

theorem HasFork.clearKey {part part' : List ℕ} (hfork : HasFork keyMap part slot)
    (hne : slot ≠ slot') (h : clearKey slot' keyMap part' = some keyMap')
    : HasFork keyMap' part slot := by
  obtain ⟨forks, hforks, res, hmem⟩ := hfork
  obtain ⟨keyList, hkeyList, h⟩ := bind_eq_some_iff.mp h
  cases h
  by_cases hsame : part' = part
  · subst hsame
    obtain rfl := Option.some.inj (hkeyList.symm.trans hforks)
    have hkept : (slot, res) ∈ keyList.filter fun fork => decide (fork.1 ≠ slot') :=
      mem_filter.mpr ⟨hmem, decide_eq_true hne⟩
    rw [if_neg (by
      rw [List.isEmpty_iff]
      exact ne_nil_of_mem hkept)]
    exact ⟨_, (get_insert _ _ _ _).trans (if_pos rfl), res, hkept⟩
  · refine ⟨forks, ?_, res, hmem⟩
    split
    · rwa [get_erase, if_neg hsame]
    · rwa [get_insert, if_neg hsame]

theorem HasFork.foldlM_clearKey {part : List ℕ} (hfork : HasFork keyMap part slot)
    (hne : slot ≠ slot')
    (h : keyList.foldlM (fun keyMap entry => StatusCache.clearKey slot' keyMap entry.1) keyMap =
      some keyMap') : HasFork keyMap' part slot := by
  induction keyList generalizing keyMap with
  | nil =>
    cases h
    exact hfork
  | cons entry keyList ih =>
    obtain ⟨next, hnext, h⟩ := bind_eq_some_iff.mp h
    exact ih (hfork.clearKey hne hnext) h

theorem PresentIn.clearBlockhash {cache cache' : OrdMap ℕ (KeyStatus T)}
    (hpresent : PresentIn cache e) (hne : e.slot ≠ slot)
    (h : clearBlockhash slot cache blockhash keyList = some cache') : PresentIn cache' e := by
  obtain ⟨status, part, hget, hslot, hpart, hfork⟩ := hpresent
  obtain ⟨status', hstatus', h⟩ := bind_eq_some_iff.mp h
  obtain ⟨keyMap, hkeyMap, h⟩ := bind_eq_some_iff.mp h
  cases h
  by_cases hsame : blockhash = e.blockhash
  · subst hsame
    cases hstatus'.symm.trans hget
    have hfork' := hfork.foldlM_clearKey hne hkeyMap
    have hnonempty : ¬keyMap.isEmpty = true := by
      obtain ⟨forks, hforks, -⟩ := hfork'
      rw [Std.ExtTreeMap.isEmpty_iff]
      rintro rfl
      rw [Std.ExtTreeMap.getElem?_empty] at hforks
      cases hforks
    rw [if_neg hnonempty]
    exact ⟨_, part, (get_insert _ _ _ _).trans (if_pos rfl), hslot, hpart, hfork'⟩
  · refine ⟨status, part, ?_, hslot, hpart, hfork⟩
    split
    · rwa [get_erase, if_neg hsame]
    · rwa [get_insert, if_neg hsame]

/-- Clearing a slot keeps what was recorded in another one, and the roots. -/
theorem clearSlotEntries_eq_some (h : c.clearSlotEntries slot = some c') :
    c'.roots = c.roots ∧
      ∀ e : Entry, e.slot ≠ slot → PresentIn c.cache e → PresentIn c'.cache e := by
  rw [clearSlotEntries] at h
  split at h
  · cases h
    exact ⟨rfl, fun e _ hpresent => hpresent⟩
  · rename_i slotDeltas _
    obtain ⟨cache, hcache, h⟩ := bind_eq_some_iff.mp h
    cases h
    refine ⟨rfl, fun e hne hpresent => ?_⟩
    generalize c.cache = start at hcache hpresent
    generalize slotDeltas.toList = entries at hcache
    induction entries generalizing start with
    | nil =>
      cases hcache
      exact hpresent
    | cons entry rest ih =>
      obtain ⟨next, hnext, hrest⟩ := bind_eq_some_iff.mp hcache
      exact ih next (hpresent.clearBlockhash hne hnext) hrest

/-! ## What is found -/

theorem keySlice_isSome (h : cachedKeySize ≤ key.length) (keyIndex : ℕ) :
    ∃ part, keySlice key keyIndex = some part := by
  have hle : min keyIndex (maxKeyIndex key) + cachedKeySize ≤ key.length := by
    rw [maxKeyIndex]
    omega
  exact ⟨_, if_pos hle⟩

/-- A key that is long enough never makes the lookup panic. -/
theorem getStatus_total (h : cachedKeySize ≤ key.length) (c : StatusCache T) (blockhash : ℕ)
    (ancestors : Finset ℕ) :
    ∃ found, c.getStatus key blockhash ancestors = some found := by
  rw [getStatus]
  split
  · exact ⟨none, rfl⟩
  · rename_i status _
    obtain ⟨part, hpart⟩ := keySlice_isSome h status.keyIndex
    rw [hpart]
    show ∃ found, (match status.keyMap[part]? with
      | none => some none
      | some forks => some (forks.find? _)) = some found
    split
    · exact ⟨_, rfl⟩
    · exact ⟨_, rfl⟩

/-- **What is present is found from a fork through its slot**, or when its slot is a root. -/
theorem PresentIn.getStatus (h : PresentIn c.cache e) {ancestors : Finset ℕ}
    (hfork : e.slot ∈ ancestors ∨ e.slot ∈ c.roots) :
    ∃ found, c.getStatus e.key e.blockhash ancestors = some (some found) := by
  obtain ⟨status, part, hget, -, hpart, forks, hforks, res, hmem⟩ := h
  have hfind : (forks.find? fun fork =>
      decide (fork.1 ∈ ancestors ∨ fork.1 ∈ c.roots)).isSome := by
    rw [find?_isSome]
    exact ⟨(e.slot, res), hmem, decide_eq_true hfork⟩
  obtain ⟨found, hfound⟩ := isSome_iff_exists.mp hfind
  refine ⟨found, ?_⟩
  rw [StatusCache.getStatus, hget]
  show (keySlice e.key status.keyIndex).bind _ = _
  rw [hpart]
  show (match status.keyMap[part]? with
    | none => some none
    | some storedForks => some (storedForks.find? _)) = _
  rw [hforks]
  exact congrArg some hfound

end StatusCache
end FlowraValidator.Runtime
