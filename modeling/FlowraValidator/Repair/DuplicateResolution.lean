import FlowraValidator.Consensus.ForkChoiceWeights
import FlowraValidator.Repair.ClusterSlotState

/-!
# The order of the signals for a slot

A slot is replayed once, and around that time it may be reported as a duplicate, confirmed by votes
and sampled from other validators, each at most once and in any order. What is recorded depends
only on which signals came, not on their order, with one exception.

If the slot is reported as a duplicate and the sample agrees with our version, both before the bank
is frozen, then the frozen bank is not marked invalid: `on_frozen_slot` looks at the report only if
there is no confirmed hash, and a sample that agrees marks nothing
(`not_resolved_overlooked_report`). In every other order the report marks the bank.

* `Signal`, `deliver`, `deliverAll`: signals, each with the snapshot at its delivery.
* `Resolved`: the outcome that depends only on the set of signals.
* `Overlooked`: the exception.
* `deliverAll_resolved_iff`: all signals are processed, and the outcome is the expected one iff no
  report was overlooked.
-/

namespace FlowraValidator.Repair

open DuplicateConfirmedState BankStatus
open List Option OrdMap Consensus Consensus.HeaviestSubtreeForkChoice Relation

/-! ## Signals for one slot -/

inductive SignalKind where
  | bankFrozen
  | duplicate
  | duplicateConfirmed
  | epochSlotsFrozen
  deriving DecidableEq

inductive Signal where
  | bankFrozen
  | duplicate
  | duplicateConfirmed (hash : ℕ)
  | epochSlotsFrozen (hash : ℕ)
  deriving DecidableEq

def Signal.kind : Signal → SignalKind
  | bankFrozen => .bankFrozen
  | duplicate => .duplicate
  | duplicateConfirmed _ => .duplicateConfirmed
  | epochSlotsFrozen _ => .epochSlotsFrozen

/-- The confirmed hash, if a signal brings one. -/
def confirmedHash (order : List Signal) : Option ℕ :=
  order.findSome? fun
    | .duplicateConfirmed hash => some hash
    | _ => none

/-- The sampled hash, if a signal brings one. -/
def sampledHash (order : List Signal) : Option ℕ :=
  order.findSome? fun
    | .epochSlotsFrozen hash => some hash
    | _ => none

/-- The slot, the root, the hash of our version and its parent. -/
structure LocalBank where
  slot : ℕ
  root : ℕ
  hash : ℕ
  parent : SlotHashKey

def LocalBank.key (b : LocalBank) : SlotHashKey := ⟨b.slot, b.hash⟩

/-- The trackers, and the hash of the bank once it is frozen. -/
structure Replay where
  trackers : Trackers
  bankHash : Option ℕ

/-- The signal with the snapshot at its delivery. The frozen bank is first added to the fork
choice, and the confirmed hash to the confirmed slots. -/
def deliver (b : LocalBank) (r : Replay) : Signal → Option Replay
  | .bankFrozen => do
    let forkChoice ← r.trackers.forkChoice.addNewLeafSlot b.key (some b.parent)
    let t := { r.trackers with forkChoice := forkChoice }
    let state ← BankFrozenState.newFromState t b.slot b.hash
    let t ← checkSlotAgreesWithCluster b.slot b.root t (.bankFrozen state)
    some ⟨t, some b.hash⟩
  | .duplicate => do
    let state ← DuplicateState.newFromState r.trackers b.slot false r.bankHash
    let t ← checkSlotAgreesWithCluster b.slot b.root r.trackers (.duplicate state)
    some ⟨t, r.bankHash⟩
  | .duplicateConfirmed hash => do
    let t := { r.trackers with
      duplicateConfirmedSlots := r.trackers.duplicateConfirmedSlots.insert b.slot hash }
    let state := newFromState hash false r.bankHash
    let t ← checkSlotAgreesWithCluster b.slot b.root t (.duplicateConfirmed state)
    some ⟨t, r.bankHash⟩
  | .epochSlotsFrozen hash => do
    let state ← EpochSlotsFrozenState.newFromState r.trackers b.slot hash false r.bankHash false
    let t ← checkSlotAgreesWithCluster b.slot b.root r.trackers (.epochSlotsFrozen state)
    some ⟨t, r.bankHash⟩

def deliverAll (b : LocalBank) (t : Trackers) (order : List Signal) : Option Replay :=
  order.foldlM (deliver b) ⟨t, none⟩

/-- Nothing is known about the slot, and our version is a new block below a block of the fork
choice. -/
structure Unseen (b : LocalBank) (t : Trackers) : Prop where
  tracker : b.slot ∉ t.duplicateSlotsTracker
  confirmed : t.duplicateConfirmedSlots[b.slot]? = none
  sampled : t.epochSlotsFrozenSlots[b.slot]? = none
  repair : t.duplicateSlotsToRepair[b.slot]? = none
  absent : ¬t.forkChoice.Present b.key
  parent : t.forkChoice.Present b.parent

/-! ## Outcomes -/

/-- The version to be repaired: a confirmed version that is not ours, or else a sampled one. -/
def versionToRepair (b : LocalBank) (order : List Signal) : Option ℕ :=
  match confirmedHash order, sampledHash order with
  | some hash, _ => if hash = b.hash then none else some hash
  | none, some hash => if hash = b.hash then none else some hash
  | none, none => none

/-- Our version should be marked invalid. -/
def ShouldBeInvalid (b : LocalBank) (order : List Signal) : Prop :=
  match confirmedHash order with
  | some hash => hash ≠ b.hash
  | none => .duplicate ∈ order ∨ ∃ hash, sampledHash order = some hash ∧ hash ≠ b.hash

/-- Our version is marked invalid, and not only a block above it. -/
def IsInvalid (b : LocalBank) (fc : HeaviestSubtreeForkChoice) : Prop :=
  fc.latestInvalidAncestor b.key = some b.slot

/-- The outcome that does not depend on the order. -/
def Resolved (b : LocalBank) (order : List Signal) (t : Trackers) : Prop :=
  t.duplicateSlotsToRepair[b.slot]? = versionToRepair b order ∧
    (IsInvalid b t.forkChoice ↔ ShouldBeInvalid b order)

/-- The signals before the bank is frozen. -/
def beforeFrozen (order : List Signal) : List Signal :=
  order.takeWhile fun signal => decide (signal ≠ .bankFrozen)

/-- Before the bank is frozen, the slot is reported as a duplicate, and the sample agrees. -/
def Overlooked (b : LocalBank) (order : List Signal) : Prop :=
  .duplicate ∈ beforeFrozen order ∧ .epochSlotsFrozen b.hash ∈ beforeFrozen order

instance (b : LocalBank) (order : List Signal) : Decidable (Overlooked b order) :=
  inferInstanceAs (Decidable (_ ∧ _))

/-! ## The fork choice -/

section
variable {b : LocalBank} {es : EpochStakes} {parentOf : SlotHashKey → Option SlotHashKey}
  {fc : HeaviestSubtreeForkChoice}

/-- Our version is in the fork choice. -/
structure Standing (b : LocalBank) (es : EpochStakes)
    (parentOf : SlotHashKey → Option SlotHashKey) (fc : HeaviestSubtreeForkChoice)
    (confirmed invalid : Prop) : Prop where
  sound : Sound es parentOf fc
  present : fc.Present b.key
  confirmed : fc.Confirmed b.key ↔ confirmed
  invalid : IsInvalid b fc ↔ invalid

theorem LocalBank.key_ne_default (hhash : b.hash ≠ defaultHash) : b.key ≠ .default := by
  intro h
  exact hhash (congrArg SlotHashKey.hash h)

/-- A new leaf is not confirmed, and marked at most because of a block above. -/
theorem exists_addNewLeafSlot_standing (hsound : Sound es parentOf fc)
    (hslot : ∀ k p, parentOf k = some p → p.slot < k.slot)
    (hparentOf : parentOf b.key = some b.parent) (habsent : ¬fc.Present b.key)
    (hparent : fc.Present b.parent) :
    ∃ fc', fc.addNewLeafSlot b.key (some b.parent) = some fc' ∧
      Standing b es parentOf fc' False False := by
  obtain ⟨fc', heq, hsound'⟩ := hsound.exists_addNewLeafSlot hslot hparentOf hparent
  have hlt := hslot _ _ hparentOf
  have hleaf : fc.NewLeaf b.key b.parent := ⟨habsent, hparent, hlt⟩
  obtain ⟨fc'', heq', hadded⟩ := hleaf.exists_addNewLeafSlot_eq hsound.shaped hsound.cached
  cases heq.symm.trans heq'
  refine ⟨fc', heq, hsound', (hadded.present _).mpr (.inl rfl), ?_, ?_⟩
  · rw [hadded.confirmed, iff_false]
    intro hconf
    obtain ⟨info, hget, -⟩ := map_eq_some_iff.mp hconf
    exact habsent ⟨info, hget⟩
  · rw [iff_false]
    intro hinvalid
    unfold IsInvalid at hinvalid
    rw [hadded.latestInvalidAncestor, if_pos rfl] at hinvalid
    exact absurd (hsound.marked.latest_le hinvalid) (not_le.mpr hlt)

/-- An invalid mark. -/
theorem Standing.exists_invalid {invalid : Prop} (h : Standing b es parentOf fc False invalid)
    (hhash : b.hash ≠ defaultHash) :
    ∃ fc', fc.markForkInvalidCandidate ⟨b.slot, b.hash⟩ = some fc' ∧
      Standing b es parentOf fc' False True := by
  have hconf : ¬fc.Confirmed b.key := h.confirmed.mp
  obtain ⟨fc', heq, hmark⟩ := h.sound.marked.exists_markForkInvalidCandidate_eq h.sound.shaped
    h.sound.cached h.present (b.key_ne_default hhash) hconf
  have hkept := hmark.kept h.sound.marked h.sound.shaped hconf
  refine ⟨fc', heq, h.sound.of_kept hkept, hkept.sameTree.present_iff.mpr h.present,
    (hmark.confirmed _).trans h.confirmed, iff_true_intro ?_⟩
  unfold IsInvalid
  rw [hmark.below _ ReflTransGen.refl, remember]
  cases hlatest : fc.latestInvalidAncestor b.key with
  | none => rfl
  | some a => exact congrArg some (max_eq_left (h.sound.marked.latest_le hlatest))

/-- A valid mark. -/
theorem Standing.exists_valid {confirmed invalid : Prop}
    (h : Standing b es parentOf fc confirmed invalid) (hhash : b.hash ≠ defaultHash) :
    ∃ found fc', fc.markForkValidCandidate ⟨b.slot, b.hash⟩ = some (found, fc') ∧
      Standing b es parentOf fc' True False := by
  obtain ⟨found, fc', heq, hmark⟩ := h.sound.marked.exists_markForkValidCandidate_eq
    h.sound.shaped h.sound.cached h.present (b.key_ne_default hhash)
  have hkept := hmark.kept h.sound.marked
  have hconf : fc'.Confirmed b.key := (hmark.confirmed _).mpr (.inr ReflTransGen.refl)
  refine ⟨found, fc', heq, h.sound.of_kept hkept, hkept.sameTree.present_iff.mpr h.present,
    iff_true_intro hconf, ?_⟩
  rw [iff_false, IsInvalid, hkept.marked.valid hconf]
  simp

theorem Standing.congr {confirmed invalid confirmed' invalid' : Prop}
    (h : Standing b es parentOf fc confirmed invalid) (hconf : confirmed ↔ confirmed')
    (hinvalid : invalid ↔ invalid') : Standing b es parentOf fc confirmed' invalid' :=
  ⟨h.sound, h.present, h.confirmed.trans hconf, h.invalid.trans hinvalid⟩

end

/-! ## Changes -/

variable {b : LocalBank} {es : EpochStakes} {parentOf : SlotHashKey → Option SlotHashKey}
  {fc fc₀ : HeaviestSubtreeForkChoice} {t t' : Trackers} {r : Replay} {done order : List Signal}
  {signal : Signal} {changes : List ResultingStateChange} {confirmed invalid : Prop} {hash : ℕ}

/-- At the end at most a bank hash is written. -/
theorem exists_applyStateChanges {slot : ℕ} {frozenHash : Option ℕ}
    (h : applyChanges slot t none changes = some (t', frozenHash)) :
    ∃ m, applyStateChanges slot t changes = some { t' with bankHashes := m } := by
  rw [applyStateChanges, h]
  cases frozenHash with
  | none => exact ⟨t'.bankHashes, rfl⟩
  | some hash =>
    rw [map_some]
    unfold Trackers.insertBankHash
    dsimp only
    split
    · exact ⟨_, rfl⟩
    · split_ifs
      · exact ⟨t'.bankHashes, rfl⟩
      · exact ⟨_, rfl⟩

/-- The trackers after the changes for a frozen bank. -/
structure Changed (b : LocalBank) (es : EpochStakes)
    (parentOf : SlotHashKey → Option SlotHashKey) (t : Trackers) (confirmed invalid : Prop)
    (repair : Option ℕ) (t' : Trackers) : Prop where
  tracker : t'.duplicateSlotsTracker = t.duplicateSlotsTracker
  confirmedSlots : t'.duplicateConfirmedSlots = t.duplicateConfirmedSlots
  sampledSlots : t'.epochSlotsFrozenSlots = t.epochSlotsFrozenSlots
  standing : Standing b es parentOf t'.forkChoice confirmed invalid
  repair : t'.duplicateSlotsToRepair[b.slot]? = repair

theorem Changed.congr {confirmed' invalid' : Prop} {repair repair' : Option ℕ}
    (h : Changed b es parentOf t confirmed invalid repair t') (hconf : confirmed ↔ confirmed')
    (hinvalid : invalid ↔ invalid') (hrepair : repair = repair') :
    Changed b es parentOf t confirmed' invalid' repair' t' :=
  ⟨h.tracker, h.confirmedSlots, h.sampledSlots, h.standing.congr hconf hinvalid,
    h.repair.trans hrepair⟩

/-- The frozen bank is recorded first, or it was recorded before. -/
def IsStart (b : LocalBank) (start : List ResultingStateChange) : Prop :=
  start = [] ∨ start = [.bankFrozen b.hash]

theorem isStart_nil : IsStart b [] := .inl rfl

variable {start : List ResultingStateChange}

section
variable (hstart : IsStart b start)
include hstart
section
variable (h : Standing b es parentOf t.forkChoice confirmed invalid)
include h
theorem IsStart.exists_apply (changes : List ResultingStateChange)
    (hchanges : ∀ frozenHash, ∃ frozenHash',
      applyChanges b.slot t frozenHash changes = some (t', frozenHash')) :
    ∃ m, applyStateChanges b.slot t (start ++ changes) = some { t' with bankHashes := m } := by
  rcases hstart with rfl | rfl
  · obtain ⟨_, heq⟩ := hchanges none
    exact exists_applyStateChanges heq
  · obtain ⟨info, hget⟩ := h.present
    have hconf : t.forkChoice.isDuplicateConfirmed ⟨b.slot, b.hash⟩ =
        some info.isDuplicateConfirmed := congrArg (Option.map _) hget
    obtain ⟨_, heq⟩ := hchanges (if info.isDuplicateConfirmed then none else some b.hash)
    refine exists_applyStateChanges (Eq.trans ?_ heq)
    rw [singleton_append, applyChanges, applyStateChange, hconf]
    rfl

/-- Nothing changes. -/
theorem IsStart.exists_keep :
    ∃ t', applyStateChanges b.slot t start = some t' ∧
      Changed b es parentOf t confirmed invalid t.duplicateSlotsToRepair[b.slot]? t' := by
  obtain ⟨m, happly⟩ := hstart.exists_apply h [] fun _ => ⟨_, rfl⟩
  rw [append_nil] at happly
  exact ⟨_, happly, rfl, rfl, rfl, h, rfl⟩

/-- Our version is confirmed. -/
theorem IsStart.exists_match (hhash : b.hash ≠ defaultHash) :
    ∃ t', applyStateChanges b.slot t
        (start ++ [.duplicateConfirmedSlotMatchesCluster b.hash]) = some t' ∧
      Changed b es parentOf t True False none t' := by
  obtain ⟨found, fc', hmark, hstanding⟩ := h.exists_valid hhash
  obtain ⟨m, happly⟩ := hstart.exists_apply h
    [.duplicateConfirmedSlotMatchesCluster b.hash] fun _ => ⟨_, by
    rw [applyChanges, applyStateChange, hmark]
    rfl⟩
  refine ⟨_, happly, rfl, rfl, rfl, hstanding, ?_⟩
  exact (get_erase _ _ _).trans (if_pos rfl)

end

variable (h : Standing b es parentOf t.forkChoice False invalid)
  (hhash : b.hash ≠ defaultHash)
include h hhash
/-- Our version is marked invalid. -/
theorem IsStart.exists_mark :
    ∃ t', applyStateChanges b.slot t (start ++ [.markSlotDuplicate b.hash]) = some t' ∧
      Changed b es parentOf t False True t.duplicateSlotsToRepair[b.slot]? t' := by
  obtain ⟨fc', hmark, hstanding⟩ := h.exists_invalid hhash
  obtain ⟨m, happly⟩ := hstart.exists_apply h [.markSlotDuplicate b.hash] fun _ => ⟨_, by
    rw [applyChanges, applyStateChange, hmark]
    rfl⟩
  exact ⟨_, happly, rfl, rfl, rfl, hstanding, rfl⟩

/-- Our version is marked invalid, and another one is to be repaired. -/
theorem IsStart.exists_repair (hash : ℕ) :
    ∃ t', applyStateChanges b.slot t
        (start ++ [.markSlotDuplicate b.hash, .repairDuplicateConfirmedVersion hash]) = some t' ∧
      Changed b es parentOf t False True (some hash) t' := by
  obtain ⟨fc', hmark, hstanding⟩ := h.exists_invalid hhash
  obtain ⟨m, happly⟩ := hstart.exists_apply h
    [.markSlotDuplicate b.hash, .repairDuplicateConfirmedVersion hash] fun _ => ⟨_, by
    rw [applyChanges, applyStateChange, hmark]
    rfl⟩
  refine ⟨_, happly, rfl, rfl, rfl, hstanding, ?_⟩
  exact (get_insert _ _ _ _).trans (if_pos rfl)

/-- **A confirmed hash is compared with our version.** -/
theorem IsStart.exists_confirmed (hash : ℕ) :
    ∃ t', applyStateChanges b.slot t (start ++
        checkDuplicateConfirmedHashAgainstBankStatus hash (.frozen b.hash)) = some t' ∧
      Changed b es parentOf t (hash = b.hash) (hash ≠ b.hash)
        (if hash = b.hash then none else some hash) t' := by
  unfold checkDuplicateConfirmedHashAgainstBankStatus
  dsimp only
  by_cases hsame : hash = b.hash
  · rw [if_pos hsame, if_pos hsame]
    obtain ⟨t', heq, hchanged⟩ := hstart.exists_match h hhash
    exact ⟨t', heq, hchanged.congr (by simp [hsame]) (by simp [hsame]) rfl⟩
  · rw [if_neg hsame, if_neg hsame]
    obtain ⟨t', heq, hchanged⟩ := hstart.exists_repair h hhash hash
    exact ⟨t', heq, hchanged.congr (by simp [hsame]) (by simp [hsame]) rfl⟩

/-- **A sampled hash is compared with our version.** -/
theorem IsStart.exists_sampled (hash : ℕ)
    (hrepair : t.duplicateSlotsToRepair[b.slot]? = none) :
    ∃ changes t', checkEpochSlotsHashAgainstBankStatus hash false (.frozen b.hash) = some changes ∧
      applyStateChanges b.slot t (start ++ changes) = some t' ∧
      Changed b es parentOf t False (invalid ∨ hash ≠ b.hash)
        (if hash = b.hash then none else some hash) t' := by
  by_cases hsame : hash = b.hash
  · obtain ⟨t', heq, hchanged⟩ := hstart.exists_keep h
    refine ⟨[], t', if_pos hsame.symm, ?_, hchanged.congr Iff.rfl (by simp [hsame]) ?_⟩
    · rwa [append_nil]
    · rw [if_pos hsame, hrepair]
  · obtain ⟨t', heq, hchanged⟩ := hstart.exists_repair h hhash hash
    exact ⟨_, t', if_neg fun h' => hsame h'.symm, heq,
      hchanged.congr Iff.rfl (by simp [hsame]) (if_neg hsame).symm⟩

end

/-! ## Signals so far -/

/-- Our version becomes invalid, unless the report is overlooked. -/
def BecomesInvalid (b : LocalBank) (order : List Signal) : Prop :=
  match confirmedHash order with
  | some hash => hash ≠ b.hash
  | none => (.duplicate ∈ order ∧ ¬Overlooked b order) ∨
      ∃ hash, sampledHash order = some hash ∧ hash ≠ b.hash

theorem confirmedHash_concat (done : List Signal) (signal : Signal) :
    confirmedHash (done ++ [signal]) = (confirmedHash done).or (confirmedHash [signal]) :=
  findSome?_append

theorem sampledHash_concat (done : List Signal) (signal : Signal) :
    sampledHash (done ++ [signal]) = (sampledHash done).or (sampledHash [signal]) :=
  findSome?_append

open Signal

theorem confirmedHash_eq_none (h : .duplicateConfirmed ∉ done.map kind) :
    confirmedHash done = none := by
  refine findSome?_eq_none_iff.mpr fun signal hmem => ?_
  cases signal with
  | duplicateConfirmed hash => exact absurd (mem_map_of_mem (f := kind) hmem) h
  | _ => rfl

theorem sampledHash_eq_none (h : .epochSlotsFrozen ∉ done.map kind) : sampledHash done = none := by
  refine findSome?_eq_none_iff.mpr fun signal hmem => ?_
  cases signal with
  | epochSlotsFrozen hash => exact absurd (mem_map_of_mem (f := kind) hmem) h
  | _ => rfl

theorem mem_of_sampledHash (h : sampledHash done = some hash) : .epochSlotsFrozen hash ∈ done := by
  obtain ⟨signal, hmem, hsome⟩ := exists_of_findSome?_eq_some h
  cases signal with
  | epochSlotsFrozen hash' =>
    cases hsome
    exact hmem
  | _ => cases hsome

theorem mem_of_mem_beforeFrozen (h : signal ∈ beforeFrozen done) : signal ∈ done :=
  (takeWhile_sublist _).subset h

theorem beforeFrozen_concat (h : .bankFrozen ∈ done) :
    beforeFrozen (done ++ [signal]) = beforeFrozen done := by
  rw [beforeFrozen, takeWhile_append, if_neg]
  · rfl
  · intro hlen
    have hall := takeWhile_eq_self_iff.mp ((takeWhile_sublist _).eq_of_length hlen)
    exact absurd rfl (of_decide_eq_true (hall _ h))

theorem beforeFrozen_concat_bankFrozen (h : .bankFrozen ∉ done) :
    beforeFrozen (done ++ [.bankFrozen]) = done := by
  have hall : done.takeWhile (fun signal => decide (signal ≠ .bankFrozen)) = done :=
    takeWhile_eq_self_iff.mpr fun signal hmem => decide_eq_true fun heq => h (heq ▸ hmem)
  rw [beforeFrozen, takeWhile_append, hall, if_pos rfl]
  exact append_nil done

/-- What is known after some signals. -/
structure Delivered (b : LocalBank) (es : EpochStakes)
    (parentOf : SlotHashKey → Option SlotHashKey) (fc₀ : HeaviestSubtreeForkChoice)
    (done : List Signal) (r : Replay) : Prop where
  tracker : b.slot ∈ r.trackers.duplicateSlotsTracker ↔ .duplicate ∈ done
  confirmedSlots : r.trackers.duplicateConfirmedSlots[b.slot]? = confirmedHash done
  sampledSlots : r.trackers.epochSlotsFrozenSlots[b.slot]? = sampledHash done
  waiting : .bankFrozen ∉ done → r.bankHash = none ∧ r.trackers.forkChoice = fc₀ ∧
    r.trackers.duplicateSlotsToRepair[b.slot]? = none
  frozen : .bankFrozen ∈ done → r.bankHash = some b.hash ∧
    Standing b es parentOf r.trackers.forkChoice (confirmedHash done = some b.hash)
      (BecomesInvalid b done) ∧
    r.trackers.duplicateSlotsToRepair[b.slot]? = versionToRepair b done

theorem Unseen.delivered (h : Unseen b t) : Delivered b es parentOf t.forkChoice [] ⟨t, none⟩ where
  tracker := iff_of_false h.tracker not_mem_nil
  confirmedSlots := h.confirmed
  sampledSlots := h.sampled
  waiting _ := ⟨rfl, rfl, h.repair⟩
  frozen hmem := absurd hmem not_mem_nil

theorem BankStatus.new_frozen (hhash : b.hash ≠ defaultHash) :
    new false (some b.hash) = .frozen b.hash := if_neg hhash

/-- The confirmed hash in a snapshot is the one that was delivered. -/
theorem Standing.getDuplicateConfirmedHashFromState_eq
    (h : Standing b es parentOf t.forkChoice confirmed invalid)
    (hconf : confirmed → t.duplicateConfirmedSlots[b.slot]? = some b.hash) :
    getDuplicateConfirmedHashFromState t b.slot (some b.hash) =
      some t.duplicateConfirmedSlots[b.slot]? := by
  obtain ⟨info, hget⟩ := h.present
  have hinfo : t.forkChoice.isDuplicateConfirmed ⟨b.slot, b.hash⟩ =
      some info.isDuplicateConfirmed := congrArg (Option.map _) hget
  rw [getDuplicateConfirmedHashFromState, isLocalReplayDuplicateConfirmed, hinfo,
    getDuplicateConfirmedHash]
  cases hdup : info.isDuplicateConfirmed with
  | false => rfl
  | true =>
    rw [hdup] at hinfo
    rw [hconf (h.confirmed.mp hinfo)]
    rfl

/-- After the changes for a frozen bank. -/
theorem Changed.delivered
    (h : Changed b es parentOf t (confirmedHash done = some b.hash) (BecomesInvalid b done)
      (versionToRepair b done) t')
    (hfrozen : .bankFrozen ∈ done) (htracker : b.slot ∈ t.duplicateSlotsTracker ↔ .duplicate ∈ done)
    (hconfirmed : t.duplicateConfirmedSlots[b.slot]? = confirmedHash done)
    (hsampled : t.epochSlotsFrozenSlots[b.slot]? = sampledHash done) :
    Delivered b es parentOf fc₀ done ⟨t', some b.hash⟩ where
  tracker := h.tracker.symm ▸ htracker
  confirmedSlots := h.confirmedSlots.symm ▸ hconfirmed
  sampledSlots := h.sampledSlots.symm ▸ hsampled
  waiting hout := absurd hfrozen hout
  frozen _ := ⟨rfl, h.standing, h.repair⟩

section Steps
variable (hroot : b.root < b.slot) (hhash : b.hash ≠ defaultHash)
include hroot in
/-- The changes of a signal that was not processed before. -/
theorem check_bind {update : SlotStateUpdate} {t2 : Trackers}
    (hrecord : recordUpdate b.slot t update = (t', false))
    (hchanges : update.intoStateChanges b.slot = some changes)
    (happly : applyStateChanges b.slot t' changes = some t2) (bankHash : Option ℕ) :
    ((checkSlotAgreesWithCluster b.slot b.root t update).bind fun t => some ⟨t, bankHash⟩) =
      some (⟨t2, bankHash⟩ : Replay) := by
  rw [checkSlotAgreesWithCluster, if_neg (not_le.mpr hroot), hrecord]
  rw [hchanges]
  exact congrArg (fun o => o.bind fun t => some (Replay.mk t bankHash)) happly

variable (h : Delivered b es parentOf fc₀ done r)
include hroot hhash h
/-- The slot is reported as a duplicate. Our version is marked iff no version is confirmed. -/
theorem Delivered.exists_duplicate (hnew : .duplicate ∉ done) :
    ∃ r', deliver b r .duplicate = some r' ∧
      Delivered b es parentOf fc₀ (done ++ [.duplicate]) r' := by
  set t1 : Trackers := { r.trackers with
    duplicateSlotsTracker := insert b.slot r.trackers.duplicateSlotsTracker }
  have hrecord : ∀ state, recordUpdate b.slot r.trackers (.duplicate state) = (t1, false) :=
    fun _ => if_neg (mt h.tracker.mp hnew)
  have hin : duplicate ∈ done ++ [.duplicate] := by simp
  have htracker : b.slot ∈ t1.duplicateSlotsTracker ↔ .duplicate ∈ done ++ [.duplicate] :=
    iff_of_true (Finset.mem_insert_self _ _) hin
  have hconfirmed : confirmedHash (done ++ [.duplicate]) = confirmedHash done :=
    (confirmedHash_concat _ _).trans or_none
  have hsampled : sampledHash (done ++ [.duplicate]) = sampledHash done :=
    (sampledHash_concat _ _).trans or_none
  have hmem : bankFrozen ∈ done ++ [.duplicate] ↔ .bankFrozen ∈ done := by simp
  by_cases hfrozen : .bankFrozen ∈ done
  · obtain ⟨hbank, hstanding, hrepair⟩ := h.frozen hfrozen
    have hget := hstanding.getDuplicateConfirmedHashFromState_eq
      fun heq => h.confirmedSlots.trans heq
    rw [h.confirmedSlots] at hget
    have hstate : DuplicateState.newFromState r.trackers b.slot false r.bankHash =
        some ⟨confirmedHash done, .frozen b.hash⟩ := by
      rw [DuplicateState.newFromState, hbank, new_frozen hhash]
      exact congrArg (Option.map _) hget
    have hversion : versionToRepair b (done ++ [.duplicate]) = versionToRepair b done := by
      rw [versionToRepair, versionToRepair, hconfirmed, hsampled]
    obtain ⟨t', happly, hchanged⟩ : ∃ t', applyStateChanges b.slot t1
        (onDuplicate ⟨confirmedHash done, .frozen b.hash⟩) = some t' ∧
        Changed b es parentOf t1 (confirmedHash (done ++ [.duplicate]) = some b.hash)
          (BecomesInvalid b (done ++ [.duplicate]))
          (versionToRepair b (done ++ [.duplicate])) t' := by
      have hcase : BecomesInvalid b (done ++ [.duplicate]) ↔
          BecomesInvalid b done ∨ confirmedHash done = none := by
        have hfree : ¬Overlooked b (done ++ [.duplicate]) := by
          rw [Overlooked, beforeFrozen_concat hfrozen]
          exact fun hover => hnew (mem_of_mem_beforeFrozen hover.1)
        rw [BecomesInvalid, BecomesInvalid, hconfirmed]
        cases confirmedHash done with
        | none => exact iff_of_true (.inl ⟨hin, hfree⟩) (.inr rfl)
        | some hash => simp
      rw [hconfirmed]
      cases hc : confirmedHash done with
      | none =>
        rw [hc] at hstanding
        obtain ⟨t', happly, hchanged⟩ := isStart_nil.exists_mark (t := t1)
          (hstanding.congr (by simp) Iff.rfl) hhash
        exact ⟨t', happly, hchanged.congr (by simp) (by simp [hcase, hc])
          (hrepair.trans hversion.symm)⟩
      | some hash =>
        rw [hc] at hstanding
        obtain ⟨t', happly, hchanged⟩ := isStart_nil.exists_keep (t := t1) hstanding
        exact ⟨t', happly, hchanged.congr Iff.rfl (by simp [hcase, hc])
          (hrepair.trans hversion.symm)⟩
    refine ⟨⟨t', some b.hash⟩, ?_, hchanged.delivered (hmem.mpr hfrozen) htracker
      (h.confirmedSlots.trans hconfirmed.symm) (h.sampledSlots.trans hsampled.symm)⟩
    rw [deliver, hstate, hbank]
    exact check_bind hroot (hrecord _) rfl happly _
  · obtain ⟨hbank, hfork, hrepair⟩ := h.waiting hfrozen
    refine ⟨⟨t1, none⟩, ?_, htracker, h.confirmedSlots.trans hconfirmed.symm,
      h.sampledSlots.trans hsampled.symm, fun _ => ⟨rfl, hfork, hrepair⟩,
      fun hin => absurd (hmem.mp hin) hfrozen⟩
    rw [deliver, hbank]
    exact check_bind hroot (hrecord _) rfl rfl _

/-- A version is confirmed. -/
theorem Delivered.exists_duplicateConfirmed (hnone : confirmedHash done = none) (hash : ℕ) :
    ∃ r', deliver b r (.duplicateConfirmed hash) = some r' ∧
      Delivered b es parentOf fc₀ (done ++ [.duplicateConfirmed hash]) r' := by
  set t1 : Trackers := { r.trackers with
    duplicateConfirmedSlots := r.trackers.duplicateConfirmedSlots.insert b.slot hash }
  have hconfirmed : confirmedHash (done ++ [.duplicateConfirmed hash]) = some hash := by
    rw [confirmedHash_concat, hnone]
    rfl
  have hslots : t1.duplicateConfirmedSlots[b.slot]? =
      confirmedHash (done ++ [.duplicateConfirmed hash]) :=
    (get_insert _ _ _ _).trans ((if_pos rfl).trans hconfirmed.symm)
  have hsampled : sampledHash (done ++ [.duplicateConfirmed hash]) = sampledHash done :=
    (sampledHash_concat _ _).trans or_none
  have htracker : b.slot ∈ t1.duplicateSlotsTracker ↔
      .duplicate ∈ done ++ [.duplicateConfirmed hash] := by
    rw [mem_append, or_iff_left (by simp)]
    exact h.tracker
  have hmem : bankFrozen ∈ done ++ [.duplicateConfirmed hash] ↔ .bankFrozen ∈ done := by simp
  by_cases hfrozen : .bankFrozen ∈ done
  · obtain ⟨hbank, hstanding, hrepair⟩ := h.frozen hfrozen
    have hstanding' : Standing b es parentOf t1.forkChoice False (BecomesInvalid b done) :=
      hstanding.congr (by simp [hnone]) Iff.rfl
    obtain ⟨t', happly, hchanged⟩ := isStart_nil.exists_confirmed hstanding' hhash hash
    refine ⟨⟨t', some b.hash⟩, ?_, Changed.delivered (hchanged.congr ?_ ?_ ?_)
      (hmem.mpr hfrozen) htracker hslots (h.sampledSlots.trans hsampled.symm)⟩
    · have hstate : newFromState hash false (some b.hash) =
          ⟨hash, .frozen b.hash⟩ := by
        rw [newFromState, new_frozen hhash]
      have hrecord : recordUpdate b.slot t1 (.duplicateConfirmed ⟨hash, .frozen b.hash⟩) =
          (t1, false) := by
        have hnot : ¬t1.forkChoice.isDuplicateConfirmed b.key = some true := hstanding'.confirmed.mp
        exact congrArg (Prod.mk t1) (decide_eq_false hnot)
      rw [deliver, hbank, hstate]
      exact check_bind hroot hrecord rfl happly _
    · rw [hconfirmed, some_inj]
    · rw [BecomesInvalid, hconfirmed]
    · rw [versionToRepair, hconfirmed]
  · obtain ⟨hbank, hfork, hrepair⟩ := h.waiting hfrozen
    refine ⟨⟨t1, none⟩, ?_, htracker, hslots, h.sampledSlots.trans hsampled.symm,
      fun _ => ⟨rfl, hfork, hrepair⟩, fun hin => absurd (hmem.mp hin) hfrozen⟩
    rw [deliver, hbank]
    exact check_bind hroot rfl rfl rfl _

/-- A version is sampled. It counts iff no version is confirmed. -/
theorem Delivered.exists_epochSlotsFrozen (hnone : sampledHash done = none) (hash : ℕ) :
    ∃ r', deliver b r (.epochSlotsFrozen hash) = some r' ∧
      Delivered b es parentOf fc₀ (done ++ [.epochSlotsFrozen hash]) r' := by
  set t1 : Trackers := { r.trackers with
    epochSlotsFrozenSlots := r.trackers.epochSlotsFrozenSlots.insert b.slot hash }
  have hsampled : sampledHash (done ++ [.epochSlotsFrozen hash]) = some hash := by
    rw [sampledHash_concat, hnone]
    rfl
  have hslots : t1.epochSlotsFrozenSlots[b.slot]? =
      sampledHash (done ++ [.epochSlotsFrozen hash]) :=
    (get_insert _ _ _ _).trans ((if_pos rfl).trans hsampled.symm)
  have hconfirmed : confirmedHash (done ++ [.epochSlotsFrozen hash]) = confirmedHash done :=
    (confirmedHash_concat _ _).trans or_none
  have htracker : b.slot ∈ t1.duplicateSlotsTracker ↔
      .duplicate ∈ done ++ [.epochSlotsFrozen hash] := by
    rw [mem_append, or_iff_left (by simp)]
    exact h.tracker
  have hmem : bankFrozen ∈ done ++ [.epochSlotsFrozen hash] ↔ .bankFrozen ∈ done := by simp
  have hrecord : ∀ c status pruned, recordUpdate b.slot r.trackers
      (.epochSlotsFrozen ⟨hash, c, status, pruned⟩) = (t1, false) := by
    intro c status pruned
    show (t1, decide (r.trackers.epochSlotsFrozenSlots[b.slot]? = some hash)) = (t1, false)
    rw [h.sampledSlots, hnone]
    rfl
  by_cases hfrozen : .bankFrozen ∈ done
  · obtain ⟨hbank, hstanding, hrepair⟩ := h.frozen hfrozen
    have hget := hstanding.getDuplicateConfirmedHashFromState_eq
      fun heq => h.confirmedSlots.trans heq
    rw [h.confirmedSlots] at hget
    have hstate : EpochSlotsFrozenState.newFromState r.trackers b.slot hash false r.bankHash
        false = some ⟨hash, confirmedHash done, .frozen b.hash, false⟩ := by
      rw [EpochSlotsFrozenState.newFromState, hbank, new_frozen hhash]
      exact congrArg (Option.map _) hget
    obtain ⟨changes, t', hchanges, happly, hchanged⟩ : ∃ changes t',
        onEpochSlotsFrozen ⟨hash, confirmedHash done, .frozen b.hash, false⟩ = some changes ∧
        applyStateChanges b.slot t1 changes = some t' ∧
        Changed b es parentOf t1 (confirmedHash (done ++ [.epochSlotsFrozen hash]) = some b.hash)
          (BecomesInvalid b (done ++ [.epochSlotsFrozen hash]))
          (versionToRepair b (done ++ [.epochSlotsFrozen hash])) t' := by
      rw [hconfirmed]
      cases hc : confirmedHash done with
      | none =>
        rw [hc] at hstanding
        have hempty : r.trackers.duplicateSlotsToRepair[b.slot]? = none := by
          rw [hrepair, versionToRepair, hc, hnone]
        obtain ⟨changes, t', hchanges, happly, hchanged⟩ :=
          isStart_nil.exists_sampled (t := t1)
            (hstanding.congr (by simp) Iff.rfl) hhash hash hempty
        refine ⟨changes, t', hchanges, happly, hchanged.congr (by simp) ?_ ?_⟩
        · have hover : Overlooked b (done ++ [.epochSlotsFrozen hash]) ↔ Overlooked b done := by
            rw [Overlooked, Overlooked, beforeFrozen_concat hfrozen]
          rw [BecomesInvalid, BecomesInvalid, hconfirmed, hc, hsampled, hnone, hover]
          simp
        · rw [versionToRepair, hconfirmed, hc, hsampled]
      | some d =>
        rw [hc] at hstanding
        obtain ⟨t', happly, hchanged⟩ := isStart_nil.exists_keep (t := t1) hstanding
        refine ⟨[], t', rfl, happly, hchanged.congr Iff.rfl ?_ (hrepair.trans ?_)⟩
        · rw [BecomesInvalid, BecomesInvalid, hconfirmed, hc]
        · rw [versionToRepair, versionToRepair, hconfirmed, hc]
    refine ⟨⟨t', some b.hash⟩, ?_, hchanged.delivered (hmem.mpr hfrozen) htracker
      (h.confirmedSlots.trans hconfirmed.symm) hslots⟩
    rw [deliver, hstate, hbank]
    exact check_bind hroot (hrecord _ (.frozen b.hash) false) hchanges happly _
  · obtain ⟨hbank, hfork, hrepair⟩ := h.waiting hfrozen
    refine ⟨⟨t1, none⟩, ?_, htracker, h.confirmedSlots.trans hconfirmed.symm, hslots,
      fun _ => ⟨rfl, hfork, hrepair⟩, fun hin => absurd (hmem.mp hin) hfrozen⟩
    rw [deliver, hbank]
    exact check_bind hroot (hrecord _ _ _) rfl rfl _

/-- **The bank is frozen.**  A report is looked at iff no version is confirmed or sampled. -/
theorem Delivered.exists_bankFrozen (hslot : ∀ k p, parentOf k = some p → p.slot < k.slot)
    (hparentOf : parentOf b.key = some b.parent) (hsound : Sound es parentOf fc₀)
    (habsent : ¬fc₀.Present b.key) (hparent : fc₀.Present b.parent) (hnew : .bankFrozen ∉ done) :
    ∃ r', deliver b r .bankFrozen = some r' ∧
      Delivered b es parentOf fc₀ (done ++ [.bankFrozen]) r' := by
  obtain ⟨-, rfl, hrepair⟩ := h.waiting hnew
  obtain ⟨fc, hleaf, hstanding⟩ :=
    exists_addNewLeafSlot_standing hsound hslot hparentOf habsent hparent
  set t1 : Trackers := { r.trackers with forkChoice := fc }
  have hconfirmed : confirmedHash (done ++ [.bankFrozen]) = confirmedHash done :=
    (confirmedHash_concat _ _).trans or_none
  have hsampled : sampledHash (done ++ [.bankFrozen]) = sampledHash done :=
    (sampledHash_concat _ _).trans or_none
  have hdup : duplicate ∈ done ++ [.bankFrozen] ↔ .duplicate ∈ done := by simp
  have hget : getDuplicateConfirmedHashFromState t1 b.slot (some b.hash) =
      some (confirmedHash done) :=
    (hstanding.getDuplicateConfirmedHashFromState_eq False.elim).trans
      (congrArg some h.confirmedSlots)
  have hover : Overlooked b (done ++ [.bankFrozen]) ↔
      .duplicate ∈ done ∧ .epochSlotsFrozen b.hash ∈ done := by
    rw [Overlooked, beforeFrozen_concat_bankFrozen hnew]
  have hstart : IsStart b [.bankFrozen b.hash] := .inr rfl
  have hstanding1 : Standing b es parentOf t1.forkChoice False False := hstanding
  have hempty : t1.duplicateSlotsToRepair[b.slot]? = none := hrepair
  obtain ⟨cluster, changes, t', hcluster, hchanges, happly, hchanged⟩ : ∃ cluster changes t',
      getClusterConfirmedHashFromState t1 b.slot (some b.hash) = some cluster ∧
      onFrozenSlot ⟨b.hash, cluster, decide (b.slot ∈ t1.duplicateSlotsTracker)⟩ = some changes ∧
      applyStateChanges b.slot t1 changes = some t' ∧
      Changed b es parentOf t1 (confirmedHash (done ++ [.bankFrozen]) = some b.hash)
        (BecomesInvalid b (done ++ [.bankFrozen])) (versionToRepair b (done ++ [.bankFrozen]))
        t' := by
    rw [getClusterConfirmedHashFromState, hget, BecomesInvalid, versionToRepair, hconfirmed,
      hsampled, hdup, hover]
    have hsampledSlots : t1.epochSlotsFrozenSlots[b.slot]? = sampledHash done := h.sampledSlots
    cases hc : confirmedHash done with
    | some d =>
      obtain ⟨t', happly, hchanged⟩ := hstart.exists_confirmed hstanding1 hhash d
      exact ⟨_, _, t', rfl, rfl, happly, hchanged.congr (by simp) Iff.rfl rfl⟩
    | none =>
      rw [map_some]
      rw [hsampledSlots]
      cases hs : sampledHash done with
      | some e =>
        obtain ⟨changes, t', hchanges, happly, hchanged⟩ :=
          hstart.exists_sampled hstanding1 hhash e hempty
        refine ⟨_, _, t', rfl, congrArg (Option.map _) hchanges, happly,
          hchanged.congr (by simp) ?_ rfl⟩
        have hmem := mem_of_sampledHash hs
        constructor
        · rintro (hfalse | hne)
          · exact hfalse.elim
          · exact .inr ⟨e, rfl, hne⟩
        · rintro (⟨hreport, hnot⟩ | ⟨e', he', hne⟩)
          · exact .inr fun heq => hnot ⟨hreport, heq ▸ hmem⟩
          · cases he'
            exact .inr hne
      | none =>
        have hout : .epochSlotsFrozen b.hash ∉ done := by
          intro hmem
          have hfind := findSome?_eq_none_iff.mp hs _ hmem
          cases hfind
        have hiff : b.slot ∈ t1.duplicateSlotsTracker ↔ .duplicate ∈ done := h.tracker
        by_cases hreport : .duplicate ∈ done
        · obtain ⟨t', happly, hchanged⟩ := hstart.exists_mark hstanding1 hhash
          refine ⟨_, _, t', rfl, ?_, happly, hchanged.congr (by simp) ?_ hempty⟩
          · rw [decide_eq_true (hiff.mpr hreport)]
            rfl
          · exact iff_of_true trivial (.inl ⟨hreport, fun hboth => hout hboth.2⟩)
        · obtain ⟨t', happly, hchanged⟩ := hstart.exists_keep hstanding1
          refine ⟨_, _, t', rfl, ?_, happly, hchanged.congr (by simp) ?_ hempty⟩
          · rw [decide_eq_false (mt hiff.mp hreport)]
            rfl
          · simp [hreport]
  refine ⟨⟨t', some b.hash⟩, ?_, hchanged.delivered (by simp) (h.tracker.trans hdup.symm)
    (h.confirmedSlots.trans hconfirmed.symm) (h.sampledSlots.trans hsampled.symm)⟩
  have hstate : BankFrozenState.newFromState t1 b.slot b.hash =
      some ⟨b.hash, cluster, decide (b.slot ∈ t1.duplicateSlotsTracker)⟩ := by
    rw [BankFrozenState.newFromState, hcluster]
    exact if_pos hhash
  have hrecord : recordUpdate b.slot t1
      (.bankFrozen ⟨b.hash, cluster, decide (b.slot ∈ t1.duplicateSlotsTracker)⟩) =
      (t1, false) := rfl
  rw [deliver, hleaf]
  show (BankFrozenState.newFromState t1 b.slot b.hash).bind _ = _
  rw [hstate]
  exact check_bind hroot hrecord hchanges happly _

end Steps

/-! ## All signals -/

/-- **Signals of different kinds are processed, in any order.** -/
theorem exists_deliverAll (hroot : b.root < b.slot) (hhash : b.hash ≠ defaultHash)
    (hslot : ∀ k p, parentOf k = some p → p.slot < k.slot)
    (hparentOf : parentOf b.key = some b.parent) (hsound : Sound es parentOf t.forkChoice)
    (hunseen : Unseen b t) (honce : (order.map kind).Nodup) :
    ∃ r, deliverAll b t order = some r ∧ Delivered b es parentOf t.forkChoice order r := by
  induction order using List.reverseRecOn with
  | nil => exact ⟨_, rfl, hunseen.delivered⟩
  | append_singleton done signal ih =>
    rw [map_append, map_singleton] at honce
    obtain ⟨hdone, -, hdisjoint⟩ := nodup_append.mp honce
    have hkind : signal.kind ∉ done.map kind :=
      fun hmem => hdisjoint _ hmem _ (mem_singleton_self _) rfl
    obtain ⟨r, heq, hdelivered⟩ := ih hdone
    have hstep : ∃ r', deliver b r signal = some r' ∧
        Delivered b es parentOf t.forkChoice (done ++ [signal]) r' := by
      cases signal with
      | bankFrozen =>
        exact hdelivered.exists_bankFrozen hroot hhash hslot hparentOf hsound hunseen.absent
          hunseen.parent fun hmem => hkind (mem_map_of_mem hmem)
      | duplicate =>
        exact hdelivered.exists_duplicate hroot hhash fun hmem => hkind (mem_map_of_mem hmem)
      | duplicateConfirmed hash =>
        exact hdelivered.exists_duplicateConfirmed hroot hhash (confirmedHash_eq_none hkind) hash
      | epochSlotsFrozen hash =>
        exact hdelivered.exists_epochSlotsFrozen hroot hhash (sampledHash_eq_none hkind) hash
    obtain ⟨r', hdeliver, hdelivered'⟩ := hstep
    refine ⟨r', ?_, hdelivered'⟩
    rw [deliverAll, foldlM_append]
    show (deliverAll b t done).bind _ = _
    rw [heq]
    show (deliver b r signal).bind _ = _
    rw [hdeliver]
    rfl

/-- The sampled hash is the one that comes with a signal. -/
theorem sampledHash_of_mem (honce : (order.map kind).Nodup)
    (hmem : .epochSlotsFrozen hash ∈ order) : sampledHash order = some hash := by
  cases hs : sampledHash order with
  | none => cases findSome?_eq_none_iff.mp hs _ hmem
  | some hash' =>
    have heq := inj_on_of_nodup_map honce hmem (mem_of_sampledHash hs) rfl
    cases heq
    rfl

/-- **The order of the signals.**  All signals are processed, and the outcome depends only on the
set of signals, unless no version is confirmed and a report was overlooked because a sample agreed
with our version before the bank was frozen. -/
theorem deliverAll_resolved_iff {root : SlotHashKey} (hroot : b.root < b.slot)
    (hhash : b.hash ≠ defaultHash) (hslot : ∀ k p, parentOf k = some p → p.slot < k.slot)
    (hparentOf : parentOf b.key = some b.parent)
    (hreachable : Reachable es parentOf root t.forkChoice) (hunseen : Unseen b t)
    (honce : (order.map kind).Nodup) (hfrozen : .bankFrozen ∈ order) :
    ∃ r, deliverAll b t order = some r ∧
      (Resolved b order r.trackers ↔ ¬(confirmedHash order = none ∧ Overlooked b order)) := by
  obtain ⟨r, heq, hdelivered⟩ := exists_deliverAll hroot hhash hslot hparentOf
    (hreachable.sound hslot) hunseen honce
  refine ⟨r, heq, ?_⟩
  obtain ⟨-, hstanding, hrepair⟩ := hdelivered.frozen hfrozen
  rw [Resolved, and_iff_right hrepair, hstanding.invalid, BecomesInvalid, ShouldBeInvalid]
  cases confirmedHash order with
  | some hash => simp
  | none =>
    by_cases hover : Overlooked b order
    · have hreport := mem_of_mem_beforeFrozen hover.1
      have hsampled := sampledHash_of_mem honce (mem_of_mem_beforeFrozen hover.2)
      simp [hover, hreport, hsampled]
    · simp [hover]

/-- A bank of slot `1` with the hash `5`, below the root. -/
def exampleBank : LocalBank := ⟨1, 0, 5, ⟨0, 1⟩⟩

/-- Nothing is known yet. -/
def exampleTrackers (fc : HeaviestSubtreeForkChoice) : Trackers := ⟨∅, ∅, ∅, fc, ∅, ∅, ∅, []⟩

/-- Another version is confirmed before the bank is frozen. -/
theorem deliverAll_resolved_other_version :
    ∃ fc r, new ⟨0, 1⟩ = some fc ∧
      deliverAll exampleBank (exampleTrackers fc) [.duplicateConfirmed 6, .duplicate, .bankFrozen] =
        some r ∧
      Resolved exampleBank [.duplicateConfirmed 6, .duplicate, .bankFrozen] r.trackers := by
  have hstate : (new ⟨0, 1⟩).map (fun fc => (fc.containsBlock ⟨1, 5⟩, fc.containsBlock ⟨0, 1⟩)) =
      some (false, true) := by
    decide +kernel
  obtain ⟨fc, hfc, hstate⟩ := map_eq_some_iff.mp hstate
  obtain ⟨habsent, hparent⟩ := Prod.mk.inj hstate
  have hempty : (∅ : OrdMap ℕ ℕ)[1]? = none := Std.ExtTreeMap.getElem?_empty
  have hunseen : Unseen exampleBank (exampleTrackers fc) := by
    refine ⟨Finset.notMem_empty _, hempty, hempty, hempty, fun hpresent => ?_,
      containsBlock_iff.mp hparent⟩
    cases (containsBlock_iff.mpr hpresent).symm.trans habsent
  have hslot : ∀ k p : SlotHashKey, (if k = ⟨1, 5⟩ then some (⟨0, 1⟩ : SlotHashKey) else none) =
      some p → p.slot < k.slot := by
    intro k p hp
    split_ifs at hp with hk
    cases hp
    rw [hk]
    exact Nat.one_pos
  obtain ⟨r, heq, hiff⟩ : ∃ r, deliverAll exampleBank (exampleTrackers fc)
      [.duplicateConfirmed 6, .duplicate, .bankFrozen] = some r ∧ _ :=
    deliverAll_resolved_iff (by decide) (by decide) hslot (if_pos rfl)
      (.new hfc : Reachable ⟨fun _ => 0, fun _ => none⟩ _ _ fc) hunseen (by decide) (by decide)
  exact ⟨fc, r, hfc, heq, hiff.mpr fun h => absurd h.1 (by decide)⟩

/-- A report and a sample that agrees. Our version is marked invalid if the bank is frozen first,
and not if it is frozen last. -/
theorem not_resolved_overlooked_report :
    ∃ fc r r', new ⟨0, 1⟩ = some fc ∧
      deliverAll exampleBank (exampleTrackers fc) [.duplicate, .epochSlotsFrozen 5, .bankFrozen] =
        some r ∧
      deliverAll exampleBank (exampleTrackers fc) [.bankFrozen, .duplicate, .epochSlotsFrozen 5] =
        some r' ∧
      ¬IsInvalid exampleBank r.trackers.forkChoice ∧ IsInvalid exampleBank r'.trackers.forkChoice ∧
      ¬Resolved exampleBank [.duplicate, .epochSlotsFrozen 5, .bankFrozen] r.trackers := by
  have hstate : (new ⟨0, 1⟩).map (fun fc =>
      ((deliverAll exampleBank (exampleTrackers fc)
          [.duplicate, .epochSlotsFrozen 5, .bankFrozen]).map fun r =>
            r.trackers.forkChoice.latestInvalidAncestor exampleBank.key,
        (deliverAll exampleBank (exampleTrackers fc)
          [.bankFrozen, .duplicate, .epochSlotsFrozen 5]).map fun r =>
            r.trackers.forkChoice.latestInvalidAncestor exampleBank.key)) =
      some (some none, some (some 1)) := by
    decide +kernel
  obtain ⟨fc, hfc, hstate⟩ := map_eq_some_iff.mp hstate
  obtain ⟨hlast, hfirst⟩ := Prod.mk.inj hstate
  obtain ⟨r, heq, hnone⟩ := map_eq_some_iff.mp hlast
  obtain ⟨r', heq', hsome⟩ := map_eq_some_iff.mp hfirst
  have hvalid : ¬IsInvalid exampleBank r.trackers.forkChoice :=
    fun hinvalid => absurd (hnone.symm.trans hinvalid) (by simp)
  refine ⟨fc, r, r', hfc, heq, heq', hvalid, hsome, fun hresolved => hvalid (hresolved.2.mpr ?_)⟩
  exact .inl mem_cons_self

end FlowraValidator.Repair
