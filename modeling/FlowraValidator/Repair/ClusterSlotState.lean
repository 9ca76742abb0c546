import FlowraValidator.Consensus.ForkChoice

/-!
# Does our version of a slot agree with the cluster?

`core/src/repair/cluster_slot_state_verifier.rs`: what becomes of a slot when a bank is frozen or
dead, when the slot is reported as a duplicate, and when some version of it is confirmed by votes or
by a sample of other validators. Each of these signals comes with a snapshot of the trackers. From
the snapshot follows a list of changes, which are then applied to the fork choice, to the slots that
are to be repaired and to the ledger.

A panic is `none`. Logs and metrics are left out.

* `BankStatus`, `SlotStateUpdate`: a signal with its snapshot.
* `SlotStateUpdate.intoStateChanges`: the changes that follow from it.
* `applyStateChanges`, `checkSlotAgreesWithCluster`: the changes are applied.
-/

namespace FlowraValidator.Repair
open Consensus

/-! ## Trackers -/

/-- `Hash::default()`. -/
def defaultHash : ℕ := 0

inductive AncestorHashesReplayUpdate where
  | dead (slot : ℕ)
  | deadDuplicateConfirmed (slot : ℕ)
  | popularPrunedFork (slot : ℕ)

/-- The hash of a bank in the ledger. -/
structure FrozenHashStatus where
  frozenHash : ℕ
  isDuplicateConfirmed : Bool

/-- The trackers, the bank hashes in the ledger, and the updates that were sent. -/
structure Trackers where
  duplicateSlotsTracker : Finset ℕ
  duplicateConfirmedSlots : OrdMap ℕ ℕ
  epochSlotsFrozenSlots : OrdMap ℕ ℕ
  forkChoice : HeaviestSubtreeForkChoice
  duplicateSlotsToRepair : OrdMap ℕ ℕ
  purgeRepairSlotCounter : OrdMap ℕ ℕ
  bankHashes : OrdMap ℕ FrozenHashStatus
  replayUpdates : List AncestorHashesReplayUpdate

namespace Trackers

/-- `Blockstore::insert_bank_hash`: a confirmed hash is not overwritten by the same one. -/
def insertBankHash (t : Trackers) (slot frozenHash : ℕ) (isDuplicateConfirmed : Bool) : Trackers :=
  let insert := { t with
    bankHashes := t.bankHashes.insert slot ⟨frozenHash, isDuplicateConfirmed⟩ }
  match t.bankHashes[slot]? with
  | none => insert
  | some old => if old.frozenHash = frozenHash ∧ old.isDuplicateConfirmed then t else insert

/-- `Blockstore::set_duplicate_confirmed_slots_and_hashes`. -/
def setDuplicateConfirmedSlotsAndHashes (t : Trackers) (keys : List SlotHashKey) : Trackers :=
  { t with bankHashes := keys.foldl (fun m k => m.insert k.slot ⟨k.hash, true⟩) t.bankHashes }

end Trackers

/-! ## Signals -/

inductive ClusterConfirmedHash where
  | duplicateConfirmed (hash : ℕ)
  | epochSlotsFrozen (hash : ℕ)

inductive BankStatus where
  | frozen (hash : ℕ)
  | dead
  | unprocessed
  deriving DecidableEq

namespace BankStatus

/-- A bank without a hash, or with the default one, is not frozen yet. -/
def newFromHash : Option ℕ → BankStatus
  | some hash => if hash = defaultHash then unprocessed else frozen hash
  | none => unprocessed

def new (isDead : Bool) (getHash : Option ℕ) : BankStatus :=
  if isDead then dead else newFromHash getHash

def bankHash : BankStatus → Option ℕ
  | frozen hash => some hash
  | dead | unprocessed => none

def isDead : BankStatus → Bool
  | dead => true
  | frozen _ | unprocessed => false

def canBeFurtherReplayed : BankStatus → Bool
  | unprocessed => true
  | dead | frozen _ => false

end BankStatus

/-- `get_duplicate_confirmed_hash`: it is assumed that a bank that was confirmed in replay is
frozen. -/
def getDuplicateConfirmedHash (duplicateConfirmedHash bankFrozenHash : Option ℕ)
    (isLocalReplayDuplicateConfirmed : Bool) : Option (Option ℕ) :=
  if isLocalReplayDuplicateConfirmed then bankFrozenHash.map some
  else some duplicateConfirmedHash

variable (t : Trackers)

/-- Whether the fork choice has confirmed our version. -/
def isLocalReplayDuplicateConfirmed (slot : ℕ) : Option ℕ → Bool
  | some hash => (t.forkChoice.isDuplicateConfirmed ⟨slot, hash⟩).getD false
  | none => false

def getDuplicateConfirmedHashFromState (slot : ℕ) (bankFrozenHash : Option ℕ) :
    Option (Option ℕ) :=
  getDuplicateConfirmedHash t.duplicateConfirmedSlots[slot]? bankFrozenHash
    (isLocalReplayDuplicateConfirmed t slot bankFrozenHash)

def getClusterConfirmedHashFromState (slot : ℕ) (bankFrozenHash : Option ℕ) :
    Option (Option ClusterConfirmedHash) :=
  (getDuplicateConfirmedHashFromState t slot bankFrozenHash).map fun duplicateConfirmedHash =>
    match duplicateConfirmedHash with
    | some hash => some (.duplicateConfirmed hash)
    | none => t.epochSlotsFrozenSlots[slot]?.map .epochSlotsFrozen

structure DeadState where
  clusterConfirmedHash : Option ClusterConfirmedHash
  isSlotDuplicate : Bool

structure BankFrozenState where
  frozenHash : ℕ
  clusterConfirmedHash : Option ClusterConfirmedHash
  isSlotDuplicate : Bool

structure DuplicateConfirmedState where
  duplicateConfirmedHash : ℕ
  bankStatus : BankStatus

structure DuplicateState where
  duplicateConfirmedHash : Option ℕ
  bankStatus : BankStatus

structure EpochSlotsFrozenState where
  epochSlotsFrozenHash : ℕ
  duplicateConfirmedHash : Option ℕ
  bankStatus : BankStatus
  isPopularPruned : Bool

/-- It is asserted that the hash is not the default one. -/
def BankFrozenState.newFromState (slot frozenHash : ℕ) : Option BankFrozenState :=
  (getClusterConfirmedHashFromState t slot (some frozenHash)).bind fun clusterConfirmedHash =>
    if frozenHash ≠ defaultHash then
      some ⟨frozenHash, clusterConfirmedHash, decide (slot ∈ t.duplicateSlotsTracker)⟩
    else none

def DuplicateConfirmedState.newFromState (duplicateConfirmedHash : ℕ) (isDead : Bool)
    (getHash : Option ℕ) : DuplicateConfirmedState :=
  ⟨duplicateConfirmedHash, .new isDead getHash⟩

def DuplicateState.newFromState (slot : ℕ) (isDead : Bool) (getHash : Option ℕ) :
    Option DuplicateState :=
  let bankStatus := BankStatus.new isDead getHash
  (getDuplicateConfirmedHashFromState t slot bankStatus.bankHash).map
    fun duplicateConfirmedHash => ⟨duplicateConfirmedHash, bankStatus⟩

def EpochSlotsFrozenState.newFromState (slot epochSlotsFrozenHash : ℕ) (isDead : Bool)
    (getHash : Option ℕ) (isPopularPruned : Bool) :
    Option EpochSlotsFrozenState :=
  let bankStatus := BankStatus.new isDead getHash
  (getDuplicateConfirmedHashFromState t slot bankStatus.bankHash).map
    fun duplicateConfirmedHash =>
      ⟨epochSlotsFrozenHash, duplicateConfirmedHash, bankStatus, isPopularPruned⟩

inductive SlotStateUpdate where
  | bankFrozen (state : BankFrozenState)
  | duplicateConfirmed (state : DuplicateConfirmedState)
  | dead (state : DeadState)
  | duplicate (state : DuplicateState)
  | epochSlotsFrozen (state : EpochSlotsFrozenState)
  | popularPrunedFork

/-! ## Changes -/

inductive ResultingStateChange where
  | bankFrozen (hash : ℕ)
  | markSlotDuplicate (hash : ℕ)
  | repairDuplicateConfirmedVersion (hash : ℕ)
  | duplicateConfirmedSlotMatchesCluster (hash : ℕ)
  | sendAncestorHashesReplayUpdate (update : AncestorHashesReplayUpdate)

def checkDuplicateConfirmedHashAgainstBankStatus (duplicateConfirmedHash : ℕ) :
    BankStatus → List ResultingStateChange
  | .unprocessed => []
  | .dead => [.repairDuplicateConfirmedVersion duplicateConfirmedHash]
  | .frozen bankFrozenHash =>
    if duplicateConfirmedHash = bankFrozenHash then
      [.duplicateConfirmedSlotMatchesCluster bankFrozenHash]
    else
      [.markSlotDuplicate bankFrozenHash, .repairDuplicateConfirmedVersion duplicateConfirmedHash]

/-- It is asserted that a bank that was not replayed is pruned. -/
def checkEpochSlotsHashAgainstBankStatus (epochSlotsFrozenHash : ℕ) (isPopularPruned : Bool) :
    BankStatus → Option (List ResultingStateChange)
  | .frozen bankFrozenHash =>
    if bankFrozenHash = epochSlotsFrozenHash then some []
    else some ((if isPopularPruned then [] else [.markSlotDuplicate bankFrozenHash]) ++
      [.repairDuplicateConfirmedVersion epochSlotsFrozenHash])
  | .dead => some [.repairDuplicateConfirmedVersion epochSlotsFrozenHash]
  | .unprocessed =>
    if isPopularPruned then some [.repairDuplicateConfirmedVersion epochSlotsFrozenHash] else none

def onDeadSlot (slot : ℕ) (state : DeadState) : Option (List ResultingStateChange) :=
  match state.clusterConfirmedHash with
  | some (.duplicateConfirmed hash) =>
    some (.sendAncestorHashesReplayUpdate (.deadDuplicateConfirmed slot) ::
      checkDuplicateConfirmedHashAgainstBankStatus hash .dead)
  | some (.epochSlotsFrozen hash) => checkEpochSlotsHashAgainstBankStatus hash false .dead
  | none => some [.sendAncestorHashesReplayUpdate (.dead slot)]

def onFrozenSlot (state : BankFrozenState) : Option (List ResultingStateChange) :=
  match state.clusterConfirmedHash with
  | some (.duplicateConfirmed hash) =>
    some (.bankFrozen state.frozenHash ::
      checkDuplicateConfirmedHashAgainstBankStatus hash (.frozen state.frozenHash))
  | some (.epochSlotsFrozen hash) =>
    (checkEpochSlotsHashAgainstBankStatus hash false (.frozen state.frozenHash)).map
      fun changes => .bankFrozen state.frozenHash :: changes
  | none =>
    some (.bankFrozen state.frozenHash ::
      if state.isSlotDuplicate then [.markSlotDuplicate state.frozenHash] else [])

def onDuplicateConfirmed (slot : ℕ) (state : DuplicateConfirmedState) :
    List ResultingStateChange :=
  match state.bankStatus with
  | .unprocessed => []
  | _ =>
    (if state.bankStatus.isDead then
      [.sendAncestorHashesReplayUpdate (.deadDuplicateConfirmed slot)] else []) ++
    checkDuplicateConfirmedHashAgainstBankStatus state.duplicateConfirmedHash state.bankStatus

def onDuplicate (state : DuplicateState) : List ResultingStateChange :=
  match state.bankStatus with
  | .unprocessed => []
  | _ =>
    if state.duplicateConfirmedHash.isNone then
      match state.bankStatus.bankHash with
      | some bankHash => [.markSlotDuplicate bankHash]
      | none => []
    else []

def onEpochSlotsFrozen (state : EpochSlotsFrozenState) : Option (List ResultingStateChange) :=
  if !state.isPopularPruned && state.duplicateConfirmedHash.isSome then some []
  else if state.bankStatus = .unprocessed ∧ state.isPopularPruned = false then some []
  else
    checkEpochSlotsHashAgainstBankStatus state.epochSlotsFrozenHash state.isPopularPruned
      state.bankStatus

def onPopularPrunedFork (slot : ℕ) : List ResultingStateChange :=
  [.sendAncestorHashesReplayUpdate (.popularPrunedFork slot)]

namespace SlotStateUpdate

def canBeFurtherReplayed : SlotStateUpdate → Bool
  | .bankFrozen _ => false
  | .duplicateConfirmed state => state.bankStatus.canBeFurtherReplayed
  | .dead _ => false
  | .duplicate state => state.bankStatus.canBeFurtherReplayed
  | .epochSlotsFrozen state => state.bankStatus.canBeFurtherReplayed && !state.isPopularPruned
  | .popularPrunedFork => false

def intoStateChanges (update : SlotStateUpdate) (slot : ℕ) : Option (List ResultingStateChange) :=
  if update.canBeFurtherReplayed then some []
  else
    match update with
    | .dead state => onDeadSlot slot state
    | .bankFrozen state => onFrozenSlot state
    | .duplicateConfirmed state => some (onDuplicateConfirmed slot state)
    | .duplicate state => some (onDuplicate state)
    | .epochSlotsFrozen state => onEpochSlotsFrozen state
    | .popularPrunedFork => some (onPopularPrunedFork slot)

end SlotStateUpdate

/-! ## Changes are applied -/

/-- One change. Beside the trackers there is the hash of a frozen bank that is not confirmed
yet. -/
def applyStateChange (slot : ℕ) (t : Trackers) (notDuplicateConfirmedFrozenHash : Option ℕ) :
    ResultingStateChange → Option (Trackers × Option ℕ)
  | .bankFrozen hash =>
    (t.forkChoice.isDuplicateConfirmed ⟨slot, hash⟩).map fun confirmed =>
      (t, if confirmed then notDuplicateConfirmedFrozenHash else some hash)
  | .markSlotDuplicate hash =>
    (t.forkChoice.markForkInvalidCandidate ⟨slot, hash⟩).map fun forkChoice =>
      ({ t with forkChoice := forkChoice }, notDuplicateConfirmedFrozenHash)
  | .repairDuplicateConfirmedVersion hash =>
    some ({ t with duplicateSlotsToRepair := t.duplicateSlotsToRepair.insert slot hash },
      notDuplicateConfirmedFrozenHash)
  | .duplicateConfirmedSlotMatchesCluster hash =>
    (t.forkChoice.markForkValidCandidate ⟨slot, hash⟩).map fun r =>
      ({ t.setDuplicateConfirmedSlotsAndHashes r.1 with
          forkChoice := r.2
          duplicateSlotsToRepair := t.duplicateSlotsToRepair.erase slot
          purgeRepairSlotCounter := t.purgeRepairSlotCounter.erase slot }, none)
  | .sendAncestorHashesReplayUpdate update =>
    some ({ t with replayUpdates := t.replayUpdates ++ [update] }, notDuplicateConfirmedFrozenHash)

/-- The loop of `apply_state_changes`. -/
def applyChanges (slot : ℕ) : Trackers → Option ℕ → List ResultingStateChange →
    Option (Trackers × Option ℕ)
  | t, notDuplicateConfirmedFrozenHash, [] => some (t, notDuplicateConfirmedFrozenHash)
  | t, notDuplicateConfirmedFrozenHash, change :: changes => do
    let (t, notDuplicateConfirmedFrozenHash) ←
      applyStateChange slot t notDuplicateConfirmedFrozenHash change
    applyChanges slot t notDuplicateConfirmedFrozenHash changes

def applyStateChanges (slot : ℕ) (t : Trackers) (changes : List ResultingStateChange) :
    Option Trackers :=
  (applyChanges slot t none changes).map fun r =>
    match r.2 with
    | some frozenHash => r.1.insertBankHash slot frozenHash false
    | none => r.1

/-- What is recorded about a signal, and whether it was processed before. -/
def recordUpdate (slot : ℕ) (t : Trackers) : SlotStateUpdate → Trackers × Bool
  | .duplicate _ =>
    if slot ∈ t.duplicateSlotsTracker then (t, true)
    else ({ t with duplicateSlotsTracker := insert slot t.duplicateSlotsTracker }, false)
  | .duplicateConfirmed state =>
    match state.bankStatus.bankHash with
    | some bankHash => (t, decide (t.forkChoice.isDuplicateConfirmed ⟨slot, bankHash⟩ = some true))
    | none => (t, false)
  | .epochSlotsFrozen state =>
    ({ t with
        epochSlotsFrozenSlots := t.epochSlotsFrozenSlots.insert slot state.epochSlotsFrozenHash },
      decide (t.epochSlotsFrozenSlots[slot]? = some state.epochSlotsFrozenHash))
  | _ => (t, false)

def checkSlotAgreesWithCluster (slot root : ℕ) (t : Trackers) (update : SlotStateUpdate) :
    Option Trackers :=
  if slot ≤ root then some t
  else
    match recordUpdate slot t update with
    | (t, true) => some t
    | (t, false) => (update.intoStateChanges slot).bind (applyStateChanges slot t)

end FlowraValidator.Repair
