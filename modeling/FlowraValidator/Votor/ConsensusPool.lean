import FlowraValidator.Votor.CertificateBuilder
import FlowraValidator.Votor.ParentReadyTracker
import FlowraValidator.Votor.SlotStakeCounters

/-!
# The consensus pool

`votor/src/consensus_pool.rs`: votes are checked against earlier votes of the same validator and
stored; a vote that completes a certificate makes the pool build it; certificates, built here or
received, are kept and turned into events.

A call returns `none` where the source panics. A call that returns an error has changed the pool
up to that point, so the pool is part of the result next to the `Except`. Statistics are left out.

* `ConsensusPool`: the data.
* `addVote`, `addCertificate`: the calls of the ingest loop.
* `pruneOldState`: the call after the root has moved.
-/

namespace FlowraValidator.Votor
open Function

variable {Sig : Type}

/-! ## The migration -/

/-- `MigrationPhase` of `votor-messages/src/migration.rs`. -/
inductive MigrationPhase (Sig : Type) where
  | preFeatureActivation
  | migration (migrationSlot : ℕ) (genesisBlock : Option Block)
      (genesisCert : Option (Certificate Sig))
  | readyToEnable (genesisCert : Certificate Sig)
  | alpenglowEnabled (genesisCert : Certificate Sig)
  | fullAlpenglowEpoch (fullAlpenglowEpoch : ℕ) (genesisCert : Certificate Sig)

/-- The genesis certificate ends the migration once the block it names is the one voted for; a
certificate outside the migration, past its start or for another block panics. -/
def MigrationPhase.setGenesisCertificate (phase : MigrationPhase Sig) (cert : Certificate Sig) :
    Option (MigrationPhase Sig) :=
  match phase, cert.certType with
  | .migration migrationSlot genesisBlock _, .genesis slot blockId =>
    if slot < migrationSlot then
      match genesisBlock with
      | none => some (.migration migrationSlot none (some cert))
      | some block => if block = (slot, blockId) then some (.readyToEnable cert) else none
    else none
  | _, _ => none

/-! ## Data -/

inductive AddVoteError where
  | conflictingVoteType (voteType conflicting : VoteType) (slot : ℕ) (pubkey : Pubkey)
  | epochStakesNotFound (epoch : ℕ)
  | unrootedSlot
  | certificate (error : BuildError)
  | invalidRank (rank : ℕ)

/-- What a call reads from outside the pool: the epoch schedule, the stakes known to the root bank,
and the vote account of this node. `round` and `store` are the machine's floating point rounding
and the encoder of bitmaps. -/
structure PoolContext where
  getEpoch : ℕ → ℕ
  epochStakesMap : ℕ → Option EpochStakes
  myVotePubkey : Pubkey
  round : ℚ → ℚ
  store : SignerStore

/-- The pool. `completedCertificates` lists the entries of a map by certificate type. -/
structure ConsensusPool (Sig : Type) where
  votePools : ℕ × VoteType → Option (VotePool Sig)
  completedCertificates : List (CertificateType × Certificate Sig)
  parentReadyTracker : ParentReadyTracker
  highestFinalizedSlot : Option ℕ
  highestFinalizedWithNotarize : Option (ℕ × Bool)
  slotStakeCountersMap : ℕ → Option SlotStakeCounters
  migrationStatus : Option (MigrationPhase Sig)

/-- What a fallible call leaves: its answer, the pool and the events so far. -/
abbrev PoolResult (Sig α : Type) : Type :=
  Except AddVoteError α × ConsensusPool Sig × List VotorEvent

def getKeyAndStakes (ctx : PoolContext) (slot rank : ℕ) :
    Option (Except AddVoteError (Pubkey × ℕ × ℕ)) :=
  let epoch := ctx.getEpoch slot
  match ctx.epochStakesMap epoch with
  | none => some (.error (.epochStakesNotFound epoch))
  | some epochStakes =>
    match epochStakes.entry rank with
    | none => some (.error (.invalidRank rank))
    | some (voteKey, stake) =>
      -- there is no rank for zero stake
      if stake = 0 then none else some (.ok (voteKey, stake, epochStakes.totalStake))

namespace ConsensusPool

/-- `new_from_root_bank`, for the slot and the block id of the root bank. -/
def newFromRootBank (rootBlock : Block) : ConsensusPool Sig where
  votePools := fun _ => none
  completedCertificates := []
  parentReadyTracker := .new rootBlock
  highestFinalizedSlot := none
  highestFinalizedWithNotarize := none
  slotStakeCountersMap := fun _ => none
  migrationStatus := none

def newFromRootBankPreMigration (rootBlock : Block) (phase : MigrationPhase Sig) :
    ConsensusPool Sig :=
  { newFromRootBank rootBlock with migrationStatus := some phase }

/-! ## Votes -/

def newVotePool : VoteType → VotePool Sig
  | .notarizeFallback => .duplicateBlock (.new maxEntriesPerPubkeyForNotarizeLite)
  | .notarize => .duplicateBlock (.new maxEntriesPerPubkeyForOtherTypes)
  | _ => .simple .empty

variable (p : ConsensusPool Sig)

def updateVotePool (m : VoteMessage Sig) (validatorVoteKey : Pubkey) (validatorStake : ℕ) :
    Option (Option ℕ × ConsensusPool Sig) :=
  let id := (m.vote.slot, m.vote.getType)
  match (p.votePools id).getD (newVotePool m.vote.getType) with
  | .simple pool =>
    let added := pool.addVote validatorVoteKey validatorStake m
    some (added.1, { p with votePools := update p.votePools id (some (.simple added.2)) })
  | .duplicateBlock pool =>
    (pool.addVote validatorVoteKey validatorStake m).map fun added =>
      (added.1, { p with votePools := update p.votePools id (some (.duplicateBlock added.2)) })

/-- Whether the validator has a vote of type `conflicting` that rules out one for `blockId`. -/
def isConflicting (slot : ℕ) (conflicting : VoteType) (validatorVoteKey : Pubkey)
    (blockId : Option Hash) : Bool :=
  match p.votePools (slot, conflicting) with
  | none => false
  | some (.simple pool) => pool.hasPrevValidatorVote validatorVoteKey
  | some (.duplicateBlock pool) =>
    match blockId with
    -- votes of both types are allowed for different blocks
    | some blockId => pool.hasPrevValidatorVoteForBlock validatorVoteKey blockId
    | none => pool.hasPrevValidatorVote validatorVoteKey

def hasConflictingVote (slot : ℕ) (voteType : VoteType) (validatorVoteKey : Pubkey)
    (blockId : Option Hash) : Option VoteType :=
  (conflictingTypes voteType).find? fun conflicting =>
    p.isConflicting slot conflicting validatorVoteKey blockId

/-! ## Certificates -/

def containsCertificate (certType : CertificateType) : Bool :=
  decide (certType ∈ p.completedCertificates.map Prod.fst)

/-- The blocks of `slot` with a notarize certificate. -/
def notarizedBlockIds (slot : ℕ) : List Hash :=
  p.completedCertificates.filterMap fun entry =>
    match entry.1 with
    | .notarize s blockId => if s = slot then some blockId else none
    | _ => none

/-- The first notarize certificate for `slot` in the order of certificate types. -/
def getNotarizedBlock (slot : ℕ) : Option Block :=
  (p.notarizedBlockIds slot).min?.map fun blockId => (slot, blockId)

def isFinalized (slot : ℕ) : Bool :=
  p.completedCertificates.any fun entry =>
    match entry.1 with
    | .finalize s => decide (s = slot)
    | .finalizeFast s _ => decide (s = slot)
    | _ => false

def raiseFinalizedSlot (slot : ℕ) : ConsensusPool Sig :=
  if p.highestFinalizedSlot.all (· < slot) then { p with highestFinalizedSlot := some slot } else p

/-- For a slot finalized by two certificates. -/
def raiseFinalizedWithNotarize (slot : ℕ) : ConsensusPool Sig :=
  if p.highestFinalizedWithNotarize.all (·.1 < slot) then
    { p with highestFinalizedWithNotarize := some (slot, false) }
  else p

/-- For a slot finalized by one certificate, which wins over the other way for the same slot. -/
def raiseFinalizedFast (slot : ℕ) : ConsensusPool Sig :=
  if p.highestFinalizedWithNotarize.all (·.1 ≤ slot) then
    { p with highestFinalizedWithNotarize := some (slot, true) }
  else p

def addBlockToTracker (block : Block) (events : List VotorEvent) :
    Option (ConsensusPool Sig × List VotorEvent) :=
  (p.parentReadyTracker.addNewNotarFallbackOrStronger block events).map fun result =>
    ({ p with parentReadyTracker := result.1 }, result.2)

def addSkipToTracker (slot : ℕ) (events : List VotorEvent) :
    Option (ConsensusPool Sig × List VotorEvent) :=
  (p.parentReadyTracker.addNewSkip slot events).map fun result =>
    ({ p with parentReadyTracker := result.1 }, result.2)

def setGenesisCertificate (cert : Certificate Sig) :
    Option (ConsensusPool Sig) :=
  match p.migrationStatus with
  | none => some p
  | some phase => (phase.setGenesisCertificate cert).map fun phase =>
    { p with migrationStatus := some phase }

/-- `completed_certificates.insert(cert_type, cert)`. -/
def storeCertificate (certType : CertificateType) (cert : Certificate Sig) : ConsensusPool Sig :=
  { p with
    completedCertificates :=
      (p.completedCertificates.filter fun entry => decide (entry.1 ≠ certType)) ++
        [(certType, cert)] }

def insertCertificate (certType : CertificateType) (cert : Certificate Sig)
    (events : List VotorEvent) :
    Option (ConsensusPool Sig × List VotorEvent) :=
  let p := p.storeCertificate certType cert
  match certType with
  | .notarizeFallback slot blockId => p.addBlockToTracker (slot, blockId) events
  | .skip slot => p.addSkipToTracker slot events
  | .notarize slot blockId => do
    let (p, events) ← p.addBlockToTracker (slot, blockId)
      (events ++ [VotorEvent.blockNotarized (slot, blockId)])
    if p.isFinalized slot then
      return (p.raiseFinalizedWithNotarize slot,
        events ++ [VotorEvent.finalized (slot, blockId) false])
    else return (p, events)
  | .finalize slot =>
    match p.getNotarizedBlock slot with
    | some block =>
      some ((p.raiseFinalizedWithNotarize slot).raiseFinalizedSlot slot,
        events ++ [VotorEvent.finalized block false])
    | none => some (p.raiseFinalizedSlot slot, events)
  | .finalizeFast slot blockId => do
    let (p, events) ← p.addBlockToTracker (slot, blockId)
      (events ++ [VotorEvent.finalized (slot, blockId) true])
    return ((p.raiseFinalizedSlot slot).raiseFinalizedFast slot, events)
  | .genesis slot blockId => do
    let p ← p.setGenesisCertificate cert
    p.addBlockToTracker (slot, blockId) events

/-- What the votes of one type contribute to a certificate; a pool by block id that is asked
without one panics. -/
def stakeOfType (slot : ℕ) (blockId : Option Hash) (ty : VoteType) :
    Option ℕ :=
  match p.votePools (slot, ty) with
  | none => some 0
  | some (.simple pool) => some pool.totalStake
  | some (.duplicateBlock pool) => blockId.map pool.totalStakeByBlockId

/-- The sum over the vote types that count; an overflow of the sum panics. -/
def accumulatedStake (p : ConsensusPool Sig) (slot : ℕ) (blockId : Option Hash) :
    List VoteType → Option ℕ
  | [] => some 0
  | ty :: types => do
    let stake ← p.stakeOfType slot blockId ty
    let rest ← p.accumulatedStake slot blockId types
    if stake + rest ≤ u64Max then return stake + rest else none

/-- The slices of votes that are handed to the builder, one for each vote type with votes. -/
def certificateVotes (slot : ℕ) (blockId : Option Hash) (types : List VoteType) :
    List (List (VoteMessage Sig)) :=
  types.filterMap fun ty =>
    match p.votePools (slot, ty) with
    | none => none
    | some (.simple pool) => some pool.votes
    | some (.duplicateBlock pool) => blockId.bind pool.votes

variable [AddCommMonoid Sig]

/-- The new certificate, an error of `build`, or a panic of `aggregate(..).unwrap()`. -/
def buildCertificate (store : SignerStore) (p : ConsensusPool Sig) (slot : ℕ)
    (blockId : Option Hash) (certType : CertificateType) :
    Option (Except BuildError (Certificate Sig)) :=
  match BuilderType.aggregateAll certType (.new certType)
      (p.certificateVotes slot blockId certType.limitsAndVoteTypes.2) with
  | some (.ok builder) => some (builder.build store certType)
  | _ => none

/-- Whether the votes suffice: `Fraction::new(accumulated_stake, total_stake) >= limit`. -/
def isComplete (slot : ℕ) (blockId : Option Hash) (totalStake : ℕ) (certType : CertificateType) :
    Option Bool := do
  let accumulated ← p.accumulatedStake slot blockId certType.limitsAndVoteTypes.2
  if h : 0 < totalStake then
    return !decide ((⟨accumulated, totalStake, h⟩ : Fraction) < certType.limitsAndVoteTypes.1)
  else none

/-- The loop over the certificates that a vote of `slot` counts for. -/
def updateCertificates (store : SignerStore) (slot : ℕ) (blockId : Option Hash)
    (totalStake : ℕ) : List CertificateType → ConsensusPool Sig → List VotorEvent →
      List (Certificate Sig) → Option (PoolResult Sig (List (Certificate Sig)))
  | [], p, events, newCertificates => some (.ok newCertificates, p, events)
  | certType :: rest, p, events, newCertificates =>
    if p.containsCertificate certType then
      updateCertificates store slot blockId totalStake rest p events newCertificates
    else
      match p.isComplete slot blockId totalStake certType with
      | none => none
      | some false => updateCertificates store slot blockId totalStake rest p events newCertificates
      | some true =>
        match p.buildCertificate store slot blockId certType with
        | none => none
        | some (.error e) => some (.error (.certificate e), p, events)
        | some (.ok cert) =>
          match p.insertCertificate certType cert events with
          | none => none
          | some (p, events) => updateCertificates store slot blockId totalStake rest p events
            (newCertificates ++ [cert])

/-! ## The calls -/

/-- `slot_stake_counters_map.entry(slot).or_insert_with(..).add_vote(..)`. -/
def countVote (ctx : PoolContext) (p : ConsensusPool Sig) (vote : Vote) (entryStake : ℕ)
    (validatorVoteKey : Pubkey) (totalStake : ℕ) (events : List VotorEvent) :
    ConsensusPool Sig × List VotorEvent :=
  let counters := (p.slotStakeCountersMap vote.slot).getD (.new totalStake)
  let counted := counters.addVote ctx.round vote entryStake
    (decide (ctx.myVotePubkey = validatorVoteKey)) events
  ({ p with
    slotStakeCountersMap := update p.slotStakeCountersMap vote.slot (some counted.1) },
    counted.2)

def addVote (ctx : PoolContext) (rootSlot : ℕ) (p : ConsensusPool Sig) (m : VoteMessage Sig)
    (events : List VotorEvent) : Option (PoolResult Sig (List (Certificate Sig))) :=
  match getKeyAndStakes ctx m.vote.slot m.rank with
  | none => none
  | some (.error e) => some (.error e, p, events)
  | some (.ok (validatorVoteKey, validatorStake, totalStake)) =>
    if m.vote.slot < rootSlot then some (.error .unrootedSlot, p, events)
    else
      match p.hasConflictingVote m.vote.slot m.vote.getType validatorVoteKey m.vote.blockId with
      | some conflicting =>
        some (.error (.conflictingVoteType m.vote.getType conflicting m.vote.slot
          validatorVoteKey), p, events)
      | none =>
        match p.updateVotePool m validatorVoteKey validatorStake with
        | none => none
        | some (none, p) => some (.ok [], p, events)
        | some (some entryStake, p) =>
          let counted := p.countVote ctx m.vote entryStake validatorVoteKey totalStake events
          updateCertificates ctx.store m.vote.slot m.vote.blockId totalStake
            (voteToCertTypes m.vote) counted.1 counted.2 []

def addCertificate (rootSlot : ℕ) (p : ConsensusPool Sig) (cert : Certificate Sig)
    (events : List VotorEvent) : Option (PoolResult Sig (List (Certificate Sig))) :=
  if cert.certType.slot < rootSlot then some (.error .unrootedSlot, p, events)
  else if p.containsCertificate cert.certType then some (.ok [], p, events)
  else (p.insertCertificate cert.certType cert events).map fun result =>
    (.ok [cert], result.1, result.2)

def pruneOldState (rootSlot : ℕ) : ConsensusPool Sig :=
  { p with
    completedCertificates :=
      p.completedCertificates.filter fun entry => decide (rootSlot ≤ entry.1.slot)
    votePools := fun id => if rootSlot ≤ id.1 then p.votePools id else none
    slotStakeCountersMap := fun s => if rootSlot ≤ s then p.slotStakeCountersMap s else none
    parentReadyTracker := p.parentReadyTracker.setRoot rootSlot }

end ConsensusPool
end FlowraValidator.Votor
