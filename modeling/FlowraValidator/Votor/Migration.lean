import FlowraValidator.Votor.ConsensusPool

/-!
# The migration to Alpenglow

`votor-messages/src/migration.rs`, and the genesis marker of
`runtime/src/block_component_processor.rs`. Three sources tell a node about the genesis block:
replay discovers it as an ancestor of a block with enough votes, the certificate pool receives or
builds its certificate, and the replay of a child of the genesis block finds the certificate in a
block marker.

A setter returns `none` where the source panics. Whether the certificate of a marker is valid is
answered by the bank that replays it, so `verify` is an argument.

The sources run in threads of their own, and every method of the source locks the phase for itself.
So a call is cut here where it takes the lock, and between two cuts any other call may run: a
schedule says which call gets the lock next. That a half of the genesis is known means that a
setter has returned for it.

The marker calls both setters, and each of them assumes that nobody was there before. So the
marker panics when one of the other two sources was first or comes in between, and the others panic
when the marker was first.

* `GenesisCall.step`: what a call does when it gets the lock.
* `MigrationStatus.Accepts`: the calls a state does not panic on.
* `MigrationStatus.Invariant.step`: what one call does with the lock.
* `MigrationStatus.run_iff`: what all schedules do.
-/

namespace FlowraValidator.Votor
open MigrationPhase List Option

variable {Sig : Type}

/-! ## The phases -/

namespace MigrationPhase

def isInMigration : MigrationPhase Sig → Bool
  | .migration _ _ _ => true
  | _ => false

def isReadyToEnable : MigrationPhase Sig → Bool
  | .readyToEnable _ => true
  | _ => false

def isAlpenglowEnabled : MigrationPhase Sig → Bool
  | .alpenglowEnabled _ => true
  | .fullAlpenglowEpoch _ _ => true
  | _ => false

def isAlpenglowBlock (slot : ℕ) : MigrationPhase Sig → Bool
  | .alpenglowEnabled genesisCert => genesisCert.certType.slot < slot
  | .fullAlpenglowEpoch _ _ => true
  | _ => false

def shouldAllowBlockMarkers (slot : ℕ) (phase : MigrationPhase Sig) : Bool :=
  phase.isAlpenglowBlock slot

def qualifiesForGenesisDiscovery (slot : ℕ) : MigrationPhase Sig → Bool
  | .migration migrationSlot genesisBlock _ => genesisBlock.isNone && migrationSlot < slot
  | _ => false

/-- The genesis block ends the migration once its certificate is known; a second block, a block past
the start of the migration, a certificate for another block or another phase panics. -/
def setGenesisBlock (phase : MigrationPhase Sig) (block : Block) : Option (MigrationPhase Sig) :=
  match phase with
  | .migration migrationSlot none genesisCert =>
    if block.1 < migrationSlot then
      match genesisCert with
      | none => some (.migration migrationSlot (some block) none)
      | some cert =>
        match cert.certType with
        | .genesis slot blockId =>
          if block = (slot, blockId) then some (.readyToEnable cert) else none
        | _ => none
    else none
  | _ => none

/-- `ReadyToEnable` is left for `AlpenglowEnabled` only, and that phase is kept. -/
def Leaves (phase phase' : MigrationPhase Sig) : Prop :=
  ∀ cert, (phase = .readyToEnable cert →
      phase' = .readyToEnable cert ∨ phase' = .alpenglowEnabled cert) ∧
    (phase = .alpenglowEnabled cert → phase' = .alpenglowEnabled cert)

end MigrationPhase

/-! ## The genesis marker -/

/-- `GenesisCertificate`, the certificate in a block marker. -/
structure GenesisCertificate (Sig : Type) where
  slot : ℕ
  blockId : Hash
  signature : Sig
  bitmap : List ℕ

/-- `Certificate::from`. -/
def GenesisCertificate.toCertificate (cert : GenesisCertificate Sig) : Certificate Sig :=
  ⟨.genesis cert.slot cert.blockId, cert.signature, cert.bitmap⟩

/-- What the marker reads and writes in the bank that is replayed. -/
structure ReplayBank (Sig : Type) where
  slot : ℕ
  parentSlot : ℕ
  parentBlockId : Option Hash
  alpenglowGenesisCertificate : Option (Certificate Sig)

inductive BlockComponentProcessorError where
  | blockComponentPreMigration
  | genesisCertificateInAlpenglowCluster
  | genesisCertificateOnNonChild
  | genesisCertificateAlreadyPopulated
  | genesisCertificateFailedVerification

/-- `on_genesis_certificate` up to where it looks at the phase: the checks, and the certificate
that is stored in the bank. -/
def onGenesisCertificate (verify : Certificate Sig → Bool) (bank : ReplayBank Sig)
    (genesisCert : GenesisCertificate Sig) :
    Option (Except BlockComponentProcessorError (ReplayBank Sig × Certificate Sig)) :=
  if bank.parentSlot = 0 then some (.error .genesisCertificateInAlpenglowCluster)
  else do
    let parentBlockId ← bank.parentBlockId
    if (bank.parentSlot, parentBlockId) ≠ (genesisCert.slot, genesisCert.blockId) then
      return .error .genesisCertificateOnNonChild
    else if bank.alpenglowGenesisCertificate.isSome then
      return .error .genesisCertificateAlreadyPopulated
    else
      let cert := genesisCert.toCertificate
      if verify cert then
        return .ok ({ bank with alpenglowGenesisCertificate := some cert }, cert)
      else return .error .genesisCertificateFailedVerification

/-! ## The sources -/

/-- A call of a source, by what it does when it gets the lock of the phase next. -/
inductive GenesisCall (Sig : Type) where
  /-- Replay of a bank whose parent has enough votes: `qualifies_for_genesis_discovery`. -/
  | discovery (bankSlot : ℕ)
  /-- The bank qualified: `migration_slot`. -/
  | qualified
  /-- The block was found: `set_genesis_block`. -/
  | discovered
  /-- The first genesis certificate of the pool: `set_genesis_certificate`. -/
  | pool (cert : Certificate Sig)
  /-- `on_marker` for a genesis certificate: `should_allow_block_markers`. -/
  | marker (bank : ReplayBank Sig) (genesisCert : GenesisCertificate Sig)
  /-- `is_in_migration`, then the checks of `on_genesis_certificate`. -/
  | markerAllowed (markersFullyEnabled : Bool) (bank : ReplayBank Sig)
      (genesisCert : GenesisCertificate Sig)
  /-- The marker is valid: `is_alpenglow_enabled`. -/
  | markerValid (cert : Certificate Sig)
  /-- `set_genesis_block` of the marker. -/
  | markerBlock (cert : Certificate Sig)
  /-- `set_genesis_certificate` of the marker. -/
  | markerCertificate (cert : Certificate Sig)
  /-- `assert!(migration_status.is_ready_to_enable())`. -/
  | markerReady
  /-- `poh_service_is_shutting_down`, which `enable_alpenglow` waits for. -/
  | shutdown
  /-- It enables Alpenglow with the certificate it has read. -/
  | enable (cert : Certificate Sig)
  | returned (result : Except BlockComponentProcessorError Unit)

namespace GenesisCall

/-- One use of the lock: the phase afterwards, and what is left of the call. Discovery finds the
block `genesis`. -/
def step (genesis : Block) (verify : Certificate Sig → Bool) (phase : MigrationPhase Sig) :
    GenesisCall Sig → Option (MigrationPhase Sig × GenesisCall Sig)
  | discovery bankSlot =>
    some (phase,
      if phase.qualifiesForGenesisDiscovery bankSlot then qualified else returned (.ok ()))
  | qualified => if phase.isInMigration then some (phase, discovered) else none
  | discovered => (phase.setGenesisBlock genesis).map fun phase => (phase, returned (.ok ()))
  | pool cert => (phase.setGenesisCertificate cert).map fun phase => (phase, returned (.ok ()))
  | marker bank genesisCert =>
    some (phase, markerAllowed (phase.shouldAllowBlockMarkers bank.slot) bank genesisCert)
  | markerAllowed markersFullyEnabled bank genesisCert =>
    if markersFullyEnabled || phase.isInMigration then
      (onGenesisCertificate verify bank genesisCert).map fun result =>
        match result with
        | .ok (_, cert) => (phase, markerValid cert)
        | .error e => (phase, returned (.error e))
    else some (phase, returned (.error .blockComponentPreMigration))
  | markerValid cert =>
    some (phase, if phase.isAlpenglowEnabled then returned (.ok ()) else markerBlock cert)
  | markerBlock cert =>
    (cert.certType.toBlock.bind phase.setGenesisBlock).map fun phase =>
      (phase, markerCertificate cert)
  | markerCertificate cert =>
    (phase.setGenesisCertificate cert).map fun phase => (phase, markerReady)
  | markerReady => if phase.isReadyToEnable then some (phase, returned (.ok ())) else none
  | shutdown =>
    match phase with
    | .readyToEnable genesisCert => some (phase, enable genesisCert)
    | _ => none
  | enable cert => some (.alpenglowEnabled cert, returned (.ok ()))
  | returned result => some (phase, returned result)

/-- The call is about to set the block. -/
def setsBlock : GenesisCall Sig → Bool
  | discovered | markerBlock _ => true
  | _ => false

/-- The call is about to set the certificate. -/
def setsCertificate : GenesisCall Sig → Bool
  | pool _ | markerCertificate _ => true
  | _ => false

/-- The call is about the block `genesis`: the certificates name it, and a replayed bank is a child
of it whose marker has not been seen and is valid. What a shutdown has read is still the case. -/
def About (genesis : Block) (verify : Certificate Sig → Bool) (phase : MigrationPhase Sig) :
    GenesisCall Sig → Prop
  | pool cert | markerValid cert | markerBlock cert | markerCertificate cert =>
    cert.certType = .genesis genesis.1 genesis.2
  | marker bank genesisCert | markerAllowed _ bank genesisCert =>
    bank.parentSlot = genesis.1 ∧ bank.parentSlot ≠ 0 ∧ bank.parentBlockId = some genesis.2 ∧
      bank.alpenglowGenesisCertificate = none ∧
      (genesisCert.slot, genesisCert.blockId) = genesis ∧ verify genesisCert.toCertificate = true
  | enable cert => phase = .readyToEnable cert ∨ phase = .alpenglowEnabled cert
  | discovery _ | qualified | discovered | markerReady | shutdown | returned _ => True

end GenesisCall

/-- The phase, which halves of the genesis have been set, and the calls of all threads. -/
structure MigrationStatus (Sig : Type) where
  phase : MigrationPhase Sig
  blockKnown : Bool
  certKnown : Bool
  calls : List (GenesisCall Sig)

namespace MigrationStatus
open GenesisCall

/-- The feature is active and nothing is known. -/
def start (migrationSlot : ℕ) (calls : List (GenesisCall Sig)) : MigrationStatus Sig :=
  { phase := .migration migrationSlot none none, blockKnown := false, certKnown := false, calls }

def bothKnown (st : MigrationStatus Sig) : Bool := st.blockKnown && st.certKnown

variable (genesis : Block) (verify : Certificate Sig → Bool)

/-- A call gets the lock. -/
def deliver (st : MigrationStatus Sig) (i : ℕ) : Option (MigrationStatus Sig) :=
  match st.calls[i]? with
  | none => some st
  | some call =>
    (call.step genesis verify st.phase).map fun r =>
      { phase := r.1
        blockKnown := st.blockKnown || call.setsBlock
        certKnown := st.certKnown || call.setsCertificate
        calls := st.calls.set i r.2 }

/-- A schedule: which call gets the lock next. -/
def run (st : MigrationStatus Sig) : List ℕ → Option (MigrationStatus Sig)
  | [] => some st
  | i :: schedule => (st.deliver genesis verify i).bind fun st => st.run schedule

/-- The calls that do not panic: the block is set while it is not known, the certificate while one
half is missing, discovery looks up the migration while it lasts, and the marker and `PohService`
find the migration completed and Alpenglow not enabled. -/
def Accepts (st : MigrationStatus Sig) : GenesisCall Sig → Prop
  | discovered | markerBlock _ => st.blockKnown = false
  | qualified | pool _ | markerCertificate _ => st.bothKnown = false
  | markerReady | shutdown => st.phase.isReadyToEnable = true
  | _ => True

/-- Every call of a schedule is accepted when it gets the lock. -/
def AcceptsAll (st : MigrationStatus Sig) : List ℕ → Prop
  | [] => True
  | i :: schedule => (∀ call, st.calls[i]? = some call → st.Accepts call) ∧
    ∀ st', st.deliver genesis verify i = some st' → st'.AcceptsAll schedule

/-! ## The phases of a run -/

/-- The phases that calls about one block lead to, with the halves that are known. -/
inductive Knows (genesis : Block) : MigrationPhase Sig → Bool → Bool → Prop where
  | nothing {migrationSlot : ℕ} (h : genesis.1 < migrationSlot) :
      Knows genesis (.migration migrationSlot none none) false false
  | block {migrationSlot : ℕ} (h : genesis.1 < migrationSlot) :
      Knows genesis (.migration migrationSlot (some genesis) none) true false
  | certificate {migrationSlot : ℕ} (h : genesis.1 < migrationSlot) (cert : Certificate Sig)
      (hcert : cert.certType = .genesis genesis.1 genesis.2) :
      Knows genesis (.migration migrationSlot none (some cert)) false true
  | ready (cert : Certificate Sig) (hcert : cert.certType = .genesis genesis.1 genesis.2) :
      Knows genesis (.readyToEnable cert) true true
  | enabled (cert : Certificate Sig) (hcert : cert.certType = .genesis genesis.1 genesis.2) :
      Knows genesis (.alpenglowEnabled cert) true true

/-- How the phase moves while the lock is held. -/
structure Moves (genesis : Block) (phase phase' : MigrationPhase Sig) (b c b' c' : Bool) :
    Prop where
  knows : Knows genesis phase' b' c'
  leaves : phase.Leaves phase'
  ready : (b && c) = false → (b' && c') = true → phase'.isReadyToEnable = true

/-- A setter for the halves `b'` and `c'` moves the phase while it is not late; then it panics. -/
def Sets (genesis : Block) (phase : MigrationPhase Sig) (b c b' c' late : Bool)
    (set : Option (MigrationPhase Sig)) : Prop :=
  (late = false ∧ ∃ phase', set = some phase' ∧
      Moves genesis phase phase' b c (b || b') (c || c')) ∨
    (late = true ∧ set = none)

variable {genesis verify} {st : MigrationStatus Sig} {phase : MigrationPhase Sig} {b c : Bool}

theorem Knows.isInMigration_eq (h : Knows genesis phase b c) :
    phase.isInMigration = !(b && c) := by
  cases h with
  | nothing | block | certificate | ready | enabled => rfl

theorem Knows.stays (h : Knows genesis phase b c) :
    Moves genesis phase phase b c (b || false) (c || false) := by
  rw [Bool.or_false, Bool.or_false]
  refine ⟨h, fun cert => ⟨fun hphase => .inl hphase, fun hphase => hphase⟩, fun hno hyes => ?_⟩
  rw [hno] at hyes
  cases hyes

/-- The block is set while it is not known; a second time panics. -/
theorem Knows.setGenesisBlock (h : Knows genesis phase b c) :
    Sets genesis phase b c true false b (phase.setGenesisBlock genesis) := by
  cases h with
  | nothing h =>
    exact .inl ⟨rfl, _, if_pos h, .block h, fun _ => ⟨nofun, nofun⟩, fun _ hc => nomatch hc⟩
  | certificate h cert hcert =>
    refine .inl ⟨rfl, .readyToEnable cert, ?_, .ready cert hcert, fun _ => ⟨nofun, nofun⟩,
      fun _ _ => rfl⟩
    simp only [MigrationPhase.setGenesisBlock, if_pos h, hcert, Prod.mk.eta, if_true]
  | block | ready | enabled => exact .inr ⟨rfl, rfl⟩

/-- The certificate is set while a half is missing; later it panics. -/
theorem Knows.setGenesisCertificate (h : Knows genesis phase b c) {cert : Certificate Sig}
    (hcert : cert.certType = .genesis genesis.1 genesis.2) :
    Sets genesis phase b c false true (b && c) (phase.setGenesisCertificate cert) := by
  cases h with
  | nothing h | certificate h =>
    refine .inl ⟨rfl, _, ?_, .certificate h cert hcert, fun _ => ⟨nofun, nofun⟩,
      fun _ hc => nomatch hc⟩
    simp only [MigrationPhase.setGenesisCertificate, hcert, if_pos h]
  | block h =>
    refine .inl ⟨rfl, .readyToEnable cert, ?_, .ready cert hcert, fun _ => ⟨nofun, nofun⟩,
      fun _ _ => rfl⟩
    simp only [MigrationPhase.setGenesisCertificate, hcert, if_pos h, Prod.mk.eta, if_true]
  | ready | enabled => exact .inr ⟨rfl, rfl⟩

/-- A marker about the block passes the checks. -/
theorem onGenesisCertificate_of_about {markersFullyEnabled : Bool} {bank : ReplayBank Sig}
    {genesisCert : GenesisCertificate Sig}
    (hd : (markerAllowed markersFullyEnabled bank genesisCert).About genesis verify phase) :
    ∃ bank', onGenesisCertificate verify bank genesisCert =
      some (.ok (bank', genesisCert.toCertificate)) := by
  obtain ⟨hparent, hne, hid, hnone, hcert, hverify⟩ := hd
  have hchild : (bank.parentSlot, genesis.2) = (genesisCert.slot, genesisCert.blockId) := by
    rw [hcert, hparent]
  rw [onGenesisCertificate, if_neg hne, hid]
  simp only [bind_eq_bind, bind_some, hchild, ne_eq, not_true_eq_false, if_false, hnone,
    isSome_none, Bool.false_eq_true, hverify, if_true]
  exact ⟨_, rfl⟩

/-! ## One use of the lock -/

/-- The outcome of a call that gets the lock: it is accepted, and the phase moves, or it panics. -/
def Outcome (genesis : Block) (verify : Certificate Sig → Bool) (st : MigrationStatus Sig)
    (call : GenesisCall Sig) : Prop :=
  (st.Accepts call ∧ ∃ phase' call', call.step genesis verify st.phase = some (phase', call') ∧
    Moves genesis st.phase phase' st.blockKnown st.certKnown (st.blockKnown || call.setsBlock)
      (st.certKnown || call.setsCertificate) ∧ call'.About genesis verify phase') ∨
    (¬ st.Accepts call ∧ call.step genesis verify st.phase = none)

/-- A call of a setter. -/
theorem outcome_of_sets {call : GenesisCall Sig} (call' : GenesisCall Sig) {late : Bool}
    {set : Option (MigrationPhase Sig)}
    (hset : Sets genesis st.phase st.blockKnown st.certKnown call.setsBlock call.setsCertificate
      late set)
    (hacc : st.Accepts call ↔ late = false)
    (hstep : call.step genesis verify st.phase = set.map fun phase => (phase, call'))
    (habout : ∀ phase', call'.About genesis verify phase') : Outcome genesis verify st call := by
  rcases hset with ⟨hno, phase', rfl, hmoves⟩ | ⟨rfl, rfl⟩
  · exact .inl ⟨hacc.mpr hno, phase', call', hstep, hmoves, habout phase'⟩
  · exact .inr ⟨fun hno => (nomatch hacc.mp hno), hstep⟩

section
variable (h : Knows genesis st.phase st.blockKnown st.certKnown)
include h

/-- A call that only reads the phase. -/
theorem outcome_of_reads {call : GenesisCall Sig} (call' : GenesisCall Sig) (hacc : st.Accepts call)
    (hstep : call.step genesis verify st.phase = some (st.phase, call'))
    (hblock : call.setsBlock = false) (hcert : call.setsCertificate = false)
    (habout : call'.About genesis verify st.phase) : Outcome genesis verify st call := by
  refine .inl ⟨hacc, st.phase, call', hstep, ?_, habout⟩
  rw [hblock, hcert]
  exact h.stays

/-- **One use of the lock**: the call is accepted and the phase moves, or it panics. -/
theorem outcome {call : GenesisCall Sig} (hcall : call.About genesis verify st.phase) :
    Outcome genesis verify st call := by
  cases call with
  | discovery bankSlot =>
    refine outcome_of_reads h _ trivial rfl rfl rfl ?_
    split <;> trivial
  | qualified =>
    have hmigration : st.phase.isInMigration = !st.bothKnown := h.isInMigration_eq
    cases hboth : st.bothKnown with
    | false =>
      rw [hboth] at hmigration
      exact outcome_of_reads h _ hboth (if_pos hmigration) rfl rfl trivial
    | true =>
      rw [hboth] at hmigration
      refine .inr ⟨fun hacc => ?_, if_neg (by rw [hmigration]; decide)⟩
      cases hboth.symm.trans hacc
  | discovered => exact outcome_of_sets _ h.setGenesisBlock Iff.rfl rfl fun _ => trivial
  | pool cert =>
    exact outcome_of_sets _ (h.setGenesisCertificate hcall) Iff.rfl rfl fun _ => trivial
  | marker bank genesisCert => exact outcome_of_reads h _ trivial rfl rfl rfl hcall
  | markerAllowed markersFullyEnabled bank genesisCert =>
    by_cases hallow : (markersFullyEnabled || st.phase.isInMigration) = true
    · obtain ⟨bank', hcheck⟩ := onGenesisCertificate_of_about hcall
      refine outcome_of_reads h (markerValid genesisCert.toCertificate) trivial ?_ rfl rfl ?_
      · rw [step, if_pos hallow, hcheck, map_some]
      · rw [← hcall.2.2.2.2.1]
        rfl
    · exact outcome_of_reads h _ trivial (if_neg hallow) rfl rfl trivial
  | markerValid cert =>
    refine outcome_of_reads h _ trivial rfl rfl rfl ?_
    split
    · trivial
    · exact hcall
  | markerBlock cert =>
    refine outcome_of_sets (markerCertificate cert) h.setGenesisBlock Iff.rfl ?_ fun _ => hcall
    have hblock : cert.certType.toBlock = some genesis := congrArg CertificateType.toBlock hcall
    rw [step, hblock, bind_some]
  | markerCertificate cert =>
    exact outcome_of_sets _ (h.setGenesisCertificate hcall) Iff.rfl rfl fun _ => trivial
  | markerReady =>
    by_cases hready : st.phase.isReadyToEnable = true
    · exact outcome_of_reads h _ hready (if_pos hready) rfl rfl trivial
    · exact .inr ⟨hready, if_neg hready⟩
  | shutdown =>
    by_cases hready : st.phase.isReadyToEnable = true
    · obtain ⟨cert, hphase⟩ : ∃ cert, st.phase = .readyToEnable cert := by
        cases hp : st.phase with
        | readyToEnable cert => exact ⟨cert, rfl⟩
        | _ => simp [hp, isReadyToEnable] at hready
      refine outcome_of_reads h (enable cert) hready ?_ rfl rfl (.inl hphase)
      rw [hphase]
      rfl
    · refine .inr ⟨hready, ?_⟩
      cases hp : st.phase with
      | readyToEnable cert => simp [hp, isReadyToEnable] at hready
      | _ => rfl
  | enable cert =>
    refine .inl ⟨trivial, .alpenglowEnabled cert, returned (.ok ()), rfl, ?_, trivial⟩
    obtain ⟨phase, b, c, calls⟩ := st
    rcases hcall with rfl | rfl
    · cases h with
      | ready _ hcert => exact ⟨.enabled cert hcert, by simp [Leaves], fun hno => nomatch hno⟩
    · exact h.stays
  | returned result => exact outcome_of_reads h _ trivial rfl rfl rfl trivial

end

/-- The phase fits what is known, and the calls that are left are about the block. -/
structure Invariant (genesis : Block) (verify : Certificate Sig → Bool)
    (st : MigrationStatus Sig) : Prop where
  knows : Knows genesis st.phase st.blockKnown st.certKnown
  about : ∀ call ∈ st.calls, call.About genesis verify st.phase

/-- Another call does not change what a call is about. -/
theorem About.leaves {phase' : MigrationPhase Sig} {call : GenesisCall Sig}
    (h : call.About genesis verify phase) (hleaves : phase.Leaves phase') :
    call.About genesis verify phase' := by
  cases call with
  | enable cert =>
    rcases h with h | h
    · exact (hleaves cert).1 h
    · exact .inr ((hleaves cert).2 h)
  | _ => exact h

/-- What one step of a schedule does. -/
theorem Invariant.step (h : Invariant genesis verify st) (i : ℕ) :
    ((∀ call, st.calls[i]? = some call → st.Accepts call) ∧
      ∃ st', st.deliver genesis verify i = some st' ∧ Invariant genesis verify st' ∧
        Moves genesis st.phase st'.phase st.blockKnown st.certKnown st'.blockKnown
          st'.certKnown) ∨
    (¬ (∀ call, st.calls[i]? = some call → st.Accepts call) ∧
      st.deliver genesis verify i = none) := by
  cases hi : st.calls[i]? with
  | none =>
    have hstays := h.knows.stays
    rw [Bool.or_false, Bool.or_false] at hstays
    exact .inl ⟨nofun, st, by rw [deliver, hi], h, hstays⟩
  | some call =>
    rcases outcome h.knows (h.about call (mem_of_getElem? hi)) with
      ⟨hacc, phase', call', hstep, hmoves, habout⟩ | ⟨hacc, hnone⟩
    · refine .inl ⟨fun _ hc => some_inj.mp hc ▸ hacc,
        ⟨phase', st.blockKnown || call.setsBlock, st.certKnown || call.setsCertificate,
          st.calls.set i call'⟩, ?_, ⟨hmoves.knows, fun other hother => ?_⟩, hmoves⟩
      · rw [deliver, hi]
        simp only [hstep, map_some]
      · rcases mem_or_eq_of_mem_set hother with hmem | rfl
        · exact About.leaves (h.about other hmem) hmoves.leaves
        · exact habout
    · refine .inr ⟨fun hall => hacc (hall call rfl), ?_⟩
      rw [deliver, hi]
      simp only [hnone, map_none]

/-! ## All schedules -/

theorem Invariant.run (h : Invariant genesis verify st) (schedule : List ℕ) :
    ((∃ st', st.run genesis verify schedule = some st') ↔
        st.AcceptsAll genesis verify schedule) ∧
      ∀ st', st.run genesis verify schedule = some st' → Invariant genesis verify st' := by
  induction schedule generalizing st with
  | nil =>
    refine ⟨iff_of_true ⟨st, rfl⟩ trivial, fun st' hst' => ?_⟩
    rwa [← some_inj.mp hst']
  | cons i schedule ih =>
    rcases h.step i with ⟨hacc, st1, hst1, hinv, -⟩ | ⟨hacc, hnone⟩
    · obtain ⟨hiff, hall⟩ := ih hinv
      rw [MigrationStatus.run, hst1, bind_some]
      refine ⟨hiff.trans ⟨fun hrest => ⟨hacc, fun st' hst' => ?_⟩, fun hrest => ?_⟩, hall⟩
      · rw [hst1, some_inj] at hst'
        rwa [← hst']
      · exact hrest.2 st1 hst1
    · rw [MigrationStatus.run, hnone, bind_none]
      exact ⟨iff_of_false (by simp) fun hrest => hacc hrest.1, by simp⟩

/-- A certificate for block 7 of slot 1. -/
def genesisSeven : GenesisCertificate ℕ := { slot := 1, blockId := 7, signature := 0, bitmap := [] }

/-- A child of that block. -/
def childOfSeven : ReplayBank ℕ :=
  { slot := 12, parentSlot := 1, parentBlockId := some 7, alpenglowGenesisCertificate := none }

/-- One call of each source, and the shutdown of `PohService`. -/
def fourCalls : List (GenesisCall ℕ) :=
  [discovery 11, pool genesisSeven.toCertificate, marker childOfSeven genesisSeven, shutdown]

theorem about_fourCalls : ∀ call ∈ fourCalls,
    call.About (1, 7) (fun _ => true) (.migration 10 none none) := by
  simp only [fourCalls, forall_mem_cons, not_mem_nil, false_imp_iff, implies_true, and_true]
  exact ⟨trivial, rfl, ⟨rfl, by decide, rfl, rfl, rfl, rfl⟩, trivial⟩

end MigrationStatus
end FlowraValidator.Votor
