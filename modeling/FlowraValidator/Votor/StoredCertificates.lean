import FlowraValidator.Votor.PoolEvents

/-!
# Which certificates a pool can store

Storing a certificate can panic: the parent-ready tracker has room for three certified blocks of a
slot and does not step past the end of `u64`, and the migration takes a genesis certificate only
while it waits for one. As long as the root does not move, whether a pool can store a set of
certificates does not depend on their order, and neither do the `ParentReady` events.

* `Awaits`: the genesis certificates that the migration takes.
* `Storable`: the sets of certificates that a pool can store.
* `Stored`: what a pool has done with the certificates it holds.
* `Stored.insertCertificates`, `Stored.exists_insertCertificates`: more of them.
-/

namespace FlowraValidator.Votor
open MigrationPhase CertificateType List ParentReadyTracker ParentReadyTracker.History

variable {Sig : Type} {result : ConsensusPool Sig × List VotorEvent} {block : Block}

/-! ## The migration -/

/-- The pool takes a genesis certificate for `b`: always without a migration, and in it as long as
the block is before its start and is the one voted for, if there is one. -/
def Awaits : Option (MigrationPhase Sig) → Block → Prop
  | none, _ => True
  | some (.migration migrationSlot genesisBlock _), b =>
    b.1 < migrationSlot ∧ ∀ block, genesisBlock = some block → block = b
  | some _, _ => False

/-- `setGenesisCertificate`, as a step of the migration. -/
def takeGenesis (phase : Option (MigrationPhase Sig)) (cert : Certificate Sig) :
    Option (Option (MigrationPhase Sig)) :=
  match phase with
  | none => some none
  | some phase => (phase.setGenesisCertificate cert).map some

namespace ConsensusPool

theorem setGenesisCertificate_eq (p : ConsensusPool Sig) (cert : Certificate Sig) :
    p.setGenesisCertificate cert =
      (takeGenesis p.migrationStatus cert).map fun phase =>
        { p with migrationStatus := phase } := by
  unfold setGenesisCertificate takeGenesis
  cases h : p.migrationStatus with
  | none => rw [Option.map_some, Option.some_inj, ← h]
  | some phase =>
    rw [Option.map_map]
    rfl

end ConsensusPool

section Take
variable {phase : Option (MigrationPhase Sig)} {s : ℕ} {b : Hash} {cert : Certificate Sig}
  (hcert : cert.certType = .genesis s b)
include hcert
/-- What the migration awaits, it takes. -/
theorem exists_takeGenesis (h : Awaits phase (s, b)) :
    ∃ phase', takeGenesis phase cert = some phase' := by
  match phase with
  | none => exact ⟨none, rfl⟩
  | some (.migration migrationSlot none cert0) =>
    refine ⟨some (.migration migrationSlot none (some cert)), ?_⟩
    unfold takeGenesis setGenesisCertificate
    rw [hcert]
    dsimp only
    rw [if_pos h.1]
    rfl
  | some (.migration migrationSlot (some block) cert0) =>
    refine ⟨some (.readyToEnable cert), ?_⟩
    unfold takeGenesis setGenesisCertificate
    rw [hcert]
    dsimp only
    rw [if_pos h.1, if_pos (h.2 block rfl)]
    rfl

/-- What the migration takes, it awaited, and it awaits the same other blocks as before. -/
theorem awaits_of_takeGenesis {phase' : Option (MigrationPhase Sig)}
    (h : takeGenesis phase cert = some phase') :
    Awaits phase (s, b) ∧ ∀ b', b' ≠ (s, b) → (Awaits phase' b' ↔ Awaits phase b') := by
  match phase with
  | none =>
    cases h
    exact ⟨trivial, fun _ _ => Iff.rfl⟩
  | some (.migration migrationSlot none cert0) =>
    obtain ⟨phase1, hset, rfl⟩ := Option.map_eq_some_iff.mp h
    unfold setGenesisCertificate at hset
    rw [hcert] at hset
    dsimp only at hset
    split_ifs at hset with hlt
    cases hset
    exact ⟨⟨hlt, fun _ h => absurd h (by simp)⟩, fun _ _ => Iff.rfl⟩
  | some (.migration migrationSlot (some block) cert0) =>
    obtain ⟨phase1, hset, rfl⟩ := Option.map_eq_some_iff.mp h
    unfold setGenesisCertificate at hset
    rw [hcert] at hset
    dsimp only at hset
    split_ifs at hset with hlt hblock
    cases hset
    subst hblock
    refine ⟨⟨hlt, fun _ h => (Option.some_inj.mp h).symm⟩, fun b' hne => ?_⟩
    exact ⟨fun h => h.elim, fun h => absurd (h.2 _ rfl).symm hne⟩
  | some .preFeatureActivation
  | some (.readyToEnable cert0)
  | some (.alpenglowEnabled cert0)
  | some (.fullAlpenglowEpoch epoch cert0) =>
    exact absurd h (by simp [takeGenesis, setGenesisCertificate])

end Take

/-! ## Storing one certificate -/

namespace ConsensusPool
variable {p : ConsensusPool Sig} {ct : CertificateType} {cert : Certificate Sig}

/-- The migration after a certificate. -/
def phaseAfter (phase : Option (MigrationPhase Sig)) (ct : CertificateType)
    (cert : Certificate Sig) : Option (Option (MigrationPhase Sig)) :=
  match ct with
  | .genesis _ _ => takeGenesis phase cert
  | _ => some phase

theorem migrationStatus_raiseFinalizedSlot (p : ConsensusPool Sig) (slot : ℕ) :
    (p.raiseFinalizedSlot slot).migrationStatus = p.migrationStatus := by
  unfold raiseFinalizedSlot
  split_ifs <;> rfl

theorem migrationStatus_raiseFinalizedWithNotarize (p : ConsensusPool Sig) (slot : ℕ) :
    (p.raiseFinalizedWithNotarize slot).migrationStatus = p.migrationStatus := by
  unfold raiseFinalizedWithNotarize
  split_ifs <;> rfl

theorem migrationStatus_raiseFinalizedFast (p : ConsensusPool Sig) (slot : ℕ) :
    (p.raiseFinalizedFast slot).migrationStatus = p.migrationStatus := by
  unfold raiseFinalizedFast
  split_ifs <;> rfl

/-- The migration takes the certificate. -/
theorem insertCertificate_phaseAfter {events : List VotorEvent}
    (h : p.insertCertificate ct cert events = some result) :
    phaseAfter p.migrationStatus ct cert = some result.1.migrationStatus := by
  unfold insertCertificate at h
  cases ct with
  | notarizeFallback s b | skip s =>
    obtain ⟨r, -, rfl⟩ := Option.map_eq_some_iff.mp h
    rfl
  | notarize s b =>
    obtain ⟨q, hq, h⟩ := Option.bind_eq_some_iff.mp h
    obtain ⟨r, -, rfl⟩ := Option.map_eq_some_iff.mp hq
    dsimp only at h
    split_ifs at h <;> cases h
    · dsimp only
      rw [migrationStatus_raiseFinalizedWithNotarize]
      rfl
    · rfl
  | finalize s =>
    dsimp only at h
    split at h
    · cases h
      dsimp only
      rw [migrationStatus_raiseFinalizedSlot, migrationStatus_raiseFinalizedWithNotarize]
      rfl
    · cases h
      rw [migrationStatus_raiseFinalizedSlot]
      rfl
  | finalizeFast s b =>
    obtain ⟨q, hq, h⟩ := Option.bind_eq_some_iff.mp h
    obtain ⟨r, -, rfl⟩ := Option.map_eq_some_iff.mp hq
    cases h
    rw [migrationStatus_raiseFinalizedFast, migrationStatus_raiseFinalizedSlot]
    rfl
  | genesis s b =>
    obtain ⟨q, hq, h⟩ := Option.bind_eq_some_iff.mp h
    obtain ⟨r, -, rfl⟩ := Option.map_eq_some_iff.mp h
    rw [setGenesisCertificate_eq] at hq
    obtain ⟨phase, hphase, rfl⟩ := Option.map_eq_some_iff.mp hq
    exact hphase

/-- A certificate is stored when the tracker and the migration take it. -/
theorem exists_insertCertificate (events : List VotorEvent)
    (hrecord : ∃ r, p.parentReadyTracker.record ct = some r)
    (hphase : ∃ phase, phaseAfter p.migrationStatus ct cert = some phase) :
    ∃ result, p.insertCertificate ct cert events = some result := by
  obtain ⟨r, hr⟩ := hrecord
  unfold insertCertificate
  cases ct with
  | notarizeFallback s b =>
    dsimp only
    rw [addBlockToTracker_eq]
    exact ⟨_, Option.map_eq_some_iff.mpr ⟨r, hr, rfl⟩⟩
  | skip s =>
    dsimp only
    rw [addSkipToTracker_eq]
    exact ⟨_, Option.map_eq_some_iff.mpr ⟨r, hr, rfl⟩⟩
  | notarize s b =>
    have hadd : (p.storeCertificate (.notarize s b) cert).parentReadyTracker.perform
      (.addNewNotarFallbackOrStronger (s, b)) = some r := hr
    dsimp only
    rw [addBlockToTracker_eq, hadd, Option.map_some, Option.bind_eq_bind, Option.bind_some]
    dsimp only
    split_ifs
    · exact ⟨_, rfl⟩
    · exact ⟨_, rfl⟩
  | finalize s =>
    dsimp only
    split
    · exact ⟨_, rfl⟩
    · exact ⟨_, rfl⟩
  | finalizeFast s b =>
    have hadd : (p.storeCertificate (.finalizeFast s b) cert).parentReadyTracker.perform
      (.addNewNotarFallbackOrStronger (s, b)) = some r := hr
    dsimp only
    rw [addBlockToTracker_eq, hadd, Option.map_some, Option.bind_eq_bind, Option.bind_some]
    exact ⟨_, rfl⟩
  | genesis s b =>
    obtain ⟨phase, hphase⟩ := hphase
    have htake : takeGenesis (p.storeCertificate (.genesis s b) cert).migrationStatus cert =
      some phase := hphase
    have hadd : ({ p.storeCertificate (.genesis s b) cert with migrationStatus := phase } :
      ConsensusPool Sig).parentReadyTracker.perform (.addNewNotarFallbackOrStronger (s, b)) =
        some r := hr
    dsimp only
    rw [setGenesisCertificate_eq, htake, Option.map_some, Option.bind_eq_bind, Option.bind_some,
      addBlockToTracker_eq, hadd]
    exact ⟨_, rfl⟩

end ConsensusPool

/-! ## The calls of the tracker -/

namespace CertificateType
variable {ct : CertificateType}

theorem trackerCall_eq_block_iff :
    ct.trackerCall = some (.addNewNotarFallbackOrStronger block) ↔ ct.toBlock = some block := by
  cases ct <;> simp [trackerCall, toBlock]

theorem slot_of_trackerCall {c : Call} (h : ct.trackerCall = some c) : c.slot = ct.slot := by
  cases ct <;> cases h <;> rfl

theorem exists_trackerCall (h : ct ≠ .finalize ct.slot) : ∃ c, ct.trackerCall = some c := by
  cases ct with
  | finalize s => exact absurd rfl h
  | _ => exact ⟨_, rfl⟩

end CertificateType

/-! ## Sets of certificates -/

/-- A set of certificates that a fresh pool can store: at most three blocks of each slot above the
root are certified, none at the end of `u64`, and the migration takes the genesis certificates. -/
structure Storable (rootBlock : Block) (initial : Option (MigrationPhase Sig))
    (held : CertificateType → Prop) : Prop where
  room : ∀ s, rootBlock.1 < s → ∀ blocks : List Hash, blocks.Nodup →
    (∀ b ∈ blocks, ∃ ct, held ct ∧ ct.toBlock = some (s, b)) →
      blocks.length ≤ maxEntriesPerPubkeyForNotarizeLite
  slot_lt : ∀ ct, held ct → ct ≠ .finalize ct.slot → rootBlock.1 < ct.slot → ct.slot + 1 < u64Max
  genesis : ∀ s b, held (.genesis s b) → Awaits initial (s, b)

theorem Storable.mono {rootBlock : Block} {initial : Option (MigrationPhase Sig)}
    {held held' : CertificateType → Prop} (h : Storable rootBlock initial held)
    (hsub : ∀ ct, held' ct → held ct) : Storable rootBlock initial held' where
  room := by
    intro s hs blocks hnodup hblocks
    refine h.room s hs blocks hnodup fun b hb => ?_
    obtain ⟨ct, hct, hblock⟩ := hblocks b hb
    exact ⟨ct, hsub ct hct, hblock⟩
  slot_lt := fun ct hct => h.slot_lt ct (hsub ct hct)
  genesis := fun s b hheld => h.genesis s b (hsub _ hheld)

namespace ConsensusPool

/-- What a pool has done with the certificates it holds; `w` is the history of its parent-ready
tracker. -/
structure Stored (rootBlock : Block) (initial : Option (MigrationPhase Sig))
    (p : ConsensusPool Sig) (events : List VotorEvent) (w : History) : Prop where
  reaches : Reaches (start rootBlock) w
  fixed : FixedRoot rootBlock w
  tracker : w.tracker = p.parentReadyTracker
  calls_iff : ∀ c, c ∈ w.calls ↔ ∃ ct, p.Holds ct ∧ ct.trackerCall = some c
  ready_iff : ∀ s b, .parentReady s b ∈ events ↔ .parentReady s b ∈ w.events
  awaits : ∀ s b, p.Holds (.genesis s b) → Awaits initial (s, b)
  awaits_iff : ∀ s b, ¬p.Holds (.genesis s b) →
    (Awaits p.migrationStatus (s, b) ↔ Awaits initial (s, b))

variable {rootBlock : Block} {initial : Option (MigrationPhase Sig)} {p : ConsensusPool Sig}
  {events : List VotorEvent} {w : History} {ct : CertificateType} {cert : Certificate Sig}

/-- By the certificates of the pool, `b` may be the parent of a block in slot `s`. -/
def Extends (rootBlock : Block) (p : ConsensusPool Sig) (s : ℕ) (b : Block) : Prop :=
  b.1 < s ∧ (b = rootBlock ∨ rootBlock.1 < b.1 ∧ ∃ ct, p.Holds ct ∧ ct.toBlock = some b) ∧
    ∀ r, b.1 < r → r < s → p.Holds (.skip r)

section
variable (hp : p.Stored rootBlock initial events w) {certs : List (Certificate Sig)}
include hp
/-- The blocks of a slot above the root that the tracker knows are those with a certificate. -/
theorem Stored.mem_notarFallbacks_iff (hroot : rootBlock.1 < u64Max)
    (habove : rootBlock.1 < block.1) :
    block ∈ (w.tracker.status block.1).notarFallbacks ↔
      ∃ ct, p.Holds ct ∧ ct.toBlock = some block := by
  have htracked : Tracked rootBlock w block := .inl (hp.fixed.root_eq ▸ habove)
  have hne : block ≠ rootBlock := by
    rintro rfl
    exact lt_irrefl _ habove
  rw [(hp.reaches.characterised hroot).added_iff block htracked]
  unfold Added
  rw [or_iff_right hne, hp.calls_iff]
  simp only [trackerCall_eq_block_iff]

/-- Ready parents, in terms of the certificates. -/
theorem Stored.extends_iff (hroot : rootBlock.1 < u64Max) (s : ℕ) (b : Block) :
    Extends rootBlock p s b ↔ p.parentReadyTracker.Ready s b := by
  have hskip : ∀ r, w.Skipped r ↔ p.Holds (.skip r) := by
    intro r
    rw [Skipped, hp.calls_iff]
    constructor
    · rintro ⟨ct, hct, hcall⟩
      cases ct <;> cases hcall
      exact hct
    · exact fun h => ⟨_, h, rfl⟩
  rw [← hp.tracker, hp.fixed.ready_iff hroot hp.reaches]
  unfold Extends Added FromRoot
  simp only [hskip, hp.calls_iff, trackerCall_eq_block_iff, or_and_left]
  constructor
  · rintro ⟨hlt, ⟨hfrom, hadded⟩, hskips⟩
    refine ⟨⟨?_, hfrom⟩, hlt, hadded, hskips⟩
    rcases hfrom with rfl | hfrom
    · exact hlt
    · exact hfrom.trans hlt
  · rintro ⟨⟨-, hfrom⟩, hlt, hadded, hskips⟩
    exact ⟨hlt, ⟨hfrom, hadded⟩, hskips⟩

/-- **What a pool holds can be stored.** -/
theorem Stored.storable : Storable rootBlock initial p.Holds := by
  have hlt : ∀ ct, p.Holds ct → ct ≠ .finalize ct.slot → rootBlock.1 < ct.slot →
      ct.slot + 1 < u64Max := by
    intro ct hct hne habove
    obtain ⟨c, hc⟩ := exists_trackerCall hne
    rw [← slot_of_trackerCall hc] at habove ⊢
    exact hp.fixed.call_lt c ((hp.calls_iff c).mpr ⟨ct, hct, hc⟩) habove
  refine ⟨fun s hs blocks hnodup hblocks => ?_, hlt, hp.awaits⟩
  rcases Nat.lt_or_ge rootBlock.1 u64Max with hroot | hroot
  · have hsub : blocks.map (fun b => (s, b)) ⊆ (w.tracker.status s).notarFallbacks := by
      intro block hblock
      obtain ⟨b, hb, rfl⟩ := mem_map.mp hblock
      have habove : rootBlock.1 < ((s, b) : Block).1 := hs
      exact (hp.mem_notarFallbacks_iff hroot habove).mpr (hblocks b hb)
    have hnodup' : (blocks.map fun b => (s, b)).Nodup := hnodup.map fun b b' h => (Prod.mk.inj h).2
    have hlen := (hnodup'.subperm hsub).length_le
    rw [length_map] at hlen
    exact hlen.trans (hp.fixed.notarFallbacks_length s)
  · -- at the end of `u64` nothing above the root is certified
    have hnil : blocks = [] := by
      rw [eq_nil_iff_forall_not_mem]
      intro b hb
      obtain ⟨ct, hct, hblock⟩ := hblocks b hb
      have hslot : ct.slot = s := by cases ct <;> simp_all [toBlock, slot]
      have hne : ct ≠ .finalize ct.slot := by
        intro h
        rw [h] at hblock
        exact absurd hblock (by simp [toBlock])
      have := hlt ct hct hne (by omega)
      omega
    rw [hnil]
    exact Nat.zero_le _

/-- The tracker takes what can be stored. -/
theorem Stored.exists_record
    (hstorable : Storable rootBlock initial fun ct' => p.Holds ct' ∨ ct' = ct) :
    ∃ r, p.parentReadyTracker.record ct = some r := by
  unfold ParentReadyTracker.record
  cases hcall : ct.trackerCall with
  | none => exact ⟨_, rfl⟩
  | some c =>
    rw [← hp.tracker]
    have hne : ct ≠ .finalize ct.slot := by
      intro h
      rw [h] at hcall
      exact absurd hcall (by simp [trackerCall])
    have hlt : rootBlock.1 < c.slot → c.slot + 1 < u64Max := by
      rw [slot_of_trackerCall hcall]
      exact hstorable.slot_lt ct (.inr rfl) hne
    refine hp.fixed.exists_perform hp.reaches (isCertificate_of_trackerCall hcall) hlt ?_
    rintro block rfl habove hnew
    have hroot : rootBlock.1 < u64Max := by
      have := hlt habove
      simp only [Call.slot] at this
      omega
    -- the blocks there and the new one
    have hslot := (hp.reaches.characterised hroot).slot_eq block.1
    have hnodup : (block.2 :: (w.tracker.status block.1).notarFallbacks.map Prod.snd).Nodup := by
      rw [nodup_cons]
      constructor
      · intro hmem
        obtain ⟨b, hb, heq⟩ := mem_map.mp hmem
        exact hnew (Prod.ext (hslot b hb) heq ▸ hb)
      · refine List.Nodup.map_on (fun b hb b' hb' heq => ?_) (hp.fixed.notarFallbacks_nodup _)
        exact Prod.ext ((hslot b hb).trans (hslot b' hb').symm) heq
    have hlen := hstorable.room block.1 habove _ hnodup ?_
    · rwa [length_cons, length_map] at hlen
    · intro b hb
      rcases mem_cons.mp hb with rfl | hb
      · exact ⟨ct, .inr rfl, trackerCall_eq_block_iff.mp hcall⟩
      · obtain ⟨b', hb', rfl⟩ := mem_map.mp hb
        have heq := hslot b' hb'
        rw [← heq] at hb' habove
        obtain ⟨ct', hct', hblock⟩ := (hp.mem_notarFallbacks_iff hroot habove).mp hb'
        exact ⟨ct', .inl hct', by rw [hblock, ← heq]⟩

/-- The migration takes what can be stored. -/
theorem Stored.exists_phaseAfter (hcert : cert.certType = ct) (hnew : ¬p.Holds ct)
    (hstorable : Storable rootBlock initial fun ct' => p.Holds ct' ∨ ct' = ct) :
    ∃ phase, phaseAfter p.migrationStatus ct cert = some phase := by
  cases ct with
  | genesis s b =>
    refine exists_takeGenesis hcert ?_
    rw [hp.awaits_iff s b hnew]
    exact hstorable.genesis s b (.inr rfl)
  | _ => exact ⟨_, rfl⟩

/-- What the migration awaits after a certificate. -/
theorem Stored.awaits_phaseAfter (hcert : cert.certType = ct) (hnew : ¬p.Holds ct)
    {phase : Option (MigrationPhase Sig)}
    (hphase : phaseAfter p.migrationStatus ct cert = some phase) :
    (∀ s b, ct = .genesis s b → Awaits initial (s, b)) ∧
      ∀ s b, ¬p.Holds (.genesis s b) → ct ≠ .genesis s b →
        (Awaits phase (s, b) ↔ Awaits initial (s, b)) := by
  cases ct with
  | genesis s b =>
    obtain ⟨htaken, hother⟩ := awaits_of_takeGenesis hcert hphase
    constructor
    · intro s' b' heq
      cases heq
      exact (hp.awaits_iff s b hnew).mp htaken
    · intro s' b' hno hne
      rw [hother (s', b') fun h => hne (by cases h; rfl), hp.awaits_iff s' b' hno]
  | _ =>
    cases hphase
    exact ⟨fun s b h => absurd h (by simp), fun s b hno _ => hp.awaits_iff s b hno⟩

/-- **One more certificate.** -/
theorem Stored.insertCertificate (hcert : cert.certType = ct) (hnew : ¬p.Holds ct)
    (h : p.insertCertificate ct cert events = some result) :
    ∃ w', result.1.Stored rootBlock initial result.2 w' := by
  obtain ⟨new, hevents, hinserts⟩ := insertCertificate_spec h
  obtain ⟨emitted, hrecord, hmem⟩ := hinserts.exists_events
  obtain ⟨hawaits, hother⟩ := hp.awaits_phaseAfter hcert hnew (insertCertificate_phaseAfter h)
  have hgenesis : ∀ s b, result.1.Holds (.genesis s b) → Awaits initial (s, b) := by
    intro s b hheld
    rcases (hinserts.holds_iff _).mp hheld with hheld | heq
    · exact hp.awaits s b hheld
    · exact hawaits s b heq.symm
  have hiff : ∀ s b, ¬result.1.Holds (.genesis s b) →
      (Awaits result.1.migrationStatus (s, b) ↔ Awaits initial (s, b)) := by
    intro s b hno
    rw [hinserts.holds_iff, not_or] at hno
    exact hother s b hno.1 fun heq => hno.2 heq.symm
  have hready : ∀ s b, .parentReady s b ∈ result.2 ↔ .parentReady s b ∈ w.events ++ emitted := by
    intro s b
    rw [hevents, mem_append, mem_append, hp.ready_iff, hmem _ rfl]
    simp
  unfold ParentReadyTracker.record at hrecord
  cases hcall : ct.trackerCall with
  | none =>
    rw [hcall, Option.some_inj, Prod.mk.injEq] at hrecord
    obtain ⟨htracker, rfl⟩ := hrecord
    refine ⟨w, hp.reaches, hp.fixed, hp.tracker.trans htracker, fun c => ?_, fun s b => ?_,
      hgenesis, hiff⟩
    · rw [hp.calls_iff]
      simp only [hinserts.holds_iff, or_and_right, exists_or, exists_eq_left, hcall]
      simp
    · rw [hready, append_nil]
  | some c =>
    rw [hcall] at hrecord
    have hc := isCertificate_of_trackerCall hcall
    rw [← hp.tracker] at hrecord
    have hpermits : w.tracker.Permits c := by
      cases c with
      | setRoot root => exact absurd hc not_false
      | _ => trivial
    refine ⟨_, hp.reaches.tail (.call hpermits hrecord), hp.fixed.perform hc hrecord, rfl,
      fun c' => ?_, hready, hgenesis, hiff⟩
    rw [mem_append, hp.calls_iff, mem_singleton]
    simp only [hinserts.holds_iff, or_and_right, exists_or, exists_eq_left, hcall, Option.some_inj]
    rw [eq_comm]

variable (hnew : ∀ cert ∈ certs, ¬p.Holds cert.certType)
  (hnodup : (certs.map Certificate.certType).Nodup)
include hnew hnodup
/-- **More certificates, of different types, none of which is held.** -/
theorem Stored.insertCertificates
    (h : ConsensusPool.insertCertificates certs p events = some result) :
    ∃ w', result.1.Stored rootBlock initial result.2 w' := by
  induction certs generalizing p events w with
  | nil =>
    cases h
    exact ⟨w, hp⟩
  | cons cert certs ih =>
    obtain ⟨r, hr, h⟩ := Option.bind_eq_some_iff.mp h
    obtain ⟨new, -, hinserts⟩ := insertCertificate_spec hr
    obtain ⟨hno, hnodup⟩ := nodup_cons.mp hnodup
    obtain ⟨w', hw'⟩ := hp.insertCertificate rfl (hnew cert mem_cons_self) hr
    refine ih hw' (fun cert' hcert' => ?_) hnodup h
    rw [hinserts.holds_iff, not_or]
    exact ⟨hnew cert' (mem_cons_of_mem _ hcert'), fun heq => hno (mem_map.mpr ⟨cert', hcert', heq⟩)⟩

theorem Stored.exists_insertCertificates
    (hstorable : Storable rootBlock initial fun ct =>
      p.Holds ct ∨ ct ∈ certs.map Certificate.certType) :
    ∃ result, ConsensusPool.insertCertificates certs p events = some result := by
  induction certs generalizing p events w with
  | nil => exact ⟨_, rfl⟩
  | cons cert certs ih =>
    have hfirst : Storable rootBlock initial fun ct => p.Holds ct ∨ ct = cert.certType :=
      hstorable.mono fun ct hct => hct.imp_right fun heq => by simp [heq]
    have hcert := hnew cert mem_cons_self
    obtain ⟨r, hr⟩ := exists_insertCertificate events (hp.exists_record hfirst)
      (hp.exists_phaseAfter rfl hcert hfirst)
    obtain ⟨new, -, hinserts⟩ := insertCertificate_spec hr
    obtain ⟨hno, hnodup⟩ := nodup_cons.mp hnodup
    obtain ⟨w', hw'⟩ := hp.insertCertificate rfl hcert hr
    obtain ⟨result, hresult⟩ := ih hw' (fun cert' hcert' => by
      rw [hinserts.holds_iff, not_or]
      exact ⟨hnew cert' (mem_cons_of_mem _ hcert'),
        fun heq => hno (mem_map.mpr ⟨cert', hcert', heq⟩)⟩) hnodup
      (hstorable.mono fun ct hct => by
        rw [hinserts.holds_iff, or_assoc] at hct
        rwa [map_cons, mem_cons])
    refine ⟨result, ?_⟩
    show (p.insertCertificate cert.certType cert events).bind _ = some result
    rwa [hr]

end
end ConsensusPool

end FlowraValidator.Votor
