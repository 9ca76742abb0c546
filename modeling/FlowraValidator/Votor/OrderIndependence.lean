import FlowraValidator.Votor.BuiltCertificates
import FlowraValidator.Votor.StoredCertificates
import FlowraValidator.Votor.VoteSets

/-!
# The order of votes

A finite set of votes, no two of which conflict and within the bounds for each validator, is
delivered to a fresh pool in any order and with any repetitions. The pool ends with the same
certificates and has emitted the same events, as long as the votes do not reach the threshold for a
genesis certificate with votes for two genesis blocks of the slot, and the certificates are ones
that a pool can store without a panic. Outside of these conditions the order matters, or the pool
does not get to the end.

* `ConflictFree`: the sets of votes.
* `OrderIndependent`: any two deliveries end alike.
* `Accounts`: what a pool is after some votes, in terms of its ledger.
* `orderIndependent_iff`: the result.
* `blockProductionParent_of_addVotes`: the parent for a block of its own.
* `genesisMix_not_orderIndependent`: votes for two genesis blocks.
-/

namespace FlowraValidator.Votor
open Ledger CertificateType PoolContext ConsensusPool List VoteMessage

variable {Sig : Type}

/-! ## The stakes of a context -/

/-- No validators. -/
def EpochStakes.empty : EpochStakes where
  entries := []
  totalStake := 0
  nodup := nodup_nil
  stake_pos := nofun
  sum_le := le_rfl
  total_le := Nat.zero_le _
  length_le := Nat.zero_le _

namespace PoolContext

/-- The stakes that the context knows. -/
def cluster (ctx : PoolContext) : Cluster where
  getEpoch := ctx.getEpoch
  stakes := fun epoch => (ctx.epochStakesMap epoch).getD .empty

theorem agrees_cluster (ctx : PoolContext) : ctx.Agrees ctx.cluster :=
  ⟨rfl, fun epoch es h => by simp [cluster, h]⟩

instance (ctx : PoolContext) (m : VoteMessage Sig) : Decidable (ctx.Knows m) :=
  match h : ctx.epochStakesMap (ctx.getEpoch m.vote.slot) with
  | none => isFalse (by
      rintro ⟨es, hes, -⟩
      rw [h] at hes
      exact absurd hes (by simp))
  | some es => decidable_of_iff (m.rank < es.entries.length) ⟨fun hlt => ⟨es, h, hlt⟩, by
      rintro ⟨es', hes', hlt⟩
      rw [h, Option.some_inj] at hes'
      exact hes' ▸ hlt⟩

/-- The pool looks at the vote: its validator is known, and it is not below the root. -/
def Admissible (ctx : PoolContext) (rootSlot : ℕ) (m : VoteMessage Sig) : Prop :=
  ctx.Knows m ∧ rootSlot ≤ m.vote.slot

instance (ctx : PoolContext) (rootSlot : ℕ) (m : VoteMessage Sig) :
    Decidable (ctx.Admissible rootSlot m) :=
  inferInstanceAs (Decidable (_ ∧ _))

/-- The votes that the pool looks at. -/
def admissible (ctx : PoolContext) (rootSlot : ℕ) (votes : List (VoteMessage Sig)) : Ledger Sig :=
  votes.filter fun m => decide (ctx.Admissible rootSlot m)

theorem mem_admissible {ctx : PoolContext} {rootSlot : ℕ} {votes : List (VoteMessage Sig)}
    {m : VoteMessage Sig} :
    m ∈ ctx.admissible rootSlot votes ↔ m ∈ votes ∧ ctx.Admissible rootSlot m := by
  unfold admissible
  rw [mem_filter, decide_eq_true_iff]

end PoolContext

/-! ## Sets of votes -/

/-- The votes of one type that one validator may have for a slot. -/
def maxEntriesPerPubkey : VoteType → ℕ
  | .notarizeFallback => maxEntriesPerPubkeyForNotarizeLite
  | _ => maxEntriesPerPubkeyForOtherTypes

/-- No two votes of one validator for a slot conflict, and each validator is within the bounds. -/
structure ConflictFree (votes : List (VoteMessage Sig)) : Prop where
  not_conflicts : ∀ m ∈ votes, ∀ m' ∈ votes, m.rank = m'.rank → m.vote.slot = m'.vote.slot →
    ¬m.vote.ConflictsWith m'.vote
  within : ∀ (slot : ℕ) (ty : VoteType) (rank : ℕ) (vs : Finset Vote),
    (∀ v ∈ vs, v.slot = slot ∧ v.getType = ty ∧ Ledger.Has votes v rank) →
      vs.card ≤ maxEntriesPerPubkey ty

section Deliveries
variable [AddCommMonoid Sig]

/-- Deliver votes one after the other. -/
def ConsensusPool.addVotes (ctx : PoolContext) (rootSlot : ℕ) : List (VoteMessage Sig) →
    ConsensusPool Sig → List VotorEvent → Option (ConsensusPool Sig × List VotorEvent)
  | [], p, events => some (p, events)
  | m :: votes, p, events => (p.addVote ctx rootSlot m events).bind fun result =>
    addVotes ctx rootSlot votes result.2.1 result.2.2

omit [AddCommMonoid Sig] in
/-- Two pools with the same certificates, and the same events of the kinds that lead to votes. -/
structure SameOutcome (r r' : ConsensusPool Sig × List VotorEvent) : Prop where
  holds : ∀ ct, r.1.Holds ct ↔ r'.1.Holds ct
  safeToNotar : ∀ b, .safeToNotar b ∈ r.2 ↔ .safeToNotar b ∈ r'.2
  safeToSkip : ∀ s, .safeToSkip s ∈ r.2 ↔ .safeToSkip s ∈ r'.2
  blockNotarized : ∀ b, .blockNotarized b ∈ r.2 ↔ .blockNotarized b ∈ r'.2
  parentReady : ∀ s b, .parentReady s b ∈ r.2 ↔ .parentReady s b ∈ r'.2

/-- Any two deliveries of the votes, in any order and with any repetitions, end, and end alike. -/
def OrderIndependent (ctx : PoolContext) (rootSlot : ℕ) (p : ConsensusPool Sig)
    (votes : List (VoteMessage Sig)) : Prop :=
  ∀ d d' : List (VoteMessage Sig), (∀ m, m ∈ d ↔ m ∈ votes) → (∀ m, m ∈ d' ↔ m ∈ votes) →
    ∃ r r', p.addVotes ctx rootSlot d [] = some r ∧ p.addVotes ctx rootSlot d' [] = some r' ∧
      SameOutcome r r'

end Deliveries

/-- A new pool for the root block. -/
def ConsensusPool.IsNew (p : ConsensusPool Sig) (rootBlock : Block) : Prop :=
  p = .newFromRootBank rootBlock ∨ ∃ phase, p = .newFromRootBankPreMigration rootBlock phase

/-- The votes suffice for a certificate, and one of them is for it. -/
structure Certified (ctx : PoolContext) (rootSlot : ℕ) (votes : List (VoteMessage Sig))
    (ct : CertificateType) : Prop where
  supports : (ctx.admissible rootSlot votes).Supports ct
  stake : ct.limitsAndVoteTypes.1.numerator * (ctx.cluster.stakesAt ct.slot).totalStake ≤
    (∑ r ∈ (ctx.admissible rootSlot votes).voters ct.Counts,
      (ctx.cluster.stakesAt ct.slot).stakeOf r) * ct.limitsAndVoteTypes.1.denominator

/-- No two genesis blocks of a slot have votes where the genesis votes of the slot suffice. -/
def OneGenesis (ctx : PoolContext) (rootSlot : ℕ) (votes : List (VoteMessage Sig)) : Prop :=
  ∀ s b b', Certified ctx rootSlot votes (.genesis s b) →
    Certified ctx rootSlot votes (.genesis s b') → b = b'

/-! ## Which votes are accepted -/

namespace ConflictFree
variable {votes : List (VoteMessage Sig)} {cl : Cluster} {led : Ledger Sig} {m : VoteMessage Sig}

/-- Different votes of one validator for a slot are compatible. -/
theorem compatible (h : ConflictFree votes) {m' : VoteMessage Sig} (hm : m ∈ votes)
    (hm' : m' ∈ votes) (hrank : m'.rank = m.rank) (hslot : m'.vote.slot = m.vote.slot)
    (hne : m'.vote ≠ m.vote) : m'.vote.Compatible m.vote := by
  refine ⟨hne, h.not_conflicts m hm m' hm' hrank.symm hslot.symm, fun hty => ?_⟩
  have hcard := h.within m.vote.slot m.vote.getType m.rank {m'.vote, m.vote} (by
    intro v hv
    rcases Finset.mem_insert.mp hv with rfl | hv
    · exact ⟨hslot, hty, m', hm', rfl, hrank⟩
    · rw [Finset.mem_singleton.mp hv]
      exact ⟨rfl, rfl, m, hm, rfl, rfl⟩)
  rw [Finset.card_pair hne] at hcard
  by_contra hfall
  cases hv : m.vote.getType <;> simp_all [maxEntriesPerPubkey, maxEntriesPerPubkeyForOtherTypes]

/-- **A vote is accepted unless the validator has cast it before.** -/
theorem accepts_iff (h : ConflictFree votes) (hwf : led.WellFormed cl)
    (hled : ∀ m ∈ led, m ∈ votes) (hm : m ∈ votes) :
    led.Accepts m ↔ ¬led.Has m.vote m.rank := by
  constructor
  · rintro haccepts ⟨m', hm', hvote, hrank⟩
    exact (haccepts.compatible m' hm' hrank (congrArg Vote.slot hvote)).ne hvote
  · intro hnew
    have hne : ∀ m' ∈ led, m'.rank = m.rank → m'.vote ≠ m.vote :=
      fun m' hm' hrank hvote => hnew ⟨m', hm', hvote, hrank⟩
    refine ⟨fun m' hm' hrank hslot => h.compatible hm (hled m' hm') hrank hslot
      (hne m' hm' hrank), fun hty => ?_⟩
    -- the fallback votes so far are different, and the new one is another
    have hmem : ∀ m' ∈ led.fallbacks m.vote.slot m.rank, m' ∈ led ∧ m'.vote.slot = m.vote.slot ∧
        m'.vote.getType = .notarizeFallback ∧ m'.rank = m.rank := by
      intro m' hm'
      unfold fallbacks at hm'
      rwa [mem_filter, decide_eq_true_iff] at hm'
    have hnodup : ((led.fallbacks m.vote.slot m.rank).map vote).Nodup := by
      rw [nodup_iff_pairwise_ne, pairwise_map]
      refine (hwf.compatible.filter _).imp_of_mem fun hm1 hm2 hc => ?_
      obtain ⟨-, hs1, -, hr1⟩ := hmem _ hm1
      obtain ⟨-, hs2, -, hr2⟩ := hmem _ hm2
      exact (hc (hr1.trans hr2.symm) (hs1.trans hs2.symm)).ne
    have hnot : m.vote ∉ ((led.fallbacks m.vote.slot m.rank).map vote).toFinset := by
      rw [mem_toFinset, mem_map]
      rintro ⟨m', hm', hvote⟩
      obtain ⟨hin, -, -, hr⟩ := hmem m' hm'
      exact hne m' hin hr hvote
    have hcard := h.within m.vote.slot .notarizeFallback m.rank
      (insert m.vote ((led.fallbacks m.vote.slot m.rank).map vote).toFinset) (by
        intro v hv
        rcases Finset.mem_insert.mp hv with rfl | hv
        · exact ⟨rfl, hty, m, hm, rfl, rfl⟩
        · rw [mem_toFinset, mem_map] at hv
          obtain ⟨m', hm', rfl⟩ := hv
          obtain ⟨hin, hs, hty', hr⟩ := hmem m' hm'
          exact ⟨hs, hty', m', hled m' hin, rfl, hr⟩)
    rwa [Finset.card_insert_of_notMem hnot, toFinset_card_of_nodup hnodup, length_map] at hcard

end ConflictFree

/-! ## What a pool is after some votes -/

/-- The pool and its events, in terms of the ledger. -/
structure Accounts (ctx : PoolContext) (rootBlock : Block) (initial : Option (MigrationPhase Sig))
    (led : Ledger Sig) (p : ConsensusPool Sig) (events : List VotorEvent) : Prop where
  represents : p.Represents ctx.cluster led
  counts : p.Counts ctx.cluster ctx.myVotePubkey led
  reported : p.Reported ctx.round ctx.cluster ctx.myVotePubkey led
  holds_iff : ∀ ct, p.Holds ct ↔ led.Reached ctx.cluster ct
  exists_stored : ∃ w, p.Stored rootBlock initial events w
  safeToNotar_iff : ∀ s b, .safeToNotar (s, b) ∈ events ↔
    led.SafeToNotar ctx.round ctx.cluster ctx.myVotePubkey s b
  safeToSkip_iff : ∀ s, .safeToSkip s ∈ events ↔
    led.SafeToSkip ctx.round ctx.cluster ctx.myVotePubkey s
  blockNotarized_iff : ∀ s b, .blockNotarized (s, b) ∈ events ↔ p.Holds (.notarize s b)

section Accounts
variable {ctx : PoolContext} {rootBlock : Block} {initial : Option (MigrationPhase Sig)}
  {led : Ledger Sig} {p : ConsensusPool Sig} {events : List VotorEvent} {m : VoteMessage Sig}

theorem accounts_new (hp : p.IsNew rootBlock) (ctx : PoolContext) :
    Accounts ctx rootBlock p.migrationStatus [] p [] := by
  have hpools : p.votePools = fun _ => none := by rcases hp with rfl | ⟨phase, rfl⟩ <;> rfl
  have hcounters : p.slotStakeCountersMap = fun _ => none := by
    rcases hp with rfl | ⟨phase, rfl⟩ <;> rfl
  have hempty : p.completedCertificates = [] := by rcases hp with rfl | ⟨phase, rfl⟩ <;> rfl
  have htracker : p.parentReadyTracker = .new rootBlock := by
    rcases hp with rfl | ⟨phase, rfl⟩ <;> rfl
  have hnone : ∀ ct, ¬p.Holds ct := by
    intro ct hct
    unfold ConsensusPool.Holds at hct
    rw [hempty] at hct
    cases hct
  have hreported : p.Reported ctx.round ctx.cluster ctx.myVotePubkey [] :=
    reported_nil ctx.round hcounters
  refine ⟨represents_nil hpools, counts_nil hcounters, hreported,
    fun ct => ?_, ⟨.start rootBlock, .refl, ParentReadyTracker.History.fixedRoot_start rootBlock,
      htracker.symm, fun c => ?_, fun s b => Iff.rfl, fun s b h => absurd h (hnone _),
      fun s b _ => Iff.rfl⟩, fun s b => ?_, fun s => ?_, fun s b => ?_⟩
  · exact ⟨fun h => absurd h (hnone ct), fun h => absurd h (reached_nil ct)⟩
  · exact ⟨fun h => absurd h not_mem_nil, fun ⟨ct, hct, _⟩ => absurd hct (hnone ct)⟩
  · rw [← hreported.notar_iff]
    unfold countersAt
    rw [hcounters]
    exact ⟨fun h => absurd h not_mem_nil, fun h => absurd h not_mem_nil⟩
  · rw [← hreported.skip_iff]
    unfold countersAt
    rw [hcounters]
    exact ⟨fun h => absurd h not_mem_nil, fun h => absurd h Bool.false_ne_true⟩
  · exact ⟨fun h => absurd h not_mem_nil, fun h => absurd h (hnone _)⟩

variable (h : Accounts ctx rootBlock initial led p events) (hround : Rounding ctx.round)
  (hm : led.Admits ctx rootBlock.1 m)
include h hround hm in
/-- The pool that has stored and counted a vote, before it looks at certificates. -/
theorem Accounts.stored_acceptVote :
    ∃ w, (acceptVote ctx.cluster ctx led p m events).1.Stored rootBlock initial
      (acceptVote ctx.cluster ctx led p m events).2 w := by
  have hwf := h.represents.wellFormed.append (ctx.agrees_cluster.rank_lt hm.known) hm.accepts
  obtain ⟨new, heq, -, -, hmem⟩ := acceptVote_reported hround h.counts h.reported hwf events
  obtain ⟨w, hw⟩ := h.exists_stored
  refine ⟨w, hw.reaches, hw.fixed, hw.tracker, hw.calls_iff, fun s b => ?_, hw.awaits,
    hw.awaits_iff⟩
  rw [heq, mem_append, hmem, ← hw.ready_iff, or_iff_left]
  exact fun hsafe => absurd hsafe.isSafe (by simp [VotorEvent.isSafe])

variable (certs : CertificateType → Certificate Sig) {v : Vote}

theorem completedBy_not_holds (hcerts : ∀ ct, (certs ct).certType = ct) :
    ∀ cert ∈ (completedBy ctx.cluster p led v).map certs,
      ¬p.Holds cert.certType := by
  refine forall_mem_map.mpr fun ct hct => ?_
  rw [hcerts]
  exact (mem_completedBy.mp hct).2.1

theorem completedBy_nodup (hcerts : ∀ ct, (certs ct).certType = ct) :
    (((completedBy ctx.cluster p led v).map certs).map
      Certificate.certType).Nodup := by
  rw [map_map, show Certificate.certType ∘ certs = id from funext hcerts, map_id]
  exact (voteToCertTypes_spec v).2.2.filter _

variable [AddCommMonoid Sig]
include h hround hm
/-- **An admitted vote.** -/
theorem Accounts.addVote {result : PoolResult Sig (List (Certificate Sig))}
    (hadd : p.addVote ctx rootBlock.1 m events = some result) :
    Accounts ctx rootBlock initial (led ++ [m]) result.2.1 result.2.2 := by
  rw [addVote_of_admits ctx.agrees_cluster h.represents hm] at hadd
  obtain ⟨r, hr, rfl⟩ := Option.map_eq_some_iff.mp hadd
  obtain ⟨new, hevents, hspec⟩ := voteSpec_of_insertCertificates ctx.agrees_cluster
    hround h.represents h.counts h.reported hm hr
  obtain ⟨w, hw⟩ := h.stored_acceptVote hround hm
  obtain ⟨w', hw'⟩ := hw.insertCertificates (completedBy_not_holds _ fun _ => rfl)
    (completedBy_nodup _ fun _ => rfl) hr
  refine ⟨hspec.represents, hspec.counts, hspec.reported, fun ct => ?_, ⟨w', hw'⟩, fun s b => ?_,
    fun s => ?_, fun s b => ?_⟩
  · rw [hspec.holds_iff, reached_append, h.holds_iff]
  · dsimp only
    rw [hevents, mem_append, hspec.safe_iff _ rfl, h.safeToNotar_iff]
    constructor
    · rintro (hsafe | ⟨s', b', heq, hsafe, -⟩ | ⟨s', heq, -⟩)
      · exact hsafe.mono hround
      · cases heq
        exact hsafe
      · cases heq
    · intro hsafe
      by_cases hold : led.SafeToNotar ctx.round ctx.cluster ctx.myVotePubkey s b
      · exact .inl hold
      · exact .inr (.inl ⟨s, b, rfl, hsafe, hold⟩)
  · dsimp only
    rw [hevents, mem_append, hspec.safe_iff _ rfl, h.safeToSkip_iff]
    constructor
    · rintro (hsafe | ⟨s', b', heq, -⟩ | ⟨s', heq, hsafe, -⟩)
      · exact hsafe.mono hround
      · cases heq
      · cases heq
        exact hsafe
    · intro hsafe
      by_cases hold : led.SafeToSkip ctx.round ctx.cluster ctx.myVotePubkey s
      · exact .inl hold
      · exact .inr (.inr ⟨s, rfl, hsafe, hold⟩)
  · dsimp only
    rw [hevents, mem_append, hspec.blockNotarized_iff, h.blockNotarized_iff]
    constructor
    · rintro (hold | ⟨hnew, -⟩)
      · exact (hspec.holds_iff _).mpr (.inl hold)
      · exact hnew
    · intro hnew
      by_cases hold : p.Holds (.notarize s b)
      · exact .inl hold
      · exact .inr ⟨hnew, hold⟩

/-- **An admitted vote does not panic** if what is held after it can be stored. -/
theorem Accounts.exists_addVote
    (hstorable : Storable rootBlock initial ((led ++ [m]).Reached ctx.cluster)) :
    ∃ result, p.addVote ctx rootBlock.1 m events = some result := by
  rw [addVote_of_admits ctx.agrees_cluster h.represents hm]
  obtain ⟨w, hw⟩ := h.stored_acceptVote hround hm
  obtain ⟨r, hr⟩ := hw.exists_insertCertificates (completedBy_not_holds _ fun _ => rfl)
    (completedBy_nodup ((led ++ [m]).certificate ctx.store) fun _ => rfl)
    (hstorable.mono fun ct hct => by
      rw [reached_append, ← h.holds_iff]
      rcases hct with hold | hnew
      · exact .inl hold
      · obtain ⟨cert, hcert, rfl⟩ := mem_map.mp hnew
        obtain ⟨ct, hct, rfl⟩ := mem_map.mp hcert
        obtain ⟨hmem, -, hcompletes⟩ := mem_completedBy.mp hct
        exact .inr ⟨hmem, hcompletes⟩)
  exact ⟨_, Option.map_eq_some_iff.mpr ⟨r, hr, rfl⟩⟩

end Accounts

/-! ## Deliveries -/

section
variable {ctx : PoolContext} {rootBlock : Block} {initial : Option (MigrationPhase Sig)}
  {votes : List (VoteMessage Sig)} {led : Ledger Sig} {p : ConsensusPool Sig}
  {events : List VotorEvent} {m : VoteMessage Sig}

theorem has_admissible_cons (v : Vote) (r : ℕ) (d : List (VoteMessage Sig)) :
    (ctx.admissible rootBlock.1 (m :: d)).Has v r ↔
      (ctx.Admissible rootBlock.1 m ∧ m.vote = v ∧ m.rank = r) ∨
        (ctx.admissible rootBlock.1 d).Has v r := by
  unfold Ledger.Has
  simp only [mem_admissible, mem_cons]
  constructor
  · rintro ⟨m', ⟨rfl | hm', hadm⟩, hv⟩
    · exact .inl ⟨hadm, hv⟩
    · exact .inr ⟨m', ⟨hm', hadm⟩, hv⟩
  · rintro (⟨hadm, hv⟩ | ⟨m', ⟨hm', hadm⟩, hv⟩)
    · exact ⟨m, ⟨.inl rfl, hadm⟩, hv⟩
    · exact ⟨m', ⟨.inr hm', hadm⟩, hv⟩

variable (hled : ∀ m ∈ led, m ∈ ctx.admissible rootBlock.1 votes)
include hled
/-- A vote of the set is admitted unless the pool does not look at it, or has it. -/
theorem ConflictFree.admits_iff (hV : ConflictFree votes) {cl : Cluster} (hwf : led.WellFormed cl)
    (hm : m ∈ votes) : led.Admits ctx rootBlock.1 m ↔
    ctx.Admissible rootBlock.1 m ∧ ¬led.Has m.vote m.rank := by
  rw [← hV.accepts_iff hwf (fun m hm => (mem_admissible.mp (hled m hm)).1) hm]
  constructor
  · rintro ⟨hknown, habove, haccepts⟩
    exact ⟨⟨hknown, habove⟩, haccepts⟩
  · rintro ⟨⟨hknown, habove⟩, haccepts⟩
    exact ⟨hknown, habove, haccepts⟩

theorem mem_append_admissible (hm : m ∈ votes) (hadm : ctx.Admissible rootBlock.1 m) :
    ∀ m' ∈ led ++ [m], m' ∈ ctx.admissible rootBlock.1 votes :=
  forall_mem_append.mpr ⟨hled, forall_mem_singleton.mpr (mem_admissible.mpr ⟨hm, hadm⟩)⟩

/-- The certificates of a part of the votes are certificates of all of them. -/
theorem certified_of_reached (hwf : led.WellFormed ctx.cluster) {ct : CertificateType}
    (h : led.Reached ctx.cluster ct) : Certified ctx rootBlock.1 votes ct := by
  constructor
  · obtain ⟨m, hm, hct⟩ := h.supports
    exact ⟨m, hled m hm, hct⟩
  · refine ((hwf.completes_iff ct).mp h.completes).trans (Nat.mul_le_mul_right _ ?_)
    refine Finset.sum_le_sum_of_subset fun r hr => ?_
    obtain ⟨v, hv, hhas⟩ := mem_voters.mp hr
    exact mem_voters.mpr ⟨v, hv, hhas.of_subset hled⟩

variable [AddCommMonoid Sig] {d : List (VoteMessage Sig)} (hV : ConflictFree votes)
  (hround : Rounding ctx.round) (hd : ∀ m ∈ d, m ∈ votes)
  (h : Accounts ctx rootBlock initial led p events)

omit hled in
theorem addVotes_append (d d' : List (VoteMessage Sig)) :
    p.addVotes ctx rootBlock.1 (d ++ d') events =
      (p.addVotes ctx rootBlock.1 d events).bind fun r =>
        r.1.addVotes ctx rootBlock.1 d' r.2 := by
  induction d generalizing p events with
  | nil => rfl
  | cons m d ih =>
    rw [cons_append, addVotes, addVotes, Option.bind_assoc]
    exact congrArg _ (funext fun result => ih)

include hV hround hd h
/-- **A delivery**: the ledger grows by votes of it, until it has all those the pool looks at. -/
theorem Accounts.addVotes {result : ConsensusPool Sig × List VotorEvent}
    (hrun : p.addVotes ctx rootBlock.1 d events = some result) :
    ∃ l, (∀ m ∈ l, m ∈ ctx.admissible rootBlock.1 d) ∧
      Accounts ctx rootBlock initial (led ++ l) result.1 result.2 ∧
      ∀ v r, (led ++ l).Has v r ↔ led.Has v r ∨ (ctx.admissible rootBlock.1 d).Has v r := by
  induction d generalizing led p events with
  | nil =>
    cases hrun
    refine ⟨[], nofun, by rwa [append_nil], fun v r => ?_⟩
    rw [append_nil, or_iff_left]
    rintro ⟨m, hm, -⟩
    cases hm
  | cons m d ih =>
    obtain ⟨r, hr, hrun⟩ := Option.bind_eq_some_iff.mp hrun
    obtain ⟨hm, hd⟩ := forall_mem_cons.mp hd
    have hsub : ∀ m' ∈ ctx.admissible rootBlock.1 d,
        m' ∈ ctx.admissible rootBlock.1 (m :: d) := by
      intro m' hm'
      obtain ⟨hmem, hadm⟩ := mem_admissible.mp hm'
      exact mem_admissible.mpr ⟨mem_cons_of_mem _ hmem, hadm⟩
    have hadmits := hV.admits_iff hled h.represents.wellFormed hm
    by_cases hadm : led.Admits ctx rootBlock.1 m
    · have hadmissible := (hadmits.mp hadm).1
      obtain ⟨l, hl, hacc, hhas⟩ := ih (mem_append_admissible hled hm hadmissible) hd
        (h.addVote hround hadm hr) hrun
      rw [append_assoc] at hacc hhas
      refine ⟨[m] ++ l, fun m' hm' => ?_, hacc, fun v r => ?_⟩
      · rcases mem_append.mp hm' with hm' | hm'
        · rw [mem_singleton.mp hm']
          exact mem_admissible.mpr ⟨mem_cons_self, hadmissible⟩
        · exact hsub m' (hl m' hm')
      · rw [hhas, has_append, has_admissible_cons, or_assoc]
        simp only [hadmissible, true_and]
    · obtain ⟨answer, heq, -⟩ := addVote_of_not_admits ctx.agrees_cluster
        h.represents hadm events
      rw [heq, Option.some_inj] at hr
      subst hr
      obtain ⟨l, hl, hacc, hhas⟩ := ih hled hd h hrun
      refine ⟨l, fun m' hm' => hsub m' (hl m' hm'), hacc, fun v r => ?_⟩
      rw [hhas, has_admissible_cons]
      rw [hadmits, not_and, not_not] at hadm
      constructor
      · rintro (hold | hnew)
        · exact .inl hold
        · exact .inr (.inr hnew)
      · rintro (hold | ⟨hadmissible, rfl, rfl⟩ | hnew)
        · exact .inl hold
        · exact .inl (hadm hadmissible)
        · exact .inr hnew

/-- **A delivery ends**, if the certificates of all the votes can be stored. -/
theorem Accounts.exists_addVotes
    (hstorable : Storable rootBlock initial (Certified ctx rootBlock.1 votes)) :
    ∃ result, p.addVotes ctx rootBlock.1 d events = some result := by
  induction d generalizing led p events with
  | nil => exact ⟨_, rfl⟩
  | cons m d ih =>
    obtain ⟨hm, hd⟩ := forall_mem_cons.mp hd
    have hadmits := hV.admits_iff hled h.represents.wellFormed hm
    rw [ConsensusPool.addVotes]
    by_cases hadm : led.Admits ctx rootBlock.1 m
    · have hled' := mem_append_admissible hled hm (hadmits.mp hadm).1
      have hwf := h.represents.wellFormed.append (ctx.agrees_cluster.rank_lt hadm.known)
        hadm.accepts
      obtain ⟨r, hr⟩ := h.exists_addVote hround hadm
        (hstorable.mono fun ct hct => certified_of_reached hled' hwf hct)
      rw [hr, Option.bind_some]
      exact ih hled' hd (h.addVote hround hadm hr)
    · obtain ⟨answer, heq, -⟩ := addVote_of_not_admits ctx.agrees_cluster
        h.represents hadm events
      rw [heq, Option.bind_some]
      exact ih hled hd h

end

/-! ## Deliveries that end alike -/

section
variable {ctx : PoolContext} {rootBlock : Block} {initial : Option (MigrationPhase Sig)}
  {votes : List (VoteMessage Sig)} {led led' : Ledger Sig} {p p' : ConsensusPool Sig}
  {events events' : List VotorEvent}

/-- With one genesis block in each slot, a pool that has all the votes holds the certificates for
which they suffice. -/
theorem Accounts.holds_iff_certified (h : Accounts ctx rootBlock initial led p events)
    (hone : OneGenesis ctx rootBlock.1 votes)
    (hled : ∀ m ∈ led, m ∈ ctx.admissible rootBlock.1 votes)
    (hsame : led.SameVotes (ctx.admissible rootBlock.1 votes)) (ct : CertificateType) :
    p.Holds ct ↔ Certified ctx rootBlock.1 votes ct := by
  have hwf := h.represents.wellFormed
  rw [h.holds_iff]
  constructor
  · exact certified_of_reached hled hwf
  · intro hct
    refine reached_of_completes (fun m hm hcounts => ?_) ?_ ?_
    · refine mem_voteToCertTypes_iff.mpr ⟨hcounts, ?_⟩
      rintro s b rfl
      obtain ⟨b', hb'⟩ := counts_genesis.mp hcounts
      have hother : Certified ctx rootBlock.1 votes (.genesis s b') := by
        refine ⟨⟨m, hled m hm, ?_⟩, ?_⟩
        · rw [hb']
          exact mem_singleton_self _
        · -- the same votes count for both blocks
          have hvoters : (ctx.admissible rootBlock.1 votes).voters
              (genesis s b').Counts = (ctx.admissible rootBlock.1 votes).voters
                (genesis s b).Counts := by
            ext r
            simp only [mem_voters, counts_genesis]
          rw [hvoters]
          exact hct.stake
      rw [hb', hone s b b' hct hother]
      rfl
    · obtain ⟨m, hm, hmem⟩ := hct.supports
      obtain ⟨m', hm', hvote, -⟩ := (hsame m.vote m.rank).mpr ⟨m, hm, rfl, rfl⟩
      exact ⟨m', hm', hvote ▸ hmem⟩
    · rw [hwf.completes_iff, hsame.voters_eq]
      exact hct.stake

/-- **Pools with the same votes and the same certificates have emitted the same events.** -/
theorem Accounts.sameOutcome (h : Accounts ctx rootBlock initial led p events)
    (h' : Accounts ctx rootBlock initial led' p' events') (hsame : led.SameVotes led')
    (hholds : ∀ ct, p.Holds ct ↔ p'.Holds ct) : SameOutcome (p, events) (p', events') where
  holds := hholds
  safeToNotar := by
    rintro ⟨s, b⟩
    rw [h.safeToNotar_iff, h'.safeToNotar_iff]
    exact hsame.safeToNotar_iff h.represents.wellFormed h'.represents.wellFormed
  safeToSkip := by
    intro s
    rw [h.safeToSkip_iff, h'.safeToSkip_iff]
    exact hsame.safeToSkip_iff h.represents.wellFormed h'.represents.wellFormed
  blockNotarized := by
    rintro ⟨s, b⟩
    rw [h.blockNotarized_iff, h'.blockNotarized_iff, hholds]
  parentReady := by
    intro s b
    obtain ⟨w, hw⟩ := h.exists_stored
    obtain ⟨w', hw'⟩ := h'.exists_stored
    rw [hw.ready_iff, hw'.ready_iff]
    refine ParentReadyTracker.History.parentReady_congr hw.reaches hw'.reaches hw.fixed hw'.fixed
      (fun c => ?_) s b
    rw [hw.calls_iff, hw'.calls_iff]
    simp only [hholds]

end

/-! ## Votes for two genesis blocks -/

section
variable {ctx : PoolContext} {rootBlock : Block} {votes : List (VoteMessage Sig)} {s : ℕ}

/-- The stake of the votes for one genesis block. -/
def genesisStake (ctx : PoolContext) (rootSlot : ℕ) (votes : List (VoteMessage Sig)) (s : ℕ)
    (b : Hash) : ℕ :=
  ∑ r ∈ (ctx.admissible rootSlot votes).voters (· = .genesis s b),
    (ctx.cluster.stakesAt s).stakeOf r

/-- Two genesis blocks of a slot cannot both have enough stake. -/
theorem ConflictFree.not_both (hV : ConflictFree votes) {b b' : Hash} (hne : b ≠ b')
    (hct : Certified ctx rootBlock.1 votes (.genesis s b)) :
    genesisStake ctx rootBlock.1 votes s b * 100 < 82 * (ctx.cluster.stakesAt s).totalStake ∨
      genesisStake ctx rootBlock.1 votes s b' * 100 < 82 * (ctx.cluster.stakesAt s).totalStake := by
  have hdisjoint : Disjoint ((ctx.admissible rootBlock.1 votes).voters (· = .genesis s b))
      ((ctx.admissible rootBlock.1 votes).voters (· = .genesis s b')) := by
    rw [Finset.disjoint_left]
    intro r hr hr'
    obtain ⟨v, rfl, hhas⟩ := mem_voters.mp hr
    obtain ⟨v', rfl, hhas'⟩ := mem_voters.mp hr'
    have hsub : ∀ m ∈ ctx.admissible rootBlock.1 votes, m ∈ votes :=
      fun m hm => (mem_admissible.mp hm).1
    have hcard := hV.within s .genesis r {.genesis s b, .genesis s b'} (by
      intro v hv
      rcases Finset.mem_insert.mp hv with rfl | hv
      · exact ⟨rfl, rfl, hhas.of_subset hsub⟩
      · rw [Finset.mem_singleton.mp hv]
        exact ⟨rfl, rfl, hhas'.of_subset hsub⟩)
    rw [Finset.card_pair (by simpa using hne)] at hcard
    exact absurd hcard (by decide)
  have hsum : genesisStake ctx rootBlock.1 votes s b + genesisStake ctx rootBlock.1 votes s b' ≤
      (ctx.cluster.stakesAt s).totalStake := by
    unfold genesisStake
    rw [← Finset.sum_union hdisjoint]
    exact (ctx.cluster.stakesAt s).sum_stakeOf_le _
  have hpos : 0 < (ctx.cluster.stakesAt s).totalStake := by
    obtain ⟨m, hm, hmem⟩ := hct.supports
    have hknown := (mem_admissible.mp hm).2.1
    have hslot : s = m.vote.slot := (voteToCertTypes_spec m.vote).1 _ hmem
    rw [hslot]
    exact ctx.agrees_cluster.totalStake_pos hknown
  omega

variable [AddCommMonoid Sig] {p : ConsensusPool Sig}

/-- **The last vote decides.**  If the votes for `b` alone do not suffice but all genesis votes of
the slot do, the pool holds the certificate for `b` if these votes come last and does not if they
come first. -/
theorem not_orderIndependent_of_genesis (hV : ConflictFree votes) (hround : Rounding ctx.round)
    (hp : p.IsNew rootBlock) {b : Hash} (hct : Certified ctx rootBlock.1 votes (.genesis s b))
    (hlt : genesisStake ctx rootBlock.1 votes s b * 100 <
      82 * (ctx.cluster.stakesAt s).totalStake) :
    ¬OrderIndependent ctx rootBlock.1 p votes := by
  intro hind
  have hnew := accounts_new hp ctx
  have hnil : ∀ m ∈ ([] : Ledger Sig), m ∈ ctx.admissible rootBlock.1 votes := nofun
  -- the votes for `b`, and the others
  set isB : VoteMessage Sig → Bool := fun m => decide (m.vote = .genesis s b)
  have hadm : ∀ (q : VoteMessage Sig → Bool) (m : VoteMessage Sig),
      m ∈ ctx.admissible rootBlock.1 (votes.filter q) ↔
        m ∈ ctx.admissible rootBlock.1 votes ∧ q m = true := by
    intro q m
    rw [mem_admissible, mem_admissible, mem_filter, and_right_comm]
  have hadmB : ∀ m ∈ ctx.admissible rootBlock.1 (votes.filter isB), m.vote = .genesis s b :=
    fun m hm => of_decide_eq_true ((hadm _ m).mp hm).2
  have hadmO : ∀ m ∈ ctx.admissible rootBlock.1 (votes.filter (!isB ·)), m.vote ≠ .genesis s b :=
    fun m hm => by simpa [isB] using ((hadm _ m).mp hm).2
  have hperm := filter_append_perm isB votes
  obtain ⟨r, r', hr, hr', hsame⟩ := hind _ _ (fun m => hperm.mem_iff)
    fun m => (perm_append_comm.trans hperm).mem_iff
  rw [addVotes_append] at hr hr'
  obtain ⟨q, hq, hr⟩ := Option.bind_eq_some_iff.mp hr
  obtain ⟨q', hq', hr'⟩ := Option.bind_eq_some_iff.mp hr'
  -- the votes for `b` first: they do not suffice, and no other vote is for the certificate
  obtain ⟨lB, hlB, haccB, -⟩ := hnew.addVotes hnil hV hround (fun _ => mem_of_mem_filter) hq
  rw [nil_append] at haccB
  obtain ⟨lO, hlO, haccO, -⟩ := haccB.addVotes (fun m hm => ((hadm _ m).mp (hlB m hm)).1) hV
    hround (fun _ => mem_of_mem_filter) hr
  have hfirst : ¬r.1.Holds (.genesis s b) := by
    rw [haccO.holds_iff]
    intro hreached
    have hreachedB := hreached.of_append fun m hm hmem =>
      hadmO m (hlO m hm) (eq_genesis_of_mem hmem)
    have hdone := (haccB.represents.wellFormed.completes_iff _).mp hreachedB.completes
    have hle : (∑ r ∈ lB.voters (genesis s b).Counts,
        (ctx.cluster.stakesAt s).stakeOf r) ≤ genesisStake ctx rootBlock.1 votes s b := by
      refine Finset.sum_le_sum_of_subset fun r hr => ?_
      obtain ⟨v, -, m, hm, rfl, rfl⟩ := mem_voters.mp hr
      exact mem_voters.mpr ⟨_, rfl, m, ((hadm _ m).mp (hlB m hm)).1, hadmB m (hlB m hm), rfl⟩
    have hdone' : 82 * (ctx.cluster.stakesAt s).totalStake ≤
        (∑ r ∈ lB.voters (genesis s b).Counts, (ctx.cluster.stakesAt s).stakeOf r) * 100 := hdone
    omega
  -- the votes for `b` last: with the last of them all votes are there
  obtain ⟨kO, hkO, haccO', hhasO⟩ := hnew.addVotes hnil hV hround (fun _ => mem_of_mem_filter) hq'
  rw [nil_append] at haccO' hhasO
  obtain ⟨kB, hkB, haccB', hhasB⟩ := haccO'.addVotes
    (fun m hm => ((hadm _ m).mp (hkO m hm)).1) hV hround (fun _ => mem_of_mem_filter) hr'
  have hlast : r'.1.Holds (.genesis s b) := by
    rw [haccB'.holds_iff]
    have hall : (kO ++ kB).SameVotes (ctx.admissible rootBlock.1 votes) := by
      intro v r
      rw [hhasB, hhasO]
      constructor
      · rintro ((⟨m, hm, -⟩ | h) | h)
        · cases hm
        · exact h.of_subset fun m hm => ((hadm _ m).mp hm).1
        · exact h.of_subset fun m hm => ((hadm _ m).mp hm).1
      · rintro ⟨m, hm, rfl, rfl⟩
        by_cases hvote : m.vote = .genesis s b
        · exact .inr ⟨m, (hadm _ m).mpr ⟨hm, decide_eq_true hvote⟩, rfl, rfl⟩
        · exact .inl (.inr ⟨m, (hadm _ m).mpr ⟨hm, by simpa [isB] using hvote⟩, rfl, rfl⟩)
    have hdone : Ledger.Completes ctx.cluster (kO ++ kB) (.genesis s b) := by
      rw [haccB'.represents.wellFormed.completes_iff, hall.voters_eq]
      exact hct.stake
    obtain ⟨m0, hm0, hmem0⟩ := hct.supports
    obtain ⟨m1, hm1, hvote1, -⟩ := (hall m0.vote m0.rank).mpr ⟨m0, hm0, rfl, rfl⟩
    rw [eq_genesis_of_mem hmem0] at hvote1
    rcases eq_nil_or_concat kB with rfl | ⟨k, m, rfl⟩
    · rw [append_nil] at hm1
      exact absurd hvote1 (hadmO m1 (hkO m1 hm1))
    · rw [concat_eq_append, ← append_assoc] at hdone ⊢
      refine reached_append.mpr (.inr ⟨?_, hdone⟩)
      rw [hadmB m (hkB m (by simp))]
      exact mem_singleton_self _
  exact hfirst ((hsame.holds _).mpr hlast)

end

/-! ## The result -/

section
variable [AddCommMonoid Sig] {ctx : PoolContext} {rootBlock : Block} {p : ConsensusPool Sig}
  {votes : List (VoteMessage Sig)}

/-- **The order of votes does not matter, exactly if the votes are for one genesis block of a slot
where they suffice for one, and their certificates can be stored.** -/
theorem orderIndependent_iff (hround : Rounding ctx.round) (hp : p.IsNew rootBlock)
    (hV : ConflictFree votes) :
    OrderIndependent ctx rootBlock.1 p votes ↔
      OneGenesis ctx rootBlock.1 votes ∧
        Storable rootBlock p.migrationStatus (Certified ctx rootBlock.1 votes) := by
  have hnew := accounts_new hp ctx
  have hnil : ∀ m ∈ ([] : Ledger Sig), m ∈ ctx.admissible rootBlock.1 votes := nofun
  -- what a delivery of all the votes leads to
  have hend : ∀ {d : List (VoteMessage Sig)} {r : ConsensusPool Sig × List VotorEvent},
      (∀ m, m ∈ d ↔ m ∈ votes) → p.addVotes ctx rootBlock.1 d [] = some r →
        ∃ led : Ledger Sig, (∀ m ∈ led, m ∈ ctx.admissible rootBlock.1 votes) ∧
          Accounts ctx rootBlock p.migrationStatus led r.1 r.2 ∧
          led.SameVotes (ctx.admissible rootBlock.1 votes) := by
    intro d r hd hrun
    obtain ⟨l, hl, hacc, hhas⟩ := hnew.addVotes hnil hV hround (fun m hm => (hd m).mp hm) hrun
    have hadm : ∀ m, m ∈ ctx.admissible rootBlock.1 d ↔ m ∈ ctx.admissible rootBlock.1 votes := by
      intro m
      rw [mem_admissible, mem_admissible, hd]
    refine ⟨l, fun m hm => (hadm m).mp (hl m hm), hacc, fun v k => ?_⟩
    rw [nil_append] at hhas
    rw [hhas]
    constructor
    · rintro (⟨m, hm, -⟩ | h)
      · cases hm
      · exact h.of_subset fun m hm => (hadm m).mp hm
    · intro h
      exact .inr (h.of_subset fun m hm => (hadm m).mpr hm)
  constructor
  · intro hind
    have hone : OneGenesis ctx rootBlock.1 votes := by
      intro s b b' hb hb'
      by_contra hne
      rcases hV.not_both hne hb with hlt | hlt
      · exact not_orderIndependent_of_genesis hV hround hp hb hlt hind
      · exact not_orderIndependent_of_genesis hV hround hp hb' hlt hind
    refine ⟨hone, ?_⟩
    obtain ⟨r, -, hr, -, -⟩ := hind votes votes (fun m => Iff.rfl) (fun m => Iff.rfl)
    obtain ⟨led, hled, hacc, hsame⟩ := hend (fun m => Iff.rfl) hr
    obtain ⟨w, hw⟩ := hacc.exists_stored
    exact hw.storable.mono fun ct hct => (hacc.holds_iff_certified hone hled hsame ct).mpr hct
  · rintro ⟨hone, hstorable⟩ d d' hd hd'
    obtain ⟨r, hr⟩ := hnew.exists_addVotes hnil hV hround (fun m hm => (hd m).mp hm) hstorable
    obtain ⟨r', hr'⟩ := hnew.exists_addVotes hnil hV hround (fun m hm => (hd' m).mp hm) hstorable
    obtain ⟨led, hled, hacc, hsame⟩ := hend hd hr
    obtain ⟨led', hled', hacc', hsame'⟩ := hend hd' hr'
    refine ⟨r, r', hr, hr', hacc.sameOutcome hacc' (fun v k => ?_) fun ct => ?_⟩
    · rw [hsame v k, hsame' v k]
    · rw [hacc.holds_iff_certified hone hled hsame, hacc'.holds_iff_certified hone hled' hsame']

/-- **Block production follows the certificates.** After any delivery, the window of a slot is
missed if a later slot has a possible parent; otherwise the least one is taken. A slot whose parent
was reported has one. -/
theorem blockProductionParent_of_addVotes (hround : Rounding ctx.round) (hp : p.IsNew rootBlock)
    (hV : ConflictFree votes) (hroot : rootBlock.1 < u64Max)
    {r : ConsensusPool Sig × List VotorEvent}
    (hrun : p.addVotes ctx rootBlock.1 votes [] = some r) (s : ℕ) :
    (r.1.parentReadyTracker.blockProductionParent s = .missedWindow ↔
      ∃ t b, s < t ∧ Extends rootBlock r.1 t b) ∧
    (∀ b, r.1.parentReadyTracker.blockProductionParent s = .parent b ↔
      (∀ t c, Extends rootBlock r.1 t c → t ≤ s) ∧ Extends rootBlock r.1 s b ∧
        ∀ c, Extends rootBlock r.1 s c → toLex b ≤ toLex c) ∧
    ∀ b, .parentReady s b ∈ r.2 →
      r.1.parentReadyTracker.blockProductionParent s ≠ .parentNotReady := by
  have hnil : ∀ m ∈ ([] : Ledger Sig), m ∈ ctx.admissible rootBlock.1 votes := nofun
  obtain ⟨l, -, hacc, -⟩ := (accounts_new hp ctx).addVotes hnil hV hround (fun _ => id) hrun
  obtain ⟨w, hw⟩ := hacc.exists_stored
  obtain ⟨hmissed, hparent, hnone⟩ := hw.fixed.blockProductionParent_iff hroot hw.reaches s
  simp only [hw.extends_iff hroot, hw.ready_iff]
  rw [← hw.tracker]
  exact ⟨hmissed, hparent, fun b hb h => hnone h b ((hw.fixed.events_iff s b).mp hb).2.1⟩

end

/-! ## Two validators -/

/-- One vote of each validator. -/
theorem conflictFree_of_nodup {votes : List (VoteMessage Sig)}
    (h : (votes.map rank).Nodup) : ConflictFree votes := by
  have heq : ∀ m ∈ votes, ∀ m' ∈ votes, m.rank = m'.rank → m = m' :=
    fun m hm m' hm' hrank => inj_on_of_nodup_map h hm hm' hrank
  constructor
  · rintro m hm m' hm' hrank - ⟨hconf, -⟩
    rw [heq m hm m' hm' hrank] at hconf
    cases hty : m'.vote.getType <;> simp [hty, conflictingTypes] at hconf
  · intro slot ty rank vs hvs
    have hcard : vs.card ≤ 1 := by
      rw [Finset.card_le_one]
      intro v hv v' hv'
      obtain ⟨-, -, m, hm, rfl, hrank⟩ := hvs v hv
      obtain ⟨-, -, m', hm', rfl, hrank'⟩ := hvs v' hv'
      rw [heq m hm m' hm' (hrank.trans hrank'.symm)]
    refine hcard.trans ?_
    cases ty <;> decide

/-- The first of two validators with the same stake, with the ratios of the machine. -/
def nodeOfTwo : PoolContext :=
  ⟨fun _ => 0, fun _ => some PoolHistory.twoStakes, 10, Binary64.round, digitStore⟩

/-- Both validators vote to notarize a block. -/
def twoNotarize : List (VoteMessage ℕ) := [⟨.notarize 1 7, 1, 0⟩, ⟨.notarize 1 7, 1, 1⟩]

theorem orderIndependent_twoNotarize :
    ConflictFree twoNotarize ∧
      OrderIndependent nodeOfTwo 0 (.newFromRootBank (0, 0)) twoNotarize := by
  have hV : ConflictFree twoNotarize := conflictFree_of_nodup (by decide)
  have hround : Rounding nodeOfTwo.round := Rounding.binary64
  have hnew : (newFromRootBank (0, 0) : ConsensusPool ℕ).IsNew (0, 0) := .inl rfl
  have hiff := orderIndependent_iff hround hnew hV
  refine ⟨hV, hiff.mpr ?_⟩
  have hcert : ∀ ct, Certified nodeOfTwo 0 twoNotarize ct →
      ct ∈ voteToCertTypes (.notarize 1 7) := by
    rintro ct ⟨⟨m, hm, hct⟩, -⟩
    obtain ⟨hm, -⟩ := mem_admissible.mp hm
    have hvote : m.vote = .notarize 1 7 := by
      simp only [twoNotarize, mem_cons, not_mem_nil, or_false] at hm
      rcases hm with rfl | rfl <;> rfl
    rwa [hvote] at hct
  refine ⟨fun s b b' hb _ => ?_, fun s _ blocks hnodup hblocks => ?_, fun ct hct _ _ => ?_,
    fun s b hb => ?_⟩
  · exact absurd (hcert _ hb) (by simp [voteToCertTypes])
  · have hone : ∀ b ∈ blocks, b = 7 := by
      intro b hb
      obtain ⟨ct, hct, hblock⟩ := hblocks b hb
      have hmem := hcert ct hct
      simp only [voteToCertTypes, mem_cons, not_mem_nil, or_false] at hmem
      rcases hmem with rfl | rfl | rfl <;> simp_all [toBlock]
    have hsub := hnodup.subperm (show blocks ⊆ [7] from fun b hb => by simp [hone b hb])
    exact hsub.length_le.trans (by decide)
  · rw [(voteToCertTypes_spec _).1 ct (hcert ct hct)]
    decide
  · exact absurd (hcert _ hb) (by simp [voteToCertTypes])

/-- The block that both voted for is the parent of the next one. -/
theorem blockProductionParent_twoNotarize :
    ∃ r, (newFromRootBank (0, 0)).addVotes nodeOfTwo 0 twoNotarize [] = some r ∧
      r.1.parentReadyTracker.blockProductionParent 2 = .parent (1, 7) ∧
      Extends (0, 0) r.1 2 (1, 7) := by
  have hparent : ((newFromRootBank (0, 0)).addVotes nodeOfTwo 0 twoNotarize []).map
      (fun r => r.1.parentReadyTracker.blockProductionParent 2) = some (.parent (1, 7)) := by decide
  obtain ⟨r, hr, hparent⟩ := Option.map_eq_some_iff.mp hparent
  have hV : ConflictFree twoNotarize := conflictFree_of_nodup (by decide)
  have hroot : ((0, 0) : Block).1 < u64Max := by decide
  obtain ⟨-, hiff, -⟩ :=
    blockProductionParent_of_addVotes Rounding.binary64 (.inl rfl) hV hroot hr 2
  exact ⟨r, hr, hparent, ((hiff _).mp hparent).2.1⟩

/-- The validators vote for different genesis blocks. -/
def genesisMix : List (VoteMessage ℕ) := [⟨.genesis 1 7, 1, 0⟩, ⟨.genesis 1 9, 1, 1⟩]

/-- **Votes for two genesis blocks**, in a pool that waits for a genesis certificate: it builds one
for the block whose vote comes last. -/
theorem genesisMix_not_orderIndependent :
    ConflictFree genesisMix ∧
      ¬OrderIndependent nodeOfTwo 0
        (.newFromRootBankPreMigration (0, 0) (.migration 2 none none)) genesisMix := by
  refine ⟨conflictFree_of_nodup (by decide), fun hind => ?_⟩
  obtain ⟨r, r', hr, hr', hsame⟩ := hind genesisMix genesisMix.reverse (fun m => Iff.rfl)
    fun m => mem_reverse
  have hfirst : (((newFromRootBankPreMigration (0, 0) (.migration 2 none none) :
      ConsensusPool ℕ).addVotes nodeOfTwo 0 genesisMix []).map fun r =>
        decide (r.1.Holds (.genesis 1 9))) = some true := by
    decide
  have hlast : (((newFromRootBankPreMigration (0, 0) (.migration 2 none none) :
      ConsensusPool ℕ).addVotes nodeOfTwo 0 genesisMix.reverse []).map fun r =>
        decide (r.1.Holds (.genesis 1 9))) = some false := by
    decide
  rw [hr, Option.map_some, Option.some_inj, decide_eq_true_iff] at hfirst
  rw [hr', Option.map_some, Option.some_inj, decide_eq_false_iff_not] at hlast
  exact hlast ((hsame.holds _).mp hfirst)

end FlowraValidator.Votor
