import FlowraValidator.Votor.ParentReady
import FlowraValidator.Votor.PoolRefinement

/-!
# The calls of the pool

What the calls of the consensus pool do to a pool that represents a ledger. A vote is admitted or
changes nothing; an admitted vote is appended to the ledger and counted, and makes the pool build
the certificates that are complete now, each from votes of distinct validators; a certificate, built
or received, is stored and recorded in the parent-ready tracker.

* `ConsensusPool.Represents`: the vote pools are those of a well-formed ledger.
* `insertCertificate_spec`: what storing a certificate changes and which events it emits.
* `updateCertificates_eq`: the certificates that a vote completes.
* `addVote_of_admits`, `addVote_of_not_admits`: the two outcomes of a vote.
-/

namespace FlowraValidator.Votor
open Ledger List Option ParentReadyTracker EpochStakes Prod

variable {Sig : Type} {new : List VotorEvent}

/-! ## Storing a certificate -/

/-- The call of the parent-ready tracker that a new certificate leads to. -/
def CertificateType.trackerCall : CertificateType → Option ParentReadyTracker.Call
  | .notarizeFallback s b => some (.addNewNotarFallbackOrStronger (s, b))
  | .notarize s b => some (.addNewNotarFallbackOrStronger (s, b))
  | .finalizeFast s b => some (.addNewNotarFallbackOrStronger (s, b))
  | .genesis s b => some (.addNewNotarFallbackOrStronger (s, b))
  | .skip s => some (.addNewSkip s)
  | .finalize _ => none

/-- Record a new certificate in a parent-ready tracker. -/
def ParentReadyTracker.record (t : ParentReadyTracker) (certType : CertificateType) :
    Option (ParentReadyTracker × List VotorEvent) :=
  match certType.trackerCall with
  | none => some (t, [])
  | some c => t.perform c

/-- The report of a finalized block; the other events are the ones that lead to votes. -/
def VotorEvent.isFinalized : VotorEvent → Bool
  | .finalized _ _ => true
  | _ => false

theorem VotorEvent.ne_finalized {e : VotorEvent} (h : e.isFinalized = false) (b : Block)
    (isFast : Bool) : e ≠ .finalized b isFast := by
  rintro rfl
  exact absurd h (by simp [isFinalized])

namespace ConsensusPool

/-- `p'` is `p` with one more certificate, and `new` are the events for it. -/
structure Inserts (p : ConsensusPool Sig) (certType : CertificateType) (cert : Certificate Sig)
    (p' : ConsensusPool Sig) (new : List VotorEvent) : Prop where
  votePools : p'.votePools = p.votePools
  counters : p'.slotStakeCountersMap = p.slotStakeCountersMap
  completed : p'.completedCertificates = (p.storeCertificate certType cert).completedCertificates
  exists_events : ∃ emitted,
    p.parentReadyTracker.record certType = some (p'.parentReadyTracker, emitted) ∧
    ∀ e, e.isFinalized = false → (e ∈ new ↔ e ∈ emitted ∨
      ∃ s b, certType = .notarize s b ∧ e = .blockNotarized (s, b))

theorem addBlockToTracker_eq (p : ConsensusPool Sig) (block : Block) (events : List VotorEvent) :
    p.addBlockToTracker block events =
      (p.parentReadyTracker.perform (.addNewNotarFallbackOrStronger block)).map fun r =>
        ({ p with parentReadyTracker := r.1 }, events ++ r.2) := by
  unfold addBlockToTracker perform
  rw [addNewNotarFallbackOrStronger_events, Option.map_map]
  rfl

theorem addSkipToTracker_eq (p : ConsensusPool Sig) (slot : ℕ) (events : List VotorEvent) :
    p.addSkipToTracker slot events =
      (p.parentReadyTracker.perform (.addNewSkip slot)).map fun r =>
        ({ p with parentReadyTracker := r.1 }, events ++ r.2) := by
  unfold addSkipToTracker perform
  rw [addNewSkip_events, Option.map_map]
  rfl

/-- The two pools differ at most in the finalized slots and in the migration. -/
structure SameData (p p' : ConsensusPool Sig) : Prop where
  votePools : p'.votePools = p.votePools
  counters : p'.slotStakeCountersMap = p.slotStakeCountersMap
  completed : p'.completedCertificates = p.completedCertificates
  tracker : p'.parentReadyTracker = p.parentReadyTracker

theorem SameData.refl (p : ConsensusPool Sig) : SameData p p := ⟨rfl, rfl, rfl, rfl⟩

theorem SameData.trans {p p1 p2 : ConsensusPool Sig} (h1 : SameData p p1) (h2 : SameData p1 p2) :
    SameData p p2 :=
  ⟨h2.votePools.trans h1.votePools, h2.counters.trans h1.counters,
    h2.completed.trans h1.completed, h2.tracker.trans h1.tracker⟩

theorem sameData_raiseFinalizedSlot (p : ConsensusPool Sig) (slot : ℕ) :
    SameData p (p.raiseFinalizedSlot slot) := by
  unfold raiseFinalizedSlot
  split_ifs
  · exact ⟨rfl, rfl, rfl, rfl⟩
  · exact .refl p

theorem sameData_raiseFinalizedWithNotarize (p : ConsensusPool Sig) (slot : ℕ) :
    SameData p (p.raiseFinalizedWithNotarize slot) := by
  unfold raiseFinalizedWithNotarize
  split_ifs
  · exact ⟨rfl, rfl, rfl, rfl⟩
  · exact .refl p

theorem sameData_raiseFinalizedFast (p : ConsensusPool Sig) (slot : ℕ) :
    SameData p (p.raiseFinalizedFast slot) := by
  unfold raiseFinalizedFast
  split_ifs
  · exact ⟨rfl, rfl, rfl, rfl⟩
  · exact .refl p

theorem sameData_setGenesisCertificate {p p' : ConsensusPool Sig} {cert : Certificate Sig}
    (h : p.setGenesisCertificate cert = some p') : SameData p p' := by
  unfold setGenesisCertificate at h
  split at h
  · cases h
    exact .refl p
  · obtain ⟨phase, -, rfl⟩ := map_eq_some_iff.mp h
    exact ⟨rfl, rfl, rfl, rfl⟩

variable {cert : Certificate Sig} {certType : CertificateType}

/-- What remains to be said when the tracker has recorded the certificate. -/
theorem Inserts.of_sameData {p p' : ConsensusPool Sig} {t : ParentReadyTracker}
    {emitted : List VotorEvent} (hrecord : p.parentReadyTracker.record certType = some (t, emitted))
    (hsame : SameData { p.storeCertificate certType cert with parentReadyTracker := t } p')
    (hevents : ∀ e, e.isFinalized = false → (e ∈ new ↔ e ∈ emitted ∨
      ∃ s b, certType = .notarize s b ∧ e = .blockNotarized (s, b))) :
    p.Inserts certType cert p' new :=
  ⟨hsame.votePools, hsame.counters, hsame.completed, emitted, by rw [hsame.tracker]; exact hrecord,
    hevents⟩

/-- **Storing a certificate.** -/
theorem insertCertificate_spec {p : ConsensusPool Sig} {events : List VotorEvent}
    {result : ConsensusPool Sig × List VotorEvent}
    (h : p.insertCertificate certType cert events = some result) :
    ∃ new, result.2 = events ++ new ∧ p.Inserts certType cert result.1 new := by
  unfold insertCertificate at h
  cases certType with
  | notarizeFallback s b =>
    dsimp only at h
    rw [addBlockToTracker_eq] at h
    obtain ⟨⟨t, emitted⟩, hperform, rfl⟩ := map_eq_some_iff.mp h
    exact ⟨emitted, rfl, .of_sameData hperform (.refl _) (by simp)⟩
  | skip s =>
    dsimp only at h
    rw [addSkipToTracker_eq] at h
    obtain ⟨⟨t, emitted⟩, hperform, rfl⟩ := map_eq_some_iff.mp h
    exact ⟨emitted, rfl, .of_sameData hperform (.refl _) (by simp)⟩
  | notarize s b =>
    simp only [addBlockToTracker_eq] at h
    obtain ⟨r, hr, h⟩ := bind_eq_some_iff.mp h
    obtain ⟨⟨t, emitted⟩, hperform, rfl⟩ := map_eq_some_iff.mp hr
    dsimp only at h
    split_ifs at h <;> cases h
    · refine ⟨[.blockNotarized (s, b)] ++ emitted ++ [.finalized (s, b) false], by simp,
        .of_sameData hperform (sameData_raiseFinalizedWithNotarize _ s) ?_⟩
      intro e he
      simp [e.ne_finalized he, or_comm]
    · refine ⟨[.blockNotarized (s, b)] ++ emitted, by simp, .of_sameData hperform (.refl _) ?_⟩
      intro e _
      simp [or_comm]
  | finalize s =>
    have hrecord : p.parentReadyTracker.record (.finalize s) =
        some (p.parentReadyTracker, []) := rfl
    dsimp only at h
    split at h
    · next block _ =>
      cases h
      refine ⟨[.finalized block false], rfl, .of_sameData hrecord
        ((sameData_raiseFinalizedWithNotarize _ s).trans (sameData_raiseFinalizedSlot _ s)) ?_⟩
      intro e he
      simp [e.ne_finalized he]
    · cases h
      exact ⟨[], by simp, .of_sameData hrecord (sameData_raiseFinalizedSlot _ s) (by simp)⟩
  | finalizeFast s b =>
    simp only [addBlockToTracker_eq] at h
    obtain ⟨r, hr, h⟩ := bind_eq_some_iff.mp h
    obtain ⟨⟨t, emitted⟩, hperform, rfl⟩ := map_eq_some_iff.mp hr
    cases h
    refine ⟨[.finalized (s, b) true] ++ emitted, by simp, .of_sameData hperform
      ((sameData_raiseFinalizedSlot _ s).trans (sameData_raiseFinalizedFast _ s)) ?_⟩
    intro e he
    simp [e.ne_finalized he]
  | genesis s b =>
    obtain ⟨q, hq, h⟩ := bind_eq_some_iff.mp h
    rw [addBlockToTracker_eq] at h
    obtain ⟨⟨t, emitted⟩, hperform, rfl⟩ := map_eq_some_iff.mp h
    have hsame := sameData_setGenesisCertificate hq
    rw [hsame.tracker] at hperform
    exact ⟨emitted, rfl, .of_sameData hperform
      ⟨hsame.votePools, hsame.counters, hsame.completed, rfl⟩ (by simp)⟩

/-- The types of the certificates that the pool holds. -/
def Holds (p : ConsensusPool Sig) (certType : CertificateType) : Prop :=
  certType ∈ p.completedCertificates.map fst

instance (p : ConsensusPool Sig) (certType : CertificateType) : Decidable (p.Holds certType) :=
  inferInstanceAs (Decidable (certType ∈ p.completedCertificates.map fst))

theorem Inserts.holds_iff {p p' : ConsensusPool Sig} (h : p.Inserts certType cert p' new)
    (certType' : CertificateType) :
    p'.Holds certType' ↔ p.Holds certType' ∨ certType' = certType := by
  unfold Holds
  rw [h.completed, List.mem_map, List.mem_map]
  have hstore : ∀ entry, entry ∈ (p.storeCertificate certType cert).completedCertificates ↔
      entry ∈ p.completedCertificates ∧ entry.1 ≠ certType ∨ entry = (certType, cert) := by
    simp [storeCertificate]
  simp only [hstore]
  constructor
  · rintro ⟨entry, ⟨hmem, -⟩ | rfl, rfl⟩
    · exact .inl ⟨entry, hmem, rfl⟩
    · exact .inr rfl
  · rintro (⟨entry, hmem, rfl⟩ | rfl)
    · by_cases heq : entry.1 = certType
      · exact ⟨(certType, cert), .inr rfl, heq.symm⟩
      · exact ⟨entry, .inl ⟨hmem, heq⟩, rfl⟩
    · exact ⟨(certType', cert), .inr rfl, rfl⟩

/-- Store one certificate after the other. -/
def insertCertificates : List (Certificate Sig) → ConsensusPool Sig → List VotorEvent →
    Option (ConsensusPool Sig × List VotorEvent)
  | [], p, events => some (p, events)
  | cert :: certs, p, events =>
    (p.insertCertificate cert.certType cert events).bind fun r => insertCertificates certs r.1 r.2

/-! ## Building certificates -/

/-- The vote pools are those of a well-formed ledger. -/
structure Represents (cl : Cluster) (p : ConsensusPool Sig) (led : Ledger Sig) : Prop where
  pools : p.votePools = pools cl led
  wellFormed : led.WellFormed cl

end ConsensusPool

/-- The votes of a ledger suffice for a certificate. -/
def Ledger.Completes (cl : Cluster) (led : Ledger Sig) (certType : CertificateType) : Prop :=
  certType.limitsAndVoteTypes.1.numerator * (cl.stakesAt certType.slot).totalStake ≤
    stake cl certType.slot (led.counted certType) *
      certType.limitsAndVoteTypes.1.denominator

instance (cl : Cluster) (led : Ledger Sig) (certType : CertificateType) :
    Decidable (led.Completes cl certType) :=
  inferInstanceAs (Decidable (_ ≤ _))

namespace ConsensusPool
variable {cl : Cluster} {p : ConsensusPool Sig} {led : Ledger Sig}

theorem isComplete_eq (hp : p.Represents cl led) (certType : CertificateType)
    (hpos : 0 < (cl.stakesAt certType.slot).totalStake) :
    p.isComplete certType.slot (certType.toBlock.map snd)
        (cl.stakesAt certType.slot).totalStake certType =
      some (decide (led.Completes cl certType)) := by
  unfold isComplete
  rw [accumulatedStake_eq hp.pools hp.wellFormed certType, bind_eq_bind, bind_some,
    dif_pos hpos, ← decide_not]
  exact congrArg some (decide_eq_decide.mpr Nat.not_lt)

end ConsensusPool

/-- The certificate of the votes that count for it. -/
def Ledger.certificate [AddCommMonoid Sig] (store : SignerStore) (led : Ledger Sig)
    (certType : CertificateType) : Certificate Sig where
  certType := certType
  signature := ((led.counted certType).map VoteMessage.signature).sum
  bitmap := ((store.encode (certType.firstRanks (led.counted certType))
    (certType.secondRanks (led.counted certType))).toOption).getD []

namespace ConsensusPool
variable {cl : Cluster} {p : ConsensusPool Sig} {led : Ledger Sig}

theorem Inserts.represents {p' : ConsensusPool Sig} {certType : CertificateType}
    {cert : Certificate Sig} (h : p.Inserts certType cert p' new) (hp : p.Represents cl led)
    : p'.Represents cl led :=
  ⟨h.votePools.trans hp.pools, hp.wellFormed⟩

variable [AddCommMonoid Sig]

/-- **Building a certificate of any type succeeds**, and gives the one of the counted votes. -/
theorem buildCertificate_eq (hp : p.Represents cl led) (store : SignerStore)
    (certType : CertificateType) :
    p.buildCertificate store certType.slot (certType.toBlock.map snd) certType =
        some (.ok (led.certificate store certType)) ∧
      (led.certificate store certType).Aggregates store (led.counted certType) := by
  have hperm := led.flatMap_countedOfType_perm certType
  have hty : ∀ ty, ∀ m ∈ led.countedOfType certType ty, m.vote.getType = ty := by
    intro ty m hm
    unfold countedOfType at hm
    rw [mem_filter, decide_eq_true_iff] at hm
    exact hm.2
  have hlt : ∀ ty, ∀ m ∈ led.countedOfType certType ty, m.rank < maximumValidators := by
    intro ty m hm
    have hled : m ∈ led := mem_of_mem_filter (mem_of_mem_filter hm)
    have hrank := hp.wellFormed.rank_lt m hled
    have hlen := (cl.stakesAt m.vote.slot).length_le
    unfold maxAlpenglowVoteAccounts at hlen
    unfold maximumValidators
    omega
  obtain ⟨builder, cert, hslices, hbuild, htype, hagg⟩ :=
    BuilderType.builds_of_nodup store certType hty hlt
      ((hperm.map _).nodup_iff.mpr (hp.wellFormed.counted_nodup certType))
  have hagg : cert.Aggregates store (led.counted certType) := by
    refine ⟨hagg.signature.trans (hperm.map _).sum_eq, ?_⟩
    rw [← hagg.bitmap]
    exact store.encode_perm ((hperm.symm.filter _).map _) ((hperm.symm.filter _).map _)
  have hcert : cert = led.certificate store certType := by
    obtain ⟨hsig, hbitmap⟩ := hagg
    obtain ⟨ct, signature, bitmap⟩ := cert
    dsimp only at htype hsig hbitmap
    subst htype hsig
    unfold certificate
    rw [hbitmap]
    rfl
  refine ⟨?_, hcert ▸ hagg⟩
  unfold buildCertificate
  rw [certificateVotes_eq hp.pools certType]
  unfold BuilderType.slices at hslices
  rw [hslices, ← hcert]
  exact congrArg some hbuild

/-- **The loop over certificate types stores, in this order, those that are complete and not held
yet.** -/
theorem updateCertificates_eq (store : SignerStore) {slot : ℕ} {blockId : Option Hash}
    (hpos : 0 < (cl.stakesAt slot).totalStake) {certTypes : List CertificateType}
    (hslot : ∀ ct ∈ certTypes, ct.slot = slot)
    (hblock : ∀ ct ∈ certTypes, ct.toBlock.map snd = blockId) (hnodup : certTypes.Nodup)
    (hp : p.Represents cl led) (events : List VotorEvent)
    (newCertificates : List (Certificate Sig)) :
    updateCertificates store slot blockId (cl.stakesAt slot).totalStake certTypes p events
        newCertificates =
      (insertCertificates ((certTypes.filter fun ct =>
          decide (¬p.Holds ct ∧ led.Completes cl ct)).map (led.certificate store)) p events).map
        fun r => (.ok (newCertificates ++ (certTypes.filter fun ct =>
          decide (¬p.Holds ct ∧ led.Completes cl ct)).map (led.certificate store)), r.1, r.2) := by
  induction certTypes generalizing p events newCertificates with
  | nil => simp [updateCertificates, insertCertificates]
  | cons ct rest ih =>
    obtain ⟨hct, hnodup⟩ := nodup_cons.mp hnodup
    have ih' := fun {q : ConsensusPool Sig} => @ih q
      (fun ct' h => hslot ct' (mem_cons_of_mem _ h))
      (fun ct' h => hblock ct' (mem_cons_of_mem _ h)) hnodup
    have hs : ct.slot = slot := hslot ct mem_cons_self
    have hb : ct.toBlock.map snd = blockId := hblock ct mem_cons_self
    unfold updateCertificates
    by_cases hholds : p.Holds ct
    · rw [if_pos (show p.containsCertificate ct = true from decide_eq_true hholds), ih' hp,
        filter_cons_of_neg (by simp [hholds])]
    have hcontains : ¬p.containsCertificate ct = true := by
      unfold containsCertificate
      rwa [decide_eq_true_iff]
    have hcomplete := isComplete_eq hp ct (hs.symm ▸ hpos)
    rw [hb, hs] at hcomplete
    rw [if_neg hcontains, hcomplete]
    by_cases hdone : led.Completes cl ct
    · have hbuild := (buildCertificate_eq hp store ct).1
      rw [hb, hs] at hbuild
      rw [decide_eq_true hdone, filter_cons_of_pos (by simp [hholds, hdone]), map_cons]
      rw [hbuild]
      unfold insertCertificates
      dsimp only
      rw [show (led.certificate store ct).certType = ct from rfl]
      cases hinsert : p.insertCertificate ct (led.certificate store ct) events with
      | none => rfl
      | some r =>
        obtain ⟨new, -, hinserts⟩ := insertCertificate_spec hinsert
        -- what is stored in this round has another type than the later ones
        have hfilter : (rest.filter fun ct' => decide (¬r.1.Holds ct' ∧ led.Completes cl ct')) =
            rest.filter fun ct' => decide (¬p.Holds ct' ∧ led.Completes cl ct') := by
          refine filter_congr fun ct' hct' => ?_
          have hne : ct' ≠ ct := fun h => hct (h ▸ hct')
          rw [decide_eq_decide, hinserts.holds_iff]
          simp [hne]
        dsimp only
        rw [ih' (hinserts.represents hp), hfilter, bind_some]
        simp
    · rw [decide_eq_false hdone, filter_cons_of_neg (by simp [hdone])]
      exact ih' hp events newCertificates

end ConsensusPool

/-! ## Votes -/

/-- The certificates of a vote are for its slot and its block, and of different types. -/
theorem voteToCertTypes_spec (v : Vote) :
    (∀ ct ∈ voteToCertTypes v, ct.slot = v.slot) ∧
      (∀ ct ∈ voteToCertTypes v, ct.toBlock.map snd = v.blockId) ∧
      (voteToCertTypes v).Nodup := by
  cases v <;> simp [voteToCertTypes, CertificateType.slot, CertificateType.toBlock, Vote.slot,
    Vote.blockId]

/-- The vote is signed by a rank that the context knows. -/
def PoolContext.Knows (ctx : PoolContext) (m : VoteMessage Sig) : Prop :=
  ∃ es, ctx.epochStakesMap (ctx.getEpoch m.vote.slot) = some es ∧ m.rank < es.entries.length

section Context
variable {cl : Cluster} {ctx : PoolContext} {m : VoteMessage Sig}

theorem PoolContext.Agrees.rank_lt (hctx : ctx.Agrees cl) (h : ctx.Knows m) :
    m.rank < (cl.stakesAt m.vote.slot).entries.length := by
  obtain ⟨es, hes, hlt⟩ := h
  rwa [hctx.stakes _ es hes, hctx.getEpoch] at hlt

theorem EpochStakes.entry_of_lt (es : EpochStakes) {rank : ℕ} (h : rank < es.entries.length) :
    es.entry rank = some (es.keyOf rank, es.stakeOf rank) := by
  unfold keyOf stakeOf entry
  rw [getElem?_eq_getElem h]
  rfl

theorem getKeyAndStakes_of_knows (hctx : ctx.Agrees cl) (h : ctx.Knows m) :
    getKeyAndStakes ctx m.vote.slot m.rank =
      some (.ok ((cl.stakesAt m.vote.slot).keyOf m.rank, (cl.stakesAt m.vote.slot).stakeOf m.rank,
        (cl.stakesAt m.vote.slot).totalStake)) := by
  have hlt := hctx.rank_lt h
  obtain ⟨es, hes, -⟩ := h
  have hstakes : es = cl.stakesAt m.vote.slot := by
    rw [hctx.stakes _ es hes, hctx.getEpoch]
    rfl
  unfold getKeyAndStakes
  dsimp only
  rw [hes, hstakes]
  dsimp only
  rw [(cl.stakesAt m.vote.slot).entry_of_lt hlt]
  exact if_neg ((cl.stakesAt m.vote.slot).stakeOf_pos hlt).ne'

theorem getKeyAndStakes_of_not_knows (h : ¬ctx.Knows m) :
    ∃ e, getKeyAndStakes ctx m.vote.slot m.rank = some (.error e) := by
  unfold getKeyAndStakes
  dsimp only
  cases hes : ctx.epochStakesMap (ctx.getEpoch m.vote.slot) with
  | none => exact ⟨_, rfl⟩
  | some es =>
    have hnone : es.entry m.rank = none := by
      refine getElem?_eq_none_iff.mpr ?_
      by_contra hlt
      exact h ⟨es, hes, not_le.mp hlt⟩
    dsimp only
    rw [hnone]
    exact ⟨_, rfl⟩

/-- A rank has stake, so there is some. -/
theorem PoolContext.Agrees.totalStake_pos (hctx : ctx.Agrees cl) (h : ctx.Knows m) :
    0 < (cl.stakesAt m.vote.slot).totalStake := by
  have hpos := (cl.stakesAt m.vote.slot).stakeOf_pos (hctx.rank_lt h)
  have hle := (cl.stakesAt m.vote.slot).sum_stakeOf_le {m.rank}
  rw [Finset.sum_singleton] at hle
  omega

end Context

/-- The pool takes the vote into its ledger. -/
structure Ledger.Admits (ctx : PoolContext) (rootSlot : ℕ) (led : Ledger Sig)
    (m : VoteMessage Sig) : Prop where
  known : ctx.Knows m
  above : rootSlot ≤ m.vote.slot
  accepts : led.Accepts m

namespace ConsensusPool
variable {cl : Cluster} {p : ConsensusPool Sig} {led : Ledger Sig} {ctx : PoolContext}
  {m : VoteMessage Sig} {rootSlot : ℕ}

/-- The pool with the vote stored and counted. -/
def acceptVote (cl : Cluster) (ctx : PoolContext) (led : Ledger Sig) (p : ConsensusPool Sig)
    (m : VoteMessage Sig) (events : List VotorEvent) : ConsensusPool Sig × List VotorEvent :=
  countVote ctx { p with votePools := pools cl (led ++ [m]) } m.vote
    (stake cl m.vote.slot ((led ++ [m]).entry m.vote))
    ((cl.stakesAt m.vote.slot).keyOf m.rank) (cl.stakesAt m.vote.slot).totalStake events

theorem represents_acceptVote (hwf : led.WellFormed cl)
    (hrank : m.rank < (cl.stakesAt m.vote.slot).entries.length) (hm : led.Accepts m)
    (events : List VotorEvent) :
    (acceptVote cl ctx led p m events).1.Represents cl (led ++ [m]) :=
  ⟨rfl, hwf.append hrank hm⟩

/-- The types of the certificates that a vote of the ledger completes. -/
def completedBy (cl : Cluster) (p : ConsensusPool Sig) (led : Ledger Sig) (v : Vote) :
    List CertificateType :=
  (voteToCertTypes v).filter fun ct => decide (¬p.Holds ct ∧ led.Completes cl ct)

theorem mem_completedBy {v : Vote} {ct : CertificateType} : ct ∈ completedBy cl p led v ↔
    ct ∈ voteToCertTypes v ∧ ¬p.Holds ct ∧ led.Completes cl ct := by
  rw [completedBy, mem_filter, decide_eq_true_iff]

variable [AddCommMonoid Sig]

variable (hctx : ctx.Agrees cl) (hp : p.Represents cl led)
include hctx hp in
/-- **An admitted vote is stored and counted, and the certificates it completes are stored.** -/
theorem addVote_of_admits (hm : led.Admits ctx rootSlot m) (events : List VotorEvent) :
    p.addVote ctx rootSlot m events =
      (insertCertificates ((completedBy cl p (led ++ [m]) m.vote).map
          ((led ++ [m]).certificate ctx.store)) (acceptVote cl ctx led p m events).1
          (acceptVote cl ctx led p m events).2).map fun r =>
        (.ok ((completedBy cl p (led ++ [m]) m.vote).map ((led ++ [m]).certificate ctx.store)),
          r.1, r.2) := by
  have hrank := hctx.rank_lt hm.known
  have hconf := (hasConflictingVote_eq_none_iff hp.pools hp.wellFormed hrank).mpr
    fun m' hm' hr hs => (hm.accepts.compatible m' hm' hr hs).not_conflicts
  obtain ⟨hslot, hblock, hnodup⟩ := voteToCertTypes_spec m.vote
  unfold addVote
  rw [getKeyAndStakes_of_knows hctx hm.known]
  dsimp only
  rw [if_neg (not_lt.mpr hm.above), hconf,
    updateVotePool_of_accepts hp.pools hp.wellFormed hrank hm.accepts]
  exact updateCertificates_eq ctx.store (hctx.totalStake_pos hm.known) hslot hblock hnodup
    (represents_acceptVote hp.wellFormed hrank hm.accepts events) _ []

include hctx hp in
/-- **A vote that is not admitted changes nothing.** -/
theorem addVote_of_not_admits (hm : ¬led.Admits ctx rootSlot m) (events : List VotorEvent) :
    ∃ answer, p.addVote ctx rootSlot m events = some (answer, p, events) ∧
      ∀ certs, answer = .ok certs → certs = [] := by
  unfold addVote
  by_cases hknown : ctx.Knows m
  · have hrank := hctx.rank_lt hknown
    rw [getKeyAndStakes_of_knows hctx hknown]
    dsimp only
    by_cases habove : m.vote.slot < rootSlot
    · rw [if_pos habove]
      exact ⟨_, rfl, fun certs h => absurd h (by simp)⟩
    rw [if_neg habove]
    cases hconf : p.hasConflictingVote m.vote.slot m.vote.getType
        ((cl.stakesAt m.vote.slot).keyOf m.rank) m.vote.blockId with
    | some ty => exact ⟨_, rfl, fun certs h => absurd h (by simp)⟩
    | none =>
      rw [hasConflictingVote_eq_none_iff hp.pools hp.wellFormed hrank] at hconf
      have haccepts : ¬led.Accepts m := fun h => hm ⟨hknown, not_lt.mp habove, h⟩
      rw [updateVotePool_of_not_accepts hp.pools hp.wellFormed hrank hconf haccepts]
      exact ⟨_, rfl, fun certs h => (Except.ok.inj h).symm⟩
  · obtain ⟨e, he⟩ := getKeyAndStakes_of_not_knows hknown
    rw [he]
    exact ⟨_, rfl, fun certs h => absurd h (by simp)⟩

variable {events : List VotorEvent}

omit [AddCommMonoid Sig] in
theorem insertCertificates_represents {certs : List (Certificate Sig)}
    {result : ConsensusPool Sig × List VotorEvent} (hp : p.Represents cl led)
    (h : insertCertificates certs p events = some result) : result.1.Represents cl led := by
  induction certs generalizing p events with
  | nil =>
    cases h
    exact hp
  | cons cert certs ih =>
    obtain ⟨r, hr, h⟩ := bind_eq_some_iff.mp h
    obtain ⟨new, -, hinserts⟩ := insertCertificate_spec hr
    exact ih (hinserts.represents hp) h

include hctx hp in
/-- **One vote, as a step of the ledger.** -/
theorem addVote_represents {result : PoolResult Sig (List (Certificate Sig))}
    (h : p.addVote ctx rootSlot m events = some result) :
    (¬led.Admits ctx rootSlot m ∧ result.2 = (p, events) ∧
        ∀ certs, result.1 = .ok certs → certs = []) ∨
      led.Admits ctx rootSlot m ∧ result.2.1.Represents cl (led ++ [m]) ∧
        result.1 = .ok ((completedBy cl p (led ++ [m]) m.vote).map
          ((led ++ [m]).certificate ctx.store)) := by
  by_cases hm : led.Admits ctx rootSlot m
  · right
    rw [addVote_of_admits hctx hp hm] at h
    obtain ⟨r, hr, rfl⟩ := map_eq_some_iff.mp h
    exact ⟨hm, insertCertificates_represents
      (represents_acceptVote hp.wellFormed (hctx.rank_lt hm.known) hm.accepts events) hr, rfl⟩
  · left
    obtain ⟨answer, heq, hanswer⟩ := addVote_of_not_admits hctx hp hm events
    rw [heq, some_inj] at h
    subst h
    exact ⟨hm, rfl, hanswer⟩

/-! ## The other calls -/

omit [AddCommMonoid Sig] in
theorem addCertificate_represents (hp : p.Represents cl led) {cert : Certificate Sig}
    {result : PoolResult Sig (List (Certificate Sig))}
    (h : p.addCertificate rootSlot cert events = some result) :
    result.2.1.Represents cl led := by
  unfold addCertificate at h
  split_ifs at h
  · cases h
    exact hp
  · cases h
    exact hp
  · obtain ⟨r, hr, rfl⟩ := map_eq_some_iff.mp h
    obtain ⟨new, -, hinserts⟩ := insertCertificate_spec hr
    exact hinserts.represents hp

end ConsensusPool

/-- The votes that survive a prune. -/
def Ledger.prune (led : Ledger Sig) (rootSlot : ℕ) : Ledger Sig :=
  led.filter fun m => decide (rootSlot ≤ m.vote.slot)

theorem Ledger.pools_prune (cl : Cluster) (led : Ledger Sig) (rootSlot : ℕ) :
    pools cl (led.prune rootSlot) =
      fun id => if rootSlot ≤ id.1 then pools cl led id else none := by
  funext ⟨slot, ty⟩
  unfold pools
  have hfilter : (led.prune rootSlot).ofType slot ty =
      if rootSlot ≤ slot then led.ofType slot ty else [] := by
    unfold prune ofType
    rw [List.filter_filter]
    split_ifs with h
    · refine filter_congr fun m _ => ?_
      rw [← Bool.decide_and, decide_eq_decide]
      constructor
      · exact fun hm => hm.1
      · exact fun hm => ⟨hm, hm.1 ▸ h⟩
    · refine filter_eq_nil_iff.mpr fun m _ hm => ?_
      rw [← Bool.decide_and, decide_eq_true_iff] at hm
      exact h (hm.1.1 ▸ hm.2)
  rw [hfilter]
  by_cases h : rootSlot ≤ slot
  · rw [if_pos h, if_pos h]
  · rw [if_neg h, if_neg h]
    rfl

theorem ConsensusPool.represents_pruneOldState {cl : Cluster} {p : ConsensusPool Sig}
    {led : Ledger Sig} (hp : p.Represents cl led) (rootSlot : ℕ) :
    (p.pruneOldState rootSlot).Represents cl (led.prune rootSlot) := by
  refine ⟨?_, hp.wellFormed.filter _⟩
  rw [pools_prune, ← hp.pools]
  rfl

theorem ConsensusPool.represents_nil {cl : Cluster} {p : ConsensusPool Sig}
    (h : p.votePools = fun _ => none) : p.Represents cl ([] : Ledger Sig) :=
  ⟨h, nofun, List.Pairwise.nil, fun _ _ => Nat.zero_le _⟩

end FlowraValidator.Votor
