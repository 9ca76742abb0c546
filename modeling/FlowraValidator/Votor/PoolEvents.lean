import FlowraValidator.Votor.FixedRoot
import FlowraValidator.Votor.SafeEvents

/-!
# The events of a vote

One vote makes the pool emit two kinds of events: those of the stake counters, for what the vote
makes safe, and those of the certificates that the vote completes. The events of the counters have
been sent exactly for what is safe in the ledger, whatever the votes so far were.

* `ConsensusPool.Reported`: what is safe has been reported.
* `ConsensusPool.acceptVote_reported`: one more vote.
* `ConsensusPool.insertCertificates_spec`: the certificates that a vote completes.
* `ConsensusPool.VoteSpec`: the whole call.
-/

namespace FlowraValidator.Votor
open List ParentReadyTracker

variable {Sig : Type}

/-- An event of the stake counters. -/
def VotorEvent.isSafe : VotorEvent → Bool
  | .safeToNotar _ => true
  | .safeToSkip _ => true
  | _ => false

namespace ConsensusPool
open Ledger

/-! ## The counters -/

/-- What is safe in the ledger has been reported, and nothing else. -/
structure Reported (round : ℚ → ℚ) (cl : Cluster) (me : Pubkey) (p : ConsensusPool Sig)
    (led : Ledger Sig) : Prop where
  notar_iff : ∀ s b, b ∈ (p.countersAt cl s).safeToNotarSent ↔ SafeToNotar round cl me led s b
  skip_iff : ∀ s, (p.countersAt cl s).safeToSkipSent = true ↔ SafeToSkip round cl me led s

/-- The events for what a vote makes safe. -/
def NewlySafe (round : ℚ → ℚ) (cl : Cluster) (me : Pubkey) (led led' : Ledger Sig)
    (e : VotorEvent) : Prop :=
  (∃ s b, e = .safeToNotar (s, b) ∧ SafeToNotar round cl me led' s b ∧
      ¬SafeToNotar round cl me led s b) ∨
    ∃ s, e = .safeToSkip s ∧ SafeToSkip round cl me led' s ∧ ¬SafeToSkip round cl me led s

variable {cl : Cluster} {me : Pubkey} {p : ConsensusPool Sig} {led : Ledger Sig}
  {ctx : PoolContext} {m : VoteMessage Sig} {rootSlot : ℕ}

theorem reported_nil (round : ℚ → ℚ) (h : p.slotStakeCountersMap = fun _ => none) :
    p.Reported round cl me ([] : Ledger Sig) := by
  have hnone : ∀ s, firstVote cl me ([] : Ledger Sig) s = none := fun _ => rfl
  constructor
  · intro s b
    unfold countersAt
    rw [h]
    constructor
    · intro hb
      cases hb
    · rintro ⟨⟨v, hv, -⟩, -, -⟩
      cases (hnone s).symm.trans hv
  · intro s
    unfold countersAt
    rw [h]
    constructor
    · intro hs
      exact absurd hs Bool.false_ne_true
    · rintro ⟨⟨b, hb⟩, -⟩
      cases (hnone s).symm.trans hb

/-- What is looked at in the longer ledger, together with what was safe before, is what is safe:
votes that the counters do not look at change nothing. -/
theorem looked_iff {before after : Prop} (hmono : before → after)
    (hother : m.vote.isFirst = false → (after ↔ before)) :
    before ∨ m.vote.isFirst = true ∧ after ↔ after := by
  cases hfirst : m.vote.isFirst with
  | true => simpa using hmono
  | false => simpa using (hother hfirst).symm

/-- **Counting a vote reports what it makes safe.** -/
theorem acceptVote_reported (hround : Rounding ctx.round) (hp : p.Counts cl ctx.myVotePubkey led)
    (hr : p.Reported ctx.round cl ctx.myVotePubkey led) (hwf : Ledger.WellFormed cl (led ++ [m]))
    (events : List VotorEvent) :
    ∃ new, (acceptVote cl ctx led p m events).2 = events ++ new ∧
      (acceptVote cl ctx led p m events).1.Counts cl ctx.myVotePubkey (led ++ [m]) ∧
      (acceptVote cl ctx led p m events).1.Reported ctx.round cl ctx.myVotePubkey (led ++ [m]) ∧
      ∀ e, e ∈ new ↔ NewlySafe ctx.round cl ctx.myVotePubkey led (led ++ [m]) e := by
  obtain ⟨new, hnew, hcounts, hreports, hother⟩ := acceptVote_spec hp hwf events
  have hreported : (acceptVote cl ctx led p m events).1.Reported ctx.round cl ctx.myVotePubkey
      (led ++ [m]) := by
    constructor
    · intro s b
      by_cases hs : s = m.vote.slot
      · refine Iff.trans ?_ (looked_iff
          (fun h : SafeToNotar ctx.round cl ctx.myVotePubkey led s b => h.mono hround)
          fun hfirst => safeToNotar_append_of_other fun _ => hfirst)
        rw [← hr.notar_iff, hs]
        exact hreports.notar_iff b
      · rw [hother s hs, hr.notar_iff]
        exact (safeToNotar_append_of_other fun h => absurd h.symm hs).symm
    · intro s
      by_cases hs : s = m.vote.slot
      · refine Iff.trans ?_ (looked_iff
          (fun h : SafeToSkip ctx.round cl ctx.myVotePubkey led s => h.mono hround)
          fun hfirst => safeToSkip_append_of_other fun _ => hfirst)
        rw [← hr.skip_iff, hs]
        exact hreports.skip_iff
      · rw [hother s hs, hr.skip_iff]
        exact (safeToSkip_append_of_other fun h => absurd h.symm hs).symm
  refine ⟨new, hnew, hcounts, hreported, fun e => ?_⟩
  rw [hreports.mem_new]
  simp only [hreported.notar_iff, hreported.skip_iff, hr.notar_iff]
  have hflag : (p.countersAt cl m.vote.slot).safeToSkipSent = false ↔
      ¬SafeToSkip ctx.round cl ctx.myVotePubkey led m.vote.slot := by
    rw [← hr.skip_iff, Bool.not_eq_true]
  rw [hflag]
  constructor
  · rintro (⟨b, he, hyes, hno⟩ | ⟨he, hyes, hno⟩)
    · exact .inl ⟨_, b, he, hyes, hno⟩
    · exact .inr ⟨_, he, hyes, hno⟩
  · rintro (⟨s, b, he, hyes, hno⟩ | ⟨s, he, hyes, hno⟩)
    · by_cases hs : s = m.vote.slot
      · subst hs
        exact .inl ⟨b, he, hyes, hno⟩
      · exact absurd ((safeToNotar_append_of_other fun h => absurd h.symm hs).mp hyes) hno
    · by_cases hs : s = m.vote.slot
      · subst hs
        exact .inr ⟨he, hyes, hno⟩
      · exact absurd ((safeToSkip_append_of_other fun h => absurd h.symm hs).mp hyes) hno

/-! ## The certificates -/

variable {ct : CertificateType} {events : List VotorEvent} {e : VotorEvent}

theorem isCertificate_of_trackerCall {c : ParentReadyTracker.Call} (h : ct.trackerCall = some c) :
    c.IsCertificate := by
  cases ct <;> cases h <;> trivial

/-- The parent-ready tracker emits one kind of events. -/
theorem mem_record {t t' : ParentReadyTracker} {emitted : List VotorEvent}
    (h : t.record ct = some (t', emitted)) (he : e ∈ emitted) :
    ∃ s b, e = .parentReady s b := by
  unfold record at h
  cases hcall : ct.trackerCall with
  | none =>
    rw [hcall] at h
    cases h
    cases he
  | some c =>
    rw [hcall] at h
    have hc := isCertificate_of_trackerCall hcall
    have hspec : ∃ new, ParentReadyTracker.CallSpec t [] new (t', emitted) := by
      cases c with
      | addNewNotarFallbackOrStronger block => exact ⟨_, (addNewNotarFallbackOrStronger_spec h).1⟩
      | addNewSkip slot => exact ⟨_, (addNewSkip_spec h).1⟩
      | setRoot root => exact absurd hc not_false
    obtain ⟨new, hspec⟩ := hspec
    obtain ⟨out, heq, hem⟩ := hspec.exists_emits
    rw [nil_append] at heq
    obtain ⟨s, b, rfl, -⟩ := (hem.mem_iff e).mp (heq ▸ he)
    exact ⟨s, b, rfl⟩

/-- What storing some certificates changes, the parent-ready tracker apart. -/
structure StoreSpec (p : ConsensusPool Sig) (certTypes : List CertificateType)
    (p' : ConsensusPool Sig) (new : List VotorEvent) : Prop where
  votePools : p'.votePools = p.votePools
  counters : p'.slotStakeCountersMap = p.slotStakeCountersMap
  holds_iff : ∀ ct, p'.Holds ct ↔ p.Holds ct ∨ ct ∈ certTypes
  not_safe : ∀ e ∈ new, e.isSafe = false
  blockNotarized_iff : ∀ s b, .blockNotarized (s, b) ∈ new ↔ .notarize s b ∈ certTypes

variable {result : ConsensusPool Sig × List VotorEvent} {p' : ConsensusPool Sig} {round : ℚ → ℚ}

theorem insertCertificate_storeSpec {cert : Certificate Sig}
    (h : p.insertCertificate ct cert events = some result) :
    ∃ new, result.2 = events ++ new ∧ p.StoreSpec [ct] result.1 new := by
  obtain ⟨new, heq, hinserts⟩ := insertCertificate_spec h
  obtain ⟨emitted, hrecord, hmem⟩ := hinserts.exists_events
  refine ⟨new, heq, hinserts.votePools, hinserts.counters, fun ct' => ?_, fun e he => ?_,
    fun s b => ?_⟩
  · rw [hinserts.holds_iff, mem_singleton]
  · by_cases hfin : e.isFinalized = false
    · rcases (hmem e hfin).mp he with hem | ⟨s, b, -, rfl⟩
      · obtain ⟨s, b, rfl⟩ := mem_record hrecord hem
        rfl
      · rfl
    · cases e <;> first | rfl | exact absurd rfl hfin
  · rw [hmem _ rfl, mem_singleton]
    constructor
    · rintro (hem | ⟨s', b', hct, heq⟩)
      · obtain ⟨s', b', heq⟩ := mem_record hrecord hem
        cases heq
      · cases heq
        exact hct.symm
    · rintro rfl
      exact .inr ⟨s, b, rfl, rfl⟩

theorem insertCertificates_spec {certs : List (Certificate Sig)}
    (h : insertCertificates certs p events = some result) :
    ∃ new, result.2 = events ++ new ∧
      p.StoreSpec (certs.map Certificate.certType) result.1 new := by
  induction certs generalizing p events with
  | nil =>
    cases h
    exact ⟨[], by simp, rfl, rfl, by simp, by simp, by simp⟩
  | cons cert certs ih =>
    obtain ⟨r, hr, h⟩ := Option.bind_eq_some_iff.mp h
    obtain ⟨new1, heq1, h1⟩ := insertCertificate_storeSpec hr
    obtain ⟨new2, heq2, h2⟩ := ih h
    refine ⟨new1 ++ new2, by rw [heq2, heq1, List.append_assoc],
      h2.votePools.trans h1.votePools, h2.counters.trans h1.counters, fun ct => ?_, fun e he => ?_,
      fun s b => ?_⟩
    · rw [h2.holds_iff, h1.holds_iff, map_cons, mem_singleton, mem_cons, or_assoc]
    · rcases mem_append.mp he with he | he
      · exact h1.not_safe e he
      · exact h2.not_safe e he
    · rw [mem_append, h1.blockNotarized_iff, h2.blockNotarized_iff, map_cons,
        mem_singleton, mem_cons]

/-! ## The call -/

/-- What an admitted vote changes. -/
structure VoteSpec (cl : Cluster) (ctx : PoolContext) (led : Ledger Sig) (p : ConsensusPool Sig)
    (m : VoteMessage Sig) (p' : ConsensusPool Sig) (new : List VotorEvent) : Prop where
  represents : p'.Represents cl (led ++ [m])
  counts : p'.Counts cl ctx.myVotePubkey (led ++ [m])
  reported : p'.Reported ctx.round cl ctx.myVotePubkey (led ++ [m])
  holds_iff : ∀ ct, p'.Holds ct ↔
    p.Holds ct ∨ ct ∈ voteToCertTypes m.vote ∧ (led ++ [m]).Completes cl ct
  safe_iff : ∀ e, e.isSafe = true →
    (e ∈ new ↔ NewlySafe ctx.round cl ctx.myVotePubkey led (led ++ [m]) e)
  blockNotarized_iff : ∀ s b, .blockNotarized (s, b) ∈ new ↔
    p'.Holds (.notarize s b) ∧ ¬p.Holds (.notarize s b)

theorem Reported.of_counters_eq (h : p.Reported round cl me led)
    (heq : p'.slotStakeCountersMap = p.slotStakeCountersMap) :
    p'.Reported round cl me led := by
  have hat : ∀ s, p'.countersAt cl s = p.countersAt cl s := by
    intro s
    unfold countersAt
    rw [heq]
  exact ⟨fun s b => by rw [hat, h.notar_iff], fun s => by rw [hat, h.skip_iff]⟩

theorem Counts.of_counters_eq (h : p.Counts cl me led)
    (heq : p'.slotStakeCountersMap = p.slotStakeCountersMap) : p'.Counts cl me led := by
  intro s
  have hat : p'.countersAt cl s = p.countersAt cl s := by
    unfold countersAt
    rw [heq]
  rw [hat]
  exact h s

theorem NewlySafe.isSafe {led' : Ledger Sig} (h : NewlySafe round cl me led led' e)
    : e.isSafe = true := by
  rcases h with ⟨s, b, rfl, -⟩ | ⟨s, rfl, -⟩ <;> rfl

/-- **The certificates of an admitted vote, after it is stored and counted.** -/
theorem voteSpec_of_insertCertificates [AddCommMonoid Sig] (hctx : ctx.Agrees cl)
    (hround : Rounding ctx.round) (hp : p.Represents cl led) (hc : p.Counts cl ctx.myVotePubkey led)
    (hr : p.Reported ctx.round cl ctx.myVotePubkey led) (hm : led.Admits ctx rootSlot m)
    (h : insertCertificates ((completedBy cl p (led ++ [m]) m.vote).map ((led ++ [m]).certificate
      ctx.store)) (acceptVote cl ctx led p m events).1 (acceptVote cl ctx led p m events).2 = some
      result) :
    ∃ new, result.2 = events ++ new ∧ p.VoteSpec cl ctx led m result.1 new := by
  have hwf := hp.wellFormed.append (hctx.rank_lt hm.known) hm.accepts
  obtain ⟨new1, heq1, hcounts, hreported, hmem⟩ := acceptVote_reported hround hc hr hwf events
  obtain ⟨new2, heq2, hstore⟩ := insertCertificates_spec h
  have htypes : (((completedBy cl p (led ++ [m]) m.vote).map
      ((led ++ [m]).certificate ctx.store)).map Certificate.certType) =
        completedBy cl p (led ++ [m]) m.vote := by
    rw [map_map]
    exact map_id _
  rw [htypes] at hstore
  have hsame : ∀ ct, (acceptVote cl ctx led p m events).1.Holds ct ↔ p.Holds ct := fun ct => Iff.rfl
  have hholds : ∀ ct, result.1.Holds ct ↔
      p.Holds ct ∨ ct ∈ voteToCertTypes m.vote ∧ (led ++ [m]).Completes cl ct := by
    intro ct
    rw [hstore.holds_iff, hsame, mem_completedBy]
    by_cases hheld : p.Holds ct <;> simp [hheld]
  refine ⟨new1 ++ new2, by rw [heq2, heq1, append_assoc], ⟨hstore.votePools, hwf⟩,
    hcounts.of_counters_eq hstore.counters, hreported.of_counters_eq hstore.counters, hholds,
    fun e he => ?_, fun s b => ?_⟩
  · rw [mem_append, hmem, or_iff_left]
    intro hnew
    rw [hstore.not_safe e hnew] at he
    exact Bool.false_ne_true he
  · rw [mem_append, hstore.blockNotarized_iff, hmem, mem_completedBy, hholds]
    constructor
    · rintro (hsafe | ⟨hct, hno, hdone⟩)
      · exact absurd hsafe.isSafe (by simp [VotorEvent.isSafe])
      · exact ⟨.inr ⟨hct, hdone⟩, hno⟩
    · rintro ⟨hold | ⟨hct, hdone⟩, hno⟩
      · exact absurd hold hno
      · exact .inr ⟨hct, hno, hdone⟩

end ConsensusPool
end FlowraValidator.Votor
