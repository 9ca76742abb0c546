import FlowraValidator.Votor.SafeEvents

/-!
# Sets of votes

The order of a ledger, and the signatures in it, do not matter for what its votes amount to. Two
well-formed ledgers in which the same validators cast the same votes complete the same certificates
and make the same second votes safe. Which certificates a pool holds is another matter: the pool
looks at a certificate when a vote for it arrives, and never again.

* `Ledger.SameVotes`: the same validators cast the same votes.
* `Ledger.SameVotes.completes_iff`, `safeToNotar_iff`, `safeToSkip_iff`: what follows.
* `Ledger.Reached`: a certificate was complete when a vote for it arrived.
* `Ledger.reached_of_completes`: this is so if its votes suffice now, unless votes count for it that
  are for another block.
-/

namespace FlowraValidator.Votor
open List Option

variable {Sig : Type} {v : Vote}

namespace Ledger

/-- The validator `r` voted `v`. -/
def Has (led : Ledger Sig) (v : Vote) (r : ℕ) : Prop := ∃ m ∈ led, m.vote = v ∧ m.rank = r

/-- The same validators cast the same votes. -/
def SameVotes (led led' : Ledger Sig) : Prop := ∀ v r, led.Has v r ↔ led'.Has v r

/-- The validators with a vote of some kind. -/
def voters (led : Ledger Sig) (kind : Vote → Prop) [DecidablePred kind] : Finset ℕ :=
  ranks (led.filter fun m => decide (kind m.vote))

variable {cl : Cluster} {led led' : Ledger Sig} {m : VoteMessage Sig} {r : ℕ}

theorem mem_voters {kind : Vote → Prop} [DecidablePred kind] :
    r ∈ led.voters kind ↔ ∃ v, kind v ∧ led.Has v r := by
  unfold voters ranks Has
  rw [List.mem_toFinset, List.mem_map]
  constructor
  · rintro ⟨m, hm, rfl⟩
    rw [mem_filter, decide_eq_true_iff] at hm
    exact ⟨m.vote, hm.2, m, hm.1, rfl, rfl⟩
  · rintro ⟨v, hv, m, hm, rfl, rfl⟩
    exact ⟨m, by rw [mem_filter, decide_eq_true_iff]; exact ⟨hm, hv⟩, rfl⟩

theorem has_append (v : Vote) (r : ℕ) :
    (led ++ [m]).Has v r ↔ led.Has v r ∨ m.vote = v ∧ m.rank = r := by
  unfold Has
  simp [or_and_right, exists_or]

theorem Has.of_subset (h : led.Has v r) (hsub : ∀ m ∈ led, m ∈ led') : led'.Has v r := by
  obtain ⟨m, hm, hv⟩ := h
  exact ⟨m, hsub m hm, hv⟩

theorem SameVotes.voters_eq (h : led.SameVotes led') (kind : Vote → Prop) [DecidablePred kind] :
    led.voters kind = led'.voters kind := by
  ext r
  rw [mem_voters, mem_voters]
  simp only [h _ r]

/-! ## Stakes -/

theorem WellFormed.support_eq (hwf : led.WellFormed cl) (v : Vote) :
    support cl led v = ∑ r ∈ led.voters (· = v), (cl.stakesAt v.slot).stakeOf r :=
  stake_eq_sum (hwf.votesFor_nodup v)

theorem WellFormed.notarized_eq (hwf : led.WellFormed cl) (s : ℕ) :
    notarized cl led s =
      ∑ r ∈ led.voters fun v => v.slot = s ∧ v.getType = .notarize, (cl.stakesAt s).stakeOf r :=
  stake_eq_sum (hwf.ofType_nodup s (by decide))

/-- The votes of the ledger suffice, counted by validators. -/
theorem WellFormed.completes_iff (hwf : led.WellFormed cl) (ct : CertificateType) :
    led.Completes cl ct ↔
      ct.limitsAndVoteTypes.1.numerator * (cl.stakesAt ct.slot).totalStake ≤
        (∑ r ∈ led.voters ct.Counts, (cl.stakesAt ct.slot).stakeOf r) *
          ct.limitsAndVoteTypes.1.denominator := by
  unfold Completes
  rw [stake_eq_sum (hwf.counted_nodup ct)]
  exact Iff.rfl

section Same
variable (h : led.SameVotes led') (hwf : led.WellFormed cl) (hwf' : led'.WellFormed cl)
include h hwf hwf'
theorem SameVotes.support_eq (v : Vote) : support cl led v = support cl led' v := by
  rw [hwf.support_eq, hwf'.support_eq, h.voters_eq]

theorem SameVotes.notarized_eq (s : ℕ) : notarized cl led s = notarized cl led' s := by
  rw [hwf.notarized_eq, hwf'.notarized_eq, h.voters_eq]

theorem SameVotes.topNotarized_eq (s : ℕ) : topNotarized cl led s = topNotarized cl led' s := by
  refine Ledger.topNotarized_eq (fun b => ?_) (.inr ?_)
  · rw [h.support_eq hwf hwf']
    exact support_le_top cl led' s b
  · obtain ⟨b, hb⟩ := exists_support_eq_top cl led' s
    exact ⟨b, by rw [h.support_eq hwf hwf', hb]⟩

end Same

/-! ## The first vote of this node -/

/-- Two votes of one validator for a slot. -/
theorem WellFormed.eq_or_compatible (hwf : led.WellFormed cl) {m' : VoteMessage Sig} (hm : m ∈ led)
    (hm' : m' ∈ led) (hrank : m.rank = m'.rank) (hslot : m.vote.slot = m'.vote.slot) :
    m = m' ∨ m.vote.Compatible m'.vote ∨ m'.vote.Compatible m.vote := by
  refine List.Pairwise.forall_of_forall_of_flip
    (R := fun m m' => m.rank = m'.rank → m.vote.slot = m'.vote.slot →
      m = m' ∨ m.vote.Compatible m'.vote ∨ m'.vote.Compatible m.vote)
    (fun _ _ _ _ => .inl rfl) ?_ ?_ hm hm' hrank hslot
  · exact hwf.compatible.imp fun hc hr hs => .inr (.inl (hc hr hs))
  · exact hwf.compatible.imp fun hc hr hs => .inr (.inr (hc hr.symm hs.symm))

end Ledger

theorem Vote.not_compatible_of_isFirst {v' : Vote} (hv : v.isFirst = true) (hv' : v'.isFirst = true)
    : ¬v.Compatible v' := by
  rintro ⟨-, hconf, hfall⟩
  cases v <;> cases v' <;>
    simp_all [isFirst, getType, ConflictsWith, conflictingTypes, VoteType.isByBlock, blockId]

namespace Ledger
variable {round : ℚ → ℚ} {cl : Cluster} {me : Pubkey} {led led' : Ledger Sig} {s : ℕ} {b : Hash}

/-- A validator has one first vote for a slot, so the first one found is the only one. -/
theorem WellFormed.firstVote_eq_some_iff (hwf : led.WellFormed cl) :
    firstVote cl me led s = some v ↔
      v.slot = s ∧ v.isFirst = true ∧ ∃ r, led.Has v r ∧ (cl.stakesAt s).keyOf r = me := by
  constructor
  · intro h
    obtain ⟨m, hm, ⟨hslot, hfirst, hkey⟩, rfl⟩ := mem_of_firstVote h
    exact ⟨hslot, hfirst, m.rank, ⟨m, hm, rfl, rfl⟩, hkey⟩
  · rintro ⟨hslot, hfirst, r, ⟨m, hm, rfl, rfl⟩, hkey⟩
    have hsome : firstVote cl me led s ≠ none := by
      unfold firstVote
      rw [Ne, map_eq_none_iff, find?_eq_none]
      intro hno
      exact hno m hm (by rw [decide_eq_true_iff]; exact ⟨hslot, hfirst, hkey⟩)
    obtain ⟨v', hv'⟩ := ne_none_iff_exists'.mp hsome
    obtain ⟨m', hm', ⟨hslot', hfirst', hkey'⟩, rfl⟩ := mem_of_firstVote hv'
    have hlt := hwf.rank_lt m hm
    have hlt' := hwf.rank_lt m' hm'
    rw [hslot] at hlt
    rw [hslot'] at hlt'
    have hrank := (cl.stakesAt s).rank_eq_of_keyOf hlt hlt' (hkey.trans hkey'.symm)
    rcases hwf.eq_or_compatible hm hm' hrank (hslot.trans hslot'.symm) with rfl | hc | hc
    · exact hv'
    · exact absurd hc (Vote.not_compatible_of_isFirst hfirst hfirst')
    · exact absurd hc (Vote.not_compatible_of_isFirst hfirst' hfirst)

section Same
variable (h : led.SameVotes led') (hwf : led.WellFormed cl) (hwf' : led'.WellFormed cl)
include h hwf hwf'
theorem SameVotes.firstVote_eq : firstVote cl me led s = firstVote cl me led' s := by
  refine Option.ext fun v => ?_
  rw [hwf.firstVote_eq_some_iff, hwf'.firstVote_eq_some_iff]
  simp only [h v]

/-- **The same votes make the same second votes safe.** -/
theorem SameVotes.safeToNotar_iff :
    SafeToNotar round cl me led s b ↔ SafeToNotar round cl me led' s b := by
  have hvote : (∃ m ∈ led, m.vote = .notarize s b) ↔ ∃ m ∈ led', m.vote = .notarize s b := by
    constructor
    · rintro ⟨m, hm, hv⟩
      obtain ⟨m', hm', hv', -⟩ := (h _ m.rank).mp ⟨m, hm, hv, rfl⟩
      exact ⟨m', hm', hv'⟩
    · rintro ⟨m, hm, hv⟩
      obtain ⟨m', hm', hv', -⟩ := (h _ m.rank).mpr ⟨m, hm, hv, rfl⟩
      exact ⟨m', hm', hv'⟩
  constructor
  · rintro ⟨hfirst, hexists, hreached⟩
    rw [h.firstVote_eq hwf hwf'] at hfirst
    rw [h.support_eq hwf hwf', h.support_eq hwf hwf'] at hreached
    exact ⟨hfirst, hvote.mp hexists, hreached⟩
  · rintro ⟨hfirst, hexists, hreached⟩
    rw [← h.firstVote_eq hwf hwf'] at hfirst
    rw [← h.support_eq hwf hwf', ← h.support_eq hwf hwf'] at hreached
    exact ⟨hfirst, hvote.mpr hexists, hreached⟩

theorem SameVotes.safeToSkip_iff :
    SafeToSkip round cl me led s ↔ SafeToSkip round cl me led' s := by
  constructor
  · rintro ⟨hfirst, hreached⟩
    rw [h.firstVote_eq hwf hwf'] at hfirst
    rw [h.support_eq hwf hwf', h.notarized_eq hwf hwf', h.topNotarized_eq hwf hwf'] at hreached
    exact ⟨hfirst, hreached⟩
  · rintro ⟨hfirst, hreached⟩
    rw [← h.firstVote_eq hwf hwf'] at hfirst
    rw [← h.support_eq hwf hwf', ← h.notarized_eq hwf hwf', ← h.topNotarized_eq hwf hwf']
      at hreached
    exact ⟨hfirst, hreached⟩

end Same

/-! ## Certificates that were complete when a vote for them arrived -/

/-- A vote of the ledger is for the certificate. -/
def Supports (led : Ledger Sig) (ct : CertificateType) : Prop :=
  ∃ m ∈ led, ct ∈ voteToCertTypes m.vote

/-- At some point a vote for the certificate arrived, and the votes sufficed. -/
def Reached (cl : Cluster) (led : Ledger Sig) (ct : CertificateType) : Prop :=
  ∃ l m, l ++ [m] <+: led ∧ ct ∈ voteToCertTypes m.vote ∧ Completes cl (l ++ [m]) ct

variable {m : VoteMessage Sig} {ct : CertificateType}

theorem reached_nil (ct : CertificateType) : ¬Reached cl ([] : Ledger Sig) ct := by
  rintro ⟨l, m, hprefix, -, -⟩
  exact absurd (prefix_nil.mp hprefix) (by simp)

theorem reached_append :
    Reached cl (led ++ [m]) ct ↔
      Reached cl led ct ∨ ct ∈ voteToCertTypes m.vote ∧ Completes cl (led ++ [m]) ct := by
  constructor
  · rintro ⟨l, m', hprefix, hct, hdone⟩
    rcases prefix_concat_iff.mp hprefix with heq | hprefix
    · obtain ⟨rfl, hm⟩ := append_inj' heq rfl
      cases hm
      exact .inr ⟨hct, hdone⟩
    · exact .inl ⟨l, m', hprefix, hct, hdone⟩
  · rintro (⟨l, m', hprefix, hct, hdone⟩ | ⟨hct, hdone⟩)
    · exact ⟨l, m', hprefix.trans (prefix_append _ _), hct, hdone⟩
    · exact ⟨led, m, prefix_refl _, hct, hdone⟩

theorem Reached.supports (h : Reached cl led ct) : led.Supports ct := by
  obtain ⟨l, m, hprefix, hct, -⟩ := h
  exact ⟨m, hprefix.subset (by simp), hct⟩

theorem Reached.completes (h : Reached cl led ct) : Completes cl led ct := by
  obtain ⟨l, m, hprefix, -, hdone⟩ := h
  unfold Completes at hdone ⊢
  refine hdone.trans (Nat.mul_le_mul_right _ ?_)
  exact List.Sublist.sum_le_sum (( hprefix.sublist.filter _).map _) fun _ _ => Nat.zero_le _

/-- Votes that are not for the certificate do not complete it. -/
theorem Reached.of_append {l : Ledger Sig} (h : Reached cl (led ++ l) ct)
    (hl : ∀ m ∈ l, ct ∉ voteToCertTypes m.vote) : Reached cl led ct := by
  induction l using List.reverseRecOn with
  | nil => rwa [append_nil] at h
  | append_singleton l m ih =>
    rw [← append_assoc, reached_append] at h
    rcases h with h | ⟨hct, -⟩
    · exact ih h fun m' hm' => hl m' (mem_append_left _ hm')
    · exact absurd hct (hl m (by simp))

/-- **A certificate whose votes suffice was complete when one of them arrived**, if all the votes
that count for it are for its block. -/
theorem reached_of_completes
    (hfor : ∀ m ∈ led, ct.Counts m.vote → ct ∈ voteToCertTypes m.vote)
    (hsupports : led.Supports ct) (hdone : Completes cl led ct) : Reached cl led ct := by
  induction led using List.reverseRecOn with
  | nil =>
    obtain ⟨m, hm, -⟩ := hsupports
    cases hm
  | append_singleton led m ih =>
    rw [reached_append]
    by_cases hct : ct ∈ voteToCertTypes m.vote
    · exact .inr ⟨hct, hdone⟩
    · left
      refine ih (fun m' hm' => hfor m' (mem_append_left _ hm')) ?_ ?_
      · obtain ⟨m', hm', hct'⟩ := hsupports
        rcases mem_append.mp hm' with hm' | hm'
        · exact ⟨m', hm', hct'⟩
        · rw [mem_singleton.mp hm'] at hct'
          exact absurd hct' hct
      · have hno : ¬ct.Counts m.vote := fun h => hct (hfor m (by simp) h)
        unfold Completes counted at hdone ⊢
        rwa [filter_append, filter_cons_of_neg (by simpa using hno), filter_nil,
          append_nil] at hdone

end Ledger
end FlowraValidator.Votor
