import FlowraValidator.Votor.ConsensusPool

/-!
# The ledger of accepted votes

What a consensus pool stores about votes, it could compute from the list of the votes it has
accepted. This is the abstract model of the pool: a ledger, the condition under which it accepts
one more vote, and the stakes that its votes add up to.

* `Vote.Compatible`: two votes that one validator may both have in a ledger.
* `Ledger.WellFormed`: what accepting only compatible votes leads to.
* `Ledger.counted`: the votes that the pool counts for a certificate.
* `Ledger.counted_nodup`: no validator is counted twice for a certificate.
-/

namespace FlowraValidator.Votor
open Vote List Option VoteType

/-! ## Clusters -/

/-- The stakes of every epoch, on which all nodes agree. -/
structure Cluster where
  getEpoch : ℕ → ℕ
  stakes : ℕ → EpochStakes

/-- The stakes that count for a slot. -/
def Cluster.stakesAt (cl : Cluster) (slot : ℕ) : EpochStakes := cl.stakes (cl.getEpoch slot)

/-- A root bank knows the stakes of some epochs of the cluster. -/
structure PoolContext.Agrees (ctx : PoolContext) (cl : Cluster) : Prop where
  getEpoch : ctx.getEpoch = cl.getEpoch
  stakes : ∀ epoch es, ctx.epochStakesMap epoch = some es → es = cl.stakes epoch

/-! ## Votes of one validator -/

/-- The types whose votes are kept by block id. -/
def VoteType.isByBlock : VoteType → Bool
  | .notarize => true
  | .notarizeFallback => true
  | _ => false

/-- An earlier vote `old` that makes the pool refuse the vote `new` of the same validator. -/
def Vote.ConflictsWith (new old : Vote) : Prop :=
  old.getType ∈ conflictingTypes new.getType ∧
    (old.getType.isByBlock = true → new.blockId = none ∨ old.blockId = new.blockId)

/-- `new` may be accepted after `old`: they do not conflict, and only fallback votes to notarize may
come from one validator more than once. -/
structure Vote.Compatible (old new : Vote) : Prop where
  ne : old ≠ new
  not_conflicts : ¬new.ConflictsWith old
  fallback : old.getType = new.getType → new.getType = .notarizeFallback

/-- Whether the pool counts a vote for a certificate. For a genesis certificate it does not look at
the block id of the vote. -/
def CertificateType.Counts (certType : CertificateType) (v : Vote) : Prop :=
  v.slot = certType.slot ∧ v.getType ∈ certType.limitsAndVoteTypes.2 ∧
    (v.getType.isByBlock = true → v.blockId = certType.toBlock.map Prod.snd)

instance (certType : CertificateType) (v : Vote) : Decidable (certType.Counts v) :=
  inferInstanceAs (Decidable (_ ∧ _ ∧ _))

namespace CertificateType

/-! The votes that count for each type of certificate. -/

variable {v : Vote} {b : Hash} {s : ℕ} {certType : CertificateType}

section

attribute [local simp] Counts limitsAndVoteTypes Vote.getType Vote.slot Vote.blockId slot toBlock
  isByBlock

@[simp] theorem counts_notarize : (notarize s b).Counts v ↔ v = .notarize s b := by
  cases v <;> simp

@[simp] theorem counts_finalizeFast : (finalizeFast s b).Counts v ↔ v = .notarize s b := by
  cases v <;> simp

@[simp] theorem counts_notarizeFallback :
    (notarizeFallback s b).Counts v ↔ v = .notarize s b ∨ v = .notarizeFallback s b := by
  cases v <;> simp

@[simp] theorem counts_finalize : (finalize s).Counts v ↔ v = .finalize s := by
  cases v <;> simp

@[simp] theorem counts_skip : (skip s).Counts v ↔ v = .skip s ∨ v = .skipFallback s := by
  cases v <;> simp

/-- Any genesis vote of the slot counts. -/
@[simp] theorem counts_genesis : (genesis s b).Counts v ↔ ∃ b', v = .genesis s b' := by
  cases v <;> simp [genesisVoteThreshold]

end

/-- Certificates from votes by block id have a block. -/
theorem toBlock_of_isByBlock (certType : CertificateType) {ty : VoteType}
    (hty : ty ∈ certType.limitsAndVoteTypes.2) (hby : ty.isByBlock = true) :
    ∃ b, certType.toBlock.map Prod.snd = some b := by
  cases certType <;>
    simp only [limitsAndVoteTypes, mem_cons, not_mem_nil, or_false] at hty
  case skip s => rcases hty with rfl | rfl <;> exact absurd hby (by decide)
  case finalize s => exact absurd (hty ▸ hby) (by decide)
  all_goals exact ⟨_, rfl⟩

/-- A vote counts for the certificates listed for it. -/
theorem counts_of_mem_voteToCertTypes (h : certType ∈ voteToCertTypes v) : certType.Counts v := by
  cases v <;> simp only [voteToCertTypes, mem_cons, not_mem_nil, or_false] at h
  case notarize s b => rcases h with rfl | rfl | rfl <;> simp
  all_goals
    subst h
    simp

/-- A vote that counts for a certificate, and is for its block, is one the certificate is listed
for. -/
theorem mem_voteToCertTypes_iff :
    certType ∈ voteToCertTypes v ↔
      certType.Counts v ∧ ∀ s b, certType = .genesis s b → v.blockId = some b := by
  constructor
  · intro h
    refine ⟨counts_of_mem_voteToCertTypes h, ?_⟩
    rintro s b rfl
    cases v <;> simp_all [voteToCertTypes, blockId]
  · rintro ⟨h, hgenesis⟩
    cases certType with
    | genesis s b =>
      obtain ⟨b', rfl⟩ := counts_genesis.mp h
      have hb := hgenesis s b rfl
      rw [blockId, some_inj] at hb
      subst hb
      exact mem_singleton_self _
    | finalize s | finalizeFast s b | notarize s b => simp_all [voteToCertTypes]
    | notarizeFallback s b =>
      rcases counts_notarizeFallback.mp h with rfl | rfl <;> simp [voteToCertTypes]
    | skip s => rcases counts_skip.mp h with rfl | rfl <;> simp [voteToCertTypes]

theorem eq_genesis_of_mem (h : genesis s b ∈ voteToCertTypes v) : v = .genesis s b := by
  cases v <;> simp_all [voteToCertTypes]

/-- One validator has at most one vote that counts for a certificate. -/
theorem Counts.not_compatible {v' : Vote} (h : certType.Counts v) (h' : certType.Counts v') :
    ¬v.Compatible v' := by
  intro hc
  have hne := hc.ne
  have hconf := hc.not_conflicts
  have hfall := hc.fallback
  cases certType with
  | genesis s b =>
    obtain ⟨b1, rfl⟩ := counts_genesis.mp h
    obtain ⟨b2, rfl⟩ := counts_genesis.mp h'
    exact absurd (hfall rfl) (by simp [getType])
  | finalize s => exact hne ((counts_finalize.mp h).trans (counts_finalize.mp h').symm)
  | finalizeFast s b =>
    exact hne ((counts_finalizeFast.mp h).trans (counts_finalizeFast.mp h').symm)
  | notarize s b => exact hne ((counts_notarize.mp h).trans (counts_notarize.mp h').symm)
  | notarizeFallback s b =>
    rcases counts_notarizeFallback.mp h with rfl | rfl <;>
      rcases counts_notarizeFallback.mp h' with rfl | rfl <;>
      simp_all [Vote.ConflictsWith, getType, conflictingTypes, isByBlock, blockId]
  | skip s =>
    rcases counts_skip.mp h with rfl | rfl <;> rcases counts_skip.mp h' with rfl | rfl <;>
      simp_all [Vote.ConflictsWith, getType, conflictingTypes, isByBlock]

end CertificateType

/-- Sorting a list into the classes of `f`. -/
theorem flatMap_filter_perm {α β : Type} [DecidableEq β] (f : α → β) (l : List α)
    {classes : List β} (hnodup : classes.Nodup) (hmem : ∀ a ∈ l, f a ∈ classes) :
    (classes.flatMap fun c => l.filter fun a => decide (f a = c)).Perm l := by
  induction classes generalizing l with
  | nil =>
    have hnil : l = [] := eq_nil_iff_forall_not_mem.mpr fun a ha => absurd (hmem a ha) not_mem_nil
    rw [hnil]
    exact List.Perm.refl _
  | cons c classes ih =>
    obtain ⟨hc, hnodup⟩ := nodup_cons.mp hnodup
    have hrest := ih (l.filter fun a => !decide (f a = c)) hnodup (by
      intro a ha
      rw [mem_filter] at ha
      refine (mem_cons.mp (hmem a ha.1)).resolve_left ?_
      simpa using ha.2)
    have hsame : (classes.flatMap fun c' => l.filter fun a => decide (f a = c')) =
        classes.flatMap fun c' => (l.filter fun a => !decide (f a = c)).filter
          fun a => decide (f a = c') := by
      refine flatMap_congr fun c' hc' => ?_
      rw [List.filter_filter]
      refine filter_congr fun a _ => ?_
      have hne : c' ≠ c := fun h => hc (h ▸ hc')
      by_cases h : f a = c'
      · simp [h, hne]
      · simp [h]
    rw [flatMap_cons, hsame]
    exact (hrest.append_left _).trans (filter_append_perm _ l)

/-! ## Ledgers -/

/-- The accepted votes, oldest first. -/
abbrev Ledger (Sig : Type) := List (VoteMessage Sig)

namespace Ledger
variable {Sig : Type}

/-- The stake of the validators of some votes of `slot`. -/
def stake (cl : Cluster) (slot : ℕ) (msgs : List (VoteMessage Sig)) : ℕ :=
  (msgs.map fun m => (cl.stakesAt slot).stakeOf m.rank).sum

/-- The validators of some votes. -/
def ranks (msgs : List (VoteMessage Sig)) : Finset ℕ := (msgs.map VoteMessage.rank).toFinset

/-- The votes that the pool counts for a certificate. -/
def counted (led : Ledger Sig) (certType : CertificateType) : List (VoteMessage Sig) :=
  led.filter fun m => decide (certType.Counts m.vote)

/-- Those of one type. -/
def countedOfType (led : Ledger Sig) (certType : CertificateType) (ty : VoteType) :
    List (VoteMessage Sig) :=
  (led.counted certType).filter fun m => decide (m.vote.getType = ty)

/-- The votes that are exactly `v`. -/
def votesFor (led : Ledger Sig) (v : Vote) : List (VoteMessage Sig) :=
  led.filter fun m => decide (m.vote = v)

/-- The stake that voted exactly `v`. -/
def support (cl : Cluster) (led : Ledger Sig) (v : Vote) : ℕ := stake cl v.slot (led.votesFor v)

/-- The votes of one type for a slot. -/
def ofType (led : Ledger Sig) (slot : ℕ) (ty : VoteType) : List (VoteMessage Sig) :=
  led.filter fun m => decide (m.vote.slot = slot ∧ m.vote.getType = ty)

/-- The fallback votes of one validator for a slot. -/
def fallbacks (led : Ledger Sig) (slot rank : ℕ) : List (VoteMessage Sig) :=
  led.filter fun m => decide (m.vote.slot = slot ∧ m.vote.getType = .notarizeFallback ∧
    m.rank = rank)

/-- `m` may be accepted: it is compatible with the earlier votes of its validator, and within the
bound for fallback votes. -/
structure Accepts (led : Ledger Sig) (m : VoteMessage Sig) : Prop where
  compatible : ∀ m' ∈ led, m'.rank = m.rank → m'.vote.slot = m.vote.slot → m'.vote.Compatible m.vote
  within : m.vote.getType = .notarizeFallback →
    (led.fallbacks m.vote.slot m.rank).length < maxEntriesPerPubkeyForNotarizeLite

/-- What accepting one vote after the other leads to. -/
structure WellFormed (cl : Cluster) (led : Ledger Sig) : Prop where
  rank_lt : ∀ m ∈ led, m.rank < (cl.stakesAt m.vote.slot).entries.length
  compatible : led.Pairwise fun m m' => m.rank = m'.rank → m.vote.slot = m'.vote.slot →
    m.vote.Compatible m'.vote
  within : ∀ slot rank, (led.fallbacks slot rank).length ≤ maxEntriesPerPubkeyForNotarizeLite

variable {cl : Cluster} {led : Ledger Sig}

section
variable (h : WellFormed cl led)
include h
theorem WellFormed.filter (keep : VoteMessage Sig → Bool) : WellFormed cl (led.filter keep) where
  rank_lt := fun m hm => h.rank_lt m (mem_of_mem_filter hm)
  compatible := h.compatible.filter keep
  within := by
    intro slot rank
    refine le_trans ?_ (h.within slot rank)
    exact (filter_sublist.filter _).length_le

theorem WellFormed.append {m : VoteMessage Sig}
    (hrank : m.rank < (cl.stakesAt m.vote.slot).entries.length) (hm : led.Accepts m) :
    WellFormed cl (led ++ [m]) where
  rank_lt := forall_mem_append.mpr ⟨h.rank_lt, forall_mem_singleton.mpr hrank⟩
  compatible := pairwise_append.mpr ⟨h.compatible, pairwise_singleton _ _,
    fun m' hm' => forall_mem_singleton.mpr (hm.compatible m' hm')⟩
  within := by
    intro slot rank
    unfold fallbacks
    rw [filter_append, length_append]
    by_cases hnew : m.vote.slot = slot ∧ m.vote.getType = .notarizeFallback ∧ m.rank = rank
    · rw [filter_cons_of_pos (by rwa [decide_eq_true_iff])]
      obtain ⟨rfl, htype, rfl⟩ := hnew
      exact hm.within htype
    · rw [filter_cons_of_neg (by rwa [decide_eq_true_iff])]
      exact h.within slot rank

/-- Votes for one slot that are not compatible come from different validators. -/
theorem WellFormed.nodup_filter {p : VoteMessage Sig → Prop} [DecidablePred p]
    (hp : ∀ m m', p m → p m' → m.vote.slot = m'.vote.slot ∧ ¬m.vote.Compatible m'.vote) :
    ((led.filter fun m => decide (p m)).map VoteMessage.rank).Nodup := by
  rw [nodup_iff_pairwise_ne, pairwise_map]
  refine (h.compatible.filter _).imp_of_mem ?_
  intro m m' hm hm' hc heq
  rw [mem_filter, decide_eq_true_iff] at hm hm'
  obtain ⟨hslot, hnot⟩ := hp m m' hm.2 hm'.2
  exact hnot (hc heq hslot)

/-- **No validator is counted twice for a certificate.** -/
theorem WellFormed.counted_nodup (certType : CertificateType) :
    ((led.counted certType).map VoteMessage.rank).Nodup :=
  h.nodup_filter fun _ _ hm hm' => ⟨hm.1.trans hm'.1.symm, hm.not_compatible hm'⟩

/-- Votes of one validator for one slot and of one type are fallback votes. -/
theorem WellFormed.ofType_nodup (slot : ℕ) {ty : VoteType} (hty : ty ≠ .notarizeFallback) :
    ((led.ofType slot ty).map VoteMessage.rank).Nodup :=
  h.nodup_filter fun _ _ hm hm' => ⟨hm.1.trans hm'.1.symm, fun hc =>
    hty (hm'.2 ▸ hc.fallback (hm.2.trans hm'.2.symm))⟩

theorem WellFormed.votesFor_nodup (v : Vote) : ((led.votesFor v).map VoteMessage.rank).Nodup :=
  h.nodup_filter fun _ _ hm hm' =>
    ⟨congrArg slot (hm.trans hm'.symm), fun hc => hc.ne (hm.trans hm'.symm)⟩

end

/-! ## Stakes -/

theorem stake_append (slot : ℕ) (msgs msgs' : List (VoteMessage Sig)) :
    stake cl slot (msgs ++ msgs') = stake cl slot msgs + stake cl slot msgs' := by
  unfold stake
  rw [map_append, sum_append]

@[simp] theorem stake_nil (slot : ℕ) : stake cl slot ([] : List (VoteMessage Sig)) = 0 := rfl

@[simp] theorem stake_singleton (slot : ℕ) (m : VoteMessage Sig) :
    stake cl slot [m] = (cl.stakesAt slot).stakeOf m.rank := by
  simp [stake]

variable {msgs : List (VoteMessage Sig)} {slot : ℕ}

theorem stake_perm {msgs' : List (VoteMessage Sig)} (h : msgs.Perm msgs') :
    stake cl slot msgs = stake cl slot msgs' :=
  (h.map _).sum_eq

theorem stake_flatMap {ι : Type} (slot : ℕ) (l : List ι) (f : ι → List (VoteMessage Sig)) :
    stake cl slot (l.flatMap f) = (l.map fun i => stake cl slot (f i)).sum := by
  induction l with
  | nil => rfl
  | cons i l ih => rw [flatMap_cons, stake_append, ih, map_cons, sum_cons]

/-- The votes that count for a certificate, sorted by type. -/
theorem flatMap_countedOfType_perm (led : Ledger Sig) (certType : CertificateType) :
    (certType.limitsAndVoteTypes.2.flatMap fun ty => led.countedOfType certType ty).Perm
      (led.counted certType) := by
  have hmem : ∀ m ∈ led.counted certType, m.vote.getType ∈ certType.limitsAndVoteTypes.2 := by
    intro m hm
    unfold counted at hm
    rw [mem_filter, decide_eq_true_iff] at hm
    exact hm.2.2.1
  exact flatMap_filter_perm (fun m : VoteMessage Sig => m.vote.getType) _
    (by cases certType <;> simp [CertificateType.limitsAndVoteTypes]) hmem

theorem stake_eq_sum (h : (msgs.map VoteMessage.rank).Nodup) :
    stake cl slot msgs = ∑ r ∈ ranks msgs, (cl.stakesAt slot).stakeOf r := by
  unfold stake ranks
  rw [List.sum_toFinset _ h, List.map_map]
  rfl

theorem stake_le_total (h : (msgs.map VoteMessage.rank).Nodup) :
    stake cl slot msgs ≤ (cl.stakesAt slot).totalStake := by
  rw [stake_eq_sum h]
  exact (cl.stakesAt slot).sum_stakeOf_le _

end Ledger
end FlowraValidator.Votor
