import FlowraValidator.Votor.BuiltCertificates

/-!
# Verifying certificates

`bls-cert-verify/src/cert_verify.rs`: the bitmap of a certificate is decoded, the public keys of
the signers are aggregated, and the signature is checked against the votes that a certificate of
this type is made of.

Two crates are external. The decoder of `solana_signer_store` is assumed to invert its encoder. Of
the BLS signatures it is assumed that an aggregate signature is accepted exactly for the keys and
payloads that were signed, and that there is no aggregate of an empty list of keys. The payload of
a vote is its serialization, and different votes have different ones, so a vote stands for its
payload.

Not every certificate that a pool builds is accepted. One that is made of fallback votes only has
an empty first bitmap, and there is no aggregate for it; one that is made of votes for two genesis
blocks does not match the payload.

* `verifyCertificate`: the code.
* `Certificate.verify_of_aggregates`: the answer for a certificate of given votes.
* `PoolHistory.verifyCertificate_iff`: which of the certificates that a pool builds are accepted.
-/

namespace FlowraValidator.Votor
open VoteMessage CertificateType ConsensusPool Ledger List Option Prod

/-! ## The external crates -/

/-- `Decoded`. -/
inductive Decoded where
  | base2 (bits : List Bool)
  | base3 (bits₀ bits₁ : List Bool)

/-- `DecodeError`. -/
inductive DecodeError where
  | tooLong
  | malformed
  deriving DecidableEq

/-- An encoder with the decoder that inverts it. -/
structure SignerCodec extends SignerStore where
  decode : List ℕ → ℕ → Except DecodeError Decoded
  decode_base2 : ∀ bits bytes n, encodeBase2 bits = .ok bytes → bits.length ≤ n →
    decode bytes n = .ok (.base2 bits)
  decode_base3 : ∀ bits₀ bits₁ bytes n, encodeBase3 bits₀ bits₁ = .ok bytes →
    bits₀.length ≤ n → decode bytes n = .ok (.base3 bits₀ bits₁)

abbrev BlsPubkey := ℕ

/-- `BlsError`: the error of a signature that does not verify, and the other ones. -/
inductive BlsError where
  | verificationFailed
  | other
  deriving DecidableEq

/-- BLS signatures. `sign key payload` is the signature by the owner of `key`, and a list of pairs
stands for what was signed. An aggregate of no keys is an error or, as the identity, refused. -/
structure BlsScheme (Sig : Type) [AddCommMonoid Sig] where
  PubkeyProjective : Type
  sign : BlsPubkey → Vote → Sig
  parAggregate : List BlsPubkey → Except BlsError PubkeyProjective
  verifySignature : PubkeyProjective → Sig → Vote → Except BlsError Unit
  parVerifyDistinctAggregated :
    List PubkeyProjective → Sig → List Vote → Except BlsError Unit
  aggregate_nil : ∀ agg agg' signature payloads, parAggregate [] = .ok agg →
    ∃ e, parVerifyDistinctAggregated [agg, agg'] signature payloads = .error e
  aggregate_ok : ∀ keys, keys ≠ [] → ∃ agg, parAggregate keys = .ok agg
  verify_iff : ∀ (signed : List (BlsPubkey × Vote)) keys agg payload,
    keys ≠ [] → parAggregate keys = .ok agg →
      (verifySignature agg (signed.map fun s => sign s.1 s.2).sum payload = .ok () ↔
        signed.Perm (keys.map fun key => (key, payload)))
  verifyDistinct_iff : ∀ (signed : List (BlsPubkey × Vote)) keys₀ keys₁ agg₀ agg₁ payload₀ payload₁,
    keys₀ ≠ [] → keys₁ ≠ [] → parAggregate keys₀ = .ok agg₀ → parAggregate keys₁ = .ok agg₁ →
    payload₀ ≠ payload₁ →
      (parVerifyDistinctAggregated [agg₀, agg₁] (signed.map fun s => sign s.1 s.2).sum
          [payload₀, payload₁] = .ok () ↔
        signed.Perm ((keys₀.map fun key => (key, payload₀)) ++
          keys₁.map fun key => (key, payload₁)))

/-! ## The code -/

/-- `Error`. -/
inductive CertVerifyError where
  | missingRank
  | missingRankMap
  | verifySig (error : BlsError)
  | decode (error : DecodeError)
  | wrongEncoding
  deriving DecidableEq

/-- `iter_ones`. -/
def iterOnes (bits : List Bool) : List ℕ :=
  (List.range bits.length).filter fun i => bits.getD i false

/-- The public keys of some ranks. The rank map adds the stakes up as it is asked. -/
def collectPubkeys (rankMap : ℕ → Option (ℕ × BlsPubkey)) :
    List ℕ → ℕ → Except CertVerifyError (List BlsPubkey × ℕ)
  | [], totalStake => .ok ([], totalStake)
  | rank :: ranks, totalStake =>
    match rankMap rank with
    | none => .error .missingRank
    | some (stake, pubkey) =>
      (collectPubkeys rankMap ranks (saturatingAdd totalStake stake)).map fun r =>
        (pubkey :: r.1, r.2)

def getVotePayloads : CertificateType → Vote × Option Vote
  | .notarize slot hash => (.notarize slot hash, none)
  | .finalizeFast slot hash => (.notarize slot hash, none)
  | .finalize slot => (.finalize slot, none)
  | .genesis slot hash => (.genesis slot hash, none)
  | .notarizeFallback slot hash => (.notarize slot hash, some (.notarizeFallback slot hash))
  | .skip slot => (.skip slot, some (.skipFallback slot))

section Code
variable {Sig : Type} [AddCommMonoid Sig] (codec : SignerCodec) (bls : BlsScheme Sig)

def aggregatePubkeys (pubkeys : List BlsPubkey) :
    Except CertVerifyError bls.PubkeyProjective :=
  (bls.parAggregate pubkeys).mapError .verifySig

/-- The answer is the stake of the signers. -/
def verifySingleVoteSignature (payload : Vote) (signature : Sig) (ranks : List Bool)
    (rankMap : ℕ → Option (ℕ × BlsPubkey)) : Except CertVerifyError ℕ := do
  let (pubkeys, totalStake) ← collectPubkeys rankMap (iterOnes ranks) 0
  let aggPubkey ← aggregatePubkeys bls pubkeys
  (bls.verifySignature aggPubkey signature payload).mapError .verifySig
  return totalStake

def verifyBase2 (payload : Vote) (signature : Sig) (ranks : List ℕ) (maxValidators : ℕ)
    (rankMap : ℕ → Option (ℕ × BlsPubkey)) : Except CertVerifyError ℕ := do
  match ← (codec.decode ranks maxValidators).mapError .decode with
  | .base2 ranks => verifySingleVoteSignature bls payload signature ranks rankMap
  | .base3 _ _ => .error .wrongEncoding

def verifyBase3 (payload fallbackPayload : Vote) (signature : Sig) (ranks : List ℕ)
    (maxValidators : ℕ) (rankMap : ℕ → Option (ℕ × BlsPubkey)) : Except CertVerifyError ℕ := do
  match ← (codec.decode ranks maxValidators).mapError .decode with
  | .base2 ranks => verifySingleVoteSignature bls payload signature ranks rankMap
  | .base3 ranks fallbackRanks =>
    let (primaryPubkeys, totalStake) ← collectPubkeys rankMap (iterOnes ranks) 0
    let (fallbackPubkeys, totalStake) ← collectPubkeys rankMap (iterOnes fallbackRanks) totalStake
    let primaryAgg ← aggregatePubkeys bls primaryPubkeys
    let fallbackAgg ← aggregatePubkeys bls fallbackPubkeys
    (bls.parVerifyDistinctAggregated [primaryAgg, fallbackAgg] signature
      [payload, fallbackPayload]).mapError .verifySig
    return totalStake

def verifyCertificate (cert : Certificate Sig) (maxValidators : ℕ)
    (rankMap : ℕ → Option (ℕ × BlsPubkey)) : Except CertVerifyError ℕ :=
  match getVotePayloads cert.certType with
  | (primary, some fallback) =>
    verifyBase3 codec bls primary fallback cert.signature cert.bitmap maxValidators rankMap
  | (primary, none) =>
    verifyBase2 codec bls primary cert.signature cert.bitmap maxValidators rankMap

end Code

/-- The rank map of `Bank::verify_certificate`, for validators with the given BLS keys. -/
def EpochStakes.rankMap (es : EpochStakes) (blsPubkey : ℕ → BlsPubkey) (rank : ℕ) :
    Option (ℕ × BlsPubkey) :=
  (es.entry rank).map fun e => (e.2, blsPubkey rank)

/-! ## Signers -/

variable {ranks : List ℕ} {r : Except CertVerifyError ℕ} {stake stake' : ℕ} {n : ℕ} {cond : Prop}
  {bits : List Bool} {certType : CertificateType} {fallback : Vote} {v : Vote}

/-- Reading a bitmap back gives the ranks it was made of. -/
theorem iterOnes_bitmapBits_perm (hnodup : ranks.Nodup) (hlt : ∀ rank ∈ ranks, rank < n) :
    (iterOnes (bitmapBits n ranks)).Perm ranks := by
  have hlen : (bitmapBits n ranks).length = n := by rw [bitmapBits, length_map, length_range]
  refine (perm_ext_iff_of_nodup (nodup_range.filter _) hnodup).mpr fun rank => ?_
  rw [mem_filter, mem_range, hlen]
  constructor
  · rintro ⟨hrank, hbit⟩
    simpa [bitmapBits, List.getD, hrank] using hbit
  · intro hmem
    exact ⟨hlt rank hmem, by simpa [bitmapBits, List.getD, hlt rank hmem] using hmem⟩

theorem lt_bitmapLength {rank : ℕ} (h : rank ∈ ranks) : rank < bitmapLength ranks := by
  unfold bitmapLength
  induction ranks with
  | nil => cases h
  | cons r ranks ih =>
    rw [foldr_cons]
    rcases mem_cons.mp h with rfl | h
    · exact lt_max_of_lt_left (Nat.lt_succ_self _)
    · exact lt_max_of_lt_right (ih h)

/-- Known ranks have keys, and their stakes are added up. -/
theorem collectPubkeys_eq (es : EpochStakes) (blsPubkey : ℕ → BlsPubkey)
    (hlt : ∀ rank ∈ ranks, rank < es.entries.length) {totalStake : ℕ}
    (hsum : totalStake + (ranks.map es.stakeOf).sum ≤ u64Max) :
    collectPubkeys (es.rankMap blsPubkey) ranks totalStake =
      .ok (ranks.map blsPubkey, totalStake + (ranks.map es.stakeOf).sum) := by
  induction ranks generalizing totalStake with
  | nil => rfl
  | cons rank ranks ih =>
    rw [map_cons, sum_cons] at hsum
    have hentry : es.rankMap blsPubkey rank = some (es.stakeOf rank, blsPubkey rank) := by
      unfold EpochStakes.rankMap
      rw [es.entry_of_lt (hlt rank mem_cons_self)]
      rfl
    have hadd : saturatingAdd totalStake (es.stakeOf rank) = totalStake + es.stakeOf rank := by
      unfold saturatingAdd
      omega
    unfold collectPubkeys
    rw [hentry]
    dsimp only
    rw [hadd, ih (fun r hr => hlt r (mem_cons_of_mem _ hr)) (by omega)]
    simp [Except.map, Nat.add_assoc]

/-! ## The answer for given votes -/

/-- The answer is this stake if the condition holds, and an error otherwise. -/
def Answers (r : Except CertVerifyError ℕ) (cond : Prop) (stake : ℕ) : Prop :=
  (cond → r = .ok stake) ∧ (¬cond → ∃ e, r = .error e)

theorem Answers.congr {cond' : Prop} (h : Answers r cond stake) (hcond : cond' ↔ cond)
    (hstake : stake' = stake) :
    Answers r cond' stake' := by
  rw [hstake]
  exact ⟨fun hc => h.1 (hcond.mp hc), fun hc => h.2 fun hc' => hc (hcond.mpr hc')⟩

theorem Answers.ok_iff (h : Answers r cond stake) : (∃ stake', r = .ok stake') ↔ cond := by
  constructor
  · rintro ⟨stake', hr⟩
    by_contra hno
    obtain ⟨e, he⟩ := h.2 hno
    cases hr.symm.trans he
  · exact fun hc => ⟨stake, h.1 hc⟩

/-- A check that decides the condition gives the answer. -/
theorem Answers.of_check {check : Except BlsError Unit} (h : check = .ok () ↔ cond) :
    Answers (do check.mapError .verifySig; return stake) cond stake := by
  cases check with
  | ok u => exact ⟨fun _ => rfl, fun hc => absurd (h.mp rfl) hc⟩
  | error e => exact ⟨fun hc => absurd (h.mpr hc) (by simp), fun _ => ⟨.verifySig e, rfl⟩⟩

section Votes
variable {Sig : Type} [AddCommMonoid Sig] (codec : SignerCodec) (bls : BlsScheme Sig)
  (es : EpochStakes) (blsPubkey : ℕ → BlsPubkey)

theorem verifySingleVoteSignature_answers (hperm : (iterOnes bits).Perm ranks)
    (hlt : ∀ rank ∈ ranks, rank < es.entries.length) (hsum : (ranks.map es.stakeOf).sum ≤ u64Max)
    (hne : ranks ≠ []) (signed : List (BlsPubkey × Vote)) (payload : Vote) :
    Answers (verifySingleVoteSignature bls payload (signed.map fun s => bls.sign s.1 s.2).sum bits
        (es.rankMap blsPubkey))
      (signed.Perm (ranks.map fun rank => (blsPubkey rank, payload)))
      (ranks.map es.stakeOf).sum := by
  have hsum' : ((iterOnes bits).map es.stakeOf).sum = (ranks.map es.stakeOf).sum :=
    (hperm.map _).sum_eq
  have hcollect := collectPubkeys_eq es blsPubkey
    (fun rank hrank => hlt rank (hperm.mem_iff.mp hrank))
    (show 0 + ((iterOnes bits).map es.stakeOf).sum ≤ u64Max by rw [hsum', Nat.zero_add]; exact hsum)
  have hones : (iterOnes bits).map blsPubkey ≠ [] := by
    rw [Ne, map_eq_nil_iff]
    exact fun h => hne (nil_perm.mp (h ▸ hperm))
  obtain ⟨agg, hagg⟩ := bls.aggregate_ok _ hones
  unfold verifySingleVoteSignature aggregatePubkeys
  rw [hcollect]
  simp only [bind, Except.bind, hagg, Except.mapError]
  refine (Answers.of_check (bls.verify_iff signed _ agg payload hones hagg)).congr ?_ ?_
  · rw [List.map_map]
    exact ⟨fun h => h.trans (hperm.map _).symm, fun h => h.trans (hperm.map _)⟩
  · rw [hsum', Nat.zero_add]

/-- Two bitmaps: there has to be a rank in the first one. -/
theorem verifyBase3_answers {ranks0 ranks1 bytes : List ℕ} {bits₀ bits₁ : List Bool}
    (hdecode : codec.decode bytes es.entries.length = .ok (.base3 bits₀ bits₁))
    (hperm0 : (iterOnes bits₀).Perm ranks0) (hperm1 : (iterOnes bits₁).Perm ranks1)
    (hlt0 : ∀ rank ∈ ranks0, rank < es.entries.length)
    (hlt1 : ∀ rank ∈ ranks1, rank < es.entries.length)
    (hsum : (ranks0.map es.stakeOf).sum + (ranks1.map es.stakeOf).sum ≤ u64Max)
    (hne : ranks1 ≠ []) (signed : List (BlsPubkey × Vote)) {payload₀ payload₁ : Vote}
    (hpayload : payload₀ ≠ payload₁) :
    Answers (verifyBase3 codec bls payload₀ payload₁ (signed.map fun s => bls.sign s.1 s.2).sum
        bytes es.entries.length (es.rankMap blsPubkey))
      (ranks0 ≠ [] ∧ signed.Perm ((ranks0.map fun rank => (blsPubkey rank, payload₀)) ++
        ranks1.map fun rank => (blsPubkey rank, payload₁)))
      ((ranks0.map es.stakeOf).sum + (ranks1.map es.stakeOf).sum) := by
  have hsum0 : ((iterOnes bits₀).map es.stakeOf).sum = (ranks0.map es.stakeOf).sum :=
    (hperm0.map _).sum_eq
  have hsum1 : ((iterOnes bits₁).map es.stakeOf).sum = (ranks1.map es.stakeOf).sum :=
    (hperm1.map _).sum_eq
  have hcollect0 := collectPubkeys_eq es blsPubkey
    (fun rank hrank => hlt0 rank (hperm0.mem_iff.mp hrank))
    (show 0 + ((iterOnes bits₀).map es.stakeOf).sum ≤ u64Max by omega)
  have hcollect1 := collectPubkeys_eq es blsPubkey
    (fun rank hrank => hlt1 rank (hperm1.mem_iff.mp hrank))
    (show 0 + ((iterOnes bits₀).map es.stakeOf).sum + ((iterOnes bits₁).map es.stakeOf).sum ≤
      u64Max by omega)
  have hones : (iterOnes bits₁).map blsPubkey ≠ [] := by
    rw [Ne, map_eq_nil_iff]
    exact fun h => hne (nil_perm.mp (h ▸ hperm1))
  obtain ⟨agg₁, hagg₁⟩ := bls.aggregate_ok _ hones
  unfold verifyBase3 aggregatePubkeys
  simp only [hdecode, Except.mapError, bind, Except.bind]
  rw [hcollect0]
  dsimp only
  rw [hcollect1]
  dsimp only
  by_cases hempty : ranks0 = []
  · -- an aggregate of no keys is not accepted
    have hnil : (iterOnes bits₀).map blsPubkey = [] := by
      rw [hempty] at hperm0
      rw [perm_nil.mp hperm0]
      rfl
    refine ⟨fun h => absurd hempty h.1, fun _ => ?_⟩
    rw [hnil]
    cases hagg₀ : bls.parAggregate [] with
    | error e => exact ⟨.verifySig e, rfl⟩
    | ok agg₀ =>
      obtain ⟨e, he⟩ := bls.aggregate_nil agg₀ agg₁ (signed.map fun s => bls.sign s.1 s.2).sum
        [payload₀, payload₁] hagg₀
      rw [hagg₁]
      simp only [he]
      exact ⟨.verifySig e, rfl⟩
  · have hones0 : (iterOnes bits₀).map blsPubkey ≠ [] := by
      rw [Ne, map_eq_nil_iff]
      exact fun h => hempty (nil_perm.mp (h ▸ hperm0))
    obtain ⟨agg₀, hagg₀⟩ := bls.aggregate_ok _ hones0
    rw [hagg₀, hagg₁]
    refine (Answers.of_check (bls.verifyDistinct_iff signed _ _ agg₀ agg₁ payload₀ payload₁ hones0
      hones hagg₀ hagg₁ hpayload)).congr ?_ ?_
    · rw [List.map_map, List.map_map]
      have hkeys := (hperm0.map fun rank => (blsPubkey rank, payload₀)).append
        (hperm1.map fun rank => (blsPubkey rank, payload₁))
      exact ⟨fun h => h.2.trans hkeys.symm, fun h => ⟨hempty, h.trans hkeys⟩⟩
    · rw [hsum0, hsum1, Nat.zero_add]

end Votes

/-- The vote was signed by the validator of its rank. -/
def VoteMessage.IsSigned {Sig : Type} [AddCommMonoid Sig] (bls : BlsScheme Sig)
    (blsPubkey : ℕ → BlsPubkey) (m : VoteMessage Sig) : Prop :=
  m.signature = bls.sign (blsPubkey m.rank) m.vote

/-- The types of votes of a certificate are those of its payloads. -/
theorem getVotePayloads_spec (certType : CertificateType) :
    certType.limitsAndVoteTypes.2 = (getVotePayloads certType).1.getType ::
      ((getVotePayloads certType).2.map Vote.getType).toList := by
  cases certType <;> rfl

/-- The payloads of one certificate differ in their types. -/
theorem getVotePayloads_ne (h : (getVotePayloads certType).2 = some fallback) :
    fallback.getType ≠ (getVotePayloads certType).1.getType := by
  cases certType <;> simp only [getVotePayloads, reduceCtorEq, some.injEq] at h <;>
    subst h <;> simp [Vote.getType, getVotePayloads]

theorem Vote.eq_genesis (h : v.getType = .genesis) : ∃ s b, v = .genesis s b := by
  cases v <;> simp_all [Vote.getType]

/-- All votes that a pool counts are votes for a payload, except for genesis votes. -/
theorem CertificateType.Counts.eq_payload (h : certType.Counts v) :
    v = (getVotePayloads certType).1 ∨ (getVotePayloads certType).2 = some v ∨
      ∃ s b b', certType = .genesis s b ∧ v = .genesis s b' := by
  cases certType with
  | genesis s b =>
    obtain ⟨b', rfl⟩ := counts_genesis.mp h
    exact .inr (.inr ⟨s, b, b', rfl, rfl⟩)
  | notarizeFallback s b =>
    rcases counts_notarizeFallback.mp h with rfl | rfl
    · exact .inl rfl
    · exact .inr (.inl rfl)
  | skip s =>
    rcases counts_skip.mp h with rfl | rfl
    · exact .inl rfl
    · exact .inr (.inl rfl)
  | notarize s b => exact .inl (counts_notarize.mp h)
  | finalizeFast s b => exact .inl (counts_finalizeFast.mp h)
  | finalize s => exact .inl (counts_finalize.mp h)

section Aggregates
variable {Sig : Type} [AddCommMonoid Sig] {codec : SignerCodec} {bls : BlsScheme Sig}
  {es : EpochStakes} {blsPubkey : ℕ → BlsPubkey} {cert : Certificate Sig}
  {votes : List (VoteMessage Sig)} {rankMap : ℕ → Option (ℕ × BlsPubkey)}

/-- What was signed, by whom. -/
def signedPairs (blsPubkey : ℕ → BlsPubkey) (votes : List (VoteMessage Sig)) :
    List (BlsPubkey × Vote) :=
  votes.map fun m => (blsPubkey m.rank, m.vote)

theorem sum_signature_eq (hsigned : ∀ m ∈ votes, m.IsSigned bls blsPubkey) :
    (votes.map signature).sum =
      ((signedPairs blsPubkey votes).map fun s => bls.sign s.1 s.2).sum := by
  unfold signedPairs
  rw [List.map_map]
  exact congrArg List.sum (map_congr_left hsigned)

theorem verifyCertificate_of_base2 (h : codec.decode cert.bitmap n = .ok (.base2 bits)) :
    verifyCertificate codec bls cert n rankMap =
      verifySingleVoteSignature bls (getVotePayloads cert.certType).1 cert.signature bits
        rankMap := by
  unfold verifyCertificate
  rcases getVotePayloads cert.certType with ⟨primary, _ | fallback⟩
  · simp only [verifyBase2, h, Except.mapError, bind, Except.bind]
  · simp only [verifyBase3, h, Except.mapError, bind, Except.bind]

theorem verifyCertificate_of_fallback (h : (getVotePayloads cert.certType).2 = some fallback) :
    verifyCertificate codec bls cert n rankMap =
      verifyBase3 codec bls (getVotePayloads cert.certType).1 fallback cert.signature cert.bitmap n
        rankMap := by
  unfold verifyCertificate
  rcases hp : getVotePayloads cert.certType with ⟨primary, other⟩
  rw [hp] at h
  dsimp only at h
  rw [h]

/-- The votes of the first type. -/
def CertificateType.firstVotes (certType : CertificateType) (votes : List (VoteMessage Sig)) :
    List (VoteMessage Sig) :=
  votes.filter fun m => decide (certType.limitsAndVoteTypes.2.head? = some m.vote.getType)

/-- The other ones. -/
def CertificateType.secondVotes (certType : CertificateType) (votes : List (VoteMessage Sig)) :
    List (VoteMessage Sig) :=
  votes.filter fun m => !decide (certType.limitsAndVoteTypes.2.head? = some m.vote.getType)

omit [AddCommMonoid Sig] in
theorem mem_firstVotes {certType : CertificateType} {m : VoteMessage Sig} :
    m ∈ certType.firstVotes votes ↔
      m ∈ votes ∧ m.vote.getType = (getVotePayloads certType).1.getType := by
  unfold firstVotes
  rw [mem_filter, decide_eq_true_iff, getVotePayloads_spec, head?_cons, some_inj, eq_comm]

omit [AddCommMonoid Sig] in
theorem mem_secondVotes {certType : CertificateType} {m : VoteMessage Sig} :
    m ∈ certType.secondVotes votes ↔
      m ∈ votes ∧ m.vote.getType ≠ (getVotePayloads certType).1.getType := by
  unfold secondVotes
  rw [mem_filter, Bool.not_eq_true', decide_eq_false_iff_not, getVotePayloads_spec,
    head?_cons, some_inj, eq_comm]

omit [AddCommMonoid Sig] in
theorem firstVotes_append_secondVotes_perm (certType : CertificateType)
    (votes : List (VoteMessage Sig)) :
    (certType.firstVotes votes ++ certType.secondVotes votes).Perm votes :=
  filter_append_perm _ votes

variable (hagg : cert.Aggregates codec.toSignerStore votes)
  (hlt : ∀ m ∈ votes, m.rank < es.entries.length)
  (hnodup : (votes.map rank).Nodup)
  (hsum : (votes.map fun m => es.stakeOf m.rank).sum ≤ u64Max)
  (hsigned : ∀ m ∈ votes, m.IsSigned bls blsPubkey)
include hagg hlt hnodup hsum hsigned
/-- Everyone signed the first payload. -/
theorem Certificate.verify_of_base2 (hsecond : cert.certType.secondVotes votes = [])
    (hne : votes ≠ []) :
    Answers (verifyCertificate codec bls cert es.entries.length (es.rankMap blsPubkey))
      (∀ m ∈ votes, m.vote = (getVotePayloads cert.certType).1)
      (votes.map fun m => es.stakeOf m.rank).sum := by
  have hfirst : (cert.certType.firstRanks votes).Perm (votes.map rank) := by
    have hperm := firstVotes_append_secondVotes_perm cert.certType votes
    rw [hsecond, append_nil] at hperm
    exact hperm.map _
  have hranks : ∀ rank ∈ cert.certType.firstRanks votes, rank < es.entries.length := by
    intro rank hrank
    obtain ⟨m, hm, rfl⟩ := mem_map.mp (hfirst.mem_iff.mp hrank)
    exact hlt m hm
  have hbitmap := hagg.bitmap
  unfold SignerStore.encode secondRanks at hbitmap
  rw [show votes.filter _ = [] from hsecond] at hbitmap
  have hdecode := codec.decode_base2 _ _ es.entries.length hbitmap (by
    rw [bitmapBits, length_map, length_range]
    exact bitmapLength_le hranks)
  rw [verifyCertificate_of_base2 hdecode, hagg.signature, sum_signature_eq hsigned]
  have hones := iterOnes_bitmapBits_perm (hfirst.nodup_iff.mpr hnodup)
    fun rank hrank => lt_bitmapLength hrank
  have hstakes : (votes.map fun m => es.stakeOf m.rank).sum =
      ((votes.map rank).map es.stakeOf).sum := by
    rw [List.map_map]
    rfl
  refine (verifySingleVoteSignature_answers bls es blsPubkey (hones.trans hfirst) ?_ ?_ ?_
    (signedPairs blsPubkey votes) _).congr ?_ hstakes
  · exact fun rank hrank => hranks rank (hfirst.mem_iff.mpr hrank)
  · rw [← hstakes]
    exact hsum
  · rwa [Ne, map_eq_nil_iff]
  · unfold signedPairs
    rw [List.map_map]
    constructor
    · intro h
      refine List.Perm.of_eq (map_congr_left fun m hm => ?_)
      rw [h m hm]
      rfl
    · intro h m hm
      have hmem := h.mem_iff.mp (mem_map_of_mem hm)
      obtain ⟨m', -, heq⟩ := mem_map.mp hmem
      exact (congrArg snd heq).symm

/-- Some signed the second payload. -/
theorem Certificate.verify_of_base3 (hsecond : cert.certType.secondVotes votes ≠ [])
    (htype : ∀ m ∈ votes, m.vote.getType ∈ cert.certType.limitsAndVoteTypes.2) :
    Answers (verifyCertificate codec bls cert es.entries.length (es.rankMap blsPubkey))
      (cert.certType.firstVotes votes ≠ [] ∧ ∀ m ∈ votes,
        m.vote = (getVotePayloads cert.certType).1 ∨
          (getVotePayloads cert.certType).2 = some m.vote)
      (votes.map fun m => es.stakeOf m.rank).sum := by
  have hperm := firstVotes_append_secondVotes_perm cert.certType votes
  obtain ⟨m1, hm1⟩ := exists_mem_of_ne_nil _ hsecond
  -- a vote of another type than the first payload: there is a second payload
  obtain ⟨fallback, hfallback⟩ : ∃ v, (getVotePayloads cert.certType).2 = some v := by
    obtain ⟨hmem, hne⟩ := mem_secondVotes.mp hm1
    have hty := htype m1 hmem
    rw [getVotePayloads_spec, mem_cons] at hty
    cases hp : (getVotePayloads cert.certType).2 with
    | none =>
      rw [hp] at hty
      exact absurd (hty.resolve_right not_mem_nil) hne
    | some v => exact ⟨v, rfl⟩
  have hdiffer := getVotePayloads_ne hfallback
  have hrank0 : ∀ rank ∈ (cert.certType.firstVotes votes).map VoteMessage.rank,
      rank < es.entries.length :=
    forall_mem_map.mpr fun m hm => hlt m (mem_firstVotes.mp hm).1
  have hrank1 : ∀ rank ∈ (cert.certType.secondVotes votes).map VoteMessage.rank,
      rank < es.entries.length :=
    forall_mem_map.mpr fun m hm => hlt m (mem_secondVotes.mp hm).1
  have hnodup' := ((hperm.map rank).nodup_iff).mpr hnodup
  rw [map_append] at hnodup'
  have hstakes : (votes.map fun m => es.stakeOf m.rank).sum =
      (((cert.certType.firstVotes votes).map rank).map es.stakeOf).sum +
        (((cert.certType.secondVotes votes).map rank).map es.stakeOf).sum := by
    rw [← (hperm.map fun m => es.stakeOf m.rank).sum_eq, map_append, sum_append,
      List.map_map, List.map_map]
    rfl
  have hbitmap := hagg.bitmap
  unfold SignerStore.encode at hbitmap
  rw [if_neg (by
    rw [List.isEmpty_iff]
    exact fun h => hsecond (map_eq_nil_iff.mp h))] at hbitmap
  have hdecode := codec.decode_base3 _ _ _ es.entries.length hbitmap (by
    rw [bitmapBits, length_map, length_range]
    exact max_le (bitmapLength_le hrank0) (bitmapLength_le hrank1))
  rw [verifyCertificate_of_fallback hfallback, hagg.signature, sum_signature_eq hsigned]
  refine (verifyBase3_answers codec bls es blsPubkey hdecode
    (iterOnes_bitmapBits_perm hnodup'.of_append_left
      fun rank hrank => lt_max_of_lt_left (lt_bitmapLength hrank))
    (iterOnes_bitmapBits_perm hnodup'.of_append_right
      fun rank hrank => lt_max_of_lt_right (lt_bitmapLength hrank))
    hrank0 hrank1 (hstakes.symm.trans_le hsum)
    (fun h => hsecond (map_eq_nil_iff.mp h)) (signedPairs blsPubkey votes)
    (fun h => hdiffer (congrArg Vote.getType h).symm)).congr ?_ hstakes
  refine and_congr (not_congr map_eq_nil_iff.symm) ?_
  rw [hfallback, firstRanks, secondRanks, List.map_map, List.map_map]
  constructor
  · -- each vote is for the payload of its type
    intro h
    refine ((hperm.map _).symm.trans (List.Perm.of_eq ?_) : (signedPairs blsPubkey votes).Perm _)
    rw [map_append]
    congr 1
    · refine map_congr_left fun m hm => ?_
      obtain ⟨hmem, hty⟩ := mem_firstVotes.mp hm
      rcases h m hmem with hv | hv
      · rw [hv]
        rfl
      · rw [some_inj.mp hv] at hdiffer
        exact absurd hty hdiffer
    · refine map_congr_left fun m hm => ?_
      obtain ⟨hmem, hty⟩ := mem_secondVotes.mp hm
      rcases h m hmem with hv | hv
      · exact absurd (congrArg Vote.getType hv) hty
      · rw [← some_inj.mp hv]
        rfl
  · intro h m hm
    have hmem := h.mem_iff.mp (mem_map_of_mem hm)
    rcases mem_append.mp hmem with hmem | hmem
    · obtain ⟨m', -, heq⟩ := mem_map.mp hmem
      exact .inl (congrArg snd heq).symm
    · obtain ⟨m', -, heq⟩ := mem_map.mp hmem
      exact .inr (congrArg some (congrArg snd heq))

/-- **The answer for a certificate of some votes.**  It is accepted if there is a vote of the first
type, and every vote is for one of the payloads. -/
theorem Certificate.verify_of_aggregates
    (htype : ∀ m ∈ votes, m.vote.getType ∈ cert.certType.limitsAndVoteTypes.2)
    (hne : votes ≠ []) :
    Answers (verifyCertificate codec bls cert es.entries.length (es.rankMap blsPubkey))
      (cert.certType.firstVotes votes ≠ [] ∧ ∀ m ∈ votes,
        m.vote = (getVotePayloads cert.certType).1 ∨
          (getVotePayloads cert.certType).2 = some m.vote)
      (votes.map fun m => es.stakeOf m.rank).sum := by
  by_cases hsecond : cert.certType.secondVotes votes = []
  · have hprimary : ∀ m ∈ votes, m.vote.getType = (getVotePayloads cert.certType).1.getType := by
      intro m hm
      by_contra hty
      exact not_mem_nil (hsecond ▸ mem_secondVotes.mpr ⟨hm, hty⟩)
    refine (Certificate.verify_of_base2 hagg hlt hnodup hsum hsigned hsecond hne).congr ?_ rfl
    constructor
    · rintro ⟨-, h⟩ m hm
      refine (h m hm).resolve_right fun hv => ?_
      exact getVotePayloads_ne hv (hprimary m hm)
    · intro h
      obtain ⟨m, hm⟩ := exists_mem_of_ne_nil _ hne
      refine ⟨ne_nil_of_mem (mem_firstVotes.mpr ⟨hm, hprimary m hm⟩), fun m hm => ?_⟩
      exact .inl (h m hm)
  · exact Certificate.verify_of_base3 hagg hlt hnodup hsum hsigned hsecond htype

end Aggregates

/-! ## The certificates of a pool -/

section
variable {Sig : Type} [AddCommMonoid Sig] {cl : Cluster} {led : Ledger Sig}

/-- The pool holds a vote for the first payload of a certificate. -/
def ConsensusPool.HasPrimary (p : ConsensusPool Sig) (certType : CertificateType) : Prop :=
  ∃ m ∈ (p.certificateVotes certType.slot (certType.toBlock.map snd)
      certType.limitsAndVoteTypes.2).flatten,
    m.vote.getType = (getVotePayloads certType).1.getType

/-- What makes a certificate that `m` completes acceptable: `m` or an earlier vote is of the first
type, and votes for genesis blocks are all for the same one. -/
structure ConsensusPool.Verifiable (p : ConsensusPool Sig) (m : VoteMessage Sig)
    (certType : CertificateType) : Prop where
  primary : m.vote.getType = (getVotePayloads certType).1.getType ∨ p.HasPrimary certType
  uniform : p.GenesisUniform m

omit [AddCommMonoid Sig] in
theorem ConsensusPool.hasPrimary_iff {p : ConsensusPool Sig} (hp : p.Represents cl led)
    (certType : CertificateType) :
    p.HasPrimary certType ↔ certType.firstVotes (led.counted certType) ≠ [] := by
  have hperm := certificateVotes_flatten_perm hp certType
  constructor
  · rintro ⟨m, hm, hty⟩
    exact ne_nil_of_mem (mem_firstVotes.mpr ⟨hperm.mem_iff.mp hm, hty⟩)
  · intro h
    obtain ⟨m, hm⟩ := exists_mem_of_ne_nil _ h
    obtain ⟨hmem, hty⟩ := mem_firstVotes.mp hm
    exact ⟨m, hperm.mem_iff.mpr hmem, hty⟩

omit [AddCommMonoid Sig] in
/-- The condition on the pool, read off the ledger. -/
theorem ConsensusPool.genesisUniform_iff {p : ConsensusPool Sig} (hp : p.Represents cl led)
    {m : VoteMessage Sig} :
    p.GenesisUniform m ↔ (m.vote.getType = .genesis → ∀ m' ∈ led, m'.vote.getType = .genesis →
      m'.vote.slot = m.vote.slot → m'.vote.blockId = m.vote.blockId) := by
  constructor
  · exact fun h hty m' hm' hty' hslot => h.of_represents hp hty hm' hty' hslot
  · intro h hty pool hpool m' hm'
    rw [hp.pools] at hpool
    unfold pools at hpool
    split_ifs at hpool with hempty
    cases some_inj.mp hpool
    obtain ⟨hled, hslot, hty'⟩ := mem_ofType.mp hm'
    exact h hty m' hled hty' hslot

omit [AddCommMonoid Sig] in
/-- Only genesis votes can be counted for a payload they are not for. -/
theorem Ledger.forall_counted_iff {m : VoteMessage Sig} (hct : certType ∈ voteToCertTypes m.vote) :
    (∀ m' ∈ counted (led ++ [m]) certType, m'.vote = (getVotePayloads certType).1 ∨
        (getVotePayloads certType).2 = some m'.vote) ↔
      (m.vote.getType = .genesis → ∀ m' ∈ led, m'.vote.getType = .genesis →
        m'.vote.slot = m.vote.slot → m'.vote.blockId = m.vote.blockId) := by
  constructor
  · intro h hty m' hm' hty' hslot
    obtain ⟨s, b, hv⟩ := Vote.eq_genesis hty
    obtain ⟨s', b', hv'⟩ := Vote.eq_genesis hty'
    rw [hv] at hct hslot
    rw [hv'] at hslot
    cases mem_singleton.mp hct
    have hcounts : (genesis s b).Counts m'.vote :=
      counts_genesis.mpr ⟨b', by rw [hv', ← (show s' = s from hslot)]⟩
    rcases h m' (mem_counted.mpr ⟨mem_append_left _ hm', hcounts⟩) with heq | heq
    · rw [hv, heq]
      rfl
    · exact absurd heq (by simp [getVotePayloads])
  · intro h m' hm'
    obtain ⟨hmem, hcounts⟩ := mem_counted.mp hm'
    rcases hcounts.eq_payload with hv | hv | ⟨s, b, b', rfl, hv'⟩
    · exact .inl hv
    · exact .inr hv
    · -- the certificate is the one of the genesis block of `m`
      have hv := eq_genesis_of_mem hct
      rcases mem_append.mp hmem with hmem | hmem
      · have hblock := h (by rw [hv]; rfl) m' hmem (by rw [hv']; rfl) (by rw [hv, hv']; rfl)
        rw [hv, hv'] at hblock
        rw [hv', some_inj.mp hblock]
        exact .inl rfl
      · rw [mem_singleton.mp hmem]
        exact .inl hv

omit [AddCommMonoid Sig] in
theorem Ledger.firstVotes_counted_append {m : VoteMessage Sig} {certType : CertificateType}
    (hct : certType ∈ voteToCertTypes m.vote) :
    certType.firstVotes (counted (led ++ [m]) certType) ≠ [] ↔
      m.vote.getType = (getVotePayloads certType).1.getType ∨
        certType.firstVotes (led.counted certType) ≠ [] := by
  have hm : m ∈ counted (led ++ [m]) certType :=
    mem_counted.mpr ⟨mem_append_right _ (mem_singleton_self m), counts_of_mem_voteToCertTypes hct⟩
  constructor
  · intro h
    obtain ⟨m', hm'⟩ := exists_mem_of_ne_nil _ h
    obtain ⟨hcounted, hty⟩ := mem_firstVotes.mp hm'
    obtain ⟨hmem, hcounts⟩ := mem_counted.mp hcounted
    rcases mem_append.mp hmem with hmem | hmem
    · right
      exact ne_nil_of_mem (mem_firstVotes.mpr ⟨mem_counted.mpr ⟨hmem, hcounts⟩, hty⟩)
    · left
      rw [← mem_singleton.mp hmem]
      exact hty
  · rintro (hty | h)
    · exact ne_nil_of_mem (mem_firstVotes.mpr ⟨hm, hty⟩)
    · obtain ⟨m', hm'⟩ := exists_mem_of_ne_nil _ h
      obtain ⟨hcounted, hty⟩ := mem_firstVotes.mp hm'
      obtain ⟨hmem, hcounts⟩ := mem_counted.mp hcounted
      exact ne_nil_of_mem (mem_firstVotes.mpr
        ⟨mem_counted.mpr ⟨mem_append_left _ hmem, hcounts⟩, hty⟩)

/-- **The certificates that a vote completes.** -/
theorem ConsensusPool.verify_completed {codec : SignerCodec} {bls : BlsScheme Sig}
    {blsPubkey : ℕ → ℕ → BlsPubkey} {p p' : ConsensusPool Sig} (hp : p.Represents cl led)
    {m : VoteMessage Sig} (hp' : p'.Represents cl (led ++ [m]))
    (hsigned : ∀ m' ∈ led ++ [m], m'.IsSigned bls (blsPubkey (cl.getEpoch m'.vote.slot)))
    (hct : certType ∈ voteToCertTypes m.vote) :
    Answers (verifyCertificate codec bls ((led ++ [m]).certificate codec.toSignerStore certType)
        (cl.stakesAt certType.slot).entries.length
        ((cl.stakesAt certType.slot).rankMap (blsPubkey (cl.getEpoch certType.slot))))
      (p.Verifiable m certType)
      (Ledger.stake cl certType.slot
        (p'.certificateVotes certType.slot (certType.toBlock.map snd)
          certType.limitsAndVoteTypes.2).flatten) := by
  have hcounts := counts_of_mem_voteToCertTypes hct
  have hm : m ∈ counted (led ++ [m]) certType :=
    mem_counted.mpr ⟨mem_append_right _ (mem_singleton_self m), hcounts⟩
  have hwf := hp'.wellFormed
  have hslots : ∀ m' ∈ counted (led ++ [m]) certType, m'.vote.slot = certType.slot :=
    fun m' hm' => (mem_counted.mp hm').2.1
  have hanswer := Certificate.verify_of_aggregates (buildCertificate_eq hp' codec.toSignerStore
      certType).2 (hwf.counted_rank_lt certType) (hwf.counted_nodup certType)
    ((stake_le_total (hwf.counted_nodup certType)).trans
      (cl.stakesAt certType.slot).total_le)
    (fun m' hm' => hslots m' hm' ▸ hsigned m' (mem_counted.mp hm').1)
    (fun m' hm' => (mem_counted.mp hm').2.2.1) (ne_nil_of_mem hm)
  refine hanswer.congr ?_ (stake_perm (certificateVotes_flatten_perm hp' certType))
  refine Iff.trans ?_ (and_congr (firstVotes_counted_append hct)
    (forall_counted_iff hct)).symm
  rw [← hasPrimary_iff hp, ← genesisUniform_iff hp]
  exact ⟨fun h => ⟨h.primary, h.uniform⟩, fun h => ⟨h.1, h.2⟩⟩

end

/-! ## Every run -/

namespace PoolHistory
variable {Sig : Type} [AddCommMonoid Sig] {cl : Cluster} {store : SignerStore}

/-- One call keeps a property of all votes of the ledger that it asks of a new one. -/
theorem Step.exists_represents {P : VoteMessage Sig → Prop} {w w' : PoolHistory Sig}
    (h : Step cl store (fun _ m => P m) w w') {led : Ledger Sig}
    (hrep : w.pool.Represents cl led) (hled : ∀ m ∈ led, P m) :
    ∃ led', w'.pool.Represents cl led' ∧ ∀ m ∈ led', P m := by
  cases h with
  | vote agrees store_eq meets adds =>
    rcases addVote_represents agrees hrep adds with
      ⟨-, hsame, -⟩ | ⟨-, hrep', -⟩
    · cases hsame
      exact ⟨led, hrep, hled⟩
    · refine ⟨_, hrep', fun m hm => ?_⟩
      rcases mem_append.mp hm with hm | hm
      · exact hled m hm
      · rw [mem_singleton.mp hm]
        exact meets
  | certificate adds => exact ⟨led, addCertificate_represents hrep adds, hled⟩
  | prune rootSlot =>
    exact ⟨led.prune rootSlot, represents_pruneOldState hrep rootSlot,
      fun m hm => hled m (mem_of_mem_filter hm)⟩
  | migrate phase => exact ⟨led, ⟨hrep.pools, hrep.wellFormed⟩, hled⟩

theorem exists_represents_of_reaches {P : VoteMessage Sig → Prop} {p : ConsensusPool Sig}
    (hp : p.IsFresh) {w : PoolHistory Sig}
    (h : Reaches cl store (fun _ m => P m) (start p) w) :
    ∃ led, w.pool.Represents cl led ∧ ∀ m ∈ led, P m := by
  induction h with
  | refl =>
    have hstart : (start p).Invariant cl store [] := invariant_start hp
    exact ⟨[], hstart.represents, nofun⟩
  | tail _ hstep ih =>
    obtain ⟨led, hrep, hled⟩ := ih
    exact hstep.exists_represents hrep hled

/-- **Which certificates are accepted.**  A certificate that a pool of signed votes builds for a
vote is accepted, with the stake of the voters it includes, if and only if the vote or an earlier
one is of the first type, and the pool held no vote for another genesis block. -/
theorem verifyCertificate_iff {codec : SignerCodec} {bls : BlsScheme Sig}
    {blsPubkey : ℕ → ℕ → BlsPubkey} {p : ConsensusPool Sig} (hp : p.IsFresh)
    {w : PoolHistory Sig}
    (hreach : Reaches cl codec.toSignerStore
      (fun _ m => m.IsSigned bls (blsPubkey (cl.getEpoch m.vote.slot))) (start p) w)
    {ctx : PoolContext} (hctx : ctx.Agrees cl) (hstore : ctx.store = codec.toSignerStore)
    {rootSlot : ℕ} {m : VoteMessage Sig}
    (hm : m.IsSigned bls (blsPubkey (cl.getEpoch m.vote.slot))) {events events' : List VotorEvent}
    {certs : List (Certificate Sig)} {p' : ConsensusPool Sig}
    (hadd : w.pool.addVote ctx rootSlot m events = some (.ok certs, p', events'))
    {cert : Certificate Sig} (hcert : cert ∈ certs) :
    let es := cl.stakesAt cert.certType.slot
    let answer := verifyCertificate codec bls cert es.entries.length
      (es.rankMap (blsPubkey (cl.getEpoch cert.certType.slot)))
    ((∃ stake, answer = .ok stake) ↔ w.pool.Verifiable m cert.certType) ∧
      ∀ stake, answer = .ok stake → stake = Ledger.stake cl cert.certType.slot
        (p'.certificateVotes cert.certType.slot (cert.certType.toBlock.map snd)
          cert.certType.limitsAndVoteTypes.2).flatten := by
  obtain ⟨led, hrep, hled⟩ := exists_represents_of_reaches hp hreach
  have hadds := addVote_represents hctx hrep hadd
  rcases hadds with ⟨-, -, hnone⟩ | ⟨-, hrep', hanswer⟩
  · rw [hnone certs rfl] at hcert
    cases hcert
  · rw [Except.ok.inj hanswer, hstore] at hcert
    obtain ⟨certType, hct, rfl⟩ := mem_map.mp hcert
    have hsigned : ∀ m' ∈ led ++ [m], m'.IsSigned bls (blsPubkey (cl.getEpoch m'.vote.slot)) :=
      forall_mem_append.mpr ⟨hled, forall_mem_singleton.mpr hm⟩
    have hanswers : Answers (verifyCertificate codec bls _ _ _) _ _ :=
      verify_completed hrep hrep' hsigned (mem_of_mem_filter hct)
    exact ⟨hanswers.ok_iff, fun stake hstake =>
      Except.ok.inj (hstake.symm.trans (hanswers.1 (hanswers.ok_iff.mp ⟨stake, hstake⟩)))⟩

/-! ## Two validators -/

/-- The digits with a mark for the base. -/
def taggedCodec : SignerCodec where
  encodeBase2 := fun bits => (digitStore.encodeBase2 bits).map (2 :: ·)
  encodeBase3 := fun bits₀ bits₁ => (digitStore.encodeBase3 bits₀ bits₁).map (3 :: ·)
  base2_ok := by
    intro bits hle
    obtain ⟨bytes, h⟩ := digitStore.base2_ok bits hle
    exact ⟨2 :: bytes, by rw [h]; rfl⟩
  base3_ok := by
    intro bits₀ bits₁ hle heq hboth
    obtain ⟨bytes, h⟩ := digitStore.base3_ok bits₀ bits₁ hle heq hboth
    exact ⟨3 :: bytes, by rw [h]; rfl⟩
  decode := fun bytes n =>
    match bytes with
    | 2 :: digits =>
      if digits.length ≤ n then .ok (.base2 (digits.map fun d => decide (d = 1)))
      else .error .tooLong
    | 3 :: digits =>
      if digits.length ≤ n then
        .ok (.base3 (digits.map fun d => decide (d % 2 = 1)) (digits.map fun d => decide (2 ≤ d)))
      else .error .tooLong
    | _ => .error .malformed
  decode_base2 := by
    intro bits bytes n h hle
    unfold digitStore at h
    dsimp only at h
    split_ifs at h
    · cases h
      refine Eq.trans (if_pos (show (bits.map Bool.toNat).length ≤ n by rwa [length_map])) ?_
      rw [List.map_map]
      have hbit : ∀ b : Bool, decide (b.toNat = 1) = b := by decide
      exact congrArg (fun bits => Except.ok (Decoded.base2 bits)) (map_id'' hbit bits)
    · cases h
  decode_base3 := by
    intro bits₀ bits₁ bytes n h hle
    unfold digitStore at h
    dsimp only at h
    split_ifs at h with hlen
    · cases h
    · cases h
      have hlow : ∀ p : Bool × Bool, decide ((p.1.toNat + 2 * p.2.toNat) % 2 = 1) = p.1 := by
        rintro ⟨_ | _, _ | _⟩ <;> rfl
      have hhigh : ∀ p : Bool × Bool, decide (2 ≤ p.1.toNat + 2 * p.2.toNat) = p.2 := by
        rintro ⟨_ | _, _ | _⟩ <;> rfl
      have hfst : (bits₀.zip bits₁).map fst = bits₀ := map_fst_zip hlen.2.le
      have hsnd : (bits₀.zip bits₁).map snd = bits₁ := map_snd_zip hlen.2.ge
      have hle' : ((bits₀.zip bits₁).map fun p => p.1.toNat + 2 * p.2.toNat).length ≤ n := by
        rw [length_map, length_zip]
        exact (min_le_left _ _).trans hle
      refine Eq.trans (if_pos hle') ?_
      rw [List.map_map, List.map_map]
      refine congrArg Except.ok ?_
      congr 1
      · exact (map_congr_left fun p _ => hlow p).trans hfst
      · exact (map_congr_left fun p _ => hhigh p).trans hsnd
    · cases h

theorem sum_map_singleton (signed : List (BlsPubkey × Vote)) :
    (signed.map fun s => ({(s.1, s.2)} : Multiset (BlsPubkey × Vote))).sum = signed := by
  induction signed with
  | nil => rfl
  | cons s signed ih =>
    rw [map_cons, sum_cons, ih]
    rfl

theorem ite_ok_iff {c : Prop} [Decidable c] :
    (if c then Except.ok () else Except.error BlsError.verificationFailed) = Except.ok () ↔ c := by
  split_ifs with h <;> simp [h]

/-- Signatures that are the multisets of what was signed. The identity is refused. -/
def multisetScheme : BlsScheme (Multiset (BlsPubkey × Vote)) where
  PubkeyProjective := List BlsPubkey
  sign := fun key payload => {(key, payload)}
  parAggregate := .ok
  verifySignature := fun keys signature payload =>
    if signature = (keys.map fun key => (key, payload) : List _) then .ok ()
    else .error .verificationFailed
  parVerifyDistinctAggregated := fun aggs signature payloads =>
    if [] ∉ aggs ∧
      signature = ((aggs.zip payloads).flatMap fun a => a.1.map fun key => (key, a.2) : List _)
    then .ok () else .error .verificationFailed
  aggregate_nil := by
    intro agg agg' signature payloads hagg
    cases hagg
    exact ⟨_, if_neg fun h => h.1 mem_cons_self⟩
  aggregate_ok := fun keys _ => ⟨keys, rfl⟩
  verify_iff := by
    intro signed keys agg payload _ hagg
    cases hagg
    rw [sum_map_singleton, ite_ok_iff, Multiset.coe_eq_coe]
  verifyDistinct_iff := by
    intro signed keys₀ keys₁ agg₀ agg₁ payload₀ payload₁ hne₀ hne₁ hagg₀ hagg₁ _
    cases hagg₀
    cases hagg₁
    rw [sum_map_singleton, ite_ok_iff, Multiset.coe_eq_coe]
    simp [hne₀.symm, hne₁.symm]

/-- The key of a rank, in every epoch. -/
def twoPubkeys (_epoch rank : ℕ) : BlsPubkey := 100 + rank

/-- A signed vote. -/
def signedVote (vote : Vote) (rank : ℕ) : VoteMessage (Multiset (BlsPubkey × Vote)) :=
  ⟨vote, {(100 + rank, vote)}, rank⟩

theorem signedVote_isSigned (vote : Vote) (rank : ℕ) :
    (signedVote vote rank).IsSigned multisetScheme (twoPubkeys 0) := rfl

/-- The first validator, with an encoder that can be inverted. -/
def taggedFirst : PoolContext := { firstOfTwo with store := taggedCodec.toSignerStore }

theorem taggedFirst_agrees : taggedFirst.Agrees twoValidators :=
  ⟨rfl, fun _ _ h => (some_inj.mp h).symm⟩

/-- A vote to skip and a fallback vote. -/
theorem verifyCertificate_skip :
    ∃ w p' events' cert, Reaches twoValidators taggedCodec.toSignerStore
        (fun _ m => m.IsSigned multisetScheme (twoPubkeys 0)) (start (.newFromRootBank (0, 0))) w ∧
      w.pool.addVote taggedFirst 0 (signedVote (.skipFallback 1) 1) [] =
        some (.ok [cert], p', events') ∧
      ∃ stake, verifyCertificate taggedCodec multisetScheme cert 2
        (twoStakes.rankMap (twoPubkeys 0)) = .ok stake := by
  let w0 : PoolHistory (Multiset (BlsPubkey × Vote)) := start (.newFromRootBank (0, 0))
  let w1 := (w0.addVote taggedFirst 0 (signedVote (.skip 1) 0)).get (by decide)
  have hreach : Reaches twoValidators taggedCodec.toSignerStore
      (fun _ m => m.IsSigned multisetScheme (twoPubkeys 0)) w0 w1 :=
    .single (step_of_addVote taggedFirst_agrees rfl (signedVote_isSigned _ _)
      (some_get _).symm)
  have hadd : w1.pool.addVote taggedFirst 0 (signedVote (.skipFallback 1) 1) [] =
      some ((w1.pool.addVote taggedFirst 0 (signedVote (.skipFallback 1) 1) []).get (by decide)) :=
    (some_get _).symm
  obtain ⟨hiff, -⟩ := verifyCertificate_iff (.inl ⟨(0, 0), rfl⟩) hreach taggedFirst_agrees rfl
    (signedVote_isSigned (.skipFallback 1) 1) hadd mem_cons_self
  refine ⟨w1, _, _, _, hreach, hadd, hiff.mpr ⟨.inr ?_, fun h => absurd h (by decide)⟩⟩
  exact ⟨signedVote (.skip 1) 0, by decide, rfl⟩

/-- **Fallback votes only.**  Two validators that voted for different blocks both vote to skip
after all. The certificate that the pool builds is refused. -/
theorem skipFallback_refused :
    ∃ w : PoolHistory (Multiset (BlsPubkey × Vote)),
      Reaches twoValidators taggedCodec.toSignerStore
        (fun _ m => m.IsSigned multisetScheme (twoPubkeys 0)) (start (.newFromRootBank (0, 0))) w ∧
      w.delivered = [signedVote (.notarize 1 7) 0, signedVote (.notarize 1 9) 1,
        signedVote (.skipFallback 1) 0, signedVote (.skipFallback 1) 1] ∧
      w.built.map Certificate.certType = [.skip 1] ∧
      ∀ cert ∈ w.built, verifyCertificate taggedCodec multisetScheme cert 2
        (twoStakes.rankMap (twoPubkeys 0)) = .error (.verifySig .verificationFailed) := by
  let w0 : PoolHistory (Multiset (BlsPubkey × Vote)) := start (.newFromRootBank (0, 0))
  let w1 := (w0.addVote taggedFirst 0 (signedVote (.notarize 1 7) 0)).get (by decide)
  let w2 := (w1.addVote taggedFirst 0 (signedVote (.notarize 1 9) 1)).get (by decide)
  let w3 := (w2.addVote taggedFirst 0 (signedVote (.skipFallback 1) 0)).get (by decide)
  let w4 := (w3.addVote taggedFirst 0 (signedVote (.skipFallback 1) 1)).get (by decide)
  have hstep : ∀ {w w' : PoolHistory (Multiset (BlsPubkey × Vote))} {vote : Vote} {rank : ℕ},
      w.addVote taggedFirst 0 (signedVote vote rank) = some w' →
      Step twoValidators taggedCodec.toSignerStore
        (fun _ m => m.IsSigned multisetScheme (twoPubkeys 0)) w w' := fun h =>
    step_of_addVote taggedFirst_agrees rfl (signedVote_isSigned _ _) h
  refine ⟨w4, .tail (.tail (.tail (.single (hstep (some_get _).symm))
    (hstep (some_get _).symm)) (hstep (some_get _).symm))
    (hstep (some_get _).symm), by decide, by decide, by decide⟩

end PoolHistory
end FlowraValidator.Votor
