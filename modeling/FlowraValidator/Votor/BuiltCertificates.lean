import FlowraValidator.Votor.PoolSpec

/-!
# Certificates built by a pool

A run of a consensus pool: votes and certificates are added, old state is pruned, and the migration
moves on, in any order. Every certificate that the pool builds from votes is backed by distinct
validators with enough stake, all of which voted for the slot and the block of the certificate, as
long as no vote for one genesis block arrives where the pool holds a vote for another one: votes of
type `Genesis` are kept without their block ids. Building never fails.

* `PoolHistory`: a pool with the votes it was given and the certificates it built.
* `Certificate.BackedBy`: what the votes of a certificate have to be.
* `PoolHistory.sound_of_reaches`: the result for every run.
* `genesisMix_not_sound`: the genesis certificate of a pool with votes for two genesis blocks.
-/

namespace FlowraValidator.Votor
open CertificateType ConsensusPool Ledger List Option

variable {Sig : Type} {certType : CertificateType} {m : VoteMessage Sig} {ctx : PoolContext}

/-! ## Runs -/

/-- A pool, the votes it was given so far and the certificates it built so far. -/
structure PoolHistory (Sig : Type) where
  pool : ConsensusPool Sig
  delivered : List (VoteMessage Sig)
  built : List (Certificate Sig)

/-- The two ways to make a pool. -/
def ConsensusPool.IsFresh (p : ConsensusPool Sig) : Prop :=
  (∃ rootBlock, p = .newFromRootBank rootBlock) ∨
    ∃ rootBlock phase, p = .newFromRootBankPreMigration rootBlock phase

/-- The pool holds no vote for another genesis block of the slot of `m`. -/
def ConsensusPool.GenesisUniform (p : ConsensusPool Sig) (m : VoteMessage Sig) : Prop :=
  m.vote.getType = .genesis → ∀ pool, p.votePools (m.vote.slot, .genesis) = some (.simple pool) →
    ∀ m' ∈ pool.votes, m'.vote.blockId = m.vote.blockId

namespace PoolHistory

/-- The pool at the start. -/
def start (p : ConsensusPool Sig) : PoolHistory Sig := ⟨p, [], []⟩

variable [AddCommMonoid Sig]

/-- One call, for votes that meet `cond` in the pool before the call. The contexts may change from
call to call; `migrate` is another thread that moves the migration on. -/
inductive Step (cl : Cluster) (store : SignerStore)
    (cond : ConsensusPool Sig → VoteMessage Sig → Prop) :
    PoolHistory Sig → PoolHistory Sig → Prop where
  | vote {w : PoolHistory Sig} {ctx : PoolContext} {rootSlot : ℕ} {m : VoteMessage Sig}
      {events events' : List VotorEvent} {answer : Except AddVoteError (List (Certificate Sig))}
      {p : ConsensusPool Sig} (agrees : ctx.Agrees cl) (store_eq : ctx.store = store)
      (meets : cond w.pool m)
      (adds : w.pool.addVote ctx rootSlot m events = some (answer, p, events')) :
      Step cl store cond w ⟨p, w.delivered ++ [m], w.built ++ answer.toOption.getD []⟩
  | certificate {w : PoolHistory Sig} {rootSlot : ℕ} {cert : Certificate Sig}
      {events events' : List VotorEvent} {answer : Except AddVoteError (List (Certificate Sig))}
      {p : ConsensusPool Sig}
      (adds : w.pool.addCertificate rootSlot cert events = some (answer, p, events')) :
      Step cl store cond w ⟨p, w.delivered, w.built⟩
  | prune {w : PoolHistory Sig} (rootSlot : ℕ) :
      Step cl store cond w ⟨w.pool.pruneOldState rootSlot, w.delivered, w.built⟩
  | migrate {w : PoolHistory Sig} (phase : Option (MigrationPhase Sig)) :
      Step cl store cond w
        ⟨{ w.pool with migrationStatus := phase }, w.delivered, w.built⟩

abbrev Reaches (cl : Cluster) (store : SignerStore)
    (cond : ConsensusPool Sig → VoteMessage Sig → Prop) :
    PoolHistory Sig → PoolHistory Sig → Prop :=
  Relation.ReflTransGen (Step cl store cond)

end PoolHistory

/-! ## What is to be shown -/

section
variable [AddCommMonoid Sig]

/-- The certificate aggregates these votes: they are from distinct validators, of the types, the
slot and the block of the certificate, and have the stake that the certificate asks for. -/
structure Certificate.BackedBy (cl : Cluster) (store : SignerStore) (cert : Certificate Sig)
    (votes : List (VoteMessage Sig)) : Prop where
  aggregates : cert.Aggregates store votes
  rank_lt : ∀ m ∈ votes, m.rank < (cl.stakesAt cert.certType.slot).entries.length
  distinct : (votes.map fun m => (cl.stakesAt cert.certType.slot).keyOf m.rank).Nodup
  voteType : ∀ m ∈ votes, m.vote.getType ∈ cert.certType.limitsAndVoteTypes.2
  slot : ∀ m ∈ votes, m.vote.slot = cert.certType.slot
  block : ∀ block, cert.certType.toBlock = some block → ∀ m ∈ votes, m.vote.blockId = some block.2
  stake : cert.certType.limitsAndVoteTypes.1.numerator *
      (cl.stakesAt cert.certType.slot).totalStake ≤
    stake cl cert.certType.slot votes * cert.certType.limitsAndVoteTypes.1.denominator

/-- In the pool `q`, in which a vote `v` has been stored, the check for a certificate counts every
validator once, and building it neither panics nor returns an error. -/
structure ConsensusPool.TalliesOnce (cl : Cluster) (store : SignerStore) (q : ConsensusPool Sig)
    (v : Vote) (certType : CertificateType) : Prop where
  distinct : ((q.certificateVotes v.slot v.blockId certType.limitsAndVoteTypes.2).flatten.map
    fun m => (cl.stakesAt v.slot).keyOf m.rank).Nodup
  stake : q.accumulatedStake v.slot v.blockId certType.limitsAndVoteTypes.2 =
    some (stake cl v.slot
      (q.certificateVotes v.slot v.blockId certType.limitsAndVoteTypes.2).flatten)
  builds : ∃ cert, q.buildCertificate store v.slot v.blockId certType = some (.ok cert)

/-- Every certificate built so far is backed by votes that were delivered, and a vote that is stored
next can be tallied. `q` is the pool at any point of the loop over certificates, which leaves the
vote pools alone. -/
structure PoolHistory.Sound (cl : Cluster) (store : SignerStore) (w : PoolHistory Sig) : Prop where
  backed : ∀ cert ∈ w.built, ∃ votes, (∀ m ∈ votes, m ∈ w.delivered) ∧ cert.BackedBy cl store votes
  tallies : ∀ (ctx : PoolContext) (m : VoteMessage Sig) (key : Pubkey) (stake total : ℕ)
    (entryStake : Option ℕ) (p q : ConsensusPool Sig) (certType : CertificateType),
    ctx.Agrees cl → getKeyAndStakes ctx m.vote.slot m.rank = some (.ok (key, stake, total)) →
    w.pool.hasConflictingVote m.vote.slot m.vote.getType key m.vote.blockId = none →
    w.pool.updateVotePool m key stake = some (entryStake, p) → q.votePools = p.votePools →
    certType ∈ voteToCertTypes m.vote → q.TalliesOnce cl store m.vote certType

end

/-! ## The votes of a ledger -/

namespace Ledger
variable {cl : Cluster} {store : SignerStore} {led : Ledger Sig}

/-- All votes for a genesis block in a slot are for the same one. -/
def Uniform (led : Ledger Sig) : Prop :=
  ∀ m ∈ led, ∀ m' ∈ led, m.vote.getType = .genesis → m'.vote.getType = .genesis →
    m.vote.slot = m'.vote.slot → m.vote.blockId = m'.vote.blockId

/-- Distinct ranks are distinct vote accounts. -/
theorem keys_nodup {slot : ℕ} {votes : List (VoteMessage Sig)}
    (hlt : ∀ m ∈ votes, m.rank < (cl.stakesAt slot).entries.length)
    (h : (votes.map VoteMessage.rank).Nodup) :
    (votes.map fun m => (cl.stakesAt slot).keyOf m.rank).Nodup := by
  rw [nodup_iff_pairwise_ne, pairwise_map] at h ⊢
  refine h.imp_of_mem fun hm hm' hne heq => hne ?_
  exact (cl.stakesAt slot).rank_eq_of_keyOf (hlt _ hm) (hlt _ hm') heq

theorem mem_counted : m ∈ led.counted certType ↔ m ∈ led ∧ certType.Counts m.vote := by
  unfold counted
  rw [mem_filter, decide_eq_true_iff]

theorem WellFormed.counted_rank_lt (h : WellFormed cl led) (certType : CertificateType) :
    ∀ m ∈ led.counted certType, m.rank < (cl.stakesAt certType.slot).entries.length := by
  intro m hm
  obtain ⟨hled, hcounts⟩ := mem_counted.mp hm
  rw [← hcounts.1]
  exact h.rank_lt m hled

/-- **The counted votes back the certificate**, when a vote of the ledger is for it and the ledger
does not mix genesis blocks. -/
theorem backedBy_certificate [AddCommMonoid Sig] (hwf : led.WellFormed cl) (huniform : led.Uniform)
    (hagg : (led.certificate store certType).Aggregates store (led.counted certType)) (hm : m ∈ led)
    (hct : certType ∈ voteToCertTypes m.vote) (hdone : led.Completes cl certType) :
    (led.certificate store certType).BackedBy cl store (led.counted certType) where
  aggregates := hagg
  rank_lt := hwf.counted_rank_lt certType
  distinct := keys_nodup (hwf.counted_rank_lt certType) (hwf.counted_nodup certType)
  voteType := fun m' hm' => (mem_counted.mp hm').2.2.1
  slot := fun m' hm' => (mem_counted.mp hm').2.1
  block := by
    intro block hblock m' hm'
    obtain ⟨hled', hcounts'⟩ := mem_counted.mp hm'
    change certType.toBlock = some block at hblock
    obtain ⟨hcounts, -⟩ := mem_voteToCertTypes_iff.mp hct
    have hb : m.vote.blockId = some block.2 := by
      rw [← (voteToCertTypes_spec m.vote).2.1 certType hct, hblock]
      rfl
    by_cases hby : m'.vote.getType.isByBlock = true
    · rw [hcounts'.2.2 hby, hblock]
      rfl
    · -- only genesis votes have a block without being kept by it
      cases certType with
      | genesis s b =>
        obtain ⟨b1, hv1⟩ := counts_genesis.mp hcounts
        obtain ⟨b2, hv2⟩ := counts_genesis.mp hcounts'
        rw [← hb]
        exact huniform m' hled' m hm (by rw [hv2]; rfl) (by rw [hv1]; rfl) (by rw [hv1, hv2]; rfl)
      | finalize s | skip s => exact absurd hblock (by simp [toBlock])
      | notarize s b =>
        rw [counts_notarize.mp hcounts'] at hby
        exact absurd rfl hby
      | finalizeFast s b =>
        rw [counts_finalizeFast.mp hcounts'] at hby
        exact absurd rfl hby
      | notarizeFallback s b =>
        rcases counts_notarizeFallback.mp hcounts' with h | h <;>
        · rw [h] at hby
          exact absurd rfl hby
  stake := hdone

end Ledger

namespace ConsensusPool
variable {cl : Cluster} {store : SignerStore} {led : Ledger Sig} {p : ConsensusPool Sig}

/-- The slices of votes together are the votes that count. -/
theorem certificateVotes_flatten_perm (hp : p.Represents cl led) (certType : CertificateType) :
    (p.certificateVotes certType.slot (certType.toBlock.map Prod.snd)
      certType.limitsAndVoteTypes.2).flatten.Perm (led.counted certType) := by
  have hflatten : ∀ types : List VoteType, (types.filterMap fun ty =>
      if (led.countedOfType certType ty).isEmpty then none
      else some (led.countedOfType certType ty)).flatten =
        types.flatMap fun ty => led.countedOfType certType ty := by
    intro types
    induction types with
    | nil => rfl
    | cons ty types ih =>
      rw [filterMap_cons, flatMap_cons, ← ih]
      split_ifs with hempty
      · rw [isEmpty_iff.mp hempty, nil_append]
      · rw [flatten_cons]
  rw [certificateVotes_eq hp.pools, hflatten]
  exact led.flatMap_countedOfType_perm certType

theorem talliesOnce_of_represents [AddCommMonoid Sig] (store : SignerStore) {q : ConsensusPool Sig}
    (hq : q.Represents cl led) {v : Vote} (hct : certType ∈ voteToCertTypes v)
    : q.TalliesOnce cl store v certType := by
  obtain ⟨hslot, hblock, -⟩ := voteToCertTypes_spec v
  have hperm := certificateVotes_flatten_perm hq certType
  have hnodup := keys_nodup (hq.wellFormed.counted_rank_lt certType)
    (hq.wellFormed.counted_nodup certType)
  have hstake := accumulatedStake_eq hq.pools hq.wellFormed certType
  have hbuild := (buildCertificate_eq hq store certType).1
  rw [hslot certType hct, hblock certType hct] at hperm hstake hbuild
  rw [hslot certType hct] at hnodup
  refine ⟨?_, ?_, _, hbuild⟩
  · exact (hperm.map _).nodup_iff.mpr hnodup
  · rw [hstake, stake_perm hperm]

/-- A vote that passes the check for conflicts leaves a pool with a ledger. -/
theorem exists_represents_of_updateVotePool {p' : ConsensusPool Sig} (hp : p.Represents cl led)
    (hctx : ctx.Agrees cl) {key : Pubkey} {stake total : ℕ} {entryStake : Option ℕ}
    (hkey : getKeyAndStakes ctx m.vote.slot m.rank = some (.ok (key, stake, total)))
    (hconf : p.hasConflictingVote m.vote.slot m.vote.getType key m.vote.blockId = none)
    (hupdate : p.updateVotePool m key stake = some (entryStake, p')) :
    ∃ led', p'.Represents cl led' := by
  have hknows : ctx.Knows m := by
    by_contra hno
    obtain ⟨e, he⟩ := getKeyAndStakes_of_not_knows hno
    rw [he] at hkey
    exact absurd hkey (by simp)
  rw [getKeyAndStakes_of_knows hctx hknows] at hkey
  cases hkey
  have hrank := hctx.rank_lt hknows
  by_cases hm : led.Accepts m
  · rw [updateVotePool_of_accepts hp.pools hp.wellFormed hrank hm] at hupdate
    cases hupdate
    exact ⟨led ++ [m], rfl, hp.wellFormed.append hrank hm⟩
  · rw [hasConflictingVote_eq_none_iff hp.pools hp.wellFormed hrank] at hconf
    rw [updateVotePool_of_not_accepts hp.pools hp.wellFormed hrank hconf hm] at hupdate
    cases hupdate
    exact ⟨led, hp⟩

/-- The condition on the pool, said of the ledger. -/
theorem GenesisUniform.of_represents (hp : p.Represents cl led) (h : p.GenesisUniform m)
    (hty : m.vote.getType = .genesis) {m' : VoteMessage Sig} (hm' : m' ∈ led)
    (hty' : m'.vote.getType = .genesis) (hslot : m'.vote.slot = m.vote.slot) :
    m'.vote.blockId = m.vote.blockId := by
  have hmem := mem_ofType.mpr ⟨hm', hslot, hty'⟩
  refine h hty (simplePool cl m.vote.slot (led.ofType m.vote.slot .genesis)) ?_ m' hmem
  rw [hp.pools]
  unfold pools
  rw [if_neg]
  · rfl
  · rw [List.isEmpty_iff]
    exact ne_nil_of_mem hmem

end ConsensusPool

namespace Ledger
variable {led : Ledger Sig}

theorem Uniform.of_subset {led' : Ledger Sig} (h : led.Uniform) (hsub : ∀ m ∈ led', m ∈ led) :
    led'.Uniform :=
  fun m hm m' hm' => h m (hsub m hm) m' (hsub m' hm')

theorem Uniform.append (h : led.Uniform)
    (hm : m.vote.getType = .genesis → ∀ m' ∈ led, m'.vote.getType = .genesis →
      m'.vote.slot = m.vote.slot → m'.vote.blockId = m.vote.blockId) :
    Uniform (led ++ [m]) := by
  intro m1 hm1 m2 hm2 hty1 hty2 hslot
  rcases mem_append.mp hm1 with h1 | h1 <;> rcases mem_append.mp hm2 with h2 | h2
  · exact h m1 h1 m2 h2 hty1 hty2 hslot
  · cases mem_singleton.mp h2
    exact hm hty2 m1 h1 hty1 hslot
  · cases mem_singleton.mp h1
    exact (hm hty1 m2 h2 hty2 hslot.symm).symm
  · rw [mem_singleton.mp h1, mem_singleton.mp h2]

end Ledger

/-! ## Every run -/

namespace PoolHistory
variable [AddCommMonoid Sig] {cl : Cluster} {store : SignerStore}

/-- What every call keeps: the pool has a ledger of delivered votes that does not mix genesis
blocks, and what was built is backed. -/
structure Invariant (cl : Cluster) (store : SignerStore) (w : PoolHistory Sig) (led : Ledger Sig) :
    Prop where
  represents : w.pool.Represents cl led
  delivered : ∀ m ∈ led, m ∈ w.delivered
  uniform : led.Uniform
  backed : ∀ cert ∈ w.built, ∃ votes, (∀ m ∈ votes, m ∈ w.delivered) ∧ cert.BackedBy cl store votes

variable {w : PoolHistory Sig} {led : Ledger Sig} {rootSlot : ℕ} {p : ConsensusPool Sig}
  {w' : PoolHistory Sig}

theorem Invariant.vote (hw : w.Invariant cl store led) {events events' : List VotorEvent}
    {answer : Except AddVoteError (List (Certificate Sig))} (hctx : ctx.Agrees cl)
    (hstore : ctx.store = store) (hmeets : w.pool.GenesisUniform m)
    (h : w.pool.addVote ctx rootSlot m events = some (answer, p, events')) :
    ∃ led', Invariant cl store
      ⟨p, w.delivered ++ [m], w.built ++ answer.toOption.getD []⟩ led' := by
  have hold : ∀ cert ∈ w.built, ∃ votes, (∀ m' ∈ votes, m' ∈ w.delivered ++ [m]) ∧
      cert.BackedBy cl store votes := by
    intro cert hcert
    obtain ⟨votes, hsub, hback⟩ := hw.backed cert hcert
    exact ⟨votes, fun m' hm' => mem_append_left _ (hsub m' hm'), hback⟩
  rcases addVote_represents hctx hw.represents h with
    ⟨-, hsame, hnone⟩ | ⟨hadmits, hrep, hanswer⟩
  · -- nothing happened
    cases hsame
    have hempty : answer.toOption.getD [] = [] := by
      cases answer with
      | error e => rfl
      | ok certs => exact hnone certs rfl
    refine ⟨led, hw.represents, fun m' hm' => mem_append_left _ (hw.delivered m' hm'),
      hw.uniform, ?_⟩
    rwa [hempty, append_nil]
  · have huniform : Ledger.Uniform (led ++ [m]) := hw.uniform.append fun hty m' hm' hty' hslot =>
      hmeets.of_represents hw.represents hty hm' hty' hslot
    have hsub : ∀ m' ∈ led ++ [m], m' ∈ w.delivered ++ [m] := by
      intro m' hm'
      rcases mem_append.mp hm' with hm' | hm'
      · exact mem_append_left _ (hw.delivered m' hm')
      · exact mem_append_right _ hm'
    refine ⟨led ++ [m], hrep, hsub, huniform, ?_⟩
    intro cert hcert
    rcases mem_append.mp hcert with hcert | hcert
    · exact hold cert hcert
    · -- a certificate that this vote completed
      dsimp only at hanswer
      rw [hanswer] at hcert
      obtain ⟨ct, hct, rfl⟩ := mem_map.mp hcert
      rw [ConsensusPool.mem_completedBy] at hct
      rw [hstore]
      refine ⟨(led ++ [m]).counted ct, fun m' hm' => hsub m' (mem_counted.mp hm').1, ?_⟩
      exact backedBy_certificate hrep.wellFormed huniform
        (buildCertificate_eq hrep store ct).2
        (mem_append_right _ (mem_singleton_self m)) hct.1 hct.2.2

theorem Step.invariant (h : Step cl store ConsensusPool.GenesisUniform w w')
    (hw : w.Invariant cl store led) : ∃ led', w'.Invariant cl store led' := by
  cases h with
  | vote agrees store_eq meets adds => exact hw.vote agrees store_eq meets adds
  | certificate adds =>
    exact ⟨led, addCertificate_represents hw.represents adds, hw.delivered, hw.uniform, hw.backed⟩
  | prune rootSlot =>
    have hsub : ∀ m ∈ led.prune rootSlot, m ∈ led := fun m hm => mem_of_mem_filter hm
    exact ⟨led.prune rootSlot, represents_pruneOldState hw.represents rootSlot,
      fun m hm => hw.delivered m (hsub m hm), hw.uniform.of_subset hsub, hw.backed⟩
  | migrate phase =>
    exact ⟨led, ⟨hw.represents.pools, hw.represents.wellFormed⟩, hw.delivered, hw.uniform,
      hw.backed⟩

theorem Invariant.sound (hw : w.Invariant cl store led) : w.Sound cl store where
  backed := hw.backed
  tallies := by
    intro ctx m key stake total entryStake p q certType hctx hkey hconf hupdate hq hct
    obtain ⟨led', hp⟩ := exists_represents_of_updateVotePool hw.represents hctx hkey
      hconf hupdate
    exact talliesOnce_of_represents store ⟨hq.trans hp.pools, hp.wellFormed⟩ hct

theorem invariant_start (hp : p.IsFresh) : (start p).Invariant cl store [] where
  represents := by
    refine represents_nil ?_
    rcases hp with ⟨rootBlock, rfl⟩ | ⟨rootBlock, phase, rfl⟩ <;> rfl
  delivered := nofun
  uniform := nofun
  backed := nofun

/-- Add one vote. -/
def addVote (ctx : PoolContext) (rootSlot : ℕ) (m : VoteMessage Sig) (w : PoolHistory Sig) :
    Option (PoolHistory Sig) :=
  (w.pool.addVote ctx rootSlot m []).map fun r =>
    ⟨r.2.1, w.delivered ++ [m], w.built ++ r.1.toOption.getD []⟩

theorem step_of_addVote {cond : ConsensusPool Sig → VoteMessage Sig → Prop} (hctx : ctx.Agrees cl)
    (hstore : ctx.store = store) (hmeets : cond w.pool m) (h : w.addVote ctx rootSlot m = some w') :
    Step cl store cond w w' := by
  obtain ⟨r, hr, rfl⟩ := map_eq_some_iff.mp h
  exact .vote hctx hstore hmeets hr

/-- **Certificates built by a pool are backed, and building them never fails**: in every run in
which no vote for a genesis block arrives where the pool holds one for another genesis block of the
slot. -/
theorem sound_of_reaches {p : ConsensusPool Sig} (hp : p.IsFresh) {w : PoolHistory Sig}
    (h : Reaches cl store ConsensusPool.GenesisUniform (start p) w) : w.Sound cl store := by
  have hinv : ∃ led, w.Invariant cl store led := by
    induction h with
    | refl => exact ⟨[], invariant_start hp⟩
    | tail _ hstep ih =>
      obtain ⟨led, hled⟩ := ih
      exact hstep.invariant hled
  obtain ⟨led, hled⟩ := hinv
  exact hled.sound

/-! ## Two validators -/

/-- Two validators with the same stake. -/
def twoStakes : EpochStakes where
  entries := [(10, 1), (11, 1)]
  totalStake := 2
  nodup := by decide
  stake_pos := by decide
  sum_le := by decide
  total_le := two_le_u64Max
  length_le := by decide

def twoValidators : Cluster := ⟨fun _ => 0, fun _ => twoStakes⟩

/-- The first of them. -/
def firstOfTwo : PoolContext := ⟨fun _ => 0, fun _ => some twoStakes, 10, id, digitStore⟩

theorem firstOfTwo_agrees : firstOfTwo.Agrees twoValidators :=
  ⟨rfl, fun _ _ h => (some_inj.mp h).symm⟩

/-- Both validators vote to notarize a block. -/
theorem sound_twoNotarize :
    ∃ w : PoolHistory ℕ, Reaches twoValidators digitStore ConsensusPool.GenesisUniform
        (start (.newFromRootBank (0, 0))) w ∧
      w.built.map Certificate.certType = [.notarize 1 7, .notarizeFallback 1 7, .finalizeFast 1 7] ∧
      w.Sound twoValidators digitStore := by
  let w0 : PoolHistory ℕ := start (.newFromRootBank (0, 0))
  let w1 := (w0.addVote firstOfTwo 0 ⟨.notarize 1 7, 1, 0⟩).get (by decide)
  let w2 := (w1.addVote firstOfTwo 0 ⟨.notarize 1 7, 1, 1⟩).get (by decide)
  have h : Reaches twoValidators digitStore ConsensusPool.GenesisUniform w0 w2 :=
    .tail (.single (step_of_addVote firstOfTwo_agrees rfl (fun h => absurd h (by decide))
      (some_get _).symm))
      (step_of_addVote firstOfTwo_agrees rfl (fun h => absurd h (by decide))
        (some_get _).symm)
  exact ⟨w2, h, by decide, sound_of_reaches (.inl ⟨(0, 0), rfl⟩) h⟩

/-- **Votes for two genesis blocks.**  The second vote completes a genesis certificate for its
block, although half of the stake voted for another one. -/
theorem genesisMix_not_sound :
    ∃ w : PoolHistory ℕ, Reaches twoValidators digitStore (fun _ _ => True)
        (start (.newFromRootBank (0, 0))) w ∧
      w.delivered = [⟨.genesis 1 7, 1, 0⟩, ⟨.genesis 1 9, 1, 1⟩] ∧
      w.built = [⟨.genesis 1 9, 2, [1, 1]⟩] ∧ ¬w.Sound twoValidators digitStore := by
  let w0 : PoolHistory ℕ := start (.newFromRootBank (0, 0))
  let w1 := (w0.addVote firstOfTwo 0 ⟨.genesis 1 7, 1, 0⟩).get (by decide)
  let w2 := (w1.addVote firstOfTwo 0 ⟨.genesis 1 9, 1, 1⟩).get (by decide)
  have hbuilt : w2.built = [⟨.genesis 1 9, 2, [1, 1]⟩] := by decide
  have hdelivered : w2.delivered = [⟨.genesis 1 7, 1, 0⟩, ⟨.genesis 1 9, 1, 1⟩] := by decide
  refine ⟨w2, .tail (.single (step_of_addVote firstOfTwo_agrees rfl trivial
    (some_get _).symm)) (step_of_addVote firstOfTwo_agrees rfl trivial
      (some_get _).symm), hdelivered, hbuilt, fun hsound => ?_⟩
  obtain ⟨votes, hsub, hback⟩ := hsound.backed ⟨.genesis 1 9, 2, [1, 1]⟩ (by rw [hbuilt]; simp)
  -- the votes that back the certificate are for block 9, so the second validator's vote at most
  have hone : ∀ m ∈ votes, m = ⟨.genesis 1 9, 1, 1⟩ := by
    intro m hm
    have hblock := hback.block (1, 9) rfl m hm
    have hmem := hsub m hm
    rw [hdelivered] at hmem
    simp only [mem_cons, not_mem_nil, or_false] at hmem
    rcases hmem with rfl | rfl
    · exact absurd hblock (by decide)
    · rfl
  have hle : stake twoValidators 1 votes ≤ 1 := by
    have hnodup := hback.distinct
    match votes with
    | [] => exact Nat.zero_le _
    | [m] =>
      rw [hone m mem_cons_self]
      decide
    | m :: m' :: rest =>
      rw [hone m mem_cons_self, hone m' (mem_cons_of_mem _ mem_cons_self)] at hnodup
      exact absurd hnodup (by simp)
  have hstake : 82 * 2 ≤ stake twoValidators 1 votes * 100 := hback.stake
  omega

end PoolHistory
end FlowraValidator.Votor
