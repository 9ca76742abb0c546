import FlowraValidator.EpochRewards.InflationRewards
import FlowraValidator.Lib.Fallible
import FlowraValidator.Lib.OrdMap

/-!
# The calculation of the rewards of an epoch

The points of all stake delegations give the value of a point; with it each delegation is paid a
reward, and its vote account a commission. The commissions are added up by vote account, on
several threads: the delegations are cut into pieces, and the results of the pieces are merged.

* `VoteAccounts`, `cloneAndFilterForVat`: the cached vote accounts with their stakes.
* `redeemDelegationRewards`, `calculateValidatorRewards`: the rewards.
* `hashRewardsIntoPartitions`, `partition_hashRewardsIntoPartitions`: the blocks they are paid in.
* `Split.accountsFrom_reduce`, `commissionAccounts_spec`: the commission account that is kept is the
  vote account.
-/

namespace FlowraValidator.EpochRewards
open Function List Option OrdMap Std.ExtTreeMap

structure Account (K D : Type) where
  lamports : ℕ
  owner : K
  data : D
deriving DecidableEq

structure VoteStateView where
  credits : ℕ
  epochCredits : List (ℕ × ℕ × ℕ)
  commission : ℕ
  inflationRewardsCommission : ℕ
  blsPubkeyCompressed : Option (List UInt8)

structure VoteAccount (K D : Type) where
  account : Account K D
  voteStateView : VoteStateView

/-- A stake account whose state is a stake. -/
structure StakeAccount (K D : Type) where
  account : Account K D
  stake : Stake K

/-- Vote accounts with the stakes delegated to them. -/
abbrev VoteAccounts (K D : Type) [LinearOrder K] := OrdMap K (ℕ × VoteAccount K D)

/-- The features that the calculation asks for. -/
structure Features where
  alpenglow : Bool
  validatorAdmissionTicket : Bool
  delayCommissionUpdates : Bool
  commissionRateInBasisPoints : Bool
  stakeMinimumDelegationForRewards : Bool
  stakeRaiseMinimumDelegationTo1Sol : Bool

/-- What is fixed for the banks of an epoch. The effective stake of a delegation and the history
of stakes belong to the stake interface, the pool of rewards comes from the inflation. -/
structure Env (K H : Type) where
  features : Features
  /-- `Delegation::stake`, at an epoch and with a history. -/
  stakeAt : H → Delegation K → ℕ → ℕ
  /-- `StakeHistory::add` of the entry that all delegations make for an epoch. -/
  addHistory : H → ℕ → List (Delegation K) → H
  /-- `calculate_epoch_inflation_rewards`, of a capitalization and an epoch. -/
  validatorRewardsLamports : ℕ → ℕ → ℕ
  /-- `Rent::minimum_balance` of a vote account. -/
  voteAccountRentExemptMinimum : ℕ
  voteProgram : K
  incinerator : K
  /-- `Pubkey::default`, the owner of an account that does not exist. -/
  defaultPubkey : K
  /-- `epoch_schedule.warmup` and its first normal epoch. -/
  warmup : Bool
  firstNormalEpoch : ℕ
  slotsPerEpoch : ℕ
  stakeAccountStoresPerBlock : ℕ
  /-- `hash_address_to_partition`, with the number of partitions and the hash of the parent. -/
  hashAddressToPartition : ℕ → ℕ → K → ℕ

/-- `VAT_TO_BURN_PER_EPOCH`. -/
def vatToBurnPerEpoch : ℕ := 1600000000

/-- `MAX_ALPENGLOW_VOTE_ACCOUNTS`. -/
def maxAlpenglowVoteAccounts : ℕ := 2000

/-- `LAMPORTS_PER_SOL`. -/
def lamportsPerSol : ℕ := 1000000000

section
variable {K D H : Type} [LinearOrder K]

/-- `VoteAccounts::clone_and_filter_for_vat`. Above the limit, the entry at its index in the order
of falling stakes gives the stake that has to be exceeded. -/
def cloneAndFilterForVat (voteAccounts : VoteAccounts K D)
    (maxVoteAccounts minimumVoteAccountBalance : ℕ) : VoteAccounts K D :=
  let valid := voteAccounts.filter fun _ entry =>
    entry.2.voteStateView.blsPubkeyCompressed.isSome && decide (entry.1 ≠ 0) &&
      decide (minimumVoteAccountBalance ≤ entry.2.account.lamports)
  match ((valid.toList.map fun e => e.2.1).insertionSort (· ≥ ·))[maxVoteAccounts]? with
  | none => valid
  | some floorStake => valid.filter fun _ entry => decide (floorStake < entry.1)

theorem get_of_get_cloneAndFilterForVat {voteAccounts : VoteAccounts K D} {limit balance : ℕ}
    {k : K} {entry : ℕ × VoteAccount K D}
    (h : (cloneAndFilterForVat voteAccounts limit balance)[k]? = some entry) :
    voteAccounts[k]? = some entry := by
  rw [cloneAndFilterForVat] at h
  split at h
  · rw [getElem?_filter'] at h
    exact (filter_eq_some_iff.mp h).1
  · rw [getElem?_filter', getElem?_filter'] at h
    exact (filter_eq_some_iff.mp (filter_eq_some_iff.mp h).1).1

/-! ## Redeeming a delegation -/

structure PartitionedStakeReward (K : Type) where
  stakePubkey : K
  stake : Stake K
  stakeReward : ℕ
  commissionBps : ℕ
deriving DecidableEq

structure RewardCommission (K D : Type) where
  commissionBps : ℕ
  commissionAccount : Account K D
  commissionLamports : ℕ

structure DelegationRewards (K D : Type) where
  stakeReward : PartitionedStakeReward K
  commissionPubkey : K
  rewardCommission : RewardCommission K D

/-- Vote accounts of the epoch before the rewarded one, of the rewarded one and of the next. -/
structure CachedVoteAccounts (K D : Type) [LinearOrder K] where
  snapshotEpoch : Option (VoteAccounts K D)
  rewardedEpoch : Option (VoteAccounts K D)
  distributionEpoch : VoteAccounts K D

/-- `DelegatedVoteState::from`. -/
def VoteStateView.delegated (view : VoteStateView) : DelegatedVoteState :=
  ⟨view.credits, view.epochCredits⟩

/-- `VoteAccounts::get`. -/
def getVoteAccount (voteAccounts : VoteAccounts K D) (votePubkey : K) : Option (VoteAccount K D) :=
  voteAccounts[votePubkey]?.map Prod.snd

/-- The commission in basis points, of past epochs when updates are delayed. -/
def commissionBps (features : Features) (cached : CachedVoteAccounts K D) (votePubkey : K)
    (voteState : VoteStateView) : ℕ :=
  let voteState :=
    if features.delayCommissionUpdates then
      (((cached.snapshotEpoch.bind (getVoteAccount · votePubkey)).or
        (cached.rewardedEpoch.bind (getVoteAccount · votePubkey))).map
          VoteAccount.voteStateView).getD voteState
    else voteState
  if features.commissionRateInBasisPoints then voteState.inflationRewardsCommission
  else voteState.commission * 100

variable (env : Env K H)

/-- `redeem_delegation_rewards`. -/
def redeemDelegationRewards (rewardedEpoch : ℕ) (stakePubkey : K) (stakeAccount : StakeAccount K D)
    (pointValue : PointValue) (stakeHistory : H) (cached : CachedVoteAccounts K D) :
    Option (Option (DelegationRewards K D)) :=
  let votePubkey := stakeAccount.stake.delegation.voterPubkey
  match getVoteAccount cached.distributionEpoch votePubkey with
  | none => some none
  | some voteAccount =>
    let commissionBps := commissionBps env.features cached votePubkey voteAccount.voteStateView
    (redeemRewards (env.stakeAt stakeHistory stakeAccount.stake.delegation) rewardedEpoch
      stakeAccount.stake pointValue commissionBps voteAccount.voteStateView.delegated).map fun
      | .error _ => none
      | .ok (stakeReward, commissionLamports, stake) => some
          { stakeReward := ⟨stakePubkey, stake, stakeReward, commissionBps⟩
            commissionPubkey := votePubkey
            rewardCommission := ⟨commissionBps, voteAccount.account, commissionLamports⟩ }

/-- `FilteredStakeDelegations::par_iter`: delegations below the minimum count as absent. -/
def keepsDelegation (features : Features) (stakeAccount : StakeAccount K D) : Bool :=
  !features.stakeMinimumDelegationForRewards ||
    decide (max (if features.stakeRaiseMinimumDelegationTo1Sol then lamportsPerSol else 1)
      lamportsPerSol ≤ stakeAccount.stake.delegation.stake)

/-- What one delegation is paid, if anything. -/
def redeemFiltered (rewardedEpoch : ℕ) (pointValue : PointValue) (stakeHistory : H)
    (cached : CachedVoteAccounts K D) (delegation : K × StakeAccount K D) :
    Option (Option (DelegationRewards K D)) :=
  if keepsDelegation env.features delegation.2 then
    redeemDelegationRewards env rewardedEpoch delegation.1 delegation.2 pointValue stakeHistory
      cached
  else some none

/-! ## Adding up -/

/-- `u64::saturating_add`. -/
def saturatingAdd (a b : ℕ) : ℕ := min (a + b) (2 ^ 64 - 1)

structure RewardsAccumulator (K D : Type) [LinearOrder K] where
  rewardCommissions : OrdMap K (RewardCommission K D)
  numStakeRewards : ℕ
  totalStakeRewardsLamports : ℕ

namespace RewardsAccumulator

/-- `RewardsAccumulator::default`. -/
def default : RewardsAccumulator K D := ⟨∅, 0, 0⟩

/-- The entry of a vote account after one more commission. -/
def addCommission (commissions : OrdMap K (RewardCommission K D))
    (entry : K × RewardCommission K D) : OrdMap K (RewardCommission K D) :=
  commissions.insert entry.1 <|
    match commissions[entry.1]? with
    | none => entry.2
    | some dst => { dst with
        commissionLamports := saturatingAdd dst.commissionLamports entry.2.commissionLamports }

/-- `add_reward`. -/
def addReward (acc : RewardsAccumulator K D) (rewards : DelegationRewards K D) :
    RewardsAccumulator K D where
  rewardCommissions := addCommission acc.rewardCommissions
    (rewards.commissionPubkey, rewards.rewardCommission)
  numStakeRewards := saturatingAdd acc.numStakeRewards 1
  totalStakeRewardsLamports :=
    saturatingAdd acc.totalStakeRewardsLamports rewards.stakeReward.stakeReward

/-- `accumulate_into_larger`, into the first. -/
def accumulate (dst src : RewardsAccumulator K D) : RewardsAccumulator K D where
  rewardCommissions := src.rewardCommissions.toList.foldl addCommission dst.rewardCommissions
  numStakeRewards := saturatingAdd dst.numStakeRewards src.numStakeRewards
  totalStakeRewardsLamports :=
    saturatingAdd dst.totalStakeRewardsLamports src.totalStakeRewardsLamports

/-- `accumulate_into_larger`. -/
def accumulateIntoLarger (a b : RewardsAccumulator K D) : RewardsAccumulator K D :=
  if a.rewardCommissions.size ≥ b.rewardCommissions.size then accumulate a b else accumulate b a

end RewardsAccumulator

/-- A list that is cut into pieces, and the order in which their results are merged. -/
inductive Split (α : Type) where
  | piece (items : List α)
  | merge (left right : Split α)

namespace Split

def items {α : Type} : Split α → List α
  | piece items => items
  | merge left right => left.items ++ right.items

/-- `fold` on the pieces and `reduce` of the results. -/
def reduce : Split (DelegationRewards K D) → RewardsAccumulator K D
  | piece items => items.foldl RewardsAccumulator.addReward RewardsAccumulator.default
  | merge left right => RewardsAccumulator.accumulateIntoLarger left.reduce right.reduce

end Split

/-- The ways to cut lists. -/
abbrev Cut (α : Type) := (l : List α) → { split : Split α // split.items = l }

structure RewardInfo where
  lamports : ℕ
  postBalance : ℕ
  commissionBps : Option ℕ

structure RewardCommissionAccounts (K D : Type) where
  accountsWithRewards : List (K × RewardInfo × Account K D)
  totalRewardCommissionLamports : ℕ

/-- `calculate_commission_accounts`; an account that would overflow is left out. -/
def calculateCommissionAccounts (rewardCommissions : OrdMap K (RewardCommission K D)) :
    RewardCommissionAccounts K D :=
  let accounts := rewardCommissions.toList.filterMap fun (commissionPubkey, commission) =>
    let lamports := commission.commissionAccount.lamports + commission.commissionLamports
    if 2 ^ 64 ≤ lamports then none
    else some (commissionPubkey,
      ⟨commission.commissionLamports, lamports, some commission.commissionBps⟩,
      { commission.commissionAccount with lamports })
  ⟨accounts, (accounts.map fun e => e.2.1.lamports).sum⟩

/-- The rewards of the delegations, in their order, and how many there are. -/
structure PartitionedStakeRewards (K : Type) where
  rewards : List (Option (PartitionedStakeReward K))
  numRewards : ℕ

structure StakeRewardCalculation (K : Type) where
  stakeRewards : PartitionedStakeRewards K
  totalStakeRewardsLamports : ℕ

variable (cut : Cut (DelegationRewards K D))

/-- `calculate_stake_rewards_and_commissions`. -/
def calculateStakeRewardsAndCommissions (stakeHistory : H)
    (stakeDelegations : List (K × StakeAccount K D)) (cached : CachedVoteAccounts K D)
    (rewardedEpoch : ℕ) (pointValue : PointValue) :
    Option (RewardCommissionAccounts K D × StakeRewardCalculation K) := do
  let rewards ← stakeDelegations.mapM
    (redeemFiltered env rewardedEpoch pointValue stakeHistory cached)
  let acc := (cut (rewards.filterMap id)).1.reduce
  some (calculateCommissionAccounts acc.rewardCommissions,
    ⟨⟨rewards.map (Option.map DelegationRewards.stakeReward), acc.numStakeRewards⟩,
      acc.totalStakeRewardsLamports⟩)

/-- The points of one delegation. -/
def delegationPoints (stakeHistory : H) (voteAccounts : VoteAccounts K D)
    (delegation : K × StakeAccount K D) : ℕ :=
  if keepsDelegation env.features delegation.2 then
    let stake := delegation.2.stake
    match getVoteAccount voteAccounts stake.delegation.voterPubkey with
    | none => 0
    | some voteAccount =>
      if voteAccount.account.owner ≠ env.voteProgram then 0
      else (calculateStakePointsAndCredits (env.stakeAt stakeHistory stake.delegation) stake
        voteAccount.voteStateView.delegated).points
  else 0

/-- `calculate_reward_points_partitioned`; the sum is one of `u128`. -/
def calculateRewardPointsPartitioned (stakeHistory : H)
    (stakeDelegations : List (K × StakeAccount K D)) (cached : CachedVoteAccounts K D)
    (rewards : ℕ) : Option PointValue :=
  let points := (stakeDelegations.map
    (delegationPoints env stakeHistory cached.distributionEpoch)).sum % 2 ^ 128
  if 0 < points then some ⟨rewards, points⟩ else none

structure CalculateValidatorRewardsResult (K D : Type) where
  rewardCommissionAccounts : RewardCommissionAccounts K D
  stakeRewardCalculation : StakeRewardCalculation K
  pointValue : PointValue

/-- `calculate_validator_rewards`, with the default result where there are no points. -/
def calculateValidatorRewards (stakeHistory : H) (stakeDelegations : List (K × StakeAccount K D))
    (cached : CachedVoteAccounts K D) (rewardedEpoch rewards : ℕ) :
    Option (CalculateValidatorRewardsResult K D) :=
  match calculateRewardPointsPartitioned env stakeHistory stakeDelegations cached rewards with
  | none => some ⟨⟨[], 0⟩, ⟨⟨[], 0⟩, 0⟩, ⟨0, 0⟩⟩
  | some pointValue =>
    (calculateStakeRewardsAndCommissions env cut stakeHistory stakeDelegations cached rewardedEpoch
      pointValue).map fun result => ⟨result.1, result.2, pointValue⟩

/-! ## Partitions -/

/-- The index of a reward is added to the partition of its stake account. -/
def pushIndex (partitionOf : K → ℕ) (indices : List (List ℕ))
    (e : Option (PartitionedStakeReward K) × ℕ) : List (List ℕ) :=
  match e.1 with
  | none => indices
  | some reward => indices.modify (partitionOf reward.stakePubkey) (· ++ [e.2])

/-- `hash_rewards_into_partitions`. -/
def hashRewardsIntoPartitions (stakeRewards : PartitionedStakeRewards K)
    (parentBlockhash numPartitions : ℕ) : List (List ℕ) :=
  stakeRewards.rewards.zipIdx.foldl
    (pushIndex (env.hashAddressToPartition numPartitions parentBlockhash))
    (List.replicate numPartitions [])

/-- The rewards of a partition. -/
def partition (stakeRewards : PartitionedStakeRewards K) (partitionIndices : List (List ℕ))
    (partitionIndex : ℕ) : List (PartitionedStakeReward K) :=
  (partitionIndices[partitionIndex]?.getD []).filterMap fun i => stakeRewards.rewards[i]?.join

omit [LinearOrder K] in
theorem get_foldl_pushIndex (partitionOf : K → ℕ) (p : ℕ)
    (es : List (Option (PartitionedStakeReward K) × ℕ)) (indices : List (List ℕ)) :
    (es.foldl (pushIndex partitionOf) indices)[p]? = indices[p]?.map (· ++
      (es.filter fun e => e.1.any fun r => decide (partitionOf r.stakePubkey = p)).map
        Prod.snd) := by
  induction es generalizing indices with
  | nil => simp
  | cons e es ih =>
    rw [foldl_cons, ih, pushIndex]
    obtain ⟨_ | reward, i⟩ := e
    · simp
    · rw [getElem?_modify, filter_cons]
      by_cases hp : partitionOf reward.stakePubkey = p
      · cases indices[p]? <;> simp [hp]
      · cases indices[p]? <;> simp [hp]

omit [LinearOrder K] in
/-- **Partitions.** The rewards of a partition are those whose stake accounts belong to it, in
their order. -/
theorem partition_hashRewardsIntoPartitions (stakeRewards : PartitionedStakeRewards K)
    {parentBlockhash numPartitions p : ℕ} (hp : p < numPartitions) :
    partition stakeRewards
        (hashRewardsIntoPartitions env stakeRewards parentBlockhash numPartitions) p =
      (stakeRewards.rewards.filterMap id).filter fun r =>
        decide (env.hashAddressToPartition numPartitions parentBlockhash r.stakePubkey = p) := by
  rw [partition, hashRewardsIntoPartitions, get_foldl_pushIndex, getElem?_replicate_of_lt hp,
    map_some, getD_some, nil_append, filterMap_map, filterMap_filter, filter_filterMap]
  conv_rhs => rw [← zipIdx_map_fst 0 stakeRewards.rewards, filterMap_map]
  refine filterMap_congr fun e he => ?_
  rw [comp_apply, mk_mem_zipIdx_iff_getElem?.mp he]
  obtain ⟨_ | reward, i⟩ := e
  · rfl
  · simp [Option.filter]

/-! ## Commission accounts -/

/-- Every commission account is one that `P` allows for its key. -/
def AccountsFrom (P : K → Account K D → Prop) (commissions : OrdMap K (RewardCommission K D)) :
    Prop :=
  ∀ k c, commissions[k]? = some c → P k c.commissionAccount

namespace RewardsAccumulator
variable {P : K → Account K D → Prop}

theorem accountsFrom_addCommission {commissions : OrdMap K (RewardCommission K D)}
    {entry : K × RewardCommission K D} (h : AccountsFrom P commissions)
    (hentry : P entry.1 entry.2.commissionAccount) :
    AccountsFrom P (addCommission commissions entry) := by
  intro k c hget
  rw [addCommission, get_insert] at hget
  split_ifs at hget with heq
  · subst heq
    cases hdst : commissions[entry.1]? with
    | none =>
      rw [hdst] at hget
      cases hget
      exact hentry
    | some dst =>
      rw [hdst] at hget
      cases hget
      exact h entry.1 dst hdst
  · exact h k c hget

theorem accountsFrom_foldl (entries : List (K × RewardCommission K D)) :
    ∀ {commissions : OrdMap K (RewardCommission K D)}, AccountsFrom P commissions →
      (∀ entry ∈ entries, P entry.1 entry.2.commissionAccount) →
      AccountsFrom P (entries.foldl addCommission commissions) := by
  induction entries with
  | nil => exact fun h _ => h
  | cons entry entries ih =>
    intro commissions h hentries
    exact ih (accountsFrom_addCommission h (hentries entry mem_cons_self))
      fun e he => hentries e (mem_cons_of_mem _ he)

theorem accountsFrom_accumulate {dst src : RewardsAccumulator K D}
    (hdst : AccountsFrom P dst.rewardCommissions) (hsrc : AccountsFrom P src.rewardCommissions) :
    AccountsFrom P (accumulate dst src).rewardCommissions :=
  accountsFrom_foldl _ hdst fun e he => hsrc e.1 e.2 ((mem_toList_iff _ e.1).mp he)

end RewardsAccumulator

/-- **Commission accounts.** However the rewards were added up, the account kept for a key is the
one some reward came with. -/
theorem Split.accountsFrom_reduce {P : K → Account K D → Prop}
    (split : Split (DelegationRewards K D))
    (h : ∀ r ∈ split.items, P r.commissionPubkey r.rewardCommission.commissionAccount) :
    AccountsFrom P split.reduce.rewardCommissions := by
  induction split with
  | piece items =>
    have hfold : (items.foldl RewardsAccumulator.addReward RewardsAccumulator.default
          ).rewardCommissions =
        (items.map fun r => (r.commissionPubkey, r.rewardCommission)).foldl
          RewardsAccumulator.addCommission ∅ := by
      rw [foldl_map]
      exact (foldl_hom RewardsAccumulator.rewardCommissions fun _ _ => rfl).symm
    rw [Split.reduce, hfold]
    refine RewardsAccumulator.accountsFrom_foldl _ (fun k c hget => ?_) fun e he => ?_
    · rw [getElem?_empty] at hget
      cases hget
    · obtain ⟨r, hr, rfl⟩ := mem_map.mp he
      exact h r hr
  | merge left right ihl ihr =>
    have hl := ihl fun r hr => h r (mem_append_left _ hr)
    have hr := ihr fun r hr => h r (mem_append_right _ hr)
    rw [Split.reduce, RewardsAccumulator.accumulateIntoLarger]
    split_ifs
    · exact RewardsAccumulator.accountsFrom_accumulate hl hr
    · exact RewardsAccumulator.accountsFrom_accumulate hr hl

variable {env cut} {stakeHistory : H} {cached : CachedVoteAccounts K D}

/-- A commission belongs to the vote account of the delegation. -/
theorem voteAccount_of_redeemFiltered {rewardedEpoch : ℕ} {pointValue : PointValue}
    {delegation : K × StakeAccount K D} {r : DelegationRewards K D}
    (h : redeemFiltered env rewardedEpoch pointValue stakeHistory cached delegation =
      some (some r)) :
    (getVoteAccount cached.distributionEpoch r.commissionPubkey).map VoteAccount.account =
      some r.rewardCommission.commissionAccount := by
  rw [redeemFiltered, redeemDelegationRewards] at h
  split_ifs at h with hkeeps
  · split at h
    · cases h
    · next voteAccount hget =>
      obtain ⟨result, -, hresult⟩ := map_eq_some_iff.mp h
      split at hresult
      · cases hresult
      · cases hresult
        rw [hget]
        rfl
  · cases h

/-- **The commission accounts.** There is one for each key, the vote account plus its commission. -/
theorem commissionAccounts_spec {stakeDelegations : List (K × StakeAccount K D)}
    {rewardedEpoch rewards : ℕ} {result : CalculateValidatorRewardsResult K D}
    (h : calculateValidatorRewards env cut stakeHistory stakeDelegations cached rewardedEpoch
      rewards = some result) :
    (result.rewardCommissionAccounts.accountsWithRewards.map Prod.fst).Nodup ∧
      (∀ e ∈ result.rewardCommissionAccounts.accountsWithRewards, ∃ voteAccount,
        getVoteAccount cached.distributionEpoch e.1 = some voteAccount ∧
          e.2.2.lamports = voteAccount.account.lamports + e.2.1.lamports) ∧
      result.rewardCommissionAccounts.totalRewardCommissionLamports =
        (result.rewardCommissionAccounts.accountsWithRewards.map fun e => e.2.1.lamports).sum := by
  rw [calculateValidatorRewards] at h
  split at h
  · cases h
    exact ⟨nodup_nil, by simp, rfl⟩
  · obtain ⟨⟨commissions, stakeRewards⟩, hcalc, rfl⟩ := map_eq_some_iff.mp h
    rw [calculateStakeRewardsAndCommissions] at hcalc
    obtain ⟨results, hresults, hcommissions⟩ := bind_eq_some_iff.mp hcalc
    cases hcommissions
    have hfrom := Split.accountsFrom_reduce (cut (results.filterMap id)).1
      (P := fun k account =>
        (getVoteAccount cached.distributionEpoch k).map VoteAccount.account = some account) <| by
      intro r hr
      rw [(cut _).2, mem_filterMap] at hr
      obtain ⟨r', hr', rfl⟩ := hr
      have hmem := mem_map_of_mem (f := some) hr'
      rw [← Fallible.mapM_eq_some_iff.mp hresults, List.mem_map] at hmem
      obtain ⟨delegation, -, hredeem⟩ := hmem
      exact voteAccount_of_redeemFiltered hredeem
    refine ⟨?_, fun e he => ?_, rfl⟩
    · refine pairwise_map.mpr ?_
      refine (pairwise_toList _).filterMap _ fun a a' hlt e he e' he' => ?_
      simp only at he he'
      split_ifs at he he'
      cases he
      cases he'
      exact hlt.ne
    · obtain ⟨⟨k, c⟩, hmem, he⟩ := mem_filterMap.mp he
      simp only at he
      split_ifs at he
      cases he
      obtain ⟨voteAccount, hget, haccount⟩ :=
        map_eq_some_iff.mp (hfrom k c ((mem_toList_iff _ k).mp hmem))
      exact ⟨voteAccount, hget, by rw [haccount]⟩

end
end FlowraValidator.EpochRewards
