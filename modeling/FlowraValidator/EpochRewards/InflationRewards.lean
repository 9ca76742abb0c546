import Mathlib

/-!
# Points of a stake and its share of the rewards

A vote account records how many credits it had at the start and the end of each epoch. A stake
earns a point for each of its lamports and each credit it has not been paid for; all rewards of an
epoch are split in the proportion of the points, and each share between voter and staker.

* `calculateStakePointsAndCredits`, `calculateStakeRewards`, `redeemRewards`: the functions of
  `inflation_rewards`.
-/

namespace FlowraValidator.EpochRewards

/-- `Delegation` of the stake interface. -/
structure Delegation (K : Type) where
  voterPubkey : K
  stake : ℕ
  activationEpoch : ℕ
  deactivationEpoch : ℕ
deriving DecidableEq

structure Stake (K : Type) where
  delegation : Delegation K
  creditsObserved : ℕ
deriving DecidableEq

structure PointValue where
  rewards : ℕ
  points : ℕ

structure CalculatedStakePoints where
  points : ℕ
  newCreditsObserved : ℕ
  forceCreditsUpdateWithSkippedReward : Bool

/-- The credits of a vote account, and its items (epoch, final credits, initial credits). -/
structure DelegatedVoteState where
  credits : ℕ
  epochCredits : List (ℕ × ℕ × ℕ)

structure CalculatedStakeRewards where
  stakerRewards : ℕ
  voterRewards : ℕ
  newCreditsObserved : ℕ

inductive StakeError where
  | noCreditsToRedeem
deriving DecidableEq

variable {K : Type}

/-- The credits of one item that the stake has not been paid for; `u64` subtraction wraps. -/
def earnedCredits (creditsInStake newCreditsObserved finalCredits initialCredits : ℕ) : ℕ :=
  if creditsInStake < initialCredits then (finalCredits + 2 ^ 64 - initialCredits) % 2 ^ 64
  else if creditsInStake < finalCredits then (finalCredits + 2 ^ 64 - newCreditsObserved) % 2 ^ 64
  else 0

/-- One round of the loop over the items, on the points and the credits observed. -/
def addItem (stakeAt : ℕ → ℕ) (creditsInStake : ℕ) (acc : ℕ × ℕ) (item : ℕ × ℕ × ℕ) : ℕ × ℕ :=
  ((acc.1 + stakeAt item.1 * earnedCredits creditsInStake acc.2 item.2.1 item.2.2) % 2 ^ 128,
    max acc.2 item.2.1)

/-- `calculate_stake_points_and_credits`; `stakeAt` is the effective stake at an epoch. -/
def calculateStakePointsAndCredits (stakeAt : ℕ → ℕ) (stake : Stake K)
    (voteState : DelegatedVoteState) : CalculatedStakePoints :=
  if voteState.credits < stake.creditsObserved then ⟨0, voteState.credits, true⟩
  else if voteState.credits = stake.creditsObserved then ⟨0, stake.creditsObserved, false⟩
  else
    let acc := voteState.epochCredits.foldl (addItem stakeAt stake.creditsObserved)
      (0, stake.creditsObserved)
    ⟨acc.1, acc.2, false⟩

/-- `commission_split`: the parts of voter and staker, and whether both should get one. -/
def commissionSplit (commissionBps on : ℕ) : ℕ × ℕ × Bool :=
  let split := min commissionBps 10000
  if split = 0 then (0, on, false)
  else if split = 10000 then (on, 0, false)
  else (on * split / 10000, on * (10000 - split) / 10000, true)

/-- `calculate_stake_rewards`; the outer `none` is a failed `expect`. -/
def calculateStakeRewards (stakeAt : ℕ → ℕ) (rewardedEpoch : ℕ) (stake : Stake K)
    (pointValue : PointValue) (voterCommissionBps : ℕ) (voteState : DelegatedVoteState) :
    Option (Option CalculatedStakeRewards) :=
  let calculated := calculateStakePointsAndCredits stakeAt stake voteState
  if calculated.forceCreditsUpdateWithSkippedReward ∨ pointValue.rewards = 0 ∨
      stake.delegation.activationEpoch = rewardedEpoch then
    some (some ⟨0, 0, calculated.newCreditsObserved⟩)
  else if calculated.points = 0 ∨ pointValue.points = 0 then some none
  else if 2 ^ 128 ≤ calculated.points * pointValue.rewards then none
  else
    let rewards := calculated.points * pointValue.rewards / pointValue.points
    if 2 ^ 64 ≤ rewards then none
    else
      let split := commissionSplit voterCommissionBps rewards
      if rewards = 0 ∨ ((split.1 = 0 ∨ split.2.1 = 0) ∧ split.2.2) then some none
      else some (some ⟨split.2.1, split.1, calculated.newCreditsObserved⟩)

/-- `redeem_rewards` with `redeem_stake_rewards`: the rewards of staker and voter, and the stake
with them. The state of a cached stake account is always a stake. -/
def redeemRewards (stakeAt : ℕ → ℕ) (rewardedEpoch : ℕ) (stake : Stake K) (pointValue : PointValue)
    (voterCommissionBps : ℕ) (voteState : DelegatedVoteState) :
    Option (Except StakeError (ℕ × ℕ × Stake K)) :=
  (calculateStakeRewards stakeAt rewardedEpoch stake pointValue voterCommissionBps voteState).map
    fun
    | none => .error .noCreditsToRedeem
    | some rewards => .ok (rewards.stakerRewards, rewards.voterRewards,
        { delegation := { stake.delegation with
            stake := (stake.delegation.stake + rewards.stakerRewards) % 2 ^ 64 }
          creditsObserved := rewards.newCreditsObserved })

end FlowraValidator.EpochRewards
