import FlowraValidator.EpochRewards.Calculation

/-!
# The first block of an epoch

The first block of an epoch calculates the rewards of the last one, saves the stakes for the epochs
to come, charges the admitted vote accounts for their tickets, and pays the commissions.

* `Bank.processNewEpoch`: the block, with the tickets and the commissions.
* `Tickets`, `Bank.tickets_of_updateEpochStakes`: what the tickets do to the balances.
* `Bank.conserves_iff`: when the balances are as they should be afterwards.
* `Bank.ticket_given_back`: a vote account that is charged, and paid a commission.
* `VatEntry.cloneAndFilterForVat_admits`: the accounts that are kept are those of small rank, in
  whatever order they came, and they can pay for their tickets.
-/

namespace FlowraValidator.EpochRewards
open List Option OrdMap Std.ExtTreeMap Prod

structure Stakes (K D H : Type) [LinearOrder K] where
  voteAccounts : VoteAccounts K D
  stakeDelegations : OrdMap K (StakeAccount K D)
  epoch : ℕ
  stakeHistory : H

/-- The content of the sysvar account. -/
structure EpochRewardsSysvar where
  distributionStartingBlockHeight : ℕ
  numPartitions : ℕ
  parentBlockhash : ℕ
  totalPoints : ℕ
  totalRewards : ℕ
  distributedRewards : ℕ
  active : Bool

inductive EpochRewardStatus (K : Type) where
  | inactive
  | calculation (distributionStartingBlockHeight : ℕ)
      (allStakeRewards : PartitionedStakeRewards K)
  | distribution (distributionStartingBlockHeight : ℕ)
      (allStakeRewards : PartitionedStakeRewards K) (partitionIndices : List (List ℕ))

structure Bank (K D H : Type) [LinearOrder K] where
  accounts : OrdMap K (Account K D)
  capitalization : ℕ
  stakes : Stakes K D H
  epochStakes : OrdMap ℕ (Stakes K D H)
  epoch : ℕ
  /-- `get_leader_schedule_epoch` of the slot. -/
  leaderScheduleEpoch : ℕ
  blockHeight : ℕ
  lastBlockhash : ℕ
  epochRewardStatus : EpochRewardStatus K
  epochRewards : EpochRewardsSysvar

/-- `MAX_LEADER_SCHEDULE_STAKES`. -/
def maxLeaderScheduleStakes : ℕ := 5

section
variable {K D H : Type} [LinearOrder K] (env : Env K H) {v : K}

/-- `refresh_vote_accounts`. -/
def refreshVoteAccounts (epoch : ℕ) (voteAccounts : VoteAccounts K D)
    (stakeDelegations : List (K × StakeAccount K D)) (stakeHistory : H) : VoteAccounts K D :=
  voteAccounts.map fun votePubkey entry =>
    (((stakeDelegations.filter fun e => e.2.stake.delegation.voterPubkey = votePubkey).map
      fun e => env.stakeAt stakeHistory e.2.stake.delegation epoch).sum, entry.2)

namespace Stakes
variable (stakes : Stakes K D H)

/-- `calculate_activated_stake`: the new history. -/
def activatedHistory : H :=
  env.addHistory stakes.stakeHistory stakes.epoch
    (stakes.stakeDelegations.toList.map fun e => e.2.stake.delegation)

/-- `calculate_activated_stake` and `activate_epoch`. -/
def activateEpoch (nextEpoch : ℕ) : Stakes K D H :=
  { stakes with
    epoch := nextEpoch
    stakeHistory := stakes.activatedHistory env
    voteAccounts := refreshVoteAccounts env nextEpoch stakes.voteAccounts
      stakes.stakeDelegations.toList (stakes.activatedHistory env) }

/-- `get_top_epoch_stakes`; the filtered copy has no delegations and no history. -/
def topEpochStakes [Inhabited H] : Stakes K D H :=
  if env.features.validatorAdmissionTicket then
    { voteAccounts := cloneAndFilterForVat stakes.voteAccounts maxAlpenglowVoteAccounts
        (env.voteAccountRentExemptMinimum + if env.features.alpenglow then vatToBurnPerEpoch else 0)
      stakeDelegations := ∅
      epoch := stakes.epoch
      stakeHistory := default }
  else stakes

end Stakes

namespace Bank
variable (bank : Bank K D H)

/-- `get_account`: accounts without lamports are not found. -/
def getAccount (pubkey : K) : Option (Account K D) :=
  bank.accounts[pubkey]?.filter fun account => decide (account.lamports ≠ 0)

/-- `store_accounts`; the copies in the cache of stakes are not read again in this block. -/
def storeAccounts (accounts : List (K × Account K D)) : Bank K D H :=
  { bank with accounts := bank.accounts.insertMany accounts }

/-- `get_cached_vote_accounts`. -/
def getCachedVoteAccounts (rewardedEpoch : ℕ) (voteAccounts : VoteAccounts K D) :
    CachedVoteAccounts K D where
  snapshotEpoch := bank.epochStakes[rewardedEpoch]?.map Stakes.voteAccounts
  rewardedEpoch := bank.epochStakes[bank.epoch]?.map Stakes.voteAccounts
  distributionEpoch := voteAccounts

/-- `compute_new_epoch_caches_and_rewards`: the rewards. The calculation is kept for the children
of one parent, which all do the same. -/
def calculateRewards (cut : Cut (DelegationRewards K D)) (parentEpoch : ℕ) :
    Option (CalculateValidatorRewardsResult K D) :=
  let stakes := bank.stakes.activateEpoch env bank.epoch
  calculateValidatorRewards env cut stakes.stakeHistory stakes.stakeDelegations.toList
    (bank.getCachedVoteAccounts parentEpoch stakes.voteAccounts) parentEpoch
    (env.validatorRewardsLamports bank.capitalization parentEpoch)

/-- An account with the ticket taken off, if it can pay. -/
def payTicket (votePubkey : K) : Option (K × Account K D) :=
  match bank.getAccount votePubkey with
  | none => none
  | some account =>
    if vatToBurnPerEpoch ≤ account.lamports then
      some (votePubkey, { account with lamports := account.lamports - vatToBurnPerEpoch })
    else none

/-- `maybe_burn_vat_from_staked_accounts`. -/
def maybeBurnVatFromStakedAccounts [Inhabited D] (epochStakes : Stakes K D H) :
    Option (Bank K D H) :=
  if !env.features.alpenglow || !env.features.validatorAdmissionTicket then some bank
  else do
    let accounts ← (epochStakes.voteAccounts.toList.map fst).mapM bank.payTicket
    let incinerator := (bank.getAccount env.incinerator).getD ⟨0, env.defaultPubkey, default⟩
    let lamports := incinerator.lamports + vatToBurnPerEpoch * accounts.length
    if lamports < 2 ^ 64 then
      some (bank.storeAccounts (accounts ++ [(env.incinerator, { incinerator with lamports })]))
    else none

/-- `update_epoch_stakes`. -/
def updateEpochStakes [Inhabited D] [Inhabited H] : Option (Bank K D H) :=
  if bank.leaderScheduleEpoch ∈ bank.epochStakes then some bank
  else do
    let retained := bank.epochStakes.filter fun epoch _ =>
      decide (bank.leaderScheduleEpoch - (maxLeaderScheduleStakes - 1) ≤ epoch)
    let newEpochStakes := bank.stakes.topEpochStakes env
    let bank ← maybeBurnVatFromStakedAccounts env bank newEpochStakes
    some { bank with
      epochStakes := retained.insert bank.leaderScheduleEpoch newEpochStakes }

/-- `get_reward_distribution_num_blocks`. -/
def getRewardDistributionNumBlocks (rewards : PartitionedStakeRewards K) : ℕ :=
  if env.warmup && decide (bank.epoch < env.firstNormalEpoch) then 1
  else
    let numChunks := (rewards.numRewards + env.stakeAccountStoresPerBlock - 1) /
      env.stakeAccountStoresPerBlock
    max 1 (min numChunks (max (env.slotsPerEpoch / 10) 1))

/-- `distribute_reward_commissions`; `none` where it would have paid more than there is. -/
def distributeRewardCommissions (rewards : CalculateValidatorRewardsResult K D) :
    Option (Bank K D H) :=
  let commissions := rewards.rewardCommissionAccounts
  if commissions.totalRewardCommissionLamports +
      rewards.stakeRewardCalculation.totalStakeRewardsLamports ≤ rewards.pointValue.rewards then
    let bank := bank.storeAccounts (commissions.accountsWithRewards.map fun e => (e.1, e.2.2))
    some { bank with
      capitalization := bank.capitalization + commissions.totalRewardCommissionLamports }
  else none

/-- `begin_partitioned_rewards`, with `REWARD_CALCULATION_NUM_BLOCKS = 1`. -/
def beginPartitionedRewards (rewards : CalculateValidatorRewardsResult K D) :
    Option (Bank K D H) := do
  let bank ← bank.distributeRewardCommissions rewards
  let start := bank.blockHeight + 1
  let stakeRewards := rewards.stakeRewardCalculation.stakeRewards
  let distributed := rewards.rewardCommissionAccounts.totalRewardCommissionLamports
  if distributed ≤ rewards.pointValue.rewards then
    some { bank with
      epochRewardStatus := .calculation start stakeRewards
      epochRewards :=
        { distributionStartingBlockHeight := start
          numPartitions := bank.getRewardDistributionNumBlocks env stakeRewards
          parentBlockhash := bank.lastBlockhash
          totalPoints := rewards.pointValue.points
          totalRewards := rewards.pointValue.rewards
          distributedRewards := distributed
          active := true } }
  else none

/-- The bank after `activate_epoch`. -/
def activated : Bank K D H := { bank with stakes := bank.stakes.activateEpoch env bank.epoch }

/-- `process_new_epoch`. -/
def processNewEpoch [Inhabited D] [Inhabited H] (cut : Cut (DelegationRewards K D))
    (parentEpoch : ℕ) : Option (Bank K D H) := do
  let rewards ← bank.calculateRewards env cut parentEpoch
  let bank ← (bank.activated env).updateEpochStakes env
  bank.beginPartitionedRewards env rewards

/-! ## Balances -/

/-- The cached vote accounts are the stored ones, and nobody can vote for the incinerator. -/
structure Exact : Prop where
  cached : ∀ (votePubkey : K) (entry : ℕ × VoteAccount K D),
    bank.stakes.voteAccounts[votePubkey]? = some entry →
      bank.accounts[votePubkey]? = some entry.2.account
  incinerator : env.incinerator ∉ bank.stakes.voteAccounts

/-- The vote accounts admitted to the new epoch's stakes, when tickets are charged. -/
def charged [Inhabited H] : List K :=
  if bank.leaderScheduleEpoch ∈ bank.epochStakes then []
  else if !env.features.alpenglow || !env.features.validatorAdmissionTicket then []
  else ((bank.activated env).stakes.topEpochStakes env).voteAccounts.toList.map fst

end Bank

section
variable (accounts accounts' : OrdMap K (Account K D))

/-- The balance of an account. -/
def lamportsOf (pubkey : K) : ℕ := accounts[pubkey]?.elim 0 Account.lamports

/-- The balances of all accounts. -/
def totalLamports : ℕ := accounts.total fun _ account => account.lamports

/-- What tickets do to the balances. -/
structure Tickets (charged : List K) : Prop where
  ticket : ∀ v ∈ charged, lamportsOf accounts' v + vatToBurnPerEpoch = lamportsOf accounts v
  incinerator : lamportsOf accounts' env.incinerator =
    lamportsOf accounts env.incinerator + vatToBurnPerEpoch * charged.length
  other : ∀ v, v ∉ charged → v ≠ env.incinerator → lamportsOf accounts' v = lamportsOf accounts v
  total : totalLamports accounts' = totalLamports accounts

variable {l : List (K × Account K D)} (hnodup : (l.map fst).Nodup)
include hnodup in
theorem totalLamports_insertMany :
    totalLamports (accounts.insertMany l) + (l.map fun e => lamportsOf accounts e.1).sum =
      totalLamports accounts + (l.map fun e => e.2.lamports).sum :=
  total_insertMany _ hnodup

variable {accounts}
include hnodup in
theorem lamportsOf_insertMany_of_mem {e : K × Account K D} (he : e ∈ l) :
    lamportsOf (accounts.insertMany l) e.1 = e.2.lamports := by
  rw [lamportsOf, get_insertMany_of_mem hnodup he]
  rfl

theorem lamportsOf_insertMany_of_not_mem (h : v ∉ l.map fst) :
    lamportsOf (accounts.insertMany l) v = lamportsOf accounts v := by
  rw [lamportsOf, getElem?_insertMany_list_of_contains_eq_false
    (Bool.eq_false_iff.mpr fun hc => h (List.contains_iff_mem.mp hc)), lamportsOf]

end

namespace Bank
variable {bank bank' : Bank K D H} {env}

theorem payTicket_eq_some {e : K × Account K D} (h : bank.payTicket v = some e) :
    e.1 = v ∧ e.2.lamports + vatToBurnPerEpoch = lamportsOf bank.accounts v := by
  rw [payTicket] at h
  cases hget : bank.getAccount v with
  | none => simp [hget] at h
  | some account =>
    have hstored := (filter_eq_some_iff.mp hget).1
    simp only [hget] at h
    split_ifs at h with hle
    cases h
    rw [lamportsOf, hstored]
    exact ⟨rfl, Nat.sub_add_cancel hle⟩

theorem lamports_getAccount (v owner : K) (data : D) :
    ((bank.getAccount v).getD ⟨0, owner, data⟩).lamports = lamportsOf bank.accounts v := by
  rw [getAccount, lamportsOf]
  cases hget : bank.accounts[v]? with
  | none => rfl
  | some account =>
    rw [filter_some]
    split_ifs with hz
    · rfl
    · exact (not_not.mp (decide_eq_true_iff.not.mp hz)).symm

theorem mapM_payTicket {votePubkeys : List K} {accounts : List (K × Account K D)}
    (h : votePubkeys.mapM bank.payTicket = some accounts) :
    accounts.map fst = votePubkeys ∧
      ∀ e ∈ accounts, e.2.lamports + vatToBurnPerEpoch = lamportsOf bank.accounts e.1 := by
  have hmap := Fallible.mapM_eq_some_iff.mp h
  constructor
  · refine map_injective_iff.mpr (some_injective K) ?_
    calc (accounts.map fst).map some
        = (accounts.map some).map (Option.map fst) := by
          rw [List.map_map, List.map_map]
          rfl
      _ = votePubkeys.map fun v => (bank.payTicket v).map fst := by
          rw [← hmap, List.map_map]
          rfl
      _ = votePubkeys.map some := by
          refine map_congr_left fun v hv => ?_
          have hsome : bank.payTicket v ∈ accounts.map some := hmap ▸ mem_map_of_mem hv
          obtain ⟨e, -, he⟩ := mem_map.mp hsome
          rw [← he, map_some, (payTicket_eq_some he.symm).1]
  · intro e he
    have hmem := mem_map_of_mem (f := some) he
    rw [← hmap, List.mem_map] at hmem
    obtain ⟨v, -, hv⟩ := hmem
    obtain ⟨rfl, hlamports⟩ := payTicket_eq_some hv
    exact hlamports

/-- Charging for the tickets. -/
theorem tickets_of_burn [Inhabited D] {stakes : Stakes K D H}
    (hincinerator : env.incinerator ∉ stakes.voteAccounts)
    (hactive : env.features.alpenglow = true ∧ env.features.validatorAdmissionTicket = true)
    (h : maybeBurnVatFromStakedAccounts env bank stakes = some bank') :
    Tickets env bank.accounts bank'.accounts (stakes.voteAccounts.toList.map fst) ∧
      bank'.capitalization = bank.capitalization := by
  rw [maybeBurnVatFromStakedAccounts, hactive.1, hactive.2, if_neg (by simp)] at h
  obtain ⟨accounts, haccounts, h⟩ := bind_eq_some_iff.mp h
  obtain ⟨hkeys, hlamports⟩ := mapM_payTicket haccounts
  simp only [lamports_getAccount] at h
  split_ifs at h with hlt
  generalize hincineratorAccount : (bank.getAccount env.incinerator).getD _ = incinerator at h
  cases h
  set stored := accounts ++ [(env.incinerator,
    { incinerator with
      lamports := lamportsOf bank.accounts env.incinerator +
        vatToBurnPerEpoch * accounts.length })] with hstored
  have hnotmem : env.incinerator ∉ stakes.voteAccounts.toList.map fst := by
    intro hmem
    obtain ⟨e, he, heq⟩ := mem_map.mp hmem
    refine hincinerator (Std.ExtTreeMap.mem_iff_isSome_getElem?.mpr ?_)
    rw [← heq, (mem_toList_iff _ e.1).mp he]
    rfl
  have hfst : stored.map fst = stakes.voteAccounts.toList.map fst ++ [env.incinerator] := by
    rw [hstored, map_append, hkeys]
    rfl
  have hnodup : (stored.map fst).Nodup := by
    rw [hfst, nodup_append]
    refine ⟨pairwise_map.mpr ((pairwise_toList _).imp fun hlt => hlt.ne),
      pairwise_singleton _ _, ?_⟩
    rintro a ha b hb rfl
    exact hnotmem (mem_singleton.mp hb ▸ ha)
  refine ⟨⟨fun v hv => ?_, ?_, fun v hv hne => ?_, ?_⟩, rfl⟩
  · rw [← hkeys] at hv
    obtain ⟨e, he, rfl⟩ := mem_map.mp hv
    rw [storeAccounts, lamportsOf_insertMany_of_mem hnodup (mem_append_left _ he), hlamports e he]
  · refine (lamportsOf_insertMany_of_mem hnodup
      (mem_append_right _ mem_cons_self)).trans ?_
    rw [← hkeys, length_map]
  · refine lamportsOf_insertMany_of_not_mem ?_
    rw [hfst, mem_append, mem_singleton]
    exact not_or_intro hv hne
  · have htotal := totalLamports_insertMany bank.accounts hnodup
    have hsum : (accounts.map fun e => lamportsOf bank.accounts e.1).sum =
        (accounts.map fun e => e.2.lamports).sum + vatToBurnPerEpoch * accounts.length := by
      rw [← map_congr_left hlamports, sum_map_add, map_const', sum_replicate_nat, Nat.mul_comm]
    simp only [hstored, map_append, sum_append, map_cons, map_nil,
      sum_cons, sum_nil, hsum] at htotal
    show totalLamports (bank.accounts.insertMany stored) = _
    rw [hstored]
    omega

/-- The new stakes admit only vote accounts that there were. -/
theorem mem_of_mem_topEpochStakes [Inhabited H]
    (h : v ∈ ((bank.activated env).stakes.topEpochStakes env).voteAccounts) :
    v ∈ bank.stakes.voteAccounts := by
  have hactivated : v ∈ (bank.activated env).stakes.voteAccounts := by
    rw [Stakes.topEpochStakes] at h
    split at h
    · obtain ⟨entry, hget⟩ := isSome_iff_exists.mp
        (Std.ExtTreeMap.mem_iff_isSome_getElem?.mp h)
      rw [Std.ExtTreeMap.mem_iff_isSome_getElem?, get_of_get_cloneAndFilterForVat hget]
      rfl
    · exact h
  exact mem_map.mp hactivated

/-- Saving the stakes of the new epoch charges for the tickets. -/
theorem tickets_of_updateEpochStakes [Inhabited D] [Inhabited H] (hexact : bank.Exact env)
    (h : (bank.activated env).updateEpochStakes env = some bank') :
    Tickets env bank.accounts bank'.accounts (bank.charged env) ∧
      bank'.capitalization = bank.capitalization := by
  have hnone : Tickets env bank.accounts bank.accounts [] := ⟨by simp, rfl, fun _ _ _ => rfl, rfl⟩
  have hepoch : (bank.activated env).leaderScheduleEpoch ∈ (bank.activated env).epochStakes ↔
    bank.leaderScheduleEpoch ∈ bank.epochStakes := Iff.rfl
  rw [updateEpochStakes] at h
  rw [charged]
  simp only [hepoch] at h
  split_ifs at h ⊢ with hmem hinactive
  · cases h
    exact ⟨hnone, rfl⟩
  · obtain ⟨burned, hburned, h⟩ := bind_eq_some_iff.mp h
    cases h
    rw [maybeBurnVatFromStakedAccounts, if_pos hinactive] at hburned
    cases hburned
    exact ⟨hnone, rfl⟩
  · obtain ⟨burned, hburned, h⟩ := bind_eq_some_iff.mp h
    cases h
    have hactive : env.features.alpenglow = true ∧
        env.features.validatorAdmissionTicket = true := by
      simpa using hinactive
    have htickets := tickets_of_burn
      (fun hin => hexact.incinerator (mem_of_mem_topEpochStakes hin)) hactive hburned
    exact htickets

/-! ## Conservation -/

/-- The commission calculated for a vote account. -/
def commissionOf (commissions : RewardCommissionAccounts K D) (v : K) : ℕ :=
  ((commissions.accountsWithRewards.find? fun e => decide (e.1 = v)).map
    fun e => e.2.1.lamports).getD 0

variable (env) in
/-- What the first block of an epoch should do to the balances. -/
structure Conserves (bank bank' : Bank K D H) (charged : List K)
    (commissions : RewardCommissionAccounts K D) : Prop where
  voteAccount : ∀ v ∈ bank.stakes.voteAccounts,
    lamportsOf bank'.accounts v + (if v ∈ charged then vatToBurnPerEpoch else 0) =
      lamportsOf bank.accounts v + commissionOf commissions v
  incinerator : lamportsOf bank'.accounts env.incinerator =
    lamportsOf bank.accounts env.incinerator + vatToBurnPerEpoch * charged.length
  capitalization : bank'.capitalization + totalLamports bank.accounts =
    bank.capitalization + totalLamports bank'.accounts

section
variable {commissions : RewardCommissionAccounts K D}

theorem commissionOf_eq_of_mem (hnodup : (commissions.accountsWithRewards.map fst).Nodup)
    {e : K × RewardInfo × Account K D} (he : e ∈ commissions.accountsWithRewards) :
    commissionOf commissions e.1 = e.2.1.lamports := by
  have hsome : (commissions.accountsWithRewards.find? fun e' => decide (e'.1 = e.1)).isSome :=
    find?_isSome.mpr ⟨e, he, decide_eq_true rfl⟩
  obtain ⟨e', he'⟩ := isSome_iff_exists.mp hsome
  have hkey : e'.1 = e.1 := by simpa using find?_some he'
  have heq := inj_on_of_nodup_map hnodup (mem_of_find?_eq_some he') he hkey
  rw [commissionOf, he', heq]
  rfl

theorem commissionOf_eq_of_not_mem (h : v ∉ commissions.accountsWithRewards.map fst)
    : commissionOf commissions v = 0 := by
  have hnone : (commissions.accountsWithRewards.find? fun e => decide (e.1 = v)) = none := by
    refine find?_eq_none.mpr fun e he heq => h ?_
    exact of_decide_eq_true heq ▸ mem_map_of_mem he
  rw [commissionOf, hnone]
  rfl

end

/-- Paying the commissions: the accounts are stored as they were copied before. -/
theorem beginPartitionedRewards_spec {rewards : CalculateValidatorRewardsResult K D}
    (h : bank.beginPartitionedRewards env rewards = some bank') :
    bank'.accounts = bank.accounts.insertMany
        (rewards.rewardCommissionAccounts.accountsWithRewards.map fun e => (e.1, e.2.2)) ∧
      bank'.capitalization = bank.capitalization +
        rewards.rewardCommissionAccounts.totalRewardCommissionLamports := by
  obtain ⟨paid, hpaid, h⟩ := bind_eq_some_iff.mp h
  rw [distributeRewardCommissions] at hpaid
  split_ifs at hpaid
  cases hpaid
  simp only at h
  split_ifs at h
  cases h
  exact ⟨rfl, rfl⟩

/-- **Lamports at the boundary.** The first block of an epoch does what it should to the balances
iff no vote account is charged for its ticket and paid a commission: the commission is added to the
copy of the account that was taken before the ticket was charged. -/
theorem conserves_iff [Inhabited D] [Inhabited H] {cut : Cut (DelegationRewards K D)}
    {parentEpoch : ℕ} {rewards : CalculateValidatorRewardsResult K D} (hexact : bank.Exact env)
    (hrewards : bank.calculateRewards env cut parentEpoch = some rewards)
    (h : bank.processNewEpoch env cut parentEpoch = some bank') :
    Conserves env bank bank' (bank.charged env) rewards.rewardCommissionAccounts ↔
      ∀ v ∈ bank.charged env,
        v ∉ rewards.rewardCommissionAccounts.accountsWithRewards.map fst := by
  obtain ⟨rewards', hrewards', h⟩ := bind_eq_some_iff.mp h
  rw [hrewards] at hrewards'
  cases hrewards'
  obtain ⟨saved, hsaved, h⟩ := bind_eq_some_iff.mp h
  obtain ⟨htickets, hcap⟩ := tickets_of_updateEpochStakes hexact hsaved
  obtain ⟨hnodup, haccounts, htotal⟩ := commissionAccounts_spec hrewards
  obtain ⟨hafter, hcap'⟩ := beginPartitionedRewards_spec h
  set commissions := rewards.rewardCommissionAccounts
  set paid := commissions.accountsWithRewards
  set stored := paid.map fun e => (e.1, e.2.2) with hstored
  have hkeys : stored.map fst = paid.map fst := by
    rw [hstored, List.map_map]
    rfl
  have hpaid : ∀ e ∈ paid, lamportsOf bank'.accounts e.1 = e.2.2.lamports := by
    intro e he
    rw [hafter]
    exact lamportsOf_insertMany_of_mem (e := (e.1, e.2.2)) (hkeys ▸ hnodup)
      (mem_map_of_mem (f := fun e => (e.1, e.2.2)) he)
  have hunpaid : ∀ v, v ∉ paid.map fst →
      lamportsOf bank'.accounts v = lamportsOf saved.accounts v := by
    intro v hv
    rw [hafter]
    exact lamportsOf_insertMany_of_not_mem (hkeys ▸ hv)
  -- the copies of the vote accounts are those before the tickets
  have hcopy : ∀ e ∈ paid, e.1 ∈ bank.stakes.voteAccounts ∧
      e.2.2.lamports = lamportsOf bank.accounts e.1 + e.2.1.lamports := by
    intro e he
    obtain ⟨voteAccount, hget, hlamports⟩ := haccounts e he
    obtain ⟨entry, hentry, rfl⟩ := map_eq_some_iff.mp hget
    rw [Bank.getCachedVoteAccounts, Stakes.activateEpoch, refreshVoteAccounts,
      Std.ExtTreeMap.getElem?_map] at hentry
    obtain ⟨cached, hcached, rfl⟩ := map_eq_some_iff.mp hentry
    refine ⟨?_, ?_⟩
    · rw [Std.ExtTreeMap.mem_iff_isSome_getElem?, hcached]
      rfl
    · rw [hlamports, lamportsOf, hexact.cached _ _ hcached]
      rfl
  constructor
  · intro hconserves v hv hmem
    obtain ⟨e, he, rfl⟩ := mem_map.mp hmem
    have hvote := hconserves.voteAccount e.1 (hcopy e he).1
    rw [if_pos hv, hpaid e he, (hcopy e he).2, commissionOf_eq_of_mem hnodup he] at hvote
    exact absurd hvote (by simp [vatToBurnPerEpoch])
  · intro hdisjoint
    have hincinerator : env.incinerator ∉ paid.map fst := by
      intro hmem
      obtain ⟨e, he, heq⟩ := mem_map.mp hmem
      exact hexact.incinerator (heq ▸ (hcopy e he).1)
    refine ⟨fun v hv => ?_, ?_, ?_⟩
    · have hne : v ≠ env.incinerator := fun heq => hexact.incinerator (heq ▸ hv)
      by_cases hmem : v ∈ paid.map fst
      · rw [if_neg fun hcharged => hdisjoint v hcharged hmem]
        obtain ⟨e, he, rfl⟩ := mem_map.mp hmem
        rw [hpaid e he, (hcopy e he).2, commissionOf_eq_of_mem hnodup he]
        rfl
      · rw [hunpaid v hmem, commissionOf_eq_of_not_mem hmem]
        split_ifs with hcharged
        · exact htickets.ticket v hcharged
        · exact htickets.other v hcharged hne
    · rw [hunpaid _ hincinerator]
      exact htickets.incinerator
    · have hsum := totalLamports_insertMany saved.accounts (l := stored) (hkeys ▸ hnodup)
      have hold : (stored.map fun e => e.2.lamports).sum =
          (stored.map fun e => lamportsOf saved.accounts e.1).sum +
            commissions.totalRewardCommissionLamports := by
        rw [htotal, hstored, List.map_map, List.map_map, ← List.sum_map_add]
        refine congrArg List.sum (map_congr_left fun e he => ?_)
        have hmem := mem_map_of_mem (f := fst) he
        have hne : e.1 ≠ env.incinerator := fun heq => hincinerator (heq ▸ hmem)
        show e.2.2.lamports = lamportsOf saved.accounts e.1 + _
        rw [htickets.other e.1 (fun hcharged => hdisjoint _ hcharged hmem) hne]
        exact (hcopy e he).2
      rw [hafter, hcap', hcap]
      have := htickets.total
      omega

end Bank
end

/-! ## Admission

The source iterates a hash map, and `select_nth_unstable_by` moves the stake at the index of the
limit to its place and leaves the accounts around it in some order. -/

/-- A vote account with its pubkey and its stake. -/
abbrev VatEntry (K D : Type) := K × ℕ × VoteAccount K D

namespace VatEntry
variable {K D H : Type}

abbrev stake (e : VatEntry K D) : ℕ := e.2.1

/-- The account has a BLS key, some stake and the required balance. -/
def isValid (minimumVoteAccountBalance : ℕ) (e : VatEntry K D) : Bool :=
  e.2.2.voteStateView.blsPubkeyCompressed.isSome && decide (e.2.1 ≠ 0) &&
    decide (minimumVoteAccountBalance ≤ e.2.2.account.lamports)

/-- `entries_to_sort.retain`, if there is a stake to exceed. -/
def retainAbove (floorStake : Option ℕ) (entriesToSort : List (VatEntry K D)) :
    List (VatEntry K D) :=
  match floorStake with
  | none => entriesToSort
  | some floorStake => entriesToSort.filter fun e => decide (floorStake < e.stake)

/-- The number of stakes that are at least `x`. -/
def rankIn (stakes : List ℕ) (x : ℕ) : ℕ := stakes.countP fun a => decide (x ≤ a)

/-- The accounts whose rank is within the limit. -/
def admitted (valid : List (VatEntry K D)) (limit : ℕ) : List (VatEntry K D) :=
  valid.filter fun e => decide (rankIn (valid.map stake) e.stake ≤ limit)

/-- What `select_nth_unstable_by` promises, for falling stakes: the entry at the index is the one
that sorting puts there, and all others are on the right side of it. -/
def Selected (n : ℕ) (stakes : List ℕ) : Prop :=
  ∀ c ∈ stakes[n]?, (∀ a ∈ stakes.take n, c ≤ a) ∧ ∀ a ∈ stakes.drop n, a ≤ c

variable {valid l : List (VatEntry K D)} {stakes : List ℕ} {limit balance c : ℕ}

theorem selected_of_pairwise (h : stakes.Pairwise (· ≥ ·)) : Selected limit stakes := by
  intro c hc
  obtain ⟨hlt, rfl⟩ := List.getElem?_eq_some_iff.mp hc
  rw [← take_append_drop limit stakes, pairwise_append, drop_eq_getElem_cons hlt] at h
  obtain ⟨-, hdrop, hcross⟩ := h
  refine ⟨fun a ha => hcross a ha _ mem_cons_self, ?_⟩
  rw [drop_eq_getElem_cons hlt]
  exact forall_mem_cons.mpr ⟨le_rfl, (pairwise_cons.mp hdrop).1⟩

/-- The selected stake is exceeded iff the rank is within the limit. -/
theorem Selected.lt_iff (h : Selected limit stakes) (hc : stakes[limit]? = some c) (x : ℕ) :
    c < x ↔ rankIn stakes x ≤ limit := by
  obtain ⟨hbefore, hafter⟩ := h c hc
  obtain ⟨hlt, -⟩ := List.getElem?_eq_some_iff.mp hc
  have hlen : (stakes.take limit).length = limit := length_take_of_le hlt.le
  have hsplit : rankIn stakes x = rankIn (stakes.take limit) x + rankIn (stakes.drop limit) x := by
    rw [rankIn, rankIn, rankIn, ← countP_append, take_append_drop]
  rw [hsplit]
  constructor
  · intro hx
    have hnone : rankIn (stakes.drop limit) x = 0 := countP_eq_zero.mpr fun a ha => by
      simpa using (hafter a ha).trans_lt hx
    have hle : rankIn (stakes.take limit) x ≤ limit := countP_le_length.trans hlen.le
    omega
  · intro hle
    by_contra hx
    have hall : rankIn (stakes.take limit) x = limit := by
      refine (countP_eq_length.mpr fun a ha => ?_).trans hlen
      exact decide_eq_true ((not_lt.mp hx).trans (hbefore a ha))
    have hsome : 0 < rankIn (stakes.drop limit) x := by
      refine countP_pos_iff.mpr ⟨c, mem_of_getElem? (i := 0) ?_, decide_eq_true (not_lt.mp hx)⟩
      rwa [getElem?_drop]
    omega

theorem retainAbove_eq (hperm : stakes.Perm (l.map stake)) (h : Selected limit stakes) :
    retainAbove stakes[limit]? l = admitted l limit := by
  cases hc : stakes[limit]? with
  | none =>
    rw [getElem?_eq_none_iff, hperm.length_eq] at hc
    exact (filter_eq_self.mpr fun _ _ => decide_eq_true (countP_le_length.trans hc)).symm
  | some c =>
    refine filter_congr fun e _ => decide_eq_decide.mpr ((h.lt_iff hc e.stake).trans ?_)
    rw [rankIn, hperm.countP_eq, rankIn]

theorem toList_cloneAndFilterForVat [LinearOrder K] (voteAccounts : VoteAccounts K D) :
    (cloneAndFilterForVat voteAccounts limit balance).toList =
      admitted (voteAccounts.toList.filter (isValid balance)) limit := by
  have hvalid : (voteAccounts.filter fun k entry => isValid balance (k, entry)).toList =
    voteAccounts.toList.filter (isValid balance) := toList_filter
  rw [← retainAbove_eq (perm_insertionSort (· ≥ ·) _)
    (selected_of_pairwise (pairwise_insertionSort _ _)), ← hvalid, cloneAndFilterForVat]
  simp only [isValid]
  split
  · rename_i hnone
    rw [hnone]
    rfl
  · rename_i hfloor
    rw [hfloor]
    exact toList_filter

theorem length_admitted_le : (admitted valid limit).length ≤ limit := by
  cases hmin : argmin stake (admitted valid limit) with
  | none =>
    rw [argmin_eq_none.mp hmin]
    exact Nat.zero_le limit
  | some e =>
    -- all admitted accounts have at least the stake of the last one
    obtain ⟨-, hrank⟩ := mem_filter.mp (argmin_mem hmin)
    calc (admitted valid limit).length
        ≤ rankIn ((admitted valid limit).map stake) e.stake := by
          rw [← length_map stake]
          refine (countP_eq_length.mpr (forall_mem_map.mpr fun a ha => ?_)).ge
          exact decide_eq_true (le_of_mem_argmin ha hmin)
      _ ≤ rankIn (valid.map stake) e.stake := (filter_sublist.map _).countP_le
      _ ≤ limit := of_decide_eq_true hrank

theorem perm_admitted (h : l.Perm valid) : (admitted l limit).Perm (admitted valid limit) := by
  have hrank : rankIn (l.map stake) = rankIn (valid.map stake) :=
    funext fun _ => (h.map _).countP_eq _
  rw [admitted, admitted, hrank]
  exact h.filter _

theorem admitted_admitted : admitted (admitted valid limit) limit = admitted valid limit := by
  refine filter_eq_self.mpr fun e he => ?_
  obtain ⟨-, hrank⟩ := mem_filter.mp he
  exact decide_eq_true ((filter_sublist.map _).countP_le.trans (of_decide_eq_true hrank))

variable [LinearOrder K]

/-- What is expected of the accounts that are kept. -/
structure Admits (H : Type) (voteAccounts : VoteAccounts K D) (limit balance : ℕ)
    (kept : VoteAccounts K D) : Prop where
  exact : kept.toList = admitted (voteAccounts.toList.filter (isValid balance)) limit
  /-- Neither the order of the hash map nor that of the selection matters. -/
  anyOrder : ∀ entriesToSort, entriesToSort.Perm (voteAccounts.toList.filter (isValid balance)) →
    Selected limit (entriesToSort.map stake) →
    (retainAbove (entriesToSort.map stake)[limit]? entriesToSort).Perm kept.toList
  length_le : kept.toList.length ≤ limit
  fair : ∀ e ∈ kept.toList, ∀ e' ∈ voteAccounts.toList, isValid balance e' = true →
    stake e' = stake e → e' ∈ kept.toList
  mono : ∀ limit' ≥ limit,
    kept.toList ⊆ (cloneAndFilterForVat voteAccounts limit' balance).toList
  idem : cloneAndFilterForVat kept limit balance = kept
  /-- The tickets can be paid if the cached balances are the stored ones. -/
  tickets : ∀ bank : Bank K D H, vatToBurnPerEpoch ≤ balance →
    (∀ e ∈ kept.toList, lamportsOf bank.accounts e.1 = e.2.2.account.lamports) →
    ∀ e ∈ kept.toList, (bank.payTicket e.1).isSome

theorem isSome_payTicket {bank : Bank K D H} {v : K}
    (h : vatToBurnPerEpoch ≤ lamportsOf bank.accounts v) : (bank.payTicket v).isSome := by
  rw [lamportsOf] at h
  cases hget : bank.accounts[v]? with
  | none => simp [hget, vatToBurnPerEpoch] at h
  | some account =>
    rw [hget, elim_some] at h
    have hpos : account.lamports ≠ 0 := (lt_of_lt_of_le (by decide) h).ne'
    simp [Bank.payTicket, Bank.getAccount, hget, Option.filter, hpos, h]

/-- **The filter keeps exactly the valid accounts of small rank**, in whatever order they came. -/
theorem cloneAndFilterForVat_admits (voteAccounts : VoteAccounts K D) (limit balance : ℕ) :
    Admits H voteAccounts limit balance (cloneAndFilterForVat voteAccounts limit balance) := by
  have hkept : (cloneAndFilterForVat voteAccounts limit balance).toList = _ :=
    toList_cloneAndFilterForVat voteAccounts
  have hvalid : ∀ e ∈ admitted (voteAccounts.toList.filter (isValid balance)) limit,
      isValid balance e = true := fun e he => (mem_filter.mp (mem_of_mem_filter he)).2
  refine ⟨hkept, ?_, ?_, ?_, ?_, ?_, ?_⟩
  · intro entriesToSort hperm hselected
    rw [retainAbove_eq (.refl _) hselected, hkept]
    exact perm_admitted hperm
  · rw [hkept]
    exact length_admitted_le
  · intro e he e' he' hvalid' hstake
    rw [hkept] at he ⊢
    obtain ⟨-, hrank⟩ := mem_filter.mp he
    rw [← hstake] at hrank
    exact mem_filter.mpr ⟨mem_filter.mpr ⟨he', hvalid'⟩, hrank⟩
  · intro limit' hle e he
    rw [toList_cloneAndFilterForVat] at he ⊢
    obtain ⟨hmem, hrank⟩ := mem_filter.mp he
    exact mem_filter.mpr ⟨hmem, decide_eq_true ((of_decide_eq_true hrank).trans hle)⟩
  · refine toList_inj.mp ?_
    rw [toList_cloneAndFilterForVat, hkept, filter_eq_self.mpr hvalid, admitted_admitted]
  · intro bank hticket hagree e he
    have hbalance := hvalid e (hkept ▸ he)
    simp only [isValid, Bool.and_eq_true, decide_eq_true_eq] at hbalance
    exact isSome_payTicket (hagree e he ▸ hticket.trans hbalance.2)

end VatEntry

/-! ## A ticket that is given back -/

namespace Boundary

/-- Both features are active, and a hundred lamports are paid in each epoch. -/
def env : Env ℕ Unit where
  features := ⟨true, true, false, false, false, false⟩
  stakeAt _ delegation _ := delegation.stake
  addHistory history _ _ := history
  validatorRewardsLamports _ _ := 100
  voteAccountRentExemptMinimum := 0
  voteProgram := 0
  incinerator := 0
  defaultPubkey := 0
  warmup := false
  firstNormalEpoch := 0
  slotsPerEpoch := 100
  stakeAccountStoresPerBlock := 1
  hashAddressToPartition _ _ _ := 0

/-- A vote account with one credit, a tenth of the rewards and enough for a ticket. -/
def voteAccount : VoteAccount ℕ Unit := ⟨⟨3000000000, 0, ()⟩, ⟨1, [(0, 1, 0)], 10, 1000, some []⟩⟩

def stakes : Stakes ℕ Unit Unit where
  voteAccounts := (∅ : OrdMap ℕ _).insert 1 (10, voteAccount)
  stakeDelegations := (∅ : OrdMap ℕ _).insert 2 ⟨⟨10, 0, ()⟩, ⟨⟨1, 10, 0, 9⟩, 0⟩⟩
  epoch := 1
  stakeHistory := ()

def bank : Bank ℕ Unit Unit where
  accounts := ((∅ : OrdMap ℕ _).insert 1 voteAccount.account).insert 2 ⟨10, 0, ()⟩
  capitalization := 3000000010
  stakes := stakes
  epochStakes := ∅
  epoch := 2
  leaderScheduleEpoch := 3
  blockHeight := 1
  lastBlockhash := 0
  epochRewardStatus := .inactive
  epochRewards := ⟨0, 0, 0, 0, 0, 0, false⟩

/-- All delegations in one piece. -/
def cut : Cut (DelegationRewards ℕ Unit) := fun l => ⟨.piece l, rfl⟩

theorem exact_bank : bank.Exact env where
  cached v entry h := by
    rw [bank, stakes, get_insert] at h
    split_ifs at h with heq
    · subst heq
      cases h
      decide +kernel
    · rw [getElem?_empty] at h
      cases h
  incinerator := by decide +kernel

theorem exists_processNewEpoch : ∃ rewards bank', bank.calculateRewards env cut 1 = some rewards ∧
    bank.processNewEpoch env cut 1 = some bank' ∧
    Bank.commissionOf rewards.rewardCommissionAccounts 1 = 10 ∧
    lamportsOf bank'.accounts 1 = 3000000010 := by
  have hrewards : (bank.calculateRewards env cut 1).isSome := by decide +kernel
  have hbank : (bank.processNewEpoch env cut 1).isSome := by decide +kernel
  refine ⟨_, _, (some_get hrewards).symm, (some_get hbank).symm, ?_⟩
  decide +kernel +revert

end Boundary

open Boundary

/-- The hypotheses of the rule hold for a vote account that is charged and paid. -/
theorem Bank.conserves_iff_bank : ∃ rewards bank',
    bank.calculateRewards env cut 1 = some rewards ∧
    bank.processNewEpoch env cut 1 = some bank' ∧
    (Bank.Conserves env bank bank' (bank.charged env)
        rewards.rewardCommissionAccounts ↔
      ∀ v ∈ bank.charged env,
        v ∉ rewards.rewardCommissionAccounts.accountsWithRewards.map fst) := by
  obtain ⟨rewards, bank', hrewards, hbank, -⟩ := exists_processNewEpoch
  exact ⟨rewards, bank', hrewards, hbank, Bank.conserves_iff exact_bank hrewards hbank⟩

/-- The vote account is admitted and paid 10 lamports, and keeps the price of its ticket. -/
theorem Bank.ticket_given_back : ∃ rewards bank',
    bank.Exact env ∧
    bank.calculateRewards env cut 1 = some rewards ∧
    bank.processNewEpoch env cut 1 = some bank' ∧
    ¬ Bank.Conserves env bank bank' (bank.charged env)
      rewards.rewardCommissionAccounts := by
  obtain ⟨rewards, bank', hrewards, hbank, hcommission, hlamports⟩ :=
    exists_processNewEpoch
  refine ⟨rewards, bank', exact_bank, hrewards, hbank, fun hconserves => ?_⟩
  have hvote := hconserves.voteAccount 1 (by decide +kernel)
  rw [hcommission, hlamports, if_pos (by decide +kernel)] at hvote
  exact absurd hvote (by decide +kernel)

end FlowraValidator.EpochRewards
