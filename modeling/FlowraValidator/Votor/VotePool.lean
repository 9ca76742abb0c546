import FlowraValidator.Votor.Messages

/-!
# Stakes and vote pools

The stakes of an epoch by rank (`runtime/src/epoch_stakes.rs`) and the two kinds of vote pools of
`votor/src/consensus_pool/vote_pool.rs`. A simple pool keeps one vote of each validator, whatever
it is for; a duplicate-block pool keeps votes by block id, up to a bound for each validator.

The ordered maps and sets of the source are only asked for single keys, so maps are partial
functions and sets of keys are lists.
-/

namespace FlowraValidator.Votor
open Function List

/-- `a.saturating_add(b)` of `u64`. -/
def saturatingAdd (a b : ℕ) : ℕ := min (a + b) u64Max

/-! ## Stakes -/

/-- `MAX_ALPENGLOW_VOTE_ACCOUNTS` of `runtime/src/bank.rs`. -/
def maxAlpenglowVoteAccounts : ℕ := 2000

/-- `VersionedEpochStakes`: the vote accounts by rank, each with its stake. The accounts are keys
of one map, accounts without stake have no rank, and `total_stake` is the sum over all accounts,
those without a rank included. -/
structure EpochStakes where
  entries : List (Pubkey × ℕ)
  totalStake : ℕ
  nodup : (entries.map Prod.fst).Nodup
  stake_pos : ∀ e ∈ entries, 0 < e.2
  sum_le : (entries.map Prod.snd).sum ≤ totalStake
  total_le : totalStake ≤ u64Max
  length_le : entries.length ≤ maxAlpenglowVoteAccounts

namespace EpochStakes

/-- `get_pubkey_stake_entry`. -/
def entry (es : EpochStakes) (rank : ℕ) : Option (Pubkey × ℕ) := es.entries[rank]?

/-- The stake of a rank, zero for a rank that does not exist. -/
def stakeOf (es : EpochStakes) (rank : ℕ) : ℕ := (es.entry rank).elim 0 Prod.snd

/-- The vote account of a rank. -/
def keyOf (es : EpochStakes) (rank : ℕ) : Pubkey := (es.entry rank).elim 0 Prod.fst

variable (es : EpochStakes)

/-- Different ranks are different vote accounts. -/
theorem rank_eq_of_keyOf {r r' : ℕ} (hr : r < es.entries.length) (hr' : r' < es.entries.length)
    (h : es.keyOf r = es.keyOf r') : r = r' := by
  unfold keyOf entry at h
  rw [getElem?_eq_getElem hr, getElem?_eq_getElem hr'] at h
  have hlen : (es.entries.map Prod.fst).length = es.entries.length := length_map _
  have hlt : r < (es.entries.map Prod.fst).length := hlen ▸ hr
  have hlt' : r' < (es.entries.map Prod.fst).length := hlen ▸ hr'
  have heq : (es.entries.map Prod.fst)[r] = (es.entries.map Prod.fst)[r'] := by
    rwa [getElem_map, getElem_map]
  exact es.nodup.getElem_inj_iff.mp heq

theorem stakeOf_pos {r : ℕ} (hr : r < es.entries.length) : 0 < es.stakeOf r := by
  unfold stakeOf entry
  rw [getElem?_eq_getElem hr]
  exact es.stake_pos _ (getElem_mem hr)

theorem sum_range_stakeOf :
    ∑ r ∈ Finset.range es.entries.length, es.stakeOf r = (es.entries.map Prod.snd).sum := by
  unfold stakeOf entry
  induction es.entries with
  | nil => rfl
  | cons e l ih =>
    rw [length_cons, Finset.sum_range_succ', map_cons, sum_cons, add_comm, ← ih]
    rfl

/-- No set of ranks has more than the total stake. -/
theorem sum_stakeOf_le (ranks : Finset ℕ) : ∑ r ∈ ranks, es.stakeOf r ≤ es.totalStake := by
  have hzero : ∀ r, r ∉ Finset.range es.entries.length → es.stakeOf r = 0 := by
    intro r hr
    rw [Finset.mem_range, not_lt] at hr
    unfold stakeOf entry
    rw [getElem?_eq_none hr]
    rfl
  calc ∑ r ∈ ranks, es.stakeOf r
      ≤ ∑ r ∈ ranks ∪ Finset.range es.entries.length, es.stakeOf r :=
        Finset.sum_le_sum_of_subset Finset.subset_union_left
    _ = ∑ r ∈ Finset.range es.entries.length, es.stakeOf r :=
        (Finset.sum_subset Finset.subset_union_right fun r _ hr => hzero r hr).symm
    _ = (es.entries.map Prod.snd).sum := es.sum_range_stakeOf
    _ ≤ es.totalStake := es.sum_le

end EpochStakes

/-! ## Simple vote pools -/

variable {Sig : Type}

structure SimpleVotePool (Sig : Type) where
  votes : List (VoteMessage Sig)
  totalStake : ℕ
  prevVotedValidators : List Pubkey

namespace SimpleVotePool

/-- `SimpleVotePool::default`. -/
def empty : SimpleVotePool Sig := ⟨[], 0, []⟩

/-- The new total stake, or `none` for a validator that voted before. -/
def addVote (p : SimpleVotePool Sig) (validatorVoteKey : Pubkey) (validatorStake : ℕ)
    (vote : VoteMessage Sig) : Option ℕ × SimpleVotePool Sig :=
  if validatorVoteKey ∈ p.prevVotedValidators then (none, p)
  else
    let total := saturatingAdd p.totalStake validatorStake
    (some total, ⟨p.votes ++ [vote], total, p.prevVotedValidators ++ [validatorVoteKey]⟩)

def hasPrevValidatorVote (p : SimpleVotePool Sig) (validatorVoteKey : Pubkey) : Bool :=
  decide (validatorVoteKey ∈ p.prevVotedValidators)

end SimpleVotePool

/-! ## Vote pools by block id -/

structure VoteEntry (Sig : Type) where
  votes : List (VoteMessage Sig)
  totalStakeByKey : ℕ

structure DuplicateBlockVotePool (Sig : Type) where
  maxEntriesPerPubkey : ℕ
  voteEntries : Hash → Option (VoteEntry Sig)
  prevVotedBlockIds : Pubkey → Option (List Hash)

namespace DuplicateBlockVotePool

def new (maxEntriesPerPubkey : ℕ) : DuplicateBlockVotePool Sig :=
  ⟨maxEntriesPerPubkey, fun _ => none, fun _ => none⟩

variable (p : DuplicateBlockVotePool Sig)

/-- The new stake of the block, or `none` for a validator that voted for the block before or has no
entries left. Outside, `none` is the panic on a vote without a block id. -/
def addVote (validatorVoteKey : Pubkey) (validatorStake : ℕ) (vote : VoteMessage Sig) :
    Option (Option ℕ × DuplicateBlockVotePool Sig) :=
  vote.vote.blockId.map fun blockId =>
    let prev := (p.prevVotedBlockIds validatorVoteKey).getD []
    if blockId ∈ prev ∨ p.maxEntriesPerPubkey ≤ prev.length then
      (none, { p with
        prevVotedBlockIds := update p.prevVotedBlockIds validatorVoteKey (some prev) })
    else
      let entry := (p.voteEntries blockId).getD ⟨[], 0⟩
      let total := saturatingAdd entry.totalStakeByKey validatorStake
      (some total, { p with
        voteEntries := update p.voteEntries blockId (some ⟨entry.votes ++ [vote], total⟩)
        prevVotedBlockIds :=
          update p.prevVotedBlockIds validatorVoteKey (some (prev ++ [blockId])) })

def totalStakeByBlockId (blockId : Hash) : ℕ :=
  (p.voteEntries blockId).elim 0 VoteEntry.totalStakeByKey

def votes (blockId : Hash) : Option (List (VoteMessage Sig)) :=
  (p.voteEntries blockId).map VoteEntry.votes

def hasPrevValidatorVoteForBlock (validatorVoteKey : Pubkey) (blockId : Hash) : Bool :=
  (p.prevVotedBlockIds validatorVoteKey).elim false fun ids => decide (blockId ∈ ids)

def hasPrevValidatorVote (validatorVoteKey : Pubkey) : Bool :=
  (p.prevVotedBlockIds validatorVoteKey).isSome

end DuplicateBlockVotePool

inductive VotePool (Sig : Type) where
  | simple (pool : SimpleVotePool Sig)
  | duplicateBlock (pool : DuplicateBlockVotePool Sig)

end FlowraValidator.Votor
