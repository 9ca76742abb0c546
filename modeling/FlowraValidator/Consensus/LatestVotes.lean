import FlowraValidator.Consensus.ForkCandidates

/-!
# Latest votes and the fork choice

`core/src/consensus/latest_validator_votes_for_frozen_banks.rs`: the greatest slot each validator
has voted for, with all hashes of that slot, once for votes in gossip and once for votes that were
replayed. What changes for replayed votes is also put into a dirty set, which the fork choice takes
with its next update.

The dirty set may hold several hashes for one validator, and all of them are handed over in one
batch, but the fork choice panics when a validator votes twice in a batch
(`computeBankStats_two_versions`). This is the only obstacle. An update returns iff each validator
has at most one hash in the part of the dirty set it takes (`OneVersion`), and afterwards the latest
vote of each validator is the right one.

* `checkAddVote`, `takeVotesDirtySet`: the tracker.
* `Voting`, `step`: the tracker beside the fork choice, with all replayed votes so far.
* `Agrees`: the fork choice has the right latest votes.
* `Votings.step_isSome_iff`: when a step returns, and that the latest votes agree after an update.
-/

namespace FlowraValidator.Consensus
open Function List Option OrdMap Prod Std.ExtTreeMap

/-! ## The tracker -/

structure LatestValidatorVotesForFrozenBanks where
  maxGossipFrozenVotes : OrdMap Pubkey (ℕ × List ℕ)
  maxReplayFrozenVotes : OrdMap Pubkey (ℕ × List ℕ)
  forkChoiceDirtySet : OrdMap Pubkey (ℕ × List ℕ)

namespace LatestValidatorVotesForFrozenBanks

/-- `LatestValidatorVotesForFrozenBanks::default()`. -/
def default : LatestValidatorVotesForFrozenBanks := ⟨∅, ∅, ∅⟩

variable (t : LatestValidatorVotesForFrozenBanks)

def voteMap (isReplayVote : Bool) : OrdMap Pubkey (ℕ × List ℕ) :=
  if isReplayVote then t.maxReplayFrozenVotes else t.maxGossipFrozenVotes

def setVoteMap (isReplayVote : Bool) (votes : OrdMap Pubkey (ℕ × List ℕ)) :
    LatestValidatorVotesForFrozenBanks :=
  if isReplayVote then { t with maxReplayFrozenVotes := votes }
  else { t with maxGossipFrozenVotes := votes }

/-- A newer slot replaces what is dirty. -/
def insertDirty (isReplayVote : Bool) (pubkey : Pubkey) (slot hash : ℕ) :
    LatestValidatorVotesForFrozenBanks :=
  if isReplayVote then
    { t with forkChoiceDirtySet := t.forkChoiceDirtySet.insert pubkey (slot, [hash]) }
  else t

/-- Another hash of the slot. It is asserted that the dirty slot is the same, and that the hash is
not there yet. -/
def pushDirty (isReplayVote : Bool) (pubkey : Pubkey) (slot hash : ℕ) :
    Option LatestValidatorVotesForFrozenBanks :=
  if isReplayVote then
    match t.forkChoiceDirtySet[pubkey]? with
    | some (dirtySlot, hashes) =>
      if dirtySlot = slot ∧ hash ∉ hashes then
        some { t with
          forkChoiceDirtySet := t.forkChoiceDirtySet.insert pubkey (dirtySlot, hashes ++ [hash]) }
      else none
    | none => some (t.insertDirty isReplayVote pubkey slot hash)
  else some t

/-- Whether the vote was added, and the latest slot with a frozen bank. -/
def checkAddVote (votePubkey : Pubkey) (voteSlot : ℕ) (frozenHash : Option ℕ)
    (isReplayVote : Bool) : Option ((Bool × Option ℕ) × LatestValidatorVotesForFrozenBanks) :=
  let voteMap := t.voteMap isReplayVote
  match frozenHash with
  | none => some ((false, voteMap[votePubkey]?.map fst), t)
  | some frozenHash =>
    match voteMap[votePubkey]? with
    | some (latestSlot, latestHashes) =>
      if voteSlot > latestSlot then
        some ((true, some voteSlot),
          (t.insertDirty isReplayVote votePubkey voteSlot frozenHash).setVoteMap isReplayVote
            (voteMap.insert votePubkey (voteSlot, [frozenHash])))
      else if voteSlot = latestSlot ∧ frozenHash ∉ latestHashes then
        (t.pushDirty isReplayVote votePubkey voteSlot frozenHash).map fun t =>
          ((true, some voteSlot), t.setVoteMap isReplayVote
            (voteMap.insert votePubkey (latestSlot, latestHashes ++ [frozenHash])))
      else some ((false, some latestSlot), t)
    | none =>
      some ((true, some voteSlot),
        (t.setVoteMap isReplayVote
          (voteMap.insert votePubkey (voteSlot, [frozenHash]))).insertDirty
            isReplayVote votePubkey voteSlot frozenHash)

/-- The votes of one validator. -/
def votesOf (entry : Pubkey × (ℕ × List ℕ)) : List (Pubkey × SlotHashKey) :=
  entry.2.2.map fun hash => (entry.1, ⟨entry.2.1, hash⟩)

/-- The dirty votes from the root on, with the dirty set emptied. -/
def takeVotesDirtySet (root : ℕ) :
    List (Pubkey × SlotHashKey) × LatestValidatorVotesForFrozenBanks :=
  ((t.forkChoiceDirtySet.toList.filter fun entry => decide (root ≤ entry.2.1)).flatMap votesOf,
    { t with forkChoiceDirtySet := ∅ })

/-- From the root on, no validator has several hashes in the dirty set. -/
def OneVersion (root : ℕ) : Prop :=
  ∀ entry ∈ t.forkChoiceDirtySet.toList, root ≤ entry.2.1 → entry.2.2.length ≤ 1

variable {t} {root slot hash : ℕ} {hashes : List ℕ} {pubkey : Pubkey}

theorem mem_takeVotesDirtySet {v : Pubkey × SlotHashKey} :
    v ∈ (t.takeVotesDirtySet root).1 ↔ root ≤ v.2.slot ∧
      ∃ hashes, t.forkChoiceDirtySet[v.1]? = some (v.2.slot, hashes) ∧ v.2.hash ∈ hashes := by
  rw [takeVotesDirtySet, mem_flatMap]
  constructor
  · rintro ⟨⟨pubkey, slot, hashes⟩, hentry, hv⟩
    obtain ⟨hmem, hroot⟩ := mem_filter.mp hentry
    obtain ⟨hash, hhash, rfl⟩ := mem_map.mp hv
    exact ⟨of_decide_eq_true hroot, hashes, (mem_toList_iff _ _).mp hmem, hhash⟩
  · rintro ⟨hroot, hashes, hget, hhash⟩
    refine ⟨(v.1, v.2.slot, hashes), ?_, mem_map.mpr ⟨v.2.hash, hhash, rfl⟩⟩
    exact mem_filter.mpr
      ⟨(mem_toList_iff _ _).mpr hget, decide_eq_true hroot⟩

/-- No validator votes twice in what is taken iff nobody has several hashes. -/
theorem nodup_voters_iff : ((t.takeVotesDirtySet root).1.map fst).Nodup ↔ t.OneVersion root := by
  have hvoters : ∀ entry : Pubkey × (ℕ × List ℕ),
      (votesOf entry).map fst = List.replicate entry.2.2.length entry.1 := by
    intro entry
    rw [votesOf, List.map_map]
    exact map_const'
  have hdisjoint : (t.forkChoiceDirtySet.toList.filter fun entry =>
      decide (root ≤ entry.2.1)).Pairwise
        (onFun List.Disjoint fun entry => (votesOf entry).map fst) := by
    refine ((pairwise_toList _).filter _).imp fun {a b} hlt x hxa hxb => ?_
    change x ∈ (votesOf a).map fst at hxa
    change x ∈ (votesOf b).map fst at hxb
    rw [hvoters] at hxa hxb
    rw [← eq_of_mem_replicate hxa, ← eq_of_mem_replicate hxb] at hlt
    exact lt_irrefl _ hlt
  rw [takeVotesDirtySet, map_flatMap, nodup_flatMap, and_iff_left hdisjoint]
  simp only [mem_filter, decide_eq_true_eq, and_imp, hvoters, nodup_replicate]
  rfl

end LatestValidatorVotesForFrozenBanks

namespace HeaviestSubtreeForkChoice
variable {fc fc' : HeaviestSubtreeForkChoice} {es : EpochStakes}
  {parentOf : SlotHashKey → Option SlotHashKey} {pubkey : Pubkey} {k k' p root vote : SlotHashKey}
  {votes : List (Pubkey × SlotHashKey)} {observed : List Pubkey} {operations : UpdateOperations}

/-! ## A batch of votes -/

/-- A validator that was seen votes again. -/
theorem generateLoop_eq_none_of_observed (hmem : (pubkey, vote) ∈ votes)
    (hroot : fc.treeRoot.slot ≤ vote.slot) (hobserved : pubkey ∈ observed)
    : generateLoop es fc observed operations votes = none := by
  induction votes generalizing fc observed operations with
  | nil => cases hmem
  | cons v rest ih =>
    obtain ⟨pubkey', vote'⟩ := v
    rw [generateLoop]
    rcases mem_cons.mp hmem with heq | hrest
    · cases heq
      rw [if_neg (not_lt.mpr hroot), if_pos hobserved]
    · split_ifs with h1 h2 h3
      · exact ih hrest hroot hobserved
      · rfl
      · exact ih hrest hroot (mem_cons_of_mem _ hobserved)
      · refine bind_eq_none_iff.mpr fun operations1 _ => ?_
        refine bind_eq_none_iff.mpr fun operations2 _ => ?_
        exact ih hrest hroot (mem_cons_of_mem _ hobserved)

/-- **A validator that votes twice from the root on stops the batch.** -/
theorem generateLoop_eq_none_of_not_nodup (hroot : ∀ v ∈ votes, fc.treeRoot.slot ≤ v.2.slot)
    (hdup : ¬(votes.map fst).Nodup) :
    generateLoop es fc observed operations votes = none := by
  induction votes generalizing fc observed operations with
  | nil => exact absurd nodup_nil hdup
  | cons v rest ih =>
    obtain ⟨pubkey, vote⟩ := v
    have hrest : ∀ v ∈ rest, fc.treeRoot.slot ≤ v.2.slot :=
      fun v hv => hroot v (mem_cons_of_mem _ hv)
    -- the rest stops at the same validator, or at two others
    have hstop : ∀ {fc1 : HeaviestSubtreeForkChoice} {operations1 : UpdateOperations},
        fc1.treeRoot = fc.treeRoot →
        generateLoop es fc1 (pubkey :: observed) operations1 rest = none := by
      intro fc1 operations1 htree
      by_cases hmem : pubkey ∈ rest.map fst
      · obtain ⟨⟨_, vote'⟩, hv', rfl⟩ := mem_map.mp hmem
        exact generateLoop_eq_none_of_observed hv' (htree ▸ hrest _ hv') mem_cons_self
      · refine ih (fun v hv => htree ▸ hrest v hv) fun hnodup => hdup ?_
        exact nodup_cons.mpr ⟨hmem, hnodup⟩
    rw [generateLoop, if_neg (not_lt.mpr (hroot _ mem_cons_self))]
    split_ifs with h2 h3
    · rfl
    · exact hstop rfl
    · refine bind_eq_none_iff.mpr fun operations1 _ => ?_
      exact bind_eq_none_iff.mpr fun operations2 _ => hstop rfl

/-- A vote that comes later in the order of the fork choice, or is the same. -/
def NotBetter (k k' : SlotHashKey) : Prop := k'.slot < k.slot ∨ k'.slot = k.slot ∧ k.hash ≤ k'.hash

theorem isOutdated_some : isOutdated (some k) k' = true ↔ NotBetter k k' := decide_eq_true_iff

theorem NotBetter.refl : NotBetter k k := .inr ⟨rfl, le_rfl⟩

theorem NotBetter.trans {k'' : SlotHashKey} (h : NotBetter k k') (h' : NotBetter k' k'') :
    NotBetter k k'' := by
  unfold NotBetter at *
  omega

theorem NotBetter.of_not (h : ¬NotBetter k k') : NotBetter k' k := by
  unfold NotBetter at *
  omega

/-- The latest vote of a validator that is not in the batch. -/
theorem get_foldl_recordVote_of_notMem {latestVotes : OrdMap Pubkey SlotHashKey}
    (h : pubkey ∉ votes.map fst) :
    (votes.foldl (recordVote root) latestVotes)[pubkey]? = latestVotes[pubkey]? := by
  induction votes generalizing latestVotes with
  | nil => rfl
  | cons v rest ih =>
    obtain ⟨hne, hrest⟩ := not_or.mp (mt mem_cons.mpr h)
    rw [foldl_cons, ih hrest, recordVote]
    split_ifs
    · rfl
    · rw [get_insert, if_neg fun heq => hne heq.symm]

/-- The latest vote of a validator that votes once in the batch. -/
theorem exists_get_foldl_recordVote (latestVotes : OrdMap Pubkey SlotHashKey)
    (hnodup : (votes.map fst).Nodup) (hmem : (pubkey, vote) ∈ votes)
    (hroot : root.slot ≤ vote.slot) :
    ∃ k, (votes.foldl (recordVote root) latestVotes)[pubkey]? = some k ∧ NotBetter k vote ∧
      ∀ old, latestVotes[pubkey]? = some old → NotBetter k old := by
  induction votes generalizing latestVotes with
  | nil => cases hmem
  | cons v rest ih =>
    obtain ⟨hfirst, hnodup'⟩ := nodup_cons.mp hnodup
    rw [foldl_cons]
    rcases mem_cons.mp hmem with heq | hrest
    · cases heq
      rw [get_foldl_recordVote_of_notMem hfirst, recordVote]
      split_ifs with hskip
      · have hout := hskip.resolve_left (not_lt.mpr hroot)
        cases hold : latestVotes[pubkey]? with
        | none =>
          rw [hold] at hout
          exact absurd hout Bool.false_ne_true
        | some old =>
          rw [hold, isOutdated_some] at hout
          refine ⟨old, rfl, hout, fun old' hold' => ?_⟩
          cases hold'
          exact NotBetter.refl
      · refine ⟨vote, by rw [get_insert, if_pos rfl], NotBetter.refl, fun old hold => ?_⟩
        refine NotBetter.of_not fun hbetter => hskip (.inr ?_)
        rwa [hold, isOutdated_some]
    · have hne : v.1 ≠ pubkey := by
        rintro rfl
        exact hfirst (mem_map.mpr ⟨_, hrest, rfl⟩)
      have hkeep : (recordVote root latestVotes v)[pubkey]? = latestVotes[pubkey]? := by
        rw [recordVote]
        split_ifs
        · rfl
        · rw [get_insert, if_neg hne]
      have hlater := ih (recordVote root latestVotes v) hnodup' hrest
      rwa [hkeep] at hlater

/-! ## The tracker beside the fork choice -/

inductive VotingEvent where
  | addNewLeafSlot (k p : SlotHashKey)
  | checkAddVote (pubkey : Pubkey) (slot : ℕ) (frozenHash : Option ℕ) (isReplayVote : Bool)
  | computeBankStats (votes : List (Pubkey × SlotHashKey))

/-- The fork choice, the tracker, and all replayed votes for frozen banks so far. -/
structure Voting where
  fc : HeaviestSubtreeForkChoice
  tracker : LatestValidatorVotesForFrozenBanks
  seen : List (Pubkey × SlotHashKey)

namespace Voting

/-- The replayed votes after another vote. -/
def see (seen : List (Pubkey × SlotHashKey)) (pubkey : Pubkey) (slot : ℕ) :
    Option ℕ → Bool → List (Pubkey × SlotHashKey)
  | some frozenHash, true => (pubkey, ⟨slot, frozenHash⟩) :: seen
  | _, _ => seen

def step (es : EpochStakes) (m : Voting) : VotingEvent → Option Voting
  | .addNewLeafSlot k p => (m.fc.addNewLeafSlot k (some p)).map fun fc => { m with fc := fc }
  | .checkAddVote pubkey slot frozenHash isReplayVote =>
    (m.tracker.checkAddVote pubkey slot frozenHash isReplayVote).map fun r =>
      ⟨m.fc, r.2, see m.seen pubkey slot frozenHash isReplayVote⟩
  | .computeBankStats votes => (m.fc.addVotes es votes).map fun r =>
      ⟨r.1, (m.tracker.takeVotesDirtySet m.fc.treeRoot.slot).2, m.seen⟩

/-- Leaves are added below their parents, votes are for blocks of the tree, and the update gets the
dirty votes from the root on, in some order. -/
def Allowed (parentOf : SlotHashKey → Option SlotHashKey) (m : Voting) : VotingEvent → Prop
  | .addNewLeafSlot k p => parentOf k = some p ∧ m.fc.Present p
  | .checkAddVote _ slot frozenHash _ => ∀ hash, frozenHash = some hash → m.fc.Present ⟨slot, hash⟩
  | .computeBankStats votes => votes.Perm (m.tracker.takeVotesDirtySet m.fc.treeRoot.slot).1

instance (parentOf : SlotHashKey → Option SlotHashKey) (m : Voting) :
    DecidablePred (m.Allowed parentOf)
  | .addNewLeafSlot k p => inferInstanceAs (Decidable (parentOf k = some p ∧ m.fc.Present p))
  | .checkAddVote _ _ none _ => .isTrue fun _ h => nomatch h
  | .checkAddVote _ slot (some hash) _ =>
    decidable_of_iff (m.fc.Present ⟨slot, hash⟩)
      ⟨fun h _ heq => some_inj.mp heq ▸ h, fun h => h hash rfl⟩
  | .computeBankStats votes => inferInstanceAs
      (Decidable (votes.Perm (m.tracker.takeVotesDirtySet m.fc.treeRoot.slot).1))

/-- The events, as long as they are allowed. -/
def exec (es : EpochStakes) (parentOf : SlotHashKey → Option SlotHashKey) (m : Voting)
    (events : List VotingEvent) : Option Voting :=
  events.foldlM (fun m event => if m.Allowed parentOf event then m.step es event else none) m

/-- The condition on a step. -/
def OneVersionEach (m : Voting) : VotingEvent → Prop
  | .computeBankStats _ => m.tracker.OneVersion m.fc.treeRoot.slot
  | _ => True

/-- The latest vote of each validator is its replayed vote for the greatest slot, with the smallest
hash it has voted for in this slot. -/
def Agrees (m : Voting) : Prop :=
  ∀ pubkey, match m.fc.latestVotes[pubkey]? with
    | none => ∀ k, (pubkey, k) ∉ m.seen
    | some k => (pubkey, k) ∈ m.seen ∧ ∀ k', (pubkey, k') ∈ m.seen →
        k'.slot < k.slot ∨ k'.slot = k.slot ∧ k.hash ≤ k'.hash

end Voting

/-- The runs from a single root and an empty tracker. -/
inductive Votings (es : EpochStakes) (parentOf : SlotHashKey → Option SlotHashKey)
    (root : SlotHashKey) : Voting → Prop where
  | new {fc : HeaviestSubtreeForkChoice} (h : new root = some fc) :
      Votings es parentOf root ⟨fc, .default, []⟩
  | step {m m' : Voting} {event : VotingEvent} (h : Votings es parentOf root m)
      (hallowed : m.Allowed parentOf event) (hstep : m.step es event = some m') :
      Votings es parentOf root m'

/-! ## What the tracker holds -/

namespace Voting

/-- What is true of the tracker and the fork choice in every run. -/
structure Tracked (es : EpochStakes) (parentOf : SlotHashKey → Option SlotHashKey)
    (m : Voting) : Prop where
  sound : Sound es parentOf m.fc
  present : ∀ {pubkey k}, (pubkey, k) ∈ m.seen → m.fc.Present k
  latest : ∀ {pubkey : Pubkey} {k : SlotHashKey}, m.fc.latestVotes[pubkey]? = some k →
    (pubkey, k) ∈ m.seen
  vacant : ∀ {pubkey : Pubkey}, m.tracker.maxReplayFrozenVotes[pubkey]? = none →
    ∀ k, (pubkey, k) ∉ m.seen
  replay : ∀ {pubkey : Pubkey} {slot : ℕ} {hashes : List ℕ},
    m.tracker.maxReplayFrozenVotes[pubkey]? = some (slot, hashes) → hashes ≠ [] ∧
      (∀ hash, hash ∈ hashes ↔ (pubkey, ⟨slot, hash⟩) ∈ m.seen) ∧
      ∀ k, (pubkey, k) ∈ m.seen → k.slot ≤ slot
  dirty : ∀ {pubkey : Pubkey} {slot : ℕ} {hashes : List ℕ},
    m.tracker.forkChoiceDirtySet[pubkey]? = some (slot, hashes) → hashes ≠ [] ∧
      (∃ latest, m.tracker.maxReplayFrozenVotes[pubkey]? = some (slot, latest)) ∧
      ∀ hash ∈ hashes, (pubkey, ⟨slot, hash⟩) ∈ m.seen
  covered : ∀ {pubkey : Pubkey} {k : SlotHashKey}, (pubkey, k) ∈ m.seen →
    (∃ latest, m.fc.latestVotes[pubkey]? = some latest ∧ NotBetter latest k) ∨
      ∃ slot hashes, m.tracker.forkChoiceDirtySet[pubkey]? = some (slot, hashes) ∧
        (k.slot < slot ∨ k.slot = slot ∧ k.hash ∈ hashes)

variable {m m' : Voting} {slot hash : ℕ} {hashes dirty : List ℕ}

theorem tracked_new (h : new root = some fc) : Tracked es parentOf ⟨fc, .default, []⟩ := by
  have hnone : ∀ pubkey : Pubkey, (∅ : OrdMap Pubkey (ℕ × List ℕ))[pubkey]? = none :=
    fun _ => getElem?_empty
  refine ⟨sound_new h, fun hmem => ?_, fun {pubkey k} hvote => ?_, fun _ _ => not_mem_nil,
    fun {pubkey _ _} hget => ?_, fun {pubkey _ _} hget => ?_, fun hmem => ?_⟩
  · cases hmem
  · rw [(get_new h).2.1] at hvote
    cases getElem?_empty.symm.trans hvote
  · cases (hnone pubkey).symm.trans hget
  · cases (hnone pubkey).symm.trans hget
  · cases hmem

section
variable (h : Tracked es parentOf m)
include h
/-- **A replayed vote that is recorded.**  It is for the greatest slot so far, and what is left out
of the dirty hashes of this slot is known to the fork choice. -/
theorem Tracked.record {t : LatestValidatorVotesForFrozenBanks}
    (hpresent : m.fc.Present ⟨slot, hash⟩)
    (hreplay : t.maxReplayFrozenVotes = m.tracker.maxReplayFrozenVotes.insert pubkey (slot, hashes))
    (hdirty : t.forkChoiceDirtySet = m.tracker.forkChoiceDirtySet.insert pubkey (slot, dirty))
    (hle : ∀ k, (pubkey, k) ∈ m.seen → k.slot ≤ slot)
    (hhashes : ∀ x, x ∈ hashes ↔ x = hash ∨ (pubkey, ⟨slot, x⟩) ∈ m.seen) (hmem : hash ∈ dirty)
    (hseen : ∀ x ∈ dirty, x = hash ∨ (pubkey, ⟨slot, x⟩) ∈ m.seen)
    (hcovered : ∀ k, (pubkey, k) ∈ m.seen → k.slot = slot → k.hash ∉ dirty →
      ∃ latest, m.fc.latestVotes[pubkey]? = some latest ∧ NotBetter latest k) :
    Tracked es parentOf ⟨m.fc, t, (pubkey, ⟨slot, hash⟩) :: m.seen⟩ := by
  refine ⟨h.sound, fun {pubkey' k} hk => ?_, fun hvote => mem_cons_of_mem _ (h.latest hvote),
    fun {pubkey'} hget => ?_, fun {pubkey' slot' hashes'} hget => ?_,
    fun {pubkey' slot' hashes'} hget => ?_, fun {pubkey' k} hk => ?_⟩
  · rcases mem_cons.mp hk with heq | hold
    · cases heq
      exact hpresent
    · exact h.present hold
  · change t.maxReplayFrozenVotes[pubkey']? = none at hget
    rw [hreplay, get_insert] at hget
    split_ifs at hget with hne
    intro k hk
    rcases mem_cons.mp hk with heq | hold
    · cases heq
      exact hne rfl
    · exact h.vacant hget k hold
  · rw [hreplay, get_insert] at hget
    split_ifs at hget with hne
    · subst hne
      cases hget
      refine ⟨ne_nil_of_mem ((hhashes hash).mpr (.inl rfl)), fun x => ?_, fun k hk => ?_⟩
      · rw [hhashes, mem_cons]
        simp
      · rcases mem_cons.mp hk with heq | hold
        · cases heq
          exact le_rfl
        · exact hle k hold
    · obtain ⟨hne', hiff, hmax⟩ := h.replay hget
      have hother : ∀ k, (pubkey', k) ∈ (pubkey, ⟨slot, hash⟩) :: m.seen ↔
          (pubkey', k) ∈ m.seen := by
        intro k
        rw [mem_cons]
        refine or_iff_right fun heq => hne ?_
        exact (Prod.mk.inj heq).1.symm
      exact ⟨hne', fun x => (hiff x).trans (hother _).symm, fun k hk => hmax k ((hother k).mp hk)⟩
  · rw [hdirty, get_insert] at hget
    rw [hreplay, get_insert]
    split_ifs at hget with hne
    · subst hne
      cases hget
      refine ⟨ne_nil_of_mem hmem, ⟨hashes, if_pos rfl⟩, fun x hx => ?_⟩
      rcases hseen x hx with rfl | hold
      · exact mem_cons_self
      · exact mem_cons_of_mem _ hold
    · obtain ⟨hne', hlatest, hall⟩ := h.dirty hget
      refine ⟨hne', ?_, fun x hx => mem_cons_of_mem _ (hall x hx)⟩
      rwa [if_neg hne]
  · rw [hdirty, get_insert]
    rcases mem_cons.mp hk with heq | hold
    · cases heq
      exact .inr ⟨slot, dirty, if_pos rfl, .inr ⟨rfl, hmem⟩⟩
    · by_cases hne : pubkey = pubkey'
      · subst hne
        rw [if_pos rfl]
        rcases (hle k hold).lt_or_eq with hlt | heq
        · exact .inr ⟨slot, dirty, rfl, .inl hlt⟩
        · by_cases hin : k.hash ∈ dirty
          · exact .inr ⟨slot, dirty, rfl, .inr ⟨heq, hin⟩⟩
          · exact .inl (hcovered k hold heq hin)
      · rw [if_neg hne]
        exact h.covered hold

/-- A replayed vote for a slot that is passed, or for a hash that is known. -/
theorem Tracked.ignore (hpresent : m.fc.Present ⟨slot, hash⟩) {latestSlot : ℕ}
    (hget : m.tracker.maxReplayFrozenVotes[pubkey]? = some (latestSlot, hashes))
    (hold : slot < latestSlot ∨ slot = latestSlot ∧ hash ∈ hashes) :
    Tracked es parentOf ⟨m.fc, m.tracker, (pubkey, ⟨slot, hash⟩) :: m.seen⟩ := by
  obtain ⟨hne, hiff, -⟩ := h.replay hget
  refine ⟨h.sound, fun {pubkey' k} hk => ?_, fun hvote => mem_cons_of_mem _ (h.latest hvote),
    fun {pubkey'} hget' k hk => ?_, fun {pubkey' slot' hashes'} hget' => ?_, fun hget' => ?_,
    fun {pubkey' k} hk => ?_⟩
  · rcases mem_cons.mp hk with heq | hk'
    · cases heq
      exact hpresent
    · exact h.present hk'
  · rcases mem_cons.mp hk with heq | hk'
    · cases heq
      cases hget.symm.trans hget'
    · exact h.vacant hget' k hk'
  · obtain ⟨hne', hiff', hmax'⟩ := h.replay hget'
    have hknown : ∀ k, (pubkey', k) = (pubkey, (⟨slot, hash⟩ : SlotHashKey)) →
        k.slot < slot' ∨ k.slot = slot' ∧ k.hash ∈ hashes' := by
      intro k heq
      cases heq
      cases hget.symm.trans hget'
      exact hold
    refine ⟨hne', fun x => ?_, fun k hk => ?_⟩
    · rw [mem_cons, hiff']
      refine (or_iff_right_of_imp fun heq => ?_).symm
      rcases hknown _ heq with hlt | ⟨-, hmem⟩
      · exact absurd rfl hlt.ne
      · exact (hiff' x).mp hmem
    · rcases mem_cons.mp hk with heq | hk'
      · exact (hknown k heq).elim le_of_lt fun hsame => hsame.1.le
      · exact hmax' k hk'
  · obtain ⟨hne', hlatest, hall⟩ := h.dirty hget'
    exact ⟨hne', hlatest, fun x hx => mem_cons_of_mem _ (hall x hx)⟩
  · rcases mem_cons.mp hk with heq | hk'
    · cases heq
      rcases hold with hlt | ⟨rfl, hmem⟩
      · -- what covers a vote for the latest slot covers this one
        obtain ⟨x, hx⟩ := exists_mem_of_ne_nil hashes hne
        refine (h.covered ((hiff x).mp hx)).imp ?_ ?_
        · rintro ⟨latest, hvote, hbetter⟩
          refine ⟨latest, hvote, .inl ?_⟩
          unfold NotBetter at hbetter
          show slot < latest.slot
          dsimp only at hbetter
          omega
        · rintro ⟨slot', hashes', hdirty, hcase⟩
          refine ⟨slot', hashes', hdirty, .inl ?_⟩
          show slot < slot'
          dsimp only at hcase
          omega
      · exact h.covered ((hiff hash).mp hmem)
    · exact h.covered hk'

open LatestValidatorVotesForFrozenBanks

/-- Another hash of a dirty slot, or of one that is not dirty. -/
theorem Tracked.exists_pushDirty
    (hget : m.tracker.maxReplayFrozenVotes[pubkey]? = some (slot, hashes)) (hnew : hash ∉ hashes) :
    ∃ t dirty, m.tracker.pushDirty true pubkey slot hash = some t ∧
      t.maxReplayFrozenVotes = m.tracker.maxReplayFrozenVotes ∧
      t.forkChoiceDirtySet = m.tracker.forkChoiceDirtySet.insert pubkey (slot, dirty) ∧
      hash ∈ dirty ∧ (∀ x ∈ dirty, x = hash ∨ (pubkey, ⟨slot, x⟩) ∈ m.seen) ∧
      ∀ k, (pubkey, k) ∈ m.seen → k.slot = slot → k.hash ∉ dirty →
        ∃ latest, m.fc.latestVotes[pubkey]? = some latest ∧ NotBetter latest k := by
  obtain ⟨-, hiff, -⟩ := h.replay hget
  unfold pushDirty
  rw [if_pos rfl]
  cases hdirty : m.tracker.forkChoiceDirtySet[pubkey]? with
  | none =>
    refine ⟨_, [hash], rfl, rfl, rfl, mem_singleton_self _, fun x hx =>
      .inl (mem_singleton.mp hx), fun k hk _ _ => ?_⟩
    refine (h.covered hk).resolve_right ?_
    rintro ⟨slot', hashes', hget', -⟩
    cases hdirty.symm.trans hget'
  | some entry =>
    obtain ⟨dirtySlot, dirty⟩ := entry
    obtain ⟨-, ⟨latest, hlatest⟩, hall⟩ := h.dirty hdirty
    cases hget.symm.trans hlatest
    have hfresh : hash ∉ dirty := fun hmem => hnew ((hiff hash).mpr (hall hash hmem))
    dsimp only
    rw [if_pos ⟨rfl, hfresh⟩]
    refine ⟨_, dirty ++ [hash], rfl, rfl, rfl, mem_append_right _ (mem_singleton_self _),
      fun x hx => ?_, fun k hk hslot hout => ?_⟩
    · rcases mem_append.mp hx with hold | hone
      · exact .inr (hall x hold)
      · exact .inl (mem_singleton.mp hone)
    · refine (h.covered hk).resolve_right ?_
      rintro ⟨slot', hashes', hget', hcase⟩
      cases hdirty.symm.trans hget'
      rcases hcase with hlt | ⟨-, hin⟩
      · exact absurd hslot hlt.ne
      · exact hout (mem_append_left _ hin)

/-- **A vote never panics.** -/
theorem Tracked.exists_checkAddVote {frozenHash : Option ℕ} (isReplayVote : Bool)
    (hpresent : ∀ hash, frozenHash = some hash → m.fc.Present ⟨slot, hash⟩) :
    ∃ r t, m.tracker.checkAddVote pubkey slot frozenHash isReplayVote = some (r, t) ∧
      Tracked es parentOf ⟨m.fc, t, see m.seen pubkey slot frozenHash isReplayVote⟩ := by
  unfold checkAddVote
  cases frozenHash with
  | none => exact ⟨_, m.tracker, rfl, by cases isReplayVote <;> exact h⟩
  | some hash =>
    dsimp only
    have hk := hpresent hash rfl
    cases isReplayVote with
    | false =>
      -- votes in gossip only change the votes in gossip
      have hgossip : ∀ votes, Tracked es parentOf
          ⟨m.fc, { m.tracker with maxGossipFrozenVotes := votes }, m.seen⟩ :=
        fun _ => ⟨h.sound, h.present, h.latest, h.vacant, h.replay, h.dirty, h.covered⟩
      cases (m.tracker.voteMap false)[pubkey]? with
      | none => exact ⟨_, _, rfl, hgossip _⟩
      | some entry =>
        dsimp only
        split_ifs
        · exact ⟨_, _, rfl, hgossip _⟩
        · exact ⟨_, _, rfl, hgossip _⟩
        · exact ⟨_, _, rfl, h⟩
    | true =>
      have hmap : m.tracker.voteMap true = m.tracker.maxReplayFrozenVotes := rfl
      rw [hmap]
      cases hget : m.tracker.maxReplayFrozenVotes[pubkey]? with
      | none =>
        have hvacant := h.vacant hget
        refine ⟨_, _, rfl, h.record hk rfl rfl (fun k hmem => absurd hmem (hvacant k)) (fun x => ?_)
          (mem_singleton_self _) (fun x hx => .inl (mem_singleton.mp hx))
          fun k hmem => absurd hmem (hvacant k)⟩
        rw [mem_singleton]
        exact (or_iff_left (hvacant _)).symm
      | some entry =>
        obtain ⟨latestSlot, latestHashes⟩ := entry
        obtain ⟨-, hiff, hmax⟩ := h.replay hget
        dsimp only
        split_ifs with hgt hsame
        · have hpast : ∀ k, (pubkey, k) ∈ m.seen → k.slot < slot :=
            fun k hmem => (hmax k hmem).trans_lt hgt
          refine ⟨_, _, rfl, h.record hk rfl rfl (fun k hmem => (hpast k hmem).le) (fun x => ?_)
            (mem_singleton_self _) (fun x hx => .inl (mem_singleton.mp hx))
            fun k hmem hslot => absurd hslot (hpast k hmem).ne⟩
          rw [mem_singleton]
          exact (or_iff_left fun hmem => lt_irrefl _ (hpast _ hmem)).symm
        · obtain ⟨rfl, hnew⟩ := hsame
          obtain ⟨t, dirty, heq, -, hdirty, hmem, hseen, hcovered⟩ := h.exists_pushDirty hget hnew
          rw [heq]
          refine ⟨_, _, rfl, h.record hk rfl hdirty hmax (fun x => ?_) hmem hseen hcovered⟩
          rw [mem_append, mem_singleton, hiff, or_comm]
        · refine ⟨_, _, rfl, h.ignore hk hget ?_⟩
          rcases (not_lt.mp hgt).lt_or_eq with hlt | heq
          · exact .inl hlt
          · refine .inr ⟨heq, ?_⟩
            by_contra hout
            exact hsame ⟨heq, hout⟩

/-- **An update returns if nobody has several versions**, and the latest votes agree. -/
theorem Tracked.exists_addVotes
    (hperm : votes.Perm (m.tracker.takeVotesDirtySet m.fc.treeRoot.slot).1)
    (hone : m.tracker.OneVersion m.fc.treeRoot.slot) :
    ∃ fc' best, m.fc.addVotes es votes = some (fc', best) ∧
      Tracked es parentOf
        ⟨fc', (m.tracker.takeVotesDirtySet m.fc.treeRoot.slot).2, m.seen⟩ ∧
      Agrees ⟨fc', (m.tracker.takeVotesDirtySet m.fc.treeRoot.slot).2, m.seen⟩ := by
  have hnodup : (votes.map fst).Nodup :=
    (hperm.map fst).nodup_iff.mpr
      (nodup_voters_iff.mpr hone)
  have hvote : ∀ {pubkey k}, (pubkey, k) ∈ votes → (pubkey, k) ∈ m.seen := by
    intro pubkey k hmem
    obtain ⟨-, hashes, hget, hhash⟩ := mem_takeVotesDirtySet.mp (hperm.mem_iff.mp hmem)
    exact (h.dirty hget).2.2 _ hhash
  obtain ⟨fc', best, heq, hsound, hadded⟩ := h.sound.exists_addVotes hnodup
    fun v hv => .inl (h.present (hvote hv))
  have hsame := hadded.sameTree
  have hroot : ∀ {k}, m.fc.Present k → m.fc.treeRoot.slot ≤ k.slot :=
    fun hk => h.sound.shaped.slot_le (h.sound.shaped.below_root hk)
  -- every replayed vote is now covered by the latest vote
  have hbest : ∀ {pubkey k}, (pubkey, k) ∈ m.seen →
      ∃ latest, fc'.latestVotes[pubkey]? = some latest ∧ NotBetter latest k := by
    intro pubkey k hk
    rw [hsame.latestVotes]
    change ∃ latest, (votes.foldl (recordVote m.fc.treeRoot) m.fc.latestVotes)[pubkey]? =
      some latest ∧ NotBetter latest k
    cases hdirty : m.tracker.forkChoiceDirtySet[pubkey]? with
    | none =>
      have hout : pubkey ∉ votes.map fst := by
        intro hmem
        obtain ⟨⟨_, vote⟩, hv, rfl⟩ := mem_map.mp hmem
        obtain ⟨-, hashes, hget, -⟩ := mem_takeVotesDirtySet.mp (hperm.mem_iff.mp hv)
        cases hdirty.symm.trans hget
      rw [get_foldl_recordVote_of_notMem hout]
      refine (h.covered hk).resolve_right ?_
      rintro ⟨slot, hashes, hget, -⟩
      cases hdirty.symm.trans hget
    | some entry =>
      obtain ⟨slot, hashes⟩ := entry
      obtain ⟨hne, -, hall⟩ := h.dirty hdirty
      obtain ⟨hash, hhash⟩ := exists_mem_of_ne_nil hashes hne
      have hslot := hroot (h.present (hall hash hhash))
      have hsingle : hashes = [hash] := by
        have hlen := hone (pubkey, slot, hashes) ((mem_toList_iff _ _).mpr hdirty) hslot
        obtain ⟨x, rfl⟩ := length_eq_one_iff.mp
          (le_antisymm hlen (length_pos_iff.mpr hne))
        rw [mem_singleton.mp hhash]
      have hmem : (pubkey, (⟨slot, hash⟩ : SlotHashKey)) ∈ votes :=
        hperm.mem_iff.mpr (mem_takeVotesDirtySet.mpr
          ⟨hslot, hashes, hdirty, hhash⟩)
      obtain ⟨latest, hlatest, hnew, hold⟩ :=
        exists_get_foldl_recordVote m.fc.latestVotes hnodup hmem hslot
      refine ⟨latest, hlatest, ?_⟩
      rcases h.covered hk with ⟨old, hold', hbetter⟩ | ⟨slot', hashes', hget, hcase⟩
      · exact (hold old hold').trans hbetter
      · cases hdirty.symm.trans hget
        refine hnew.trans ?_
        rcases hcase with hlt | ⟨heq', hin⟩
        · exact .inl hlt
        · rw [hsingle, mem_singleton] at hin
          exact .inr ⟨heq', hin.ge⟩
  have hlatest : ∀ {pubkey : Pubkey} {k}, fc'.latestVotes[pubkey]? = some k →
      (pubkey, k) ∈ m.seen := by
    intro pubkey k hget
    rw [hsame.latestVotes] at hget
    rcases get_foldl_recordVote hget with hold | ⟨hmem, -⟩
    · exact h.latest hold
    · exact hvote hmem
  have hempty : ∀ pubkey : Pubkey, (∅ : OrdMap Pubkey (ℕ × List ℕ))[pubkey]? = none :=
    fun _ => getElem?_empty
  refine ⟨fc', best, heq, ⟨hsound, fun hk => hsame.present_iff.mpr (h.present hk), hlatest,
    h.vacant, h.replay, fun {pubkey _ _} hget => ?_, fun hk => .inl (hbest hk)⟩, fun pubkey => ?_⟩
  · cases (hempty pubkey).symm.trans hget
  · dsimp only
    cases hget : fc'.latestVotes[pubkey]? with
    | none =>
      intro k hk
      obtain ⟨latest, hsome, -⟩ := hbest hk
      cases hget.symm.trans hsome
    | some latest =>
      refine ⟨hlatest hget, fun k hk => ?_⟩
      obtain ⟨latest', hsome, hbetter⟩ := hbest hk
      cases hget.symm.trans hsome
      exact hbetter

/-- A new leaf. -/
theorem Tracked.exists_addNewLeafSlot (hslot : ∀ k p, parentOf k = some p → p.slot < k.slot)
    (hp : parentOf k = some p) (hpresent : m.fc.Present p) :
    ∃ fc', m.fc.addNewLeafSlot k (some p) = some fc' ∧
      Tracked es parentOf { m with fc := fc' } := by
  obtain ⟨fc', heq, hsound⟩ := h.sound.exists_addNewLeafSlot hslot hp hpresent
  by_cases hk : m.fc.Present k
  · rw [addNewLeafSlot, if_pos (containsBlock_iff.mpr hk)] at heq ⊢
    exact ⟨m.fc, rfl, h⟩
  · have hleaf : m.fc.NewLeaf k p := ⟨hk, hpresent, hslot k p hp⟩
    obtain ⟨fc'', heq', hadded⟩ := hleaf.exists_addNewLeafSlot_eq h.sound.shaped h.sound.cached
    cases heq.symm.trans heq'
    refine ⟨fc', heq, hsound, fun hmem => ?_, fun {pubkey n} hvote => ?_, h.vacant, h.replay,
      h.dirty, fun {pubkey n} hmem => ?_⟩
    · exact (hadded.present _).mpr (.inr (h.present hmem))
    · change fc'.latestVotes[pubkey]? = some n at hvote
      rw [hadded.latestVotes] at hvote
      exact h.latest hvote
    · rw [hadded.latestVotes]
      exact h.covered hmem

/-- **One step.**  It returns iff nobody has several versions in an update. -/
theorem Tracked.step_spec (hslot : ∀ k p, parentOf k = some p → p.slot < k.slot)
    {event : VotingEvent} (hallowed : m.Allowed parentOf event) :
    (m.OneVersionEach event → ∃ m', m.step es event = some m' ∧ Tracked es parentOf m' ∧
      ((∃ votes, event = .computeBankStats votes) → m'.Agrees)) ∧
    (¬m.OneVersionEach event → m.step es event = none) := by
  cases event with
  | addNewLeafSlot k p =>
    refine ⟨fun _ => ?_, fun hnot => absurd trivial hnot⟩
    obtain ⟨fc', heq, htracked⟩ := h.exists_addNewLeafSlot hslot hallowed.1 hallowed.2
    refine ⟨{ m with fc := fc' }, congrArg (Option.map _) heq, htracked, ?_⟩
    rintro ⟨votes, hevent⟩
    cases hevent
  | checkAddVote pubkey slot frozenHash isReplayVote =>
    refine ⟨fun _ => ?_, fun hnot => absurd trivial hnot⟩
    obtain ⟨r, t, heq, htracked⟩ := h.exists_checkAddVote isReplayVote hallowed
    refine ⟨_, congrArg (Option.map _) heq, htracked, ?_⟩
    rintro ⟨votes, hevent⟩
    cases hevent
  | computeBankStats votes =>
    constructor
    · intro hone
      obtain ⟨fc', best, heq, htracked, hagrees⟩ := h.exists_addVotes hallowed hone
      exact ⟨_, congrArg (Option.map _) heq, htracked, fun _ => hagrees⟩
    · intro hnot
      have hdup : ¬(votes.map fst).Nodup := fun hnodup =>
        hnot (nodup_voters_iff.mp
          ((List.Perm.map fst hallowed).nodup_iff.mp hnodup))
      have hroot : ∀ v ∈ votes, m.fc.treeRoot.slot ≤ v.2.slot := fun v hv =>
        (mem_takeVotesDirtySet.mp
          ((List.Perm.mem_iff hallowed).mp hv)).1
      have hnone : m.fc.addVotes es votes = none := by
        rw [addVotes, generateUpdateOperations, generateLoop_eq_none_of_not_nodup hroot hdup]
        rfl
      exact congrArg (Option.map _) hnone

end
end Voting

/-- Every run is tracked. -/
theorem Votings.tracked (h : Votings es parentOf root m)
    (hslot : ∀ k p, parentOf k = some p → p.slot < k.slot) : m.Tracked es parentOf := by
  induction h with
  | new hnew => exact Voting.tracked_new hnew
  | @step m m' event _ hallowed hstep ih =>
    obtain ⟨hreturns, hpanics⟩ := ih.step_spec hslot hallowed
    by_cases hone : m.OneVersionEach event
    · obtain ⟨m'', heq, htracked, -⟩ := hreturns hone
      cases hstep.symm.trans heq
      exact htracked
    · cases hstep.symm.trans (hpanics hone)

/-- **Latest votes and the fork choice.**  In every run, a step returns iff it is not an update that
takes several versions of one validator, and after an update the latest votes agree. -/
theorem Votings.step_isSome_iff (hslot : ∀ k p, parentOf k = some p → p.slot < k.slot)
    (h : Votings es parentOf root m) {event : VotingEvent} (hallowed : m.Allowed parentOf event) :
    ((m.step es event).isSome ↔ m.OneVersionEach event) ∧
      ∀ votes m', event = .computeBankStats votes → m.step es event = some m' → m'.Agrees := by
  obtain ⟨hreturns, hpanics⟩ := (h.tracked hslot).step_spec hslot hallowed
  by_cases hone : m.OneVersionEach event
  · obtain ⟨m', heq, -, hagrees⟩ := hreturns hone
    refine ⟨iff_of_true (heq ▸ rfl) hone, fun votes m'' hevent heq' => ?_⟩
    cases heq.symm.trans heq'
    exact hagrees ⟨votes, hevent⟩
  · have hnone := hpanics hone
    refine ⟨iff_of_false (by simp [hnone]) hone, fun votes m' _ heq => ?_⟩
    cases hnone.symm.trans heq

/-- Events that are executed make a run. -/
theorem Votings.exec {events : List VotingEvent} (h : Votings es parentOf root m)
    (heq : m.exec es parentOf events = some m') : Votings es parentOf root m' := by
  induction events generalizing m with
  | nil =>
    cases heq
    exact h
  | cons event rest ih =>
    rw [Voting.exec, foldlM_cons] at heq
    obtain ⟨m1, hstep, hrest⟩ := bind_eq_some_iff.mp heq
    split_ifs at hstep with hallowed
    exact ih (h.step hallowed hstep) hrest

/-- A replayed vote for a leaf, and an update. -/
theorem step_isSome_iff_one_vote :
    ∃ m m', (new ⟨0, 1⟩).bind (fun fc =>
        Voting.exec ⟨fun _ => 0, fun _ => some fun _ => 5⟩
          (fun k => if k.slot = 1 then some ⟨0, 1⟩ else none) ⟨fc, .default, []⟩
          [.addNewLeafSlot ⟨1, 1⟩ ⟨0, 1⟩, .checkAddVote 7 1 (some 1) true]) = some m ∧
      m.step ⟨fun _ => 0, fun _ => some fun _ => 5⟩ (.computeBankStats [(7, ⟨1, 1⟩)]) = some m' ∧
      m'.fc.latestVotes[7]? = some ⟨1, 1⟩ ∧ m'.Agrees := by
  set es : EpochStakes := ⟨fun _ => 0, fun _ => some fun _ => 5⟩
  set parentOf : SlotHashKey → Option SlotHashKey :=
    fun k => if k.slot = 1 then some ⟨0, 1⟩ else none with hparentOf
  set events : List VotingEvent :=
    [.addNewLeafSlot ⟨1, 1⟩ ⟨0, 1⟩, .checkAddVote 7 1 (some 1) true]
  have hslot : ∀ k p, parentOf k = some p → p.slot < k.slot := by
    intro k p hp
    rw [hparentOf] at hp
    dsimp only at hp
    split_ifs at hp with hone
    cases hp
    rw [hone]
    exact Nat.one_pos
  have hstate : ((new ⟨0, 1⟩).bind (fun fc =>
      Voting.exec es parentOf ⟨fc, .default, []⟩ events)).map (fun m =>
        (decide (m.Allowed parentOf (.computeBankStats [(7, ⟨1, 1⟩)])),
          (m.step es (.computeBankStats [(7, ⟨1, 1⟩)])).map fun m' => m'.fc.latestVotes[7]?)) =
      some (true, some (some ⟨1, 1⟩)) := by
    decide +kernel
  obtain ⟨m, hm, hstate⟩ := map_eq_some_iff.mp hstate
  obtain ⟨hallowed, hlatest⟩ := Prod.mk.inj hstate
  obtain ⟨m', hstep, hvote⟩ := map_eq_some_iff.mp hlatest
  obtain ⟨fc, hfc, hexec⟩ := bind_eq_some_iff.mp hm
  exact ⟨m, m', hm, hstep, hvote, (Votings.step_isSome_iff hslot ((Votings.new hfc).exec hexec)
    (of_decide_eq_true hallowed)).2 _ m' rfl hstep⟩

/-- A validator votes for two blocks of the slot `1`, and the next update panics. -/
theorem computeBankStats_two_versions :
    ∃ m, Votings ⟨fun _ => 0, fun _ => some fun _ => 5⟩
        (fun k => if k.slot = 1 then some ⟨0, 1⟩ else none) ⟨0, 1⟩ m ∧
      m.seen = [(7, ⟨1, 2⟩), (7, ⟨1, 1⟩)] ∧
      m.Allowed (fun k => if k.slot = 1 then some ⟨0, 1⟩ else none)
        (.computeBankStats [(7, ⟨1, 1⟩), (7, ⟨1, 2⟩)]) ∧
      m.step ⟨fun _ => 0, fun _ => some fun _ => 5⟩
        (.computeBankStats [(7, ⟨1, 1⟩), (7, ⟨1, 2⟩)]) = none := by
  set es : EpochStakes := ⟨fun _ => 0, fun _ => some fun _ => 5⟩
  set parentOf : SlotHashKey → Option SlotHashKey :=
    fun k => if k.slot = 1 then some ⟨0, 1⟩ else none
  set events : List VotingEvent :=
    [.addNewLeafSlot ⟨1, 1⟩ ⟨0, 1⟩, .addNewLeafSlot ⟨1, 2⟩ ⟨0, 1⟩,
      .checkAddVote 7 1 (some 1) true, .checkAddVote 7 1 (some 2) true]
  have hstate : ((new ⟨0, 1⟩).bind (fun fc =>
      Voting.exec es parentOf ⟨fc, .default, []⟩ events)).map (fun m =>
        (m.seen, decide (m.Allowed parentOf (.computeBankStats [(7, ⟨1, 1⟩), (7, ⟨1, 2⟩)])),
          (m.step es (.computeBankStats [(7, ⟨1, 1⟩), (7, ⟨1, 2⟩)])).isNone)) =
      some ([(7, ⟨1, 2⟩), (7, ⟨1, 1⟩)], true, true) := by
    decide +kernel
  obtain ⟨m, hm, hstate⟩ := map_eq_some_iff.mp hstate
  obtain ⟨hseen, hrest⟩ := Prod.mk.inj hstate
  obtain ⟨hallowed, hnone⟩ := Prod.mk.inj hrest
  obtain ⟨fc, hfc, hexec⟩ := bind_eq_some_iff.mp hm
  exact ⟨m, (Votings.new hfc).exec hexec, hseen, of_decide_eq_true hallowed,
    isNone_iff_eq_none.mp hnone⟩

end HeaviestSubtreeForkChoice
end FlowraValidator.Consensus
