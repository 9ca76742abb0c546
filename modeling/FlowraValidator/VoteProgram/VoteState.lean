import FlowraValidator.VoteProgram.TowerVoteState

/-!
# Vote accounts

`programs/vote/src/vote_state`: the votes, the root and the credits of a vote account, and the two
ways to change them. `processNextVoteSlot` applies one vote after the other, as the tower does.
`processNewVoteState` takes a whole tower from the validator and checks that it could have come out
of the votes of the account; `checkAndFilterProposedVoteState` compares the tower with the slot
hashes before.

A panic, that is a failed assertion, `expect` or index, is `none`. A `VecDeque` is a list, the
oldest vote first, and an index into it that only moves on is the list that is left. In the walk
along the slot hashes, which are sorted from the newest to the oldest, the index moves from the end
to the front, so the list that is left starts with the oldest one; the entry at the index itself is
the last one that was passed.

* `VoteState.processNextVoteSlot`, `VoteState.processNewVoteState`,
  `VoteState.checkAndFilterProposedVoteState`, `VoteState.doProcessTowerSync`: the code.
* `VoteState.checkVotes_eq_ok_iff`: what the checks on a tower say.
* `VoteState.mergeVotes_eq_ok_iff`: what the comparison with the old votes says.
-/

namespace FlowraValidator.VoteProgram
open List Option Prod

abbrev Hash := ℕ

/-- `VoteError`: the errors of these functions. -/
inductive VoteError where
  | voteTooOld
  | slotsMismatch
  | slotHashMismatch
  | emptySlots
  | timestampTooOld
  | lockoutConflict
  | newVoteStateLockoutMismatch
  | slotsNotOrdered
  | confirmationsNotOrdered
  | zeroConfirmations
  | confirmationTooLarge
  | rootRollBack
  | confirmationRollBack
  | slotSmallerThanRoot
  | tooManyVotes
  | rootOnDifferentFork
  | assertionFailed
  deriving DecidableEq

/-- `LandedVote`; the latency is a `u8`. -/
structure LandedVote where
  latency : ℕ
  lockout : Lockout
  deriving DecidableEq

namespace LandedVote

def slot (v : LandedVote) : ℕ := v.lockout.slot

def confirmationCount (v : LandedVote) : ℕ := v.lockout.confirmationCount

/-- `LandedVote::from`. -/
def ofLockout (lockout : Lockout) : LandedVote := ⟨0, lockout⟩

end LandedVote

/-- `BlockTimestamp`. -/
structure BlockTimestamp where
  slot : ℕ
  timestamp : ℤ
  deriving DecidableEq

/-- The part of a vote account that votes change. An entry of the credits is an epoch, the credits
at its end and the credits at its start. -/
structure VoteState where
  votes : List LandedVote
  rootSlot : Option ℕ
  epochCredits : List (ℕ × ℕ × ℕ)
  lastTimestamp : BlockTimestamp
  deriving DecidableEq

/-- `VOTE_CREDITS_GRACE_SLOTS`. -/
def voteCreditsGraceSlots : ℕ := 2

/-- `VOTE_CREDITS_MAXIMUM_PER_SLOT`. -/
def voteCreditsMaximumPerSlot : ℕ := 16

/-- `MAX_EPOCH_CREDITS_HISTORY`. -/
def maxEpochCreditsHistory : ℕ := 64

/-- `compute_vote_latency`: at most `u8::MAX`. -/
def computeVoteLatency (votedForSlot currentSlot : ℕ) : ℕ := min (currentSlot - votedForSlot) 255

namespace VoteState
variable (vs : VoteState) {votes : List LandedVote} {newRoot : Option ℕ}

/-! ## One vote after the other -/

open LandedVote

def lastVotedSlot : Option ℕ := vs.votes.getLast?.map slot

/-- `contains_slot`: a binary search, which finds any slot that is there, since votes are sorted. -/
def containsSlot (candidateSlot : ℕ) : Bool :=
  vs.votes.any fun vote => decide (vote.slot = candidateSlot)

def creditsForVoteAtIndex (index : ℕ) : ℕ :=
  let latency := (vs.votes[index]?.map latency).getD 0
  if latency = 0 then 1
  else if latency ≤ voteCreditsGraceSlots then voteCreditsMaximumPerSlot
  else
    let diff := latency - voteCreditsGraceSlots
    if voteCreditsMaximumPerSlot ≤ diff then 1 else voteCreditsMaximumPerSlot - diff

/-- The entry of the epoch is made to be the last one. -/
def openEpoch (epoch : ℕ) (epochCredits : List (ℕ × ℕ × ℕ)) : List (ℕ × ℕ × ℕ) :=
  match epochCredits.getLast? with
  | none => [(epoch, 0, 0)]
  | some (lastEpoch, credits, prevCredits) =>
    if epoch = lastEpoch then epochCredits
    else
      let epochCredits :=
        if credits ≠ prevCredits then epochCredits ++ [(epoch, credits, credits)]
        else epochCredits.dropLast ++ [(epoch, credits, prevCredits)]
      if epochCredits.length > maxEpochCreditsHistory then epochCredits.tail else epochCredits

def incrementCredits (epoch credits : ℕ) : VoteState :=
  let epochCredits := openEpoch epoch vs.epochCredits
  { vs with epochCredits := match epochCredits.getLast? with
      | none => epochCredits
      | some (lastEpoch, current, prev) =>
        epochCredits.dropLast ++ [(lastEpoch, min (current + credits) u64Max, prev)] }

def popExpiredVotes (nextVoteSlot : ℕ) : VoteState :=
  { vs with votes := vs.votes.rdropWhile fun v => !v.lockout.isLockedOutAtSlot nextVoteSlot }

def doubleLockouts : VoteState :=
  let stackDepth := vs.votes.length
  { vs with votes := vs.votes.mapIdx fun i v =>
      if stackDepth > i + v.confirmationCount then
        { v with lockout := v.lockout.increaseConfirmationCount 1 }
      else v }

/-- Once the stack is full, the oldest vote is rooted and earns credits. -/
def popRooted (epoch : ℕ) : VoteState :=
  match vs.votes with
  | v :: rest =>
    if vs.votes.length = maxLockoutHistory then
      { vs with votes := rest, rootSlot := some v.slot }.incrementCredits epoch
        (vs.creditsForVoteAtIndex 0)
    else vs
  | [] => vs

def processNextVoteSlot (nextVoteSlot epoch currentSlot : ℕ) : VoteState :=
  if vs.lastVotedSlot.any fun lastVotedSlot => decide (nextVoteSlot ≤ lastVotedSlot) then vs
  else
    let landedVote : LandedVote :=
      ⟨computeVoteLatency nextVoteSlot currentSlot, Lockout.new nextVoteSlot⟩
    let vs := (vs.popExpiredVotes nextVoteSlot).popRooted epoch
    doubleLockouts { vs with votes := vs.votes ++ [landedVote] }

/-! ## A whole tower -/

def processTimestamp (slot : ℕ) (timestamp : ℤ) : Except VoteError VoteState :=
  let last := vs.lastTimestamp
  if (slot < last.slot ∨ timestamp < last.timestamp) ∨
      (slot = last.slot ∧ (⟨slot, timestamp⟩ : BlockTimestamp) ≠ last ∧ last.slot ≠ 0) then
    .error .timestampTooOld
  else .ok { vs with lastTimestamp := ⟨slot, timestamp⟩ }

/-- The checks on the votes of a new tower, with the vote before the first one. -/
def checkVotes (newRoot : Option ℕ) : Option LandedVote → List LandedVote → Except VoteError Unit
  | _, [] => .ok ()
  | previousVote, vote :: votes =>
    if vote.confirmationCount = 0 then .error .zeroConfirmations
    else if vote.confirmationCount > maxLockoutHistory then .error .confirmationTooLarge
    else if newRoot.any fun root => decide (vote.slot ≤ root ∧ root ≠ 0) then
      .error .slotSmallerThanRoot
    else
      match previousVote with
      | none => checkVotes newRoot (some vote) votes
      | some previous =>
        if previous.slot ≥ vote.slot then .error .slotsNotOrdered
        else if previous.confirmationCount ≤ vote.confirmationCount then
          .error .confirmationsNotOrdered
        else if vote.slot > previous.lockout.lastLockedOutSlot then
          .error .newVoteStateLockoutMismatch
        else checkVotes newRoot (some vote) votes

/-- The votes up to the new root: how many there are, and the credits they earn. Adding up credits
is checked. -/
def earnCredits (newRoot : ℕ) : List LandedVote → ℕ → ℕ → Option (ℕ × ℕ)
  | [], index, earned => some (index, earned)
  | vote :: votes, index, earned =>
    if vote.slot ≤ newRoot then
      if earned + vs.creditsForVoteAtIndex index ≤ u64Max then
        earnCredits newRoot votes (index + 1) (earned + vs.creditsForVoteAtIndex index)
      else none
    else some (index, earned)

/-- The walk along the old and the new votes. An old vote that is missing has to have expired
before the next new one. The latencies of common votes are copied. -/
def mergeVotes : List LandedVote → List LandedVote → Except VoteError (List LandedVote)
  | [], new => .ok new
  | _ :: _, [] => .ok []
  | current :: currents, new :: news =>
    if current.slot < new.slot then
      if current.lockout.lastLockedOutSlot ≥ new.slot then .error .lockoutConflict
      else mergeVotes currents (new :: news)
    else if current.slot = new.slot then
      if new.confirmationCount < current.confirmationCount then .error .confirmationRollBack
      else (mergeVotes currents news).map ({ new with latency := current.latency } :: ·)
    else (mergeVotes (current :: currents) news).map (new :: ·)
  termination_by currents news => currents.length + news.length

/-- The latency of a vote that is new. -/
def setLatency (currentSlot : ℕ) (vote : LandedVote) : LandedVote :=
  if vote.latency = 0 then
    { vote with latency := computeVoteLatency vote.slot currentSlot }
  else vote

/-- The root may not go back. -/
def rootRollsBack (newRoot : Option ℕ) : Bool :=
  match newRoot, vs.rootSlot with
  | some newRoot, some currentRoot => decide (newRoot < currentRoot)
  | none, some _ => true
  | _, none => false

def processNewVoteState (newState : List LandedVote) (newRoot : Option ℕ) (timestamp : Option ℤ)
    (epoch currentSlot : ℕ) : Option (Except VoteError VoteState) :=
  match newState.getLast? with
  | none => none
  | some last =>
    if newState.length > maxLockoutHistory then some (.error .tooManyVotes)
    else if vs.rootRollsBack newRoot then some (.error .rootRollBack)
    else
      match checkVotes newRoot none newState with
      | .error e => some (.error e)
      | .ok () =>
        match newRoot.elim (some (0, 0)) fun root => vs.earnCredits root vs.votes 0 0 with
        | none => none
        | some (index, earned) =>
          match mergeVotes (vs.votes.drop index) newState with
          | .error e => some (.error e)
          | .ok newState =>
            let credited := if vs.rootSlot ≠ newRoot then vs.incrementCredits epoch earned else vs
            let stamped : Except VoteError VoteState :=
              match timestamp with
              | none => .ok credited
              | some timestamp => credited.processTimestamp last.slot timestamp
            some (stamped.map fun vs =>
              { vs with votes := newState.map (setLatency currentSlot), rootSlot := newRoot })

/-! ## Slot hashes -/

/-- A root that is too old for the slot hashes is replaced. -/
def overwriteRoot (earliest : ℕ) (proposedRoot : Option ℕ) : Option ℕ :=
  match proposedRoot with
  | none => none
  | some root =>
    if root < earliest then
      match vs.votes.reverse.find? fun vote => decide (vote.slot ≤ root) with
      | some vote => some vote.slot
      | none => vs.rootSlot
    else some root

/-- The walk along the proposed lockouts and the slot hashes. The arguments are the root as long as
it is not checked, the lockout before the next one, the lockouts left, the slot hash passed last,
the slot hashes left from the oldest one on, and the lockouts kept so far. The answer is the
lockouts kept and the slot hash passed last. -/
def checkSlots (earliest : ℕ) : Option ℕ → Option Lockout → List Lockout → Option (ℕ × Hash) →
    List (ℕ × Hash) → List Lockout → Option (Except VoteError (List Lockout × Option (ℕ × Hash)))
  | _, _, [], passed, _, kept => some (.ok (kept, passed))
  | _, _, _ :: _, _, [], _ => some (.error .slotsMismatch)
  | rootToCheck, previous, lockout :: lockouts, passed, slotHash :: slotHashes, kept =>
    let proposedVoteSlot := rootToCheck.getD lockout.slot
    if rootToCheck.isNone ∧ previous.any fun p => decide (proposedVoteSlot ≤ p.slot) then
      some (.error .slotsNotOrdered)
    else if proposedVoteSlot < slotHash.1 then
      if passed.isNone then
        -- older than the oldest slot hash
        if proposedVoteSlot ≥ earliest then some (.error .assertionFailed)
        else
          match rootToCheck with
          | some newProposedRoot =>
            if newProposedRoot ≠ proposedVoteSlot then none
            else if newProposedRoot ≥ earliest then some (.error .assertionFailed)
            else checkSlots earliest none previous (lockout :: lockouts) passed
              (slotHash :: slotHashes) kept
          | none =>
            checkSlots earliest none (some lockout) lockouts passed (slotHash :: slotHashes)
              (if vs.containsSlot proposedVoteSlot then kept ++ [lockout] else kept)
      else
        -- new enough, but not one of the slot hashes
        some (.error (if rootToCheck.isSome then .rootOnDifferentFork else .slotsMismatch))
    else if proposedVoteSlot = slotHash.1 then
      match rootToCheck with
      | some _ =>
        checkSlots earliest none previous (lockout :: lockouts) passed (slotHash :: slotHashes) kept
      | none =>
        checkSlots earliest none (some lockout) lockouts (some slotHash) slotHashes
          (kept ++ [lockout])
    else checkSlots earliest rootToCheck previous (lockout :: lockouts) (some slotHash) slotHashes
      kept
  termination_by rootToCheck _ lockouts _ slotHashes _ =>
    rootToCheck.toList.length + lockouts.length + slotHashes.length

def checkAndFilterProposedVoteState (proposedLockouts : List Lockout) (proposedRoot : Option ℕ)
    (proposedHash : Hash) (slotHashes : List (ℕ × Hash)) :
    Option (Except VoteError (List Lockout × Option ℕ)) :=
  match proposedLockouts.getLast? with
  | none => some (.error .emptySlots)
  | some last =>
    if vs.lastVotedSlot.any fun lastVoteSlot => decide (last.slot ≤ lastVoteSlot) then
      some (.error .voteTooOld)
    else
      match slotHashes.getLast? with
      | none => some (.error .slotsMismatch)
      | some (earliest, _) =>
        if last.slot < earliest then some (.error .voteTooOld)
        else
          let root := vs.overwriteRoot earliest proposedRoot
          match vs.checkSlots earliest root none proposedLockouts none slotHashes.reverse [] with
          | none => none
          | some (.error e) => some (.error e)
          | some (.ok (_, none)) => none
          | some (.ok (kept, some (slot, hash))) =>
            if last.slot ≠ slot then none
            else if hash ≠ proposedHash then some (.error .slotHashMismatch)
            else some (.ok (kept, root))

/-- `TowerSync`, and `VoteStateUpdate`, which has the same fields for this. -/
structure TowerSync where
  lockouts : List Lockout
  root : Option ℕ
  hash : Hash
  timestamp : Option ℤ

def doProcessTowerSync (slotHashes : List (ℕ × Hash)) (epoch slot : ℕ) (towerSync : TowerSync) :
    Option (Except VoteError VoteState) :=
  match vs.checkAndFilterProposedVoteState towerSync.lockouts towerSync.root towerSync.hash
      slotHashes with
  | none => none
  | some (.error e) => some (.error e)
  | some (.ok (lockouts, root)) =>
    vs.processNewVoteState (lockouts.map ofLockout) root towerSync.timestamp epoch slot

/-- The same steps for the older instruction. -/
def doProcessVoteStateUpdate (slotHashes : List (ℕ × Hash)) (epoch slot : ℕ)
    (voteStateUpdate : TowerSync) : Option (Except VoteError VoteState) :=
  vs.doProcessTowerSync slotHashes epoch slot voteStateUpdate

/-! ## What the checks say -/

/-- Neighbours of a tower with latencies. -/
def Linked (a b : LandedVote) : Prop := a.lockout.Linked b.lockout

instance (a b : LandedVote) : Decidable (Linked a b) :=
  inferInstanceAs (Decidable (a.lockout.Linked b.lockout))

theorem isChain_linked_iff :
    votes.IsChain Linked ↔ (votes.map lockout).IsChain Lockout.Linked :=
  (isChain_map lockout).symm

/-- The slots of a tower increase. -/
theorem pairwise_slot_of_isChain (h : votes.IsChain Linked) :
    votes.Pairwise fun a b => a.slot < b.slot := by
  have hslots := Lockout.pairwise_slot_of_isChain (isChain_linked_iff.mp h)
  rwa [pairwise_map] at hslots

/-- A single vote of a new tower is fine. -/
structure Proper (newRoot : Option ℕ) (v : LandedVote) : Prop where
  count_pos : 1 ≤ v.confirmationCount
  count_le : v.confirmationCount ≤ maxLockoutHistory
  above : ∀ root ∈ newRoot, root ≠ 0 → root < v.slot

theorem proper_iff {v : LandedVote} :
    Proper newRoot v ↔ ¬v.confirmationCount = 0 ∧ ¬v.confirmationCount > maxLockoutHistory ∧
      ¬(newRoot.any fun root => decide (v.slot ≤ root ∧ root ≠ 0)) = true := by
  have hroot : (¬(newRoot.any fun root => decide (v.slot ≤ root ∧ root ≠ 0)) = true) ↔
      ∀ root ∈ newRoot, root ≠ 0 → root < v.slot := by
    cases newRoot with
    | none => simp
    | some root =>
      simp only [any_some, decide_eq_true_eq, mem_some_iff, forall_eq']
      constructor
      · intro h hne
        by_contra hle
        exact h ⟨not_lt.mp hle, hne⟩
      · rintro h ⟨hle, hne⟩
        exact absurd (h hne) (not_lt.mpr hle)
  rw [hroot]
  constructor
  · intro h
    have hpos := h.count_pos
    have hle := h.count_le
    exact ⟨by omega, by omega, h.above⟩
  · rintro ⟨hpos, hle, habove⟩
    exact ⟨by omega, by omega, habove⟩

/-- **The checks on a new tower.** -/
theorem checkVotes_eq_ok_iff (previous : Option LandedVote) (votes : List LandedVote) :
    checkVotes newRoot previous votes = .ok () ↔
      (∀ v ∈ votes, Proper newRoot v) ∧ (previous.toList ++ votes).IsChain Linked := by
  induction votes generalizing previous with
  | nil =>
    cases previous with
    | none | some previous => simp [checkVotes]
  | cons vote votes ih =>
    rw [forall_mem_cons, proper_iff]
    cases previous with
    | none =>
      have hih := ih (some vote)
      rw [checkVotes]
      split_ifs with hzero hlarge hroot <;> simp_all
    | some previous =>
      have hih := ih (some vote)
      have hlink : Linked previous vote ↔ ¬previous.slot ≥ vote.slot ∧
          ¬previous.confirmationCount ≤ vote.confirmationCount ∧
          ¬vote.slot > previous.lockout.lastLockedOutSlot := by
        simp only [not_le, ge_iff_le, gt_iff_lt, not_lt]
        exact ⟨fun h => ⟨h.slot_lt, h.count_lt, h.locked⟩, fun h => ⟨h.1, h.2.1, h.2.2⟩⟩
      rw [checkVotes]
      simp only [toList_some, singleton_append, isChain_cons_cons, hlink] at hih ⊢
      split_ifs <;> simp_all

/-! ## Credits -/

theorem creditsForVoteAtIndex_le (index : ℕ) :
    vs.creditsForVoteAtIndex index ≤ voteCreditsMaximumPerSlot := by
  unfold creditsForVoteAtIndex voteCreditsMaximumPerSlot
  dsimp only
  split_ifs <;> omega

/-- The votes of a list that are not above the new root. -/
def rootedCount (newRoot : ℕ) (votes : List LandedVote) : ℕ :=
  (votes.takeWhile fun v => decide (v.slot ≤ newRoot)).length

/-- The credits of the votes with the next indices. -/
def creditsFrom (index n : ℕ) : ℕ := ((List.range' index n).map vs.creditsForVoteAtIndex).sum

/-- Credits do not overflow. -/
theorem earnCredits_eq {newRoot : ℕ} (votes : List LandedVote) (index earned : ℕ)
    (h : earned + voteCreditsMaximumPerSlot * votes.length ≤ u64Max) :
    vs.earnCredits newRoot votes index earned =
      some (index + rootedCount newRoot votes,
        earned + vs.creditsFrom index (rootedCount newRoot votes)) := by
  induction votes generalizing index earned with
  | nil => rfl
  | cons vote votes ih =>
    have hle := vs.creditsForVoteAtIndex_le index
    rw [length_cons, Nat.mul_succ] at h
    unfold rootedCount at ih ⊢
    rw [earnCredits, takeWhile_cons]
    by_cases hslot : vote.slot ≤ newRoot
    · rw [if_pos hslot, if_pos (by omega), if_pos (decide_eq_true hslot),
        ih _ _ (by omega), length_cons]
      unfold creditsFrom
      rw [range'_succ, map_cons, sum_cons, Nat.add_assoc, Nat.add_assoc, Nat.add_comm 1]
    · rw [if_neg hslot, if_neg (by rw [decide_eq_true_eq]; exact hslot)]
      rfl

theorem drop_rootedCount (newRoot : ℕ) (votes : List LandedVote) :
    votes.drop (rootedCount newRoot votes) =
      votes.dropWhile fun v => decide (v.slot ≤ newRoot) := by
  have hdrop : ((votes.takeWhile fun v => decide (v.slot ≤ newRoot)) ++
      votes.dropWhile fun v => decide (v.slot ≤ newRoot)).drop (rootedCount newRoot votes) =
      votes.dropWhile fun v => decide (v.slot ≤ newRoot) := drop_left
  rwa [takeWhile_append_dropWhile] at hdrop

/-! ## Old and new votes -/

/-- The latency of a vote that the account already has is kept. -/
def inherit (currents : List LandedVote) (new : LandedVote) : LandedVote :=
  match currents.find? fun current => decide (current.slot = new.slot) with
  | some current => { new with latency := current.latency }
  | none => new

/-- No new vote takes an old one back. -/
structure Mergeable (currents news : List LandedVote) : Prop where
  count_le : ∀ current ∈ currents, ∀ new ∈ news, current.slot = new.slot →
    current.confirmationCount ≤ new.confirmationCount
  expired : ∀ current ∈ currents, (∀ new ∈ news, new.slot ≠ current.slot) →
    ∀ new ∈ news, current.slot < new.slot → current.lockout.lastLockedOutSlot < new.slot

theorem inherit_of_forall_ne {currents : List LandedVote} {new : LandedVote}
    (h : ∀ current ∈ currents, current.slot ≠ new.slot) : inherit currents new = new := by
  have hfind : (currents.find? fun current => decide (current.slot = new.slot)) = none := by
    rw [find?_eq_none]
    intro current hmem
    rw [decide_eq_true_eq]
    exact h current hmem
  unfold inherit
  rw [hfind]

theorem inherit_cons_of_ne {current new : LandedVote} (currents : List LandedVote)
    (h : current.slot ≠ new.slot) : inherit (current :: currents) new = inherit currents new := by
  unfold inherit
  rw [find?_cons_of_neg]
  rwa [decide_eq_true_eq]

theorem inherit_cons_of_eq {current new : LandedVote} (currents : List LandedVote)
    (h : current.slot = new.slot) :
    inherit (current :: currents) new = { new with latency := current.latency } := by
  unfold inherit
  rw [find?_cons_of_pos]
  exact decide_eq_true h

@[simp] theorem lockout_inherit (currents : List LandedVote) (new : LandedVote) :
    (inherit currents new).lockout = new.lockout := by
  unfold inherit
  split <;> rfl

theorem map_eq_ok_iff {ε α β : Type*} {x : Except ε α} {f : α → β} {b : β} :
    x.map f = .ok b ↔ ∃ a, x = .ok a ∧ f a = b := by
  cases x with
  | error e | ok a => simp [Except.map]

section Merge
variable {current new : LandedVote} {currents news : List LandedVote}

/-- The old vote is missing in the new tower. -/
theorem mergeable_cons_of_lt (hlt : current.slot < new.slot)
    (hnews : ∀ n ∈ news, new.slot < n.slot) :
    Mergeable (current :: currents) (new :: news) ↔
      current.lockout.lastLockedOutSlot < new.slot ∧ Mergeable currents (new :: news) := by
  have hle : ∀ n ∈ new :: news, new.slot ≤ n.slot :=
    forall_mem_cons.mpr ⟨le_rfl, fun n hn => (hnews n hn).le⟩
  constructor
  · intro h
    refine ⟨?_, fun c hc => h.count_le c (mem_cons_of_mem _ hc),
      fun c hc => h.expired c (mem_cons_of_mem _ hc)⟩
    refine h.expired current mem_cons_self (fun n hn => ?_) new mem_cons_self hlt
    have hn' := hle n hn
    omega
  · rintro ⟨hexpired, h⟩
    refine ⟨fun c hc n hn heq => ?_, fun c hc hne n hn hlt' => ?_⟩
    · rcases mem_cons.mp hc with rfl | hc
      · have hn' := hle n hn
        omega
      · exact h.count_le c hc n hn heq
    · rcases mem_cons.mp hc with rfl | hc
      · exact lt_of_lt_of_le hexpired (hle n hn)
      · exact h.expired c hc hne n hn hlt'

/-- The old vote is in the new tower. -/
theorem mergeable_cons_of_eq (heq : current.slot = new.slot)
    (hcurrents : ∀ c ∈ currents, current.slot < c.slot) (hnews : ∀ n ∈ news, new.slot < n.slot) :
    Mergeable (current :: currents) (new :: news) ↔
      current.confirmationCount ≤ new.confirmationCount ∧ Mergeable currents news := by
  constructor
  · intro h
    refine ⟨h.count_le current mem_cons_self new mem_cons_self heq,
      fun c hc n hn => h.count_le c (mem_cons_of_mem _ hc) n (mem_cons_of_mem _ hn),
      fun c hc hne n hn => h.expired c (mem_cons_of_mem _ hc) (fun m hm => ?_) n
        (mem_cons_of_mem _ hn)⟩
    rcases mem_cons.mp hm with rfl | hm
    · have hc' := hcurrents c hc
      omega
    · exact hne m hm
  · rintro ⟨hcount, h⟩
    refine ⟨fun c hc n hn heq' => ?_, fun c hc hne n hn hlt => ?_⟩
    · rcases mem_cons.mp hc with rfl | hc <;> rcases mem_cons.mp hn with rfl | hn
      · exact hcount
      · have hn' := hnews n hn
        omega
      · have hc' := hcurrents c hc
        omega
      · exact h.count_le c hc n hn heq'
    · rcases mem_cons.mp hc with rfl | hc
      · exact absurd heq.symm (hne new mem_cons_self)
      · rcases mem_cons.mp hn with rfl | hn
        · have hc' := hcurrents c hc
          omega
        · exact h.expired c hc (fun m hm => hne m (mem_cons_of_mem _ hm)) n hn hlt

/-- The new vote is below all old ones. -/
theorem mergeable_cons_of_gt (hcurrents : ∀ c ∈ currents, new.slot < c.slot) :
    Mergeable currents (new :: news) ↔ Mergeable currents news := by
  constructor
  · intro h
    refine ⟨fun c hc n hn => h.count_le c hc n (mem_cons_of_mem _ hn),
      fun c hc hne n hn => h.expired c hc (fun m hm => ?_) n (mem_cons_of_mem _ hn)⟩
    rcases mem_cons.mp hm with rfl | hm
    · exact (hcurrents c hc).ne
    · exact hne m hm
  · intro h
    refine ⟨fun c hc n hn heq => ?_, fun c hc hne n hn hlt => ?_⟩
    · rcases mem_cons.mp hn with rfl | hn
      · exact absurd heq (hcurrents c hc).ne'
      · exact h.count_le c hc n hn heq
    · rcases mem_cons.mp hn with rfl | hn
      · exact absurd hlt (hcurrents c hc).asymm
      · exact h.expired c hc (fun m hm => hne m (mem_cons_of_mem _ hm)) n hn hlt

end Merge

/-- **The comparison with the old votes.** -/
theorem mergeVotes_eq_ok_iff (currents news : List LandedVote)
    (hcurrents : currents.Pairwise fun a b => a.slot < b.slot)
    (hnews : news.Pairwise fun a b => a.slot < b.slot) (merged : List LandedVote) :
    mergeVotes currents news = .ok merged ↔
      Mergeable currents news ∧ merged = news.map (inherit currents) := by
  induction currents, news using mergeVotes.induct generalizing merged with
  | case1 news =>
    have hmap : news.map (inherit []) = news := by
      conv_rhs => rw [← map_id news]
      exact map_congr_left fun n _ => inherit_of_forall_ne (by simp)
    have hmergeable : Mergeable [] news := ⟨by simp, by simp⟩
    rw [mergeVotes, hmap]
    simp only [Except.ok.injEq, hmergeable, true_and, eq_comm]
  | case2 current currents =>
    have hmergeable : Mergeable (current :: currents) [] := ⟨by simp, by simp⟩
    rw [mergeVotes]
    simp only [Except.ok.injEq, hmergeable, true_and, map_nil, eq_comm]
  | case3 current currents new news hlt hlocked =>
    have hn := pairwise_cons.mp hnews
    rw [mergeVotes, if_pos hlt, if_pos hlocked, mergeable_cons_of_lt hlt hn.1]
    simp only [reduceCtorEq, false_iff]
    rintro ⟨⟨hexpired, -⟩, -⟩
    omega
  | case4 current currents new news hlt hlocked ih =>
    have hc := pairwise_cons.mp hcurrents
    have hn := pairwise_cons.mp hnews
    have hmap : (new :: news).map (inherit (current :: currents)) =
        (new :: news).map (inherit currents) := by
      refine map_congr_left fun n hn' => inherit_cons_of_ne currents ?_
      rcases mem_cons.mp hn' with rfl | hn'
      · exact hlt.ne
      · exact (hlt.trans (hn.1 n hn')).ne
    rw [mergeVotes, if_pos hlt, if_neg hlocked, ih hc.2 hnews, mergeable_cons_of_lt hlt hn.1, hmap]
    have hexpired : current.lockout.lastLockedOutSlot < new.slot := not_le.mp hlocked
    simp only [hexpired, true_and]
  | case5 current currents new news hlt heq hcount =>
    have hc := pairwise_cons.mp hcurrents
    have hn := pairwise_cons.mp hnews
    rw [mergeVotes, if_neg hlt, if_pos heq, if_pos hcount, mergeable_cons_of_eq heq hc.1 hn.1]
    simp only [reduceCtorEq, false_iff]
    rintro ⟨⟨hle, -⟩, -⟩
    omega
  | case6 current currents new news hlt heq hcount ih =>
    have hc := pairwise_cons.mp hcurrents
    have hn := pairwise_cons.mp hnews
    have hmap : news.map (inherit (current :: currents)) = news.map (inherit currents) := by
      refine map_congr_left fun n hn' => inherit_cons_of_ne currents ?_
      rw [heq]
      exact (hn.1 n hn').ne
    rw [mergeVotes, if_neg hlt, if_pos heq, if_neg hcount, mergeable_cons_of_eq heq hc.1 hn.1,
      map_cons, inherit_cons_of_eq currents heq, hmap, map_eq_ok_iff]
    constructor
    · rintro ⟨rest, hrest, rfl⟩
      obtain ⟨hmergeable, rfl⟩ := (ih hc.2 hn.2 rest).mp hrest
      exact ⟨⟨not_lt.mp hcount, hmergeable⟩, rfl⟩
    · rintro ⟨⟨-, hmergeable⟩, rfl⟩
      exact ⟨_, (ih hc.2 hn.2 _).mpr ⟨hmergeable, rfl⟩, rfl⟩
  | case7 current currents new news hlt heq ih =>
    have hc := pairwise_cons.mp hcurrents
    have hn := pairwise_cons.mp hnews
    have hgt : ∀ c ∈ current :: currents, new.slot < c.slot := by
      refine forall_mem_cons.mpr ⟨by omega, fun c hc' => ?_⟩
      have hlt' := hc.1 c hc'
      omega
    rw [mergeVotes, if_neg hlt, if_neg heq, mergeable_cons_of_gt hgt, map_cons,
      inherit_of_forall_ne fun c hc' => (hgt c hc').ne', map_eq_ok_iff]
    constructor
    · rintro ⟨rest, hrest, rfl⟩
      obtain ⟨hmergeable, rfl⟩ := (ih hcurrents hn.2 rest).mp hrest
      exact ⟨hmergeable, rfl⟩
    · rintro ⟨hmergeable, rfl⟩
      exact ⟨_, (ih hcurrents hn.2 _).mpr ⟨hmergeable, rfl⟩, rfl⟩

/-! ## Slot hashes and lockouts -/

/-- The call returns, and not with a failed assertion; if it succeeds, the result is as wanted. -/
def Returns {α : Type*} (P : α → Prop) : Option (Except VoteError α) → Prop
  | none => False
  | some (.error e) => e ≠ .assertionFailed
  | some (.ok a) => P a

theorem Returns.mono {α : Type*} {P Q : α → Prop} {r : Option (Except VoteError α)}
    (h : Returns P r) (himp : ∀ a, P a → Q a) : Returns Q r := by
  rcases r with _ | e | a
  · exact h
  · exact h
  · exact himp a h

/-- What is known of the lockouts that are kept, the slot hash passed last and the root, once the
walk is over. -/
structure Walked (earliest : ℕ) (rootToCheck : Option ℕ) (last : Lockout)
    (slotHashes : List (ℕ × Hash)) (filtered : List Lockout) (passed : Option (ℕ × Hash)) :
    Prop where
  passed : ∃ slotHash ∈ slotHashes, passed = some slotHash ∧ slotHash.1 = last.slot
  last : filtered.getLast? = some last
  known : ∀ lockout ∈ filtered, lockout.slot ∈ slotHashes.map fst ∨
    vs.containsSlot lockout.slot = true
  root : ∀ root ∈ rootToCheck, root < earliest ∨ root ∈ slotHashes.map fst

section Walk
variable {vs} {earliest : ℕ} {rootToCheck : Option ℕ} {last lockout : Lockout}
  {slotHash : ℕ × Hash} {slotHashes : List (ℕ × Hash)} {filtered : List Lockout}
  {passed : Option (ℕ × Hash)}

/-- A slot hash is passed. -/
theorem Walked.pass (h : vs.Walked earliest rootToCheck last slotHashes filtered passed)
    (slotHash : ℕ × Hash) :
    vs.Walked earliest rootToCheck last (slotHash :: slotHashes) filtered passed := by
  have hmem : ∀ {slot : ℕ}, slot ∈ slotHashes.map fst →
      slot ∈ (slotHash :: slotHashes).map fst := fun h => mem_cons_of_mem _ h
  obtain ⟨found, hfound, hpassed, hslot⟩ := h.passed
  exact ⟨⟨found, mem_cons_of_mem _ hfound, hpassed, hslot⟩, h.last,
    fun l hl => (h.known l hl).imp_left hmem, fun r hr => (h.root r hr).imp_right hmem⟩

/-- The root is checked. -/
theorem Walked.checkRoot (h : vs.Walked earliest none last slotHashes filtered passed) {root : ℕ}
    (hroot : root < earliest ∨ root ∈ slotHashes.map fst) :
    vs.Walked earliest (some root) last slotHashes filtered passed := by
  refine ⟨h.passed, h.last, h.known, fun r hr => ?_⟩
  cases mem_some_iff.mp hr
  exact hroot

/-- A lockout is kept. -/
theorem Walked.keep (h : vs.Walked earliest none last slotHashes filtered passed)
    (hknown : lockout.slot ∈ slotHashes.map fst ∨ vs.containsSlot lockout.slot = true) :
    vs.Walked earliest none last slotHashes (lockout :: filtered) passed := by
  refine ⟨h.passed, ?_, forall_mem_cons.mpr ⟨hknown, h.known⟩, h.root⟩
  rw [getLast?_cons, h.last]
  rfl

end Walk

/-- **The walk along the slot hashes never panics, and keeps only known votes.** -/
theorem checkSlots_returns {earliest : ℕ} {rootToCheck : Option ℕ} {previous : Option Lockout}
    {lockouts kept : List Lockout} {passed : Option (ℕ × Hash)} {slotHashes : List (ℕ × Hash)}
    {last : Lockout} (hpassed : passed.isNone = true → ∀ h ∈ slotHashes.head?, h.1 = earliest)
    (hlast : lockouts.getLast? = some last) (hle : earliest ≤ last.slot) :
    Returns (fun r => ∃ filtered, r.1 = kept ++ filtered ∧
        vs.Walked earliest rootToCheck last slotHashes filtered r.2)
      (vs.checkSlots earliest rootToCheck previous lockouts passed slotHashes kept) := by
  fun_induction checkSlots vs earliest rootToCheck previous lockouts passed slotHashes kept with
  | case1 => cases hlast
  | case2 | case3 => exact VoteError.noConfusion
  | case4 rootToCheck previous lockout lockouts passed slotHash _ kept slot _ hlt hnone hge =>
    have hfirst := hpassed hnone slotHash rfl
    omega
  | case5 _ lockout _ _ _ _ _ _ newProposedRoot slot _ _ _ hne => exact hne rfl
  | case6 previous lockout lockouts passed slotHash _ _ _ newProposedRoot hge slot _ _ hlt =>
    exact absurd hge hlt
  | case7 previous lockout lockouts passed slotHash slotHashes kept hnone root hlt _ _ _ _ _ ih =>
    refine (ih hpassed hlast).mono ?_
    rintro r ⟨filtered, hkept, hwalked⟩
    exact ⟨filtered, hkept, hwalked.checkRoot (.inl (not_le.mp hlt))⟩
  | case8 previous lockout lockouts passed slotHash slotHashes kept hnone slot _ _ hlt ih =>
    have hlt' : lockout.slot < earliest := not_le.mp hlt
    -- the last lockout is not that old
    have hlast' : lockouts.getLast? = some last := by
      cases lockouts with
      | nil =>
        have heq : lockout = last := by simpa using hlast
        rw [heq] at hlt'
        omega
      | cons next rest => rwa [getLast?_cons_cons] at hlast
    refine (ih hpassed hlast').mono ?_
    rintro r ⟨filtered, hkept, hwalked⟩
    by_cases hcontains : vs.containsSlot lockout.slot = true
    · have hkept' : r.1 = kept ++ lockout :: filtered := by
        rw [hkept]
        have hslot : vs.containsSlot slot = true := hcontains
        simp [hslot]
      exact ⟨lockout :: filtered, hkept', hwalked.keep (.inr hcontains)⟩
    · have hslot : ¬vs.containsSlot slot = true := hcontains
      exact ⟨filtered, by rw [hkept]; simp [hslot], hwalked⟩
  | case9 rootToCheck => cases rootToCheck <;> exact VoteError.noConfusion
  | case10 previous lockout lockouts passed slotHash slotHashes kept root slot _ _ heq ih =>
    refine (ih hpassed hlast).mono ?_
    rintro r ⟨filtered, hkept, hwalked⟩
    have hroot : root = slotHash.1 := heq
    refine ⟨filtered, hkept, hwalked.checkRoot (.inr ?_)⟩
    rw [hroot]
    exact mem_cons_self
  | case11 previous lockout lockouts passed slotHash slotHashes kept slot _ _ heq ih =>
    have hslot : lockout.slot = slotHash.1 := heq
    cases lockouts with
    | nil =>
      have hlockout : lockout = last := by simpa using hlast
      subst hlockout
      rw [checkSlots]
      refine ⟨[lockout], rfl, ⟨slotHash, mem_cons_self, rfl, hslot.symm⟩, rfl,
        fun l hl => .inl ?_, fun r hr => absurd hr (not_mem_none r)⟩
      rw [mem_singleton.mp hl, hslot]
      exact mem_cons_self
    | cons next rest =>
      rw [getLast?_cons_cons] at hlast
      refine (ih (by simp) hlast).mono ?_
      rintro r ⟨filtered, hkept, hwalked⟩
      refine ⟨lockout :: filtered, by rw [hkept]; simp, (hwalked.pass slotHash).keep (.inl ?_)⟩
      rw [hslot]
      exact mem_cons_self
  | case12 rootToCheck previous lockout lockouts passed slotHash slotHashes kept slot _ _ _ ih =>
    refine (ih (by simp) hlast).mono ?_
    rintro r ⟨filtered, hkept, hwalked⟩
    exact ⟨filtered, hkept, hwalked.pass slotHash⟩

end VoteState
end FlowraValidator.VoteProgram
