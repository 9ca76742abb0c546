import FlowraValidator.Lib.KeyedList
import FlowraValidator.Votor.VotePool

/-!
# The stake counters of a slot

`votor/src/consensus_pool/slot_stake_counters.rs`: the stakes that voted to notarize the blocks of a
slot or to skip it, and the two events that let a node vote a second time.

The ratios of the source are `f64`. They are rationals here, and `round` is the rounding after each
operation: `Binary64.round` for the machine's numbers, the identity for exact comparisons. A
constant such as `0.4` is the rounded decimal.
-/

namespace FlowraValidator.Votor

structure SlotStakeCounters where
  myFirstVote : Option Vote
  totalStake : ℕ
  skipTotal : ℕ
  notarizeTotal : ℕ
  notarizeEntryTotal : List (Hash × ℕ)
  topNotarizedStake : ℕ
  safeToNotarSent : List Hash
  safeToSkipSent : Bool

namespace SlotStakeCounters

def new (totalStake : ℕ) : SlotStakeCounters := ⟨none, totalStake, 0, 0, [], 0, [], false⟩

section
variable (round : ℚ → ℚ)

/-- `a as f64 / b as f64`. -/
def ratio (a b : ℕ) : ℚ := round (round a / round b)

/-- `SAFE_TO_NOTAR_MIN_NOTARIZE_ONLY`, and `SAFE_TO_SKIP_THRESHOLD`, which is the same number. -/
def fortyPercent : ℚ := round (2 / 5)

/-- `SAFE_TO_NOTAR_MIN_NOTARIZE_FOR_NOTARIZE_OR_SKIP`. -/
def twentyPercent : ℚ := round (1 / 5)

/-- `SAFE_TO_NOTAR_MIN_NOTARIZE_AND_SKIP`. -/
def sixtyPercent : ℚ := round (3 / 5)

variable (c : SlotStakeCounters)

def isSafeToNotar (blockId : Hash) (stake : ℕ) : Bool :=
  let skipRatio := ratio round c.skipTotal c.totalStake
  let notarizedRatio := ratio round stake c.totalStake
  let reached := decide (fortyPercent round ≤ notarizedRatio ∨
    twentyPercent round ≤ notarizedRatio ∧ sixtyPercent round ≤ round (notarizedRatio + skipRatio))
  match c.myFirstVote with
  | some (.notarize _ mine) => if mine = blockId then false else reached
  | _ => reached

def isSafeToSkip : Bool :=
  match c.myFirstVote with
  | some (.notarize _ _) =>
    decide (fortyPercent round ≤ ratio round
      (saturatingAdd c.skipTotal (c.notarizeTotal - c.topNotarizedStake)) c.totalStake)
  | _ => false

/-- The loop over the blocks: report those that became safe. -/
def checkSafeToNotar (slot : ℕ) :
    List (Hash × ℕ) → SlotStakeCounters → List VotorEvent → SlotStakeCounters × List VotorEvent
  | [], c, events => (c, events)
  | (blockId, stake) :: entries, c, events =>
    if blockId ∉ c.safeToNotarSent ∧ c.isSafeToNotar round blockId stake then
      checkSafeToNotar slot entries { c with safeToNotarSent := c.safeToNotarSent ++ [blockId] }
        (events ++ [.safeToNotar (slot, blockId)])
    else checkSafeToNotar slot entries c events

def checkSafeToSkip (slot : ℕ) (c : SlotStakeCounters) (events : List VotorEvent) :
    SlotStakeCounters × List VotorEvent :=
  if !c.safeToSkipSent && c.isSafeToSkip round then
    ({ c with safeToSkipSent := true }, events ++ [.safeToSkip slot])
  else (c, events)

/-- The counters after a vote has been counted, `none` for vote types without counters. -/
def count (vote : Vote) (entryStake : ℕ) : Option SlotStakeCounters :=
  match vote with
  | .skip _ => some { c with skipTotal := entryStake }
  | .notarize _ blockId =>
    let old := ((c.notarizeEntryTotal.find? fun e => e.1 = blockId).elim 0 Prod.snd)
    some { c with
      notarizeEntryTotal := KeyedList.upsert Prod.fst (blockId, entryStake) c.notarizeEntryTotal
      notarizeTotal := saturatingAdd (c.notarizeTotal - old) entryStake
      topNotarizedStake := max c.topNotarizedStake entryStake }
  | _ => none

def noteFirstVote (vote : Vote) (isMyOwnVote : Bool) : SlotStakeCounters :=
  if c.myFirstVote.isNone && isMyOwnVote then { c with myFirstVote := some vote } else c

def addVote (vote : Vote) (entryStake : ℕ) (isMyOwnVote : Bool) (events : List VotorEvent) :
    SlotStakeCounters × List VotorEvent :=
  match c.count vote entryStake with
  | none => (c, events)
  | some c =>
    let c := c.noteFirstVote vote isMyOwnVote
    if c.myFirstVote.isNone then (c, events)
    else
      let checked := checkSafeToNotar round vote.slot c.notarizeEntryTotal c events
      checkSafeToSkip round vote.slot checked.1 checked.2

end
end SlotStakeCounters
end FlowraValidator.Votor
