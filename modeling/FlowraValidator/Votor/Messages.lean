import Mathlib

/-!
# Votes, certificates and events

The messages of `votor-messages`, the tables of `votor/src/common.rs` that relate votes and
certificates, and the events of `votor/src/event.rs` that connect the certificate pool with the
voting loop.

Slots and stakes are `u64` and natural numbers here; `u64Max` is the last one. A block id and a
public key are 32 bytes and stand as numbers. A BLS signature is an element of a type `Sig`, of
which nothing but the sum of signatures is used.
-/

namespace FlowraValidator.Votor

abbrev Hash := ℕ

abbrev Pubkey := ℕ

/-- `Block`, a slot and a block id. -/
abbrev Block := ℕ × Hash

/-- `u64::MAX`. -/
def u64Max : ℕ := 18446744073709551615

theorem two_le_u64Max : 2 ≤ u64Max := by decide

/-- `n.saturating_add(1)` of `u64`. -/
def saturatingSucc (n : ℕ) : ℕ := min (n + 1) u64Max

theorem saturatingSucc_of_lt {n : ℕ} (h : n < u64Max) : saturatingSucc n = n + 1 :=
  Nat.min_eq_left h

/-- `NUM_CONSECUTIVE_LEADER_SLOTS`, the length of a leader window. -/
def numConsecutiveLeaderSlots : ℕ := 4

/-! ## Votes -/

inductive VoteType where
  | finalize
  | notarize
  | notarizeFallback
  | skip
  | skipFallback
  | genesis
  deriving DecidableEq

inductive Vote where
  | notarize (slot : ℕ) (blockId : Hash)
  | finalize (slot : ℕ)
  | skip (slot : ℕ)
  | notarizeFallback (slot : ℕ) (blockId : Hash)
  | skipFallback (slot : ℕ)
  | genesis (slot : ℕ) (blockId : Hash)
  deriving DecidableEq

namespace Vote

def slot : Vote → ℕ
  | notarize s _ => s
  | finalize s => s
  | skip s => s
  | notarizeFallback s _ => s
  | skipFallback s => s
  | genesis s _ => s

def blockId : Vote → Option Hash
  | notarize _ b => some b
  | notarizeFallback _ b => some b
  | genesis _ b => some b
  | finalize _ => none
  | skip _ => none
  | skipFallback _ => none

def getType : Vote → VoteType
  | notarize _ _ => .notarize
  | notarizeFallback _ _ => .notarizeFallback
  | skip _ => .skip
  | skipFallback _ => .skipFallback
  | finalize _ => .finalize
  | genesis _ _ => .genesis

end Vote

/-- `VoteMessage`: a vote, signed by the validator of the given rank. -/
structure VoteMessage (Sig : Type) where
  vote : Vote
  signature : Sig
  rank : ℕ
  deriving DecidableEq

/-! ## Certificates -/

/-- `Fraction`; the denominator is a `NonZeroU64`. -/
structure Fraction where
  numerator : ℕ
  denominator : ℕ
  denominator_pos : 0 < denominator

namespace Fraction

def fromPercentage (pct : ℕ) : Fraction := ⟨pct, 100, by decide⟩

/-- `Ord::cmp`, by cross multiplication in `u128`, which two `u64` cannot overflow. -/
instance : LT Fraction where
  lt a b := a.numerator * b.denominator < b.numerator * a.denominator

instance (a b : Fraction) : Decidable (a < b) :=
  inferInstanceAs (Decidable (a.numerator * b.denominator < b.numerator * a.denominator))

end Fraction

/-- `GENESIS_VOTE_THRESHOLD`. -/
def genesisVoteThreshold : Fraction := Fraction.fromPercentage 82

inductive CertificateType where
  | finalize (slot : ℕ)
  | finalizeFast (slot : ℕ) (blockId : Hash)
  | notarize (slot : ℕ) (blockId : Hash)
  | notarizeFallback (slot : ℕ) (blockId : Hash)
  | skip (slot : ℕ)
  | genesis (slot : ℕ) (blockId : Hash)
  deriving DecidableEq

namespace CertificateType

def slot : CertificateType → ℕ
  | finalize s => s
  | finalizeFast s _ => s
  | notarize s _ => s
  | notarizeFallback s _ => s
  | skip s => s
  | genesis s _ => s

def toBlock : CertificateType → Option Block
  | finalize _ => none
  | skip _ => none
  | notarize s b => some (s, b)
  | notarizeFallback s b => some (s, b)
  | genesis s b => some (s, b)
  | finalizeFast s b => some (s, b)

/-- The fraction of the stake that completes the certificate, and the types of votes that count. -/
def limitsAndVoteTypes : CertificateType → Fraction × List VoteType
  | notarize _ _ => (.fromPercentage 60, [.notarize])
  | notarizeFallback _ _ => (.fromPercentage 60, [.notarize, .notarizeFallback])
  | finalizeFast _ _ => (.fromPercentage 80, [.notarize])
  | finalize _ => (.fromPercentage 60, [.finalize])
  | skip _ => (.fromPercentage 60, [.skip, .skipFallback])
  | genesis _ _ => (genesisVoteThreshold, [.genesis])

end CertificateType

/-- `Certificate`: the aggregate signature and the encoded bitmap of ranks. -/
structure Certificate (Sig : Type) where
  certType : CertificateType
  signature : Sig
  bitmap : List ℕ
  deriving DecidableEq

/-! ## The tables of `common.rs` -/

def conflictingTypes : VoteType → List VoteType
  | .finalize => [.notarizeFallback, .skip]
  | .notarize => [.skip, .notarizeFallback]
  | .notarizeFallback => [.finalize, .notarize]
  | .skip => [.finalize, .notarize, .skipFallback]
  | .skipFallback => [.skip]
  | .genesis => [.finalize, .notarize, .notarizeFallback, .skip, .skipFallback]

def voteToCertTypes : Vote → List CertificateType
  | .notarize s b => [.notarize s b, .notarizeFallback s b, .finalizeFast s b]
  | .notarizeFallback s b => [.notarizeFallback s b]
  | .finalize s => [.finalize s]
  | .skip s => [.skip s]
  | .skipFallback s => [.skip s]
  | .genesis s b => [.genesis s b]

/-- `MAX_ENTRIES_PER_PUBKEY_FOR_OTHER_TYPES`. -/
def maxEntriesPerPubkeyForOtherTypes : ℕ := 1

/-- `MAX_ENTRIES_PER_PUBKEY_FOR_NOTARIZE_LITE`. -/
def maxEntriesPerPubkeyForNotarizeLite : ℕ := 3

/-! ## Events -/

/-- `VotorEvent`, with the events that the pool sends. -/
inductive VotorEvent where
  | blockNotarized (block : Block)
  | parentReady (slot : ℕ) (parentBlock : Block)
  | safeToNotar (block : Block)
  | safeToSkip (slot : ℕ)
  | finalized (block : Block) (isFast : Bool)
  deriving DecidableEq

end FlowraValidator.Votor
