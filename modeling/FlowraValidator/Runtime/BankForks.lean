import FlowraValidator.Lib.Forest
import FlowraValidator.Runtime.StatusCache

/-!
# Banks, their recent blockhashes and the processed transactions

Banks are the nodes of a tree, with slots that increase along every branch. A bank begins with the
queue of recent blockhashes of its parent and registers one hash of its own when its last tick
comes; it knows the slots of its ancestors up to the root of the time when it was made. All banks
share one status cache. A bank is squashed when it becomes the root: it and its ancestors are
added as roots, and the link to its parent is cut.

* `BlockhashQueue`: the queue, with the check of the age of a hash.
* `Bank`, `BankTree`, `BankForks`: the banks that were made of the nodes of a tree.
* `BankEvent`, `BankForks.step`: what can happen, `none` where the code panics or the event cannot
  take place.
* `checkStatusCache`: the check of transactions against the cache.
-/

namespace FlowraValidator.Runtime
open Wire

/-! ## Recent blockhashes -/

structure HashInfo where
  lamportsPerSignature : ℕ
  hashIndex : ℕ
  timestamp : ℕ

structure BlockhashQueue where
  lastHashIndex : ℕ
  lastHash : Option ℕ
  hashes : OrdMap ℕ HashInfo
  maxAge : ℕ

/-- `MAX_RECENT_BLOCKHASHES`. -/
def maxRecentBlockhashes : ℕ := 300

/-- `MAX_PROCESSING_AGE`. -/
def maxProcessingAge : ℕ := 150

namespace BlockhashQueue

/-- `BlockhashQueue::new`. -/
def new (maxAge : ℕ) : BlockhashQueue := ⟨0, none, ∅, maxAge⟩

/-- `is_hash_index_valid`. -/
def isHashIndexValid (lastHashIndex maxAge hashIndex : ℕ) : Bool :=
  decide (lastHashIndex - hashIndex ≤ maxAge)

/-- `get_hash_info_if_valid`. -/
def getHashInfoIfValid (q : BlockhashQueue) (hash maxAge : ℕ) : Option HashInfo :=
  q.hashes[hash]?.filter fun info => isHashIndexValid q.lastHashIndex maxAge info.hashIndex

/-- `genesis_hash`. -/
def genesisHash (q : BlockhashQueue) (hash lamportsPerSignature timestamp : ℕ) : BlockhashQueue :=
  { q with
    hashes := q.hashes.insert hash ⟨lamportsPerSignature, 0, timestamp⟩
    lastHash := some hash }

/-- `register_hash`. -/
def registerHash (q : BlockhashQueue) (hash lamportsPerSignature timestamp : ℕ) :
    BlockhashQueue :=
  let lastHashIndex := q.lastHashIndex + 1
  let hashes :=
    if q.hashes.size ≥ q.maxAge then
      q.hashes.filter fun _ info => isHashIndexValid lastHashIndex q.maxAge info.hashIndex
    else q.hashes
  { q with
    lastHashIndex := lastHashIndex
    hashes := hashes.insert hash ⟨lamportsPerSignature, lastHashIndex, timestamp⟩
    lastHash := some hash }

end BlockhashQueue

/-! ## Transactions -/

structure Transaction where
  messageHash : Block ℕ 32
  signature : Block ℕ 64
  recentBlockhash : ℕ

inductive TransactionError
  | alreadyProcessed
  | blockhashNotFound
  | other (code : ℕ)
  deriving DecidableEq

/-- A transaction with its processing result, the status where it was processed, and the offsets
that are drawn when it is recorded. -/
structure Processed (T : Type) where
  transaction : Transaction
  result : Option T
  hashDraw : ℕ
  signatureDraw : ℕ

/-- The body of the loop of `update_transaction_statuses`: the message hash is recorded first. -/
def recordStatus {T : Type} (slot : ℕ) (cache : StatusCache T) (p : Processed T) :
    Option (StatusCache T) :=
  match p.result with
  | none => some cache
  | some status => do
    let cache ← cache.insert p.transaction.recentBlockhash p.transaction.messageHash.val slot status
      p.hashDraw
    cache.insert p.transaction.recentBlockhash p.transaction.signature.val slot status
      p.signatureDraw

/-- `update_transaction_statuses` of a bank with the given slot. -/
def updateTransactionStatuses {T : Type} (slot : ℕ) (cache : StatusCache T)
    (processed : List (Processed T)) : Option (StatusCache T) :=
  processed.foldlM (recordStatus slot) cache

/-! ## Banks -/

structure Bank where
  blockHeight : ℕ
  /-- The link to the parent, which is cut when the bank is squashed. -/
  parent : Option ℕ
  /-- The slots of the bank and its ancestors, when it was made. -/
  ancestors : Finset ℕ
  blockhashQueue : BlockhashQueue
  lamportsPerSignature : ℕ
  freezeStarted : Bool
  /-- The hash that the bank registered at its last tick. -/
  blockhash : Option ℕ

/-- A tree of banks with increasing slots; the first one is the genesis bank. -/
structure BankTree where
  parent : ℕ → Option ℕ
  slot : ℕ → ℕ
  genesis_parent : parent 0 = none
  genesis_slot : slot 0 = 0
  slot_lt : ∀ i p, parent i = some p → slot p < slot i

/-- The banks that were made, the cache that they share, the latest root, and the blockhashes that
have occurred so far. -/
structure BankForks (T : Type) where
  banks : OrdMap ℕ Bank
  statusCache : StatusCache T
  root : ℕ
  seen : Finset ℕ

inductive BankEvent (T : Type)
  | newFromParent (bank : ℕ)
  | registerRecentBlockhash (bank hash timestamp : ℕ)
  | updateTransactionStatuses (bank : ℕ) (processed : List (Processed T))
  | squash (bank : ℕ)
  | clearSlotEntries (slot : ℕ)

namespace BankForks
variable {T : Type} (tree : BankTree)

/-- The genesis bank alone. -/
def genesis (hash lamportsPerSignature timestamp : ℕ) : BankForks T where
  banks := (∅ : OrdMap ℕ Bank).insert 0
    { blockHeight := 0
      parent := none
      ancestors := {0}
      blockhashQueue := (BlockhashQueue.new maxRecentBlockhashes).genesisHash hash
        lamportsPerSignature timestamp
      lamportsPerSignature := lamportsPerSignature
      freezeStarted := false
      blockhash := none }
  statusCache := StatusCache.default
  root := 0
  seen := {hash}

variable (s : BankForks T)

/-- The link of a bank to its parent. -/
def parentLink (i : ℕ) : Option ℕ := s.banks[i]?.bind Bank.parent

/-- `parents`: the ancestors that are found through the links. -/
def parents (i : ℕ) : List ℕ := Forest.ancestors s.parentLink (tree.slot i) i

/-- The bank that is made of a node, with the parent and its node. -/
def child (i p : ℕ) (parent : Bank) : Bank where
  blockHeight := parent.blockHeight + 1
  parent := some p
  ancestors := ((i :: p :: parents tree s p).map tree.slot).toFinset
  blockhashQueue := parent.blockhashQueue
  lamportsPerSignature := parent.lamportsPerSignature
  freezeStarted := false
  blockhash := none

/-- `Bank::new_from_parent`, on a parent that had its last tick; it freezes the parent. -/
def newFromParent (i : ℕ) : Option (BankForks T) := do
  let p ← tree.parent i
  let parent ← s.banks[p]?
  if s.banks[i]?.isNone ∧ parent.blockhash.isSome then
    let banks := s.banks.insert p { parent with freezeStarted := true }
    pure { s with banks := banks.insert i (child tree s i p parent) }
  else none

/-- `register_recent_blockhash` at the last tick of a bank, with a hash that did not occur
before. -/
def registerRecentBlockhash (i hash timestamp : ℕ) :
    Option (BankForks T) := do
  let bank ← s.banks[i]?
  if bank.freezeStarted = false ∧ bank.blockhash.isNone ∧ hash ∉ s.seen then
    let queue := bank.blockhashQueue.registerHash hash bank.lamportsPerSignature timestamp
    pure { s with
      banks := s.banks.insert i { bank with blockhashQueue := queue, blockhash := some hash }
      seen := insert hash s.seen }
  else none

/-- The blockhashes of the transactions that were processed. -/
def usedBlockhashes (processed : List (Processed T)) : Finset ℕ :=
  ((processed.filter fun p => p.result.isSome).map
    fun p => p.transaction.recentBlockhash).toFinset

/-- Committed transactions are recorded; the bank is not frozen. -/
def commit (i : ℕ) (processed : List (Processed T)) :
    Option (BankForks T) := do
  let bank ← s.banks[i]?
  if bank.freezeStarted = false then
    let cache ← updateTransactionStatuses (tree.slot i) s.statusCache processed
    pure { s with statusCache := cache, seen := s.seen ∪ usedBlockhashes processed }
  else none

/-- `Bank::squash` of the latest root or a descendant of it: the bank and its ancestors are added
as roots, the newest first. -/
def squash (i : ℕ) : Option (BankForks T) := do
  let bank ← s.banks[i]?
  if s.root ∈ i :: Forest.ancestors tree.parent (tree.slot i) i then
    let roots := (i :: parents tree s i).map tree.slot
    pure { s with
      banks := s.banks.insert i { bank with freezeStarted := true, parent := none }
      statusCache := roots.foldl StatusCache.addRoot s.statusCache
      root := i }
  else none

def clearSlotEntries (slot : ℕ) : Option (BankForks T) := do
  let cache ← s.statusCache.clearSlotEntries slot
  pure { s with statusCache := cache }

def step : BankEvent T → Option (BankForks T)
  | .newFromParent bank => newFromParent tree s bank
  | .registerRecentBlockhash bank hash timestamp => registerRecentBlockhash s bank hash timestamp
  | .updateTransactionStatuses bank processed => commit tree s bank processed
  | .squash bank => squash tree s bank
  | .clearSlotEntries slot => clearSlotEntries s slot

/-- A run of events. -/
def run (events : List (BankEvent T)) : Option (BankForks T) := events.foldlM (step tree) s

end BankForks

/-! ## The check -/

section
variable {T Details : Type}

/-- `get_processed_slot`. -/
def getProcessedSlot (bank : Bank) (cache : StatusCache T) (tx : Transaction) :
    Option (Option ℕ) := do
  let status ← cache.getStatus tx.messageHash.val tx.recentBlockhash bank.ancestors
  pure (status.map Prod.fst)

/-- One transaction with the result of the checks before. -/
def checkTransactionStatus (bank : Bank) (cache : StatusCache T)
    (tx : Transaction × Except TransactionError Details) :
    Option (Except TransactionError Details × Option ℕ) :=
  match tx.2 with
  | .error e => some (.error e, none)
  | .ok details => do
    match ← getProcessedSlot bank cache tx.1 with
    | some slot => pure (.error .alreadyProcessed, some slot)
    | none => pure (.ok details, none)

/-- `check_status_cache`. -/
def checkStatusCache (bank : Bank) (cache : StatusCache T) (sanitizedTxs : List Transaction)
    (lockResults : List (Except TransactionError Details)) (collectProcessedSlots : Bool) :
    Option (List (Except TransactionError Details) × Option (List (Option ℕ))) := do
  let checked ← (sanitizedTxs.zip lockResults).mapM (checkTransactionStatus bank cache)
  pure (checked.map Prod.fst, if collectProcessedSlots then some (checked.map Prod.snd) else none)

end
end FlowraValidator.Runtime
