import FlowraValidator.Lib.OrdSet

/-!
# The container of buffered transactions

The container has a queue of ids in the order of their priorities, and a map from ids to the
states of the transactions. A transaction that was handed to a worker stays in the map without
its transaction, and its id is not in the queue. The map also has an entry for each atomic batch
of transactions, whose members are listed aside.

Functions that fail an `expect`, an `assert` or an index of the source have no value.
-/

namespace FlowraValidator.BankingStage

abbrev TransactionId := ℕ

structure MaxAge where
  sanitizedEpoch : ℕ
  altInvalidationSlot : ℕ

/-- A unique identifier tied with priority ordering for a transaction. -/
@[ext]
structure TransactionPriorityId where
  priority : ℕ
  id : TransactionId

namespace TransactionPriorityId

/-- By priority, and then by id. -/
instance : LinearOrder TransactionPriorityId :=
  LinearOrder.lift' (fun p => toLex (p.priority, p.id)) (by
    rintro ⟨priority, id⟩ ⟨priority', id'⟩ h
    cases toLex.injective h
    rfl)

end TransactionPriorityId

/-- The state of a transaction. It has no transaction while that is scheduled or processed. -/
structure TransactionState (Tx : Type) where
  transaction : Option Tx
  maxAge : MaxAge
  priority : ℕ
  cost : ℕ

namespace TransactionState
variable {Tx : Type}

def new (transaction : Tx) (maxAge : MaxAge) (priority cost : ℕ) : TransactionState Tx :=
  { transaction := some transaction, maxAge := maxAge, priority := priority, cost := cost }

/-- Takes ownership of the transaction from the state. -/
def takeTransactionForScheduling (state : TransactionState Tx) :
    Option ((Tx × MaxAge) × TransactionState Tx) := do
  let tx ← state.transaction
  some ((tx, state.maxAge), { state with transaction := none })

end TransactionState

structure BatchInfo where
  batchId : ℕ
  revertOnError : Bool
  maxScheduleSlot : ℕ

inductive BatchIdOrTransactionState (Tx : Type) where
  | batch (batchInfo : BatchInfo)
  | transactionState (state : TransactionState Tx)

structure TransactionStateContainer (Tx : Type) where
  capacity : ℕ
  priorityQueue : OrdSet TransactionPriorityId
  /-- The entries of the slab. -/
  idToTransactionState : OrdMap TransactionId (BatchIdOrTransactionState Tx)
  batchIdToTransactionIds : OrdMap ℕ (List TransactionId)

namespace TransactionStateContainer
variable {Tx : Type} (c : TransactionStateContainer Tx)

def queueSize : ℕ := c.priorityQueue.size

def bufferSize : ℕ := c.idToTransactionState.size

/-- Get the top transaction id in the priority queue. -/
def pop :
    Option (TransactionPriorityId × TransactionStateContainer Tx) :=
  (OrdSet.popLast c.priorityQueue).map fun e => (e.1, { c with priorityQueue := e.2 })

/-- Get the transaction state by id; the caller changes it with `setTransactionState`. -/
def getMutTransactionState (id : TransactionId) :
    Option (TransactionState Tx) :=
  match c.idToTransactionState[id]? with
  | some (.batch _) => none
  | some (.transactionState state) => some state
  | none => none

def setTransactionState (id : TransactionId) (state : TransactionState Tx) :
    TransactionStateContainer Tx :=
  { c with idToTransactionState := c.idToTransactionState.insert id (.transactionState state) }

/-- The transaction of an id, if it is in the map and is no batch; no value if it is pending. -/
def getTransaction (id : TransactionId) :
    Option (Option Tx) :=
  match c.idToTransactionState[id]? with
  | none => some none
  | some (.batch _) => some none
  | some (.transactionState state) => state.transaction.map some

/-- The slab removes an entry, which must be there. -/
def slabRemove (id : TransactionId) :
    Option (TransactionStateContainer Tx) := do
  guard ((c.idToTransactionState[id]?).isSome = true)
  some { c with idToTransactionState := c.idToTransactionState.erase id }

/-- Drops the transactions of lowest priority. -/
def dropLowest : ℕ → TransactionStateContainer Tx → Option (TransactionStateContainer Tx)
  | 0, c => some c
  | numDropped + 1, c => do
    let (priorityId, queue) ← OrdSet.popFirst c.priorityQueue
    dropLowest numDropped (← { c with priorityQueue := queue }.slabRemove priorityId.id)

/-- Pushes transaction ids into the priority queue, and then drops what the map has too much.
Returns the number of dropped transactions. -/
def pushIdsIntoQueue (priorityIds : List TransactionPriorityId) :
    Option (ℕ × TransactionStateContainer Tx) := do
  let c := { c with priorityQueue := priorityIds.foldl (fun q id => q.insert id) c.priorityQueue }
  let numDropped := c.idToTransactionState.size - c.capacity
  let c ← dropLowest numDropped c
  some (numDropped, c)

/-- The priority under which an entry may be in the queue. -/
def entryPriority : BatchIdOrTransactionState Tx → ℕ
  | .transactionState state => state.priority
  | .batch batchInfo =>
    match c.batchIdToTransactionIds[batchInfo.batchId]?.bind List.head? with
    | none => 0
    | some tid =>
      match c.idToTransactionState[tid]? with
      | some (.transactionState s) => s.priority
      | _ => 0

/-- Remove transaction by id; a batch is removed with its transactions. -/
def removeById (id : TransactionId) :
    Option (TransactionStateContainer Tx) :=
  match c.idToTransactionState[id]? with
  | none => some c
  | some entry =>
    let queue := c.priorityQueue.erase { priority := c.entryPriority entry, id := id }
    let c := { c with
      priorityQueue := queue
      idToTransactionState := c.idToTransactionState.erase id }
    match entry with
    | .transactionState _ => some c
    | .batch batchInfo =>
      match c.batchIdToTransactionIds[batchInfo.batchId]? with
      | none => some c
      | some batch =>
        let c := { c with
          batchIdToTransactionIds := c.batchIdToTransactionIds.erase batchInfo.batchId }
        batch.foldlM slabRemove c

end TransactionStateContainer
end FlowraValidator.BankingStage
