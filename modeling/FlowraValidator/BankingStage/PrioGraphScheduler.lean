import FlowraValidator.BankingStage.SchedulingCommon
import FlowraValidator.BankingStage.PrioGraph

/-!
# The scheduler with a look-ahead graph

One call of `PrioGraphScheduler::schedule`. The scheduler fills the graph with a window of the
queued transactions, highest priority first, and pops from it. A popped transaction is locked for
a thread and added to the batch of that thread, or found unschedulable. After a round of pops the
batches are sent, the window is refilled, and the popped transactions are unblocked.

A transaction found unschedulable should keep later ones that conflict with it from being
scheduled. The scheduler adds its accounts to `blockingLocks` for that; the three places where
`tryScheduleTransaction` gives up do not all do so.

The state of a call is a `Pass`. Beside the variables of the source it has a log, `popped`, of the
transactions popped from the graph and what was decided about each.
-/

namespace FlowraValidator.BankingStage
open Fallible TransactionSchedulingError

structure PrioGraphSchedulerConfig where
  maxScheduledCus : ℕ
  maxScannedTransactionsPerSchedulingPass : ℕ
  lookAheadWindowSize : ℕ
  targetTransactionsPerBatch : ℕ

variable {Tx Key : Type} [LinearOrder Key] [SVMMessage Tx Key]

/-- What `tryScheduleTransaction` does to a transaction that can be scheduled: the accounts are
locked, and the transaction is taken from its state. -/
structure Scheduled (Tx Key : Type) [LinearOrder Key] where
  info : TransactionSchedulingInfo Tx
  transactionState : TransactionState Tx
  accountLocks : ThreadAwareAccountLocks Key

/-- Tries to schedule a transaction. Returns the blocking locks as they are afterwards. -/
def tryScheduleTransaction (transactionState : TransactionState Tx)
    (blockingLocks : ReadWriteAccountSet Key) (accountLocks : ThreadAwareAccountLocks Key)
    (numThreads : ℕ) (threadSelector : ThreadSet → Option ThreadId)
    (bundleAccountLocks : BundleAccountLocks Key) :
    Option (Except TransactionSchedulingError (Scheduled Tx Key) × ReadWriteAccountSet Key) := do
  let transaction ← transactionState.transaction
  if !blockingLocks.checkLocks transaction then
    some (.error .unschedulableConflicts, (blockingLocks.takeLocks transaction).2)
  else if bundleLocked bundleAccountLocks transaction then
    some (.error .unschedulableConflicts, blockingLocks)
  else
    match ← accountLocks.tryLockAccounts (writeAccountLocks transaction)
      (readAccountLocks transaction) (ThreadSet.any numThreads) threadSelector with
    | .error .multipleConflicts =>
      some (.error .unschedulableConflicts, (blockingLocks.takeLocks transaction).2)
    | .error .threadNotAllowed =>
      some (.error .unschedulableThread, (blockingLocks.takeLocks transaction).2)
    | .ok (threadId, accountLocks) =>
      let ((transaction, maxAge), transactionState) ←
        transactionState.takeTransactionForScheduling
      some (.ok {
        info := {
          threadId := threadId
          transaction := transaction
          maxAge := maxAge
          cost := transactionState.cost }
        transactionState := transactionState
        accountLocks := accountLocks }, blockingLocks)

/-- The state of a call of `schedule`. -/
structure Pass (Tx Key : Type) [LinearOrder Key] (G : PrioGraph TransactionPriorityId Key) where
  container : TransactionStateContainer Tx
  common : SchedulingCommon Tx Key
  prioGraph : G.Graph
  budget : ℕ
  windowBudget : ℕ
  schedulableThreads : ThreadSet
  unschedulableIds : List TransactionPriorityId
  blockingLocks : ReadWriteAccountSet Key
  unblockThisBatch : List TransactionPriorityId
  numScanned : ℕ
  numScheduled : ℕ
  numSent : ℕ
  numUnschedulableConflicts : ℕ
  numUnschedulableThreads : ℕ
  numFilteredOut : ℕ
  /-- The popped transactions with the reason why each is unschedulable, if it is. -/
  popped : List (TransactionPriorityId × Option TransactionSchedulingError)

/-- What a call is given beside the container and the scheduler's state. -/
structure PassInput (Tx Key : Type) [LinearOrder Key] where
  config : PrioGraphSchedulerConfig
  bundleAccountLocks : BundleAccountLocks Key
  budget : ℕ
  /-- For the transactions of a chunk, whether the one at an index is kept. -/
  preGraphFilter : List Tx → ℕ → Bool

namespace Pass
variable {G : PrioGraph TransactionPriorityId Key}

/-- The state with which the variables of a call are initialised. -/
def start (container : TransactionStateContainer Tx) (common : SchedulingCommon Tx Key)
    (prioGraph : G.Graph) : Pass Tx Key G where
  container := container
  common := common
  prioGraph := prioGraph
  budget := 0
  windowBudget := 0
  schedulableThreads := ThreadSet.none
  unschedulableIds := []
  blockingLocks := ReadWriteAccountSet.empty
  unblockThisBatch := []
  numScanned := 0
  numScheduled := 0
  numSent := 0
  numUnschedulableConflicts := 0
  numUnschedulableThreads := 0
  numFilteredOut := 0
  popped := []

/-- A program about the part that the schedulers share. -/
def onCommon {α : Type} (x : EStateM Halt (SchedulingCommon Tx Key) α) :
    EStateM Halt (Pass Tx Key G) α :=
  zoom (·.common) (fun common s => { s with common := common }) x

/-! ## The look-ahead window -/

def maxFilterChunkSize : ℕ := 128

/-- Pops at most the given number of ids from the container. -/
def popChunk : ℕ → TransactionStateContainer Tx →
    List TransactionPriorityId × TransactionStateContainer Tx
  | 0, container => ([], container)
  | n + 1, container =>
    match container.pop with
    | none => ([], container)
    | some (id, container) =>
      let (ids, container) := popChunk n container
      (id :: ids, container)

/-- The transaction of an id, which must be in the container and not pending. -/
def unwrapTransaction (container : TransactionStateContainer Tx) (id : TransactionPriorityId) :
    Option Tx := do
  let transaction ← container.getTransaction id.id
  transaction

/-- Inserts a transaction of a chunk into the graph, or removes it from the container. -/
def insertOrRemove (entry : TransactionPriorityId × Bool) :
    EStateM Halt (Pass Tx Key G) PUnit := do
  let s ← get
  if entry.2 then
    let transaction ← ofOption .panicked (unwrapTransaction s.container entry.1)
    set { s with
      prioGraph := G.insertTransaction s.prioGraph entry.1
        (getTransactionAccountAccess transaction) }
  else
    let container ← ofOption .panicked (s.container.removeById entry.1.id)
    set { s with container := container, numFilteredOut := s.numFilteredOut + 1 }

/-- Fills the graph; each chunk makes the window budget smaller, which bounds their number. -/
def chunkedPops (preGraphFilter : List Tx → ℕ → Bool) : ℕ → EStateM Halt (Pass Tx Key G) PUnit
  | 0 => pure ⟨⟩
  | fuel + 1 => do
    let s ← get
    if 0 < s.windowBudget then
      let chunkSize := min s.windowBudget maxFilterChunkSize
      let (ids, container) := popChunk chunkSize s.container
      set { s with container := container, windowBudget := s.windowBudget - chunkSize }
      let txs ← ofOption .panicked (ids.mapM (unwrapTransaction container))
      let filterArray := (List.range chunkSize).map (preGraphFilter txs)
      (ids.zip filterArray).forM insertOrRemove
      if ids.length ≠ chunkSize then
        pure ⟨⟩
      else
        chunkedPops preGraphFilter fuel
    else
      pure ⟨⟩

/-! ## Scanning -/

variable (input : PassInput Tx Key)

/-- The decision about a popped transaction: the state after it, and the thread if it was
scheduled. -/
def decideTransaction (numThreads : ℕ) (id : TransactionPriorityId) :
    EStateM Halt (Pass Tx Key G) (Option ThreadId) := do
  let s ← get
  let state ← ofOption .panicked (s.container.getMutTransactionState id.id)
  let (result, blockingLocks) ← ofOption .panicked (tryScheduleTransaction state s.blockingLocks
    s.common.accountLocks numThreads (selectThread s.common) input.bundleAccountLocks)
  match result with
  | .error .unschedulableConflicts =>
    set { s with
      blockingLocks := blockingLocks
      popped := s.popped ++ [(id, some unschedulableConflicts)]
      numUnschedulableConflicts := s.numUnschedulableConflicts + 1
      unschedulableIds := s.unschedulableIds ++ [id] }
    pure none
  | .error .unschedulableThread =>
    set { s with
      blockingLocks := blockingLocks
      popped := s.popped ++ [(id, some unschedulableThread)]
      numUnschedulableThreads := s.numUnschedulableThreads + 1
      unschedulableIds := s.unschedulableIds ++ [id] }
    pure none
  | .ok scheduled =>
    let info := scheduled.info
    let batch ← ofOption .panicked s.common.batches[info.threadId]?
    let batch ← ofOption .panicked
      (batch.addTransaction id.id info.transaction info.maxAge info.cost)
    set { s with
      blockingLocks := blockingLocks
      popped := s.popped ++ [(id, none)]
      container := s.container.setTransactionState id.id scheduled.transactionState
      common := { s.common with
        accountLocks := scheduled.accountLocks
        batches := s.common.batches.set info.threadId batch }
      numScheduled := s.numScheduled + 1
      budget := s.budget - info.cost }
    pure (some info.threadId)

/-- If the target batch size is reached, send only this batch. -/
def sendFullBatch (threadId : ThreadId) :
    EStateM Halt (Pass Tx Key G) PUnit := do
  let s ← get
  let batch ← ofOption .panicked s.common.batches[threadId]?
  if input.config.targetTransactionsPerBatch ≤ batch.transactions.length then
    let num ← onCommon (sendBatch threadId)
    modify fun s => { s with numSent := s.numSent + num }
  else
    pure ⟨⟩

/-- If the thread has its share of compute units, remove it from the schedulable threads.
Returns whether none is left. -/
def retireThread (maxCuPerThread : ℕ) (threadId : ThreadId) :
    EStateM Halt (Pass Tx Key G) Bool := do
  let s ← get
  let batch ← ofOption .panicked s.common.batches[threadId]?
  let inFlight ← ofOption .panicked s.common.inFlightTracker.cusInFlightPerThread[threadId]?
  let cus ← ofOption .panicked (checkedAdd inFlight batch.totalCus)
  if maxCuPerThread ≤ cus then
    let schedulableThreads := s.schedulableThreads.remove threadId
    set { s with schedulableThreads := schedulableThreads }
    pure schedulableThreads.isEmpty
  else
    pure false

/-- One popped transaction. Returns whether no schedulable thread is left. -/
def scheduleOne (numThreads maxCuPerThread : ℕ) (id : TransactionPriorityId) :
    EStateM Halt (Pass Tx Key G) Bool := do
  match ← decideTransaction input numThreads id with
  | none => pure false
  | some threadId =>
    sendFullBatch input threadId
    retireThread maxCuPerThread threadId

/-- Pops from the graph until it has nothing released, no thread is left, or enough transactions
were scanned. The last also bounds the number of rounds. -/
def scanLoop (input : PassInput Tx Key) (numThreads maxCuPerThread : ℕ) :
    ℕ → EStateM Halt (Pass Tx Key G) PUnit
  | 0 => pure ⟨⟩
  | fuel + 1 => do
    let s ← get
    match G.pop s.prioGraph with
    | none => pure ⟨⟩
    | some (id, prioGraph) =>
      set { s with
        prioGraph := prioGraph
        numScanned := s.numScanned + 1
        unblockThisBatch := s.unblockThisBatch ++ [id] }
      if ← scheduleOne input numThreads maxCuPerThread id then
        pure ⟨⟩
      else
        let s ← get
        if input.config.maxScannedTransactionsPerSchedulingPass ≤ s.numScanned then
          pure ⟨⟩
        else
          scanLoop input numThreads maxCuPerThread fuel

/-- Send all non-empty batches. -/
def sendAll : EStateM Halt (Pass Tx Key G) PUnit := do
  let num ← onCommon sendBatches
  modify fun s => { s with numSent := s.numSent + num }

/-- Unblocks one popped transaction. -/
def unblockOne (id : TransactionPriorityId) : EStateM Halt (Pass Tx Key G) PUnit := do
  let s ← get
  let prioGraph ← ofOption .panicked (G.unblock s.prioGraph id)
  set { s with prioGraph := prioGraph }

/-- Unblocks all transactions that were popped since the last time. -/
def unblockAll : EStateM Halt (Pass Tx Key G) PUnit := do
  let s ← get
  set { s with unblockThisBatch := [] }
  s.unblockThisBatch.forM unblockOne

/-- Refreshes the window budget and fills the graph again. -/
def refill : EStateM Halt (Pass Tx Key G) PUnit := do
  modify fun s => { s with windowBudget := s.windowBudget + s.unblockThisBatch.length }
  let s ← get
  chunkedPops input.preGraphFilter s.windowBudget

/-- Rounds of scanning. Every round scans at least one transaction, which bounds their number. -/
def passLoop (input : PassInput Tx Key) (numThreads maxCuPerThread : ℕ) :
    ℕ → EStateM Halt (Pass Tx Key G) PUnit
  | 0 => pure ⟨⟩
  | fuel + 1 => do
    let s ← get
    let maxScanned := input.config.maxScannedTransactionsPerSchedulingPass
    if 0 < s.budget ∧ s.numScanned < maxScanned then
      if G.isEmpty s.prioGraph then
        pure ⟨⟩
      else
        scanLoop input numThreads maxCuPerThread (maxScanned - s.numScanned)
        sendAll
        refill input
        unblockAll
        passLoop input numThreads maxCuPerThread fuel
    else
      pure ⟨⟩

/-! ## The call -/

/-- Pops and unblocks what is left in the graph; the graph never has more than was queued. -/
def drainGraph : ℕ → G.Graph → Option (List TransactionPriorityId × G.Graph)
  | 0, g => some ([], g)
  | fuel + 1, g => do
    match ← G.popAndUnblock g with
    | none => some ([], g)
    | some (id, g) =>
      let (ids, g) ← drainGraph fuel g
      some (id :: ids, g)

/-- The threads that have not their share of compute units in flight. -/
def initialThreads (inFlight : List ℕ) (maxCuPerThread : ℕ) : List ThreadId → ThreadSet →
    Option ThreadSet
  | [], threads => some threads
  | threadId :: rest, threads => do
    let cus ← inFlight[threadId]?
    initialThreads inFlight maxCuPerThread rest
      (if maxCuPerThread ≤ cus then threads.remove threadId else threads)

/-- Pushes what was not scheduled back into the container, and clears the graph. -/
def giveBack (startingQueueSize : ℕ) : EStateM Halt (Pass Tx Key G) PUnit := do
  let s ← get
  let (_, container) ← ofOption .panicked (s.container.pushIdsIntoQueue s.unschedulableIds)
  let (rest, prioGraph) ← ofOption .panicked (drainGraph startingQueueSize s.prioGraph)
  let (_, container) ← ofOption .panicked (container.pushIdsIntoQueue rest)
  set { s with
    container := container
    unschedulableIds := []
    prioGraph := G.clear prioGraph }

/-- Schedule transactions from the container to be consumed by the worker threads. -/
def schedule : EStateM Halt (Pass Tx Key G) SchedulingSummary := do
  let s ← get
  let inFlight := s.common.inFlightTracker.cusInFlightPerThread
  let cus ← ofOption .panicked (inFlight.foldlM checkedAdd 0)
  let startingQueueSize := s.container.queueSize
  let startingBufferSize := s.container.bufferSize
  let numThreads := s.common.consumeWorkSenders.length
  if numThreads = 0 then
    throw .panicked
  else
    let maxCuPerThread := input.config.maxScheduledCus / numThreads
    let threads ← ofOption .panicked
      (initialThreads inFlight maxCuPerThread (List.range numThreads) (ThreadSet.any numThreads))
    if threads.isEmpty then
      pure {
        startingQueueSize := startingQueueSize
        startingBufferSize := startingBufferSize
        numScheduled := 0
        numUnschedulableConflicts := 0
        numUnschedulableThreads := 0
        numFilteredOut := 0 }
    else
      set { s with
        budget := input.budget - cus
        schedulableThreads := threads
        windowBudget := input.config.lookAheadWindowSize }
      chunkedPops input.preGraphFilter input.config.lookAheadWindowSize
      passLoop input numThreads maxCuPerThread
        input.config.maxScannedTransactionsPerSchedulingPass
      sendAll
      giveBack startingQueueSize
      let s ← get
      if s.numScheduled = s.numSent then
        pure {
          startingQueueSize := startingQueueSize
          startingBufferSize := startingBufferSize
          numScheduled := s.numScheduled
          numUnschedulableConflicts := s.numUnschedulableConflicts
          numUnschedulableThreads := s.numUnschedulableThreads
          numFilteredOut := s.numFilteredOut }
      else
        throw .panicked

/-- The ids of the transactions that were sent to the workers. -/
def sentIds (s : Pass Tx Key G) : List TransactionId :=
  s.common.consumeWorkSenders.flatMap fun sender => sender.sent.flatMap (·.ids)

end Pass
end FlowraValidator.BankingStage
