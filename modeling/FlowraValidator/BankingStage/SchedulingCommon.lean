import FlowraValidator.Lib.Fallible
import FlowraValidator.BankingStage.ThreadAwareAccountLocks
import FlowraValidator.BankingStage.ReadWriteAccountSet
import FlowraValidator.BankingStage.TransactionStateContainer

/-!
# What the schedulers share

A scheduler collects transactions in one batch for each worker thread, sends a batch as a piece of
work, and keeps track of the work in flight until the worker returns it. All of this is shared by
the schedulers, with the account locks.

A panic of the source, also one of checked arithmetic, halts the program; so does a worker that
is gone.

* `Batch.addTransaction`, `sendBatch`, `sendBatches`: from a transaction to a piece of work.
* `InFlightTracker.trackBatch`: work in flight.
-/

namespace FlowraValidator.BankingStage
open Fallible

inductive SchedulerError where
  | disconnectedSendChannel (name : String)

/-- Why a program ended early. -/
inductive Halt where
  | panicked
  | failed (error : SchedulerError)

/-- An addition of 64-bit words that must not overflow. -/
def checkedAdd (a b : ℕ) : Option ℕ := if a + b < 2 ^ 64 then some (a + b) else none

/-! ## Messages -/

abbrev TransactionBatchId := ℕ

/-- Transactions to be consumed by a worker. -/
structure ConsumeWork (Tx : Type) where
  batchId : TransactionBatchId
  ids : List TransactionId
  transactions : List Tx
  maxAges : List MaxAge
  revertOnError : Bool
  respondWithExtraInfo : Bool
  maxScheduleSlot : Option ℕ

/-- The channel to a worker: whether the worker is still there, and what was sent. -/
structure ConsumeWorkSender (Tx : Type) where
  connected : Bool
  sent : List (ConsumeWork Tx)

/-! ## Batches -/

/-- The transactions collected for one thread. -/
structure Batch (Tx : Type) where
  ids : List TransactionId
  transactions : List Tx
  maxAges : List MaxAge
  totalCus : ℕ

namespace Batch
variable {Tx : Type}

def empty : Batch Tx := { ids := [], transactions := [], maxAges := [], totalCus := 0 }

def addTransaction (batch : Batch Tx) (transactionId : TransactionId) (transaction : Tx)
    (maxAge : MaxAge) (cus : ℕ) : Option (Batch Tx) := do
  let totalCus ← checkedAdd batch.totalCus cus
  some {
    ids := batch.ids ++ [transactionId]
    transactions := batch.transactions ++ [transaction]
    maxAges := batch.maxAges ++ [maxAge]
    totalCus := totalCus }

end Batch

/-! ## Work in flight -/

structure BatchEntry where
  threadId : ThreadId
  numTransactions : ℕ
  totalCus : ℕ

/-- Tracks the transactions that are in flight for each thread. -/
structure InFlightTracker where
  numInFlightPerThread : List ℕ
  cusInFlightPerThread : List ℕ
  batches : OrdMap TransactionBatchId BatchEntry
  nextId : ℕ

namespace InFlightTracker

def new (numThreads : ℕ) : InFlightTracker where
  numInFlightPerThread := List.replicate numThreads 0
  cusInFlightPerThread := List.replicate numThreads 0
  batches := ∅
  nextId := 0

/-- Changes one number of a list, which must be there. -/
def changeAt (f : ℕ → Option ℕ) (l : List ℕ) (i : ℕ) : Option (List ℕ) := do
  let n ← l[i]?
  some (l.set i (← f n))

/-- Tracks a batch for the thread; batch ids count down. -/
def trackBatch (t : InFlightTracker) (numTransactions totalCus : ℕ) (threadId : ThreadId) :
    Option (TransactionBatchId × InFlightTracker) := do
  let batchId := t.nextId
  let nums ← changeAt (checkedAdd · numTransactions) t.numInFlightPerThread threadId
  let cus ← changeAt (checkedAdd · totalCus) t.cusInFlightPerThread threadId
  some (batchId, {
    numInFlightPerThread := nums
    cusInFlightPerThread := cus
    batches := t.batches.insert batchId {
      threadId := threadId, numTransactions := numTransactions, totalCus := totalCus }
    nextId := (t.nextId + (2 ^ 64 - 1)) % 2 ^ 64 })

end InFlightTracker

/-! ## The common structure -/

structure SchedulingCommon (Tx Key : Type) [LinearOrder Key] where
  consumeWorkSenders : List (ConsumeWorkSender Tx)
  inFlightTracker : InFlightTracker
  accountLocks : ThreadAwareAccountLocks Key
  batches : List (Batch Tx)

section Common
variable {Tx Key : Type} [LinearOrder Key]

/-- How much work a thread has: compute units, and transactions. -/
def threadLoad (common : SchedulingCommon Tx Key) (threadId : ThreadId) :
    Option (ThreadId × ℕ × ℕ) := do
  let batch ← common.batches[threadId]?
  let cus ← checkedAdd batch.totalCus (← common.inFlightTracker.cusInFlightPerThread[threadId]?)
  let num ← checkedAdd batch.transactions.length
    (← common.inFlightTracker.numInFlightPerThread[threadId]?)
  some (threadId, cus, num)

/-- The thread with less work; the first of two with the same. -/
def lighter (a b : ThreadId × ℕ × ℕ) : ThreadId × ℕ × ℕ :=
  if b.2.1 < a.2.1 ∨ b.2.1 = a.2.1 ∧ b.2.2 < a.2.2 then b else a

/-- Given the schedulable threads, select the thread with the least amount of work queued up. -/
def selectThread (common : SchedulingCommon Tx Key) (threadSet : ThreadSet) : Option ThreadId := do
  match ← threadSet.containedThreadsIter.mapM (threadLoad common) with
  | [] => none
  | first :: rest => some (rest.foldl lighter first).1

/-- Send a batch of transactions to the given thread. Returns the number of transactions sent. -/
def sendBatch (threadIndex : ThreadId) : EStateM Halt (SchedulingCommon Tx Key) ℕ := do
  let common ← get
  let batch ← ofOption .panicked common.batches[threadIndex]?
  if batch.ids.isEmpty then
    pure 0
  else
    let (batchId, tracker) ← ofOption .panicked
      (common.inFlightTracker.trackBatch batch.ids.length batch.totalCus threadIndex)
    let sender ← ofOption .panicked common.consumeWorkSenders[threadIndex]?
    let work : ConsumeWork Tx := {
      batchId := batchId
      ids := batch.ids
      transactions := batch.transactions
      maxAges := batch.maxAges
      revertOnError := false
      respondWithExtraInfo := false
      maxScheduleSlot := none }
    set { common with
      batches := common.batches.set threadIndex Batch.empty
      inFlightTracker := tracker }
    if sender.connected then
      modify fun common => { common with
        consumeWorkSenders := common.consumeWorkSenders.set threadIndex
          { sender with sent := sender.sent ++ [work] } }
      pure batch.ids.length
    else
      throw (.failed (.disconnectedSendChannel "consume work sender"))

/-- Send the batches of the given threads, one after the other. -/
def sendBatchesOf : List ThreadId → EStateM Halt (SchedulingCommon Tx Key) ℕ
  | [] => pure 0
  | threadIndex :: threads => do
    let num ← sendBatch threadIndex
    let rest ← sendBatchesOf threads
    pure (num + rest)

/-- Send all batches of transactions to the worker threads. -/
def sendBatches : EStateM Halt (SchedulingCommon Tx Key) ℕ := do
  let common ← get
  sendBatchesOf (List.range common.consumeWorkSenders.length)

/-! ## Completed work -/

variable [SVMMessage Tx Key]

end Common

/-! ## Results of scheduling one transaction -/

/-- A transaction has been scheduled to a thread. -/
structure TransactionSchedulingInfo (Tx : Type) where
  threadId : ThreadId
  transaction : Tx
  maxAge : MaxAge
  cost : ℕ

/-- Reasons a transaction could not be scheduled. -/
inductive TransactionSchedulingError where
  | unschedulableConflicts
  | unschedulableThread

structure SchedulingSummary where
  startingQueueSize : ℕ
  startingBufferSize : ℕ
  numScheduled : ℕ
  numUnschedulableConflicts : ℕ
  numUnschedulableThreads : ℕ
  numFilteredOut : ℕ

end FlowraValidator.BankingStage
