import FlowraValidator.BankingStage.Overtaking

/-!
# When a bundle lets transactions overtake

A transaction that needs an account held by a bundle is found unschedulable, but its accounts are
not added to the blocking locks. So a transaction of lower priority that conflicts with it, and
that needs no account of the bundle, is scheduled.

To see that this happens for every such pair, the two transactions are given to a scheduler with
one idle worker: the first one is popped and refused, and then the second one is popped and sent.

* `Pass.not_overtakes_iff`: which transactions are never overtaken.
-/

namespace FlowraValidator.BankingStage
open TransactionStateContainer TransactionState
open GraphNode BankingStage.Sequential ReadWriteAccountSet List Option OrdMap OrdSet AccountLocks
open ThreadSet (only)

/-! ## Locks of a single thread -/

/-- The locks of an account that only thread `0` holds. -/
structure AccountLocks.OnFirst (locks : AccountLocks) : Prop where
  writes : ∀ w, locks.writeLocks = some w → w.threadId = 0
  reads : ∀ r, locks.readLocks = some r → r.threadSet = only 0 ∧ r.lockCounts.length = maxThreads
  locked : locks.writeLocks ≠ none ∨ locks.readLocks ≠ none

variable {locks : AccountLocks}

namespace AccountLocks

theorem onlyOneContained_first : (only 0).onlyOneContained = some 0 :=
  ThreadSet.onlyOneContained_iff.mpr ⟨rfl, by decide⟩

theorem any_one : ThreadSet.any 1 = only 0 := by decide

theorem OnFirst.schedulableThreads (h : locks.OnFirst) (write : Bool) :
    schedulableThreads 1 write (some locks) = some (only 0) := by
  obtain ⟨writeLocks, readLocks⟩ := locks
  cases writeLocks with
  | none =>
    cases readLocks with
    | none => exact absurd h.locked (by simp)
    | some r =>
      cases write with
      | true => simp [schedulableThreads, (h.reads r rfl).1, onlyOneContained_first]
      | false => simp [schedulableThreads, any_one]
  | some w =>
    have hw := h.writes w rfl
    cases readLocks with
    | none => simp [schedulableThreads, hw]
    | some r => simp [schedulableThreads, hw, (h.reads r rfl).1, onlyOneContained_first]

/-- The locks of an account that thread `0` may add to. -/
def FirstOrNone (entry : Option AccountLocks) : Prop := ∀ locks, entry = some locks → locks.OnFirst

variable {entry : Option AccountLocks}

theorem FirstOrNone.writeLock (h : FirstOrNone entry) :
    ∃ locks, (entry.getD default).writeLock 0 = some locks ∧ locks.OnFirst := by
  cases entry with
  | none =>
    refine ⟨{ writeLocks := some { threadId := 0, lockCount := 1 }, readLocks := none }, rfl, ?_⟩
    refine ⟨fun w hw => ?_, fun r hr => absurd hr (by simp), .inl (by simp)⟩
    cases hw
    rfl
  | some locks =>
    have hlocks := h locks rfl
    obtain ⟨writeLocks, readLocks⟩ := locks
    have hguard : ∀ r, readLocks = some r → r.threadSet.onlyOneContained = some 0 := by
      intro r hr
      rw [(hlocks.reads r hr).1, onlyOneContained_first]
    cases writeLocks with
    | none =>
      refine ⟨{ writeLocks := some { threadId := 0, lockCount := 1 }, readLocks := readLocks },
        ?_, ⟨fun w hw => ?_, hlocks.reads, .inl (by simp)⟩⟩
      · cases readLocks with
        | none => rfl
        | some r => simp [writeLock, hguard r rfl]
      · cases hw
        rfl
    | some w =>
      have hw := hlocks.writes w rfl
      refine ⟨{
        writeLocks := some { w with lockCount := (w.lockCount + 1) % lockCountMod }
        readLocks := readLocks }, ?_, ⟨fun w' hw' => ?_, hlocks.reads, .inl (by simp)⟩⟩
      · cases readLocks with
        | none => simp [writeLock, hw]
        | some r => simp [writeLock, hguard r rfl, hw]
      · cases hw'
        exact hw

theorem FirstOrNone.readLock (h : FirstOrNone entry) :
    ∃ locks, (entry.getD default).readLock 0 = some locks ∧ locks.OnFirst := by
  have hinsert : (only 0).insert 0 = only 0 := by decide
  cases entry with
  | none =>
    refine ⟨_, rfl, ⟨fun w hw => absurd hw (by simp), fun r hr => ?_, .inr (by simp)⟩⟩
    cases hr
    exact ⟨rfl, by simp⟩
  | some locks =>
    have hlocks := h locks rfl
    obtain ⟨writeLocks, readLocks⟩ := locks
    have hguard : ∀ w, writeLocks = some w → w.threadId = 0 := hlocks.writes
    cases readLocks with
    | none =>
      refine ⟨{ writeLocks := writeLocks, readLocks := some {
        threadSet := only 0, lockCounts := (List.replicate maxThreads 0).set 0 1 } },
        ?_, ⟨hlocks.writes, fun r hr => ?_, .inr (by simp)⟩⟩
      · cases writeLocks with
        | none => rfl
        | some w => simp [readLock, hguard w rfl, maxThreads]
      · cases hr
        exact ⟨rfl, by simp⟩
    | some r =>
      obtain ⟨hset, hlength⟩ := hlocks.reads r rfl
      have hcount : ∃ count, r.lockCounts[0]? = some count :=
        ⟨_, getElem?_eq_getElem (by rw [hlength]; decide)⟩
      obtain ⟨count, hcount⟩ := hcount
      refine ⟨{ writeLocks := writeLocks, readLocks := some {
        threadSet := only 0
        lockCounts := r.lockCounts.set 0 ((count + 1) % lockCountMod) } },
        ?_, ⟨hlocks.writes, fun r' hr' => ?_, .inr (by simp)⟩⟩
      · cases writeLocks with
        | none => simp [readLock, hcount, hset, hinsert]
        | some w => simp [readLock, hguard w rfl, hcount, hset, hinsert]
      · cases hr'
        exact ⟨rfl, by rw [length_set, hlength]⟩

end AccountLocks

variable {selector : ThreadSet → Option ThreadId}

namespace ThreadAwareAccountLocks
variable {Key : Type} [LinearOrder Key]

/-- The locks of a scheduler with a single thread. -/
structure Single (l : ThreadAwareAccountLocks Key) : Prop where
  numThreads : l.numThreads = 1
  onFirst : ∀ account : Key, AccountLocks.FirstOrNone l.locks[account]?

variable {l : ThreadAwareAccountLocks Key}

theorem Single.insert (h : l.Single) (account : Key) (hlocks : locks.OnFirst) :
    Single { l with locks := l.locks.insert account locks } where
  numThreads := h.numThreads
  onFirst other e he := by
    rw [get_insert] at he
    by_cases heq : account = other
    · rw [if_pos heq] at he
      cases he
      exact hlocks
    · rw [if_neg heq] at he
      exact h.onFirst other e he

theorem Single.foldlM (h : l.Single)
    {f : ThreadAwareAccountLocks Key → Key → Option (ThreadAwareAccountLocks Key)}
    (hf : ∀ l account, Single l → ∃ l', f l account = some l' ∧ Single l') (accounts : List Key) :
    ∃ l', accounts.foldlM f l = some l' ∧ l'.Single := by
  induction accounts generalizing l with
  | nil => exact ⟨l, rfl, h⟩
  | cons account accounts ih =>
    obtain ⟨l', hl', hsingle⟩ := hf l account h
    obtain ⟨l'', hl'', hsingle'⟩ := ih hsingle
    refine ⟨l'', ?_, hsingle'⟩
    rwa [foldlM_cons, hl']

omit [LinearOrder Key] in
theorem Single.restrict {threads : Key → Option ThreadSet}
    (h : ∀ account, threads account = some (only 0)) (accounts : List Key) :
    restrict threads accounts (only 0) = some (some (only 0)) := by
  have hand : (only 0).bitand (only 0) = only 0 := by decide
  have hne : (only 0).isEmpty = false := by decide
  induction accounts with
  | nil => rfl
  | cons account accounts ih =>
    rw [ThreadAwareAccountLocks.restrict, h account, bind_eq_bind, bind_some, hand]
    simp only [hne, Bool.false_eq_true, if_false]
    exact ih

/-- A single thread gets every lock. -/
theorem Single.tryLockAccounts (h : l.Single) (writes reads : List Key)
    (hselector : selector (only 0) = some 0) :
    ∃ l', l.tryLockAccounts writes reads (ThreadSet.any 1) selector = some (.ok (0, l')) ∧
      l'.Single := by
  have hthreads (write : Bool) (account : Key) :
      schedulableThreads l.numThreads write l.locks[account]? = some (only 0) := by
    rw [h.numThreads]
    cases hentry : l.locks[account]? with
    | none => rw [schedulableThreads, any_one]
    | some locks => exact (h.onFirst account locks hentry).schedulableThreads write
  have hschedulable : l.accountsSchedulableThreads writes reads = some (some (only 0)) := by
    have hwrites : ThreadAwareAccountLocks.restrict l.writeSchedulableThreads writes
        (only 0) = some (some (only 0)) :=
      Single.restrict (fun account => hthreads true account) writes
    rw [accountsSchedulableThreads, h.numThreads, any_one, hwrites]
    exact Single.restrict (fun account => hthreads false account) reads
  obtain ⟨l1, hl1, hsingle1⟩ := h.foldlM (f := writeLockAccount 0) (fun l account hl => by
    obtain ⟨locks, hlocks, honFirst⟩ := (hl.onFirst account).writeLock
    refine ⟨{ l with locks := l.locks.insert account locks }, ?_, hl.insert account honFirst⟩
    rw [writeLockAccount, hlocks]
    rfl) writes
  obtain ⟨l2, hl2, hsingle2⟩ := hsingle1.foldlM (f := readLockAccount 0) (fun l account hl => by
    obtain ⟨locks, hlocks, honFirst⟩ := (hl.onFirst account).readLock
    refine ⟨{ l with locks := l.locks.insert account locks }, ?_, hl.insert account honFirst⟩
    rw [readLockAccount, hlocks]
    rfl) reads
  refine ⟨l2, ?_, hsingle2⟩
  have hand : (only 0).bitand (only 0) = only 0 := by decide
  have hne : (only 0).isEmpty = false := by decide
  have hlock : l.lockAccounts writes reads 0 = some l2 := by
    rw [lockAccounts, h.numThreads]
    simp [hl1, hl2]
  rw [ThreadAwareAccountLocks.tryLockAccounts, hschedulable]
  simp [any_one, hand, hne, hselector, hlock]

end ThreadAwareAccountLocks

namespace Pass
open Fallible

variable {Tx Key : Type} [LinearOrder Key] [SVMMessage Tx Key]

/-! ## Two transactions -/

/-- A scheduler with one worker and nothing to do. -/
def idleCommon : SchedulingCommon Tx Key where
  consumeWorkSenders := [{ connected := true, sent := [] }]
  inFlightTracker := InFlightTracker.new 1
  accountLocks := { numThreads := 1, locks := ∅ }
  batches := [Batch.empty]

def first : TransactionPriorityId := { priority := 2, id := 0 }

def second : TransactionPriorityId := { priority := 1, id := 1 }

/-- A container of two transactions that cost nothing. -/
def pairContainer (ta tb : Tx) : TransactionStateContainer Tx where
  capacity := 2
  priorityQueue := ((∅ : OrdSet TransactionPriorityId).insert first).insert second
  idToTransactionState :=
    ((∅ : OrdMap TransactionId (BatchIdOrTransactionState Tx)).insert 0
      (.transactionState (.new ta ⟨0, 0⟩ 2 0))).insert 1 (.transactionState (.new tb ⟨0, 0⟩ 1 0))
  batchIdToTransactionIds := ∅

/-- A call that scans two transactions. -/
def pairInput (bundles : BundleAccountLocks Key) : PassInput Tx Key where
  config := {
    maxScheduledCus := 1
    maxScannedTransactionsPerSchedulingPass := 2
    lookAheadWindowSize := 2
    targetTransactionsPerBatch := 1 }
  bundleAccountLocks := bundles
  budget := 1
  preGraphFilter _ _ := true

omit [LinearOrder Key] [SVMMessage Tx Key] in
theorem mem_pairContainer {ta tb : Tx} {p : TransactionPriorityId} :
    p ∈ (pairContainer ta tb).priorityQueue ↔ p = first ∨ p = second := by
  rw [pairContainer, OrdSet.mem_insert_iff, OrdSet.mem_insert_iff]
  simp [eq_comm, or_comm]

/-- What is left of the queue when both are taken. -/
def restQueue (ta tb : Tx) : OrdSet TransactionPriorityId :=
  ((pairContainer ta tb).priorityQueue.erase first).erase second

theorem popChunk_pair (ta tb : Tx) : popChunk 2 (pairContainer ta tb) =
    ([first, second], { pairContainer ta tb with priorityQueue := restQueue ta tb }) := by
  have hfirst : (pairContainer ta tb).pop = some (first, { pairContainer ta tb with
      priorityQueue := (pairContainer ta tb).priorityQueue.erase first }) := by
    rw [pop, popLast_eq_some_iff.mpr
      ⟨mem_pairContainer.mpr (.inl rfl), fun p hp => ?_, rfl⟩]
    · rfl
    · rcases mem_pairContainer.mp hp with rfl | rfl
      · exact le_refl _
      · decide
  have hsecond : ({ pairContainer ta tb with
      priorityQueue := (pairContainer ta tb).priorityQueue.erase first } :
        TransactionStateContainer Tx).pop = some (second, { pairContainer ta tb with
          priorityQueue := restQueue ta tb }) := by
    rw [pop, popLast_eq_some_iff.mpr
      ⟨mem_erase_iff.mpr ⟨by decide, mem_pairContainer.mpr (.inr rfl)⟩, fun p hp => ?_, rfl⟩]
    · rfl
    · obtain ⟨hne, hp⟩ := mem_erase_iff.mp hp
      rcases mem_pairContainer.mp hp with rfl | rfl
      · exact absurd rfl hne
      · exact le_refl _
  simp only [popChunk, hfirst, hsecond]

theorem popChunk_rest (ta tb : Tx) {c : TransactionStateContainer Tx}
    (hc : c.priorityQueue = restQueue ta tb) (k : ℕ) : popChunk k c = ([], c) := by
  have hpop : c.pop = none := by
    rw [pop, hc, popLast_eq_none_iff.mpr fun p hp => ?_]
    · rfl
    · obtain ⟨hsecond, hp⟩ := mem_erase_iff.mp hp
      obtain ⟨hfirst, hp⟩ := mem_erase_iff.mp hp
      rcases mem_pairContainer.mp hp with rfl | rfl
      · exact hfirst rfl
      · exact hsecond rfl
  cases k with
  | zero => rfl
  | succ k => rw [popChunk, hpop]

variable {bundles : BundleAccountLocks Key} {ta tb : Tx} {state : TransactionState Tx}

theorem exists_tryScheduleTransaction {accountLocks : ThreadAwareAccountLocks Key}
    (hstate : state.transaction = some tb) (hfree : bundleLocked bundles tb = false)
    (hlocks : accountLocks.Single) (hselector : selector (only 0) = some 0) :
    ∃ locks, tryScheduleTransaction state empty accountLocks 1 selector
      bundles = some (.ok {
        info := {
          threadId := 0
          transaction := tb
          maxAge := state.maxAge
          cost := state.cost }
        transactionState := { state with transaction := none }
        accountLocks := locks }, empty) := by
  have hcheck : (empty : ReadWriteAccountSet Key).checkLocks tb = true := by
    rw [checkLocks_iff]
    simp [empty]
  obtain ⟨locks, htry, -⟩ := hlocks.tryLockAccounts (writeAccountLocks tb) (readAccountLocks tb)
    hselector
  refine ⟨locks, ?_⟩
  simp [tryScheduleTransaction, hstate, hcheck, hfree, htry,
    takeTransactionForScheduling]

/-- The state of the call once both transactions are in the graph. -/
def pairFilled (ta tb : Tx) : Pass Tx Key (graph TransactionPriorityId Key) :=
  { start { pairContainer ta tb with priorityQueue := restQueue ta tb } idleCommon
      [inserted first (getTransactionAccountAccess ta),
        inserted second (getTransactionAccountAccess tb)] with
    budget := 1
    schedulableThreads := only 0 }

theorem chunkedPops_pair
    {E : Halt → Pass Tx Key (graph TransactionPriorityId Key) → Prop}
    {Q : PUnit → Pass Tx Key (graph TransactionPriorityId Key) → Prop}
    (h : Q ⟨⟩ (pairFilled ta tb)) :
    wp (chunkedPops (fun _ _ => true) 2) Q E { start (pairContainer ta tb) idleCommon [] with
      budget := 1
      schedulableThreads := only 0
      windowBudget := 2 } := by
  have hmin : min 2 maxFilterChunkSize = 2 := rfl
  unfold chunkedPops
  simp only [start, wp_bind, wp_get, wp_ite, wp_set, hmin, popChunk_pair]
  exact ⟨fun _ => h, fun hzero => absurd Nat.two_pos hzero⟩

variable {Q : PUnit → Pass Tx Key (graph TransactionPriorityId Key) → Prop}
  {E : Halt → Pass Tx Key (graph TransactionPriorityId Key) → Prop}
  {s : Pass Tx Key (graph TransactionPriorityId Key)}

/-- The state after the first transaction was refused, at the end of the first round. -/
def pairRefused (ta tb : Tx) : Pass Tx Key (graph TransactionPriorityId Key) :=
  { pairFilled ta tb with
    prioGraph := markPopped first (pairFilled ta tb).prioGraph
    numScanned := 1
    unblockThisBatch := [first]
    popped := [(first, some .unschedulableConflicts)]
    numUnschedulableConflicts := 1
    unschedulableIds := [first] }

variable (hlocked : bundleLocked bundles ta = true) (hfree : bundleLocked bundles tb = false)
include hlocked in
/-- The first transaction is refused, and the second one is not released yet. -/
theorem scanLoop_first (h : Q ⟨⟩ (pairRefused ta tb)) :
    wp (scanLoop (pairInput bundles) 1 1 2) Q E (pairFilled ta tb) := by
  have hpop : (graph TransactionPriorityId Key).pop (pairFilled ta tb).prioGraph =
    some (first, markPopped first (pairFilled ta tb).prioGraph) := rfl
  have hget : (pairFilled ta tb : Pass Tx Key _).container.getMutTransactionState first.id =
    some (.new ta ⟨0, 0⟩ 2 0) := rfl
  have hcheck : (empty : ReadWriteAccountSet Key).checkLocks ta = true := by
    rw [checkLocks_iff]
    simp [empty]
  have htry : tryScheduleTransaction (.new ta ⟨0, 0⟩ 2 0) empty
      (pairFilled ta tb).common.accountLocks 1 (selectThread (pairFilled ta tb).common) bundles =
        some (.error .unschedulableConflicts, empty) := by
    simp [tryScheduleTransaction, new, hcheck, hlocked]
  unfold scanLoop scheduleOne decideTransaction
  simp only [wp_bind, wp_get, wp_set, wp_ofOption, hpop, hget, some_inj, forall_eq',
    reduceCtorEq, false_implies, and_true]
  change (∀ r, tryScheduleTransaction _ empty _ 1 _ bundles = some r → _) ∧
    (tryScheduleTransaction _ empty _ 1 _ bundles = none → _)
  rw [htry]
  refine ⟨fun r hr => ?_, fun hnone => absurd hnone (by simp)⟩
  cases hr
  exact h

variable (hbatches : s.common.batches = [Batch.empty])
  (hsenders : s.common.consumeWorkSenders.length = 1)
include hbatches hsenders in
omit [SVMMessage Tx Key] in
/-- There is nothing to send. -/
theorem sendAll_empty (h : Q ⟨⟩ s) : wp sendAll Q E s := by
  have hbatch : s.common.batches[0]? = some Batch.empty := by
    rw [hbatches]
    rfl
  have hrange : List.range s.common.consumeWorkSenders.length = [0] := by
    rw [hsenders]
    rfl
  simp only [sendAll, onCommon, wp_bind, wp_zoom, sendBatches, wp_get, hrange, sendBatchesOf,
    sendBatch, wp_ofOption, hbatch, some_inj, reduceCtorEq, false_implies, and_true, forall_eq']
  exact h

include hbatches hsenders in
/-- The end of a round in which one transaction was popped, with an empty batch and an empty
queue: the transaction is unblocked. -/
theorem roundEnd {p : TransactionPriorityId} {k : EStateM Halt (Pass Tx Key _) PUnit}
    (hqueue : s.container.priorityQueue = restQueue ta tb) (hwindow : s.windowBudget = 0)
    (hunblock : s.unblockThisBatch = [p])
    (h : wp k Q E { s with
      unblockThisBatch := []
      prioGraph := markUnblocked p s.prioGraph }) :
    wp (do sendAll; refill (pairInput bundles); unblockAll; k) Q E s := by
  rw [wp_bind]
  refine sendAll_empty hbatches hsenders ?_
  simp only [refill, wp_bind, wp_modify, wp_get, hwindow, hunblock]
  show wp (chunkedPops (fun _ _ => true) 1) _ E { s with
    windowBudget := 1
    unblockThisBatch := [p] }
  unfold chunkedPops
  simp only [wp_bind, wp_get, wp_ite, wp_set, popChunk_rest ta tb hqueue]
  refine ⟨fun _ => ?_, fun hzero => absurd Nat.one_pos hzero⟩
  rwa [hwindow] at h

/-- The state after the second transaction was sent. -/
def pairSent (ta tb : Tx) (locks : ThreadAwareAccountLocks Key) :
    Pass Tx Key (graph TransactionPriorityId Key) :=
  { pairRefused ta tb with
    container := (pairRefused ta tb : Pass Tx Key _).container.setTransactionState 1
      { new tb ⟨0, 0⟩ 1 0 with transaction := none }
    common := {
      consumeWorkSenders := [{ connected := true, sent := [{
        batchId := 0
        ids := [1]
        transactions := [tb]
        maxAges := [⟨0, 0⟩]
        revertOnError := false
        respondWithExtraInfo := false
        maxScheduleSlot := none }] }]
      inFlightTracker := {
        numInFlightPerThread := [1]
        cusInFlightPerThread := [0]
        batches := (∅ : OrdMap TransactionBatchId BatchEntry).insert 0 {
          threadId := 0, numTransactions := 1, totalCus := 0 }
        nextId := (0 + (2 ^ 64 - 1)) % 2 ^ 64 }
      accountLocks := locks
      batches := [Batch.empty] }
    prioGraph := markPopped second
      (markUnblocked first (pairRefused ta tb).prioGraph)
    numScanned := 2
    unblockThisBatch := [second]
    popped := [(first, some .unschedulableConflicts), (second, none)]
    numScheduled := 1
    numSent := 1 }

/-- Then the second transaction is sent. -/
theorem scanLoop_second (hfree : bundleLocked bundles tb = false)
    (h : ∀ locks, Q ⟨⟩ (pairSent ta tb locks)) :
    wp (scanLoop (pairInput bundles) 1 1 1) Q E { pairRefused ta tb with
      unblockThisBatch := []
      prioGraph := markUnblocked first (pairRefused ta tb).prioGraph } := by
  set s : Pass Tx Key (graph TransactionPriorityId Key) := { pairRefused ta tb with
    unblockThisBatch := []
    prioGraph := markUnblocked first (pairRefused ta tb).prioGraph }
  have hpop : (graph TransactionPriorityId Key).pop s.prioGraph =
    some (second, markPopped second s.prioGraph) := rfl
  have hget : s.container.getMutTransactionState second.id = some (.new tb ⟨0, 0⟩ 1 0) := rfl
  have hlocks : s.common.accountLocks.Single :=
    ⟨rfl, fun account locks hentry => absurd hentry (by
      rw [show s.common.accountLocks.locks = ∅ from rfl, Std.ExtTreeMap.getElem?_empty]
      simp)⟩
  have hselect : selectThread s.common (only 0) = some 0 := by
    have hiter : (only 0).containedThreadsIter = [0] := by decide +kernel
    rw [selectThread, hiter]
    rfl
  obtain ⟨locks, htry⟩ := exists_tryScheduleTransaction
    (show (new tb ⟨0, 0⟩ 1 0).transaction = some tb from rfl) hfree hlocks hselect
  unfold scanLoop scheduleOne decideTransaction
  simp only [wp_bind, wp_get, wp_set, wp_ofOption, hpop, hget, some_inj, forall_eq',
    reduceCtorEq, false_implies, and_true]
  change (∀ r, tryScheduleTransaction _ empty _ 1 _ bundles = some r → _) ∧
    (tryScheduleTransaction _ empty _ 1 _ bundles = none → _)
  rw [htry]
  refine ⟨fun r hr => ?_, fun hnone => absurd hnone (by simp)⟩
  cases hr
  exact h locks

include hlocked hfree in
/-- The two rounds. -/
theorem passLoop_pair
    (h : ∀ locks, Q ⟨⟩ { pairSent ta tb locks with
      unblockThisBatch := []
      prioGraph := markUnblocked second (pairSent ta tb locks).prioGraph }) :
    wp (passLoop (pairInput bundles) 1 1 2) Q E (pairFilled ta tb) := by
  rw [passLoop]
  simp only [wp_bind, wp_get, wp_ite]
  refine ⟨fun _ => ⟨fun hempty => absurd hempty Bool.false_ne_true, fun _ => ?_⟩,
    fun hstop => absurd ⟨Nat.one_pos, Nat.two_pos⟩ hstop⟩
  refine scanLoop_first hlocked ?_
  refine roundEnd rfl rfl rfl rfl rfl ?_
  rw [passLoop]
  simp only [wp_bind, wp_get, wp_ite]
  refine ⟨fun _ => ⟨fun hempty => absurd hempty Bool.false_ne_true, fun _ => ?_⟩,
    fun hstop => absurd ⟨Nat.one_pos, Nat.one_lt_two⟩ hstop⟩
  refine scanLoop_second hfree fun locks => ?_
  exact roundEnd rfl rfl rfl rfl rfl (h locks)

/-- Both transactions are popped, the first one is refused and the second one is sent. -/
def PairDone (s : Pass Tx Key (graph TransactionPriorityId Key)) : Prop :=
  s.popped = [(first, some .unschedulableConflicts), (second, none)] ∧ s.sentIds = [1]

include hlocked hfree in
theorem wp_schedule_pair :
    wp (schedule (pairInput bundles)) (fun _ => PairDone) (fun _ => PairDone)
      (start (pairContainer ta tb) idleCommon (graph _ Key).new) := by
  set s0 : Pass Tx Key (graph TransactionPriorityId Key) :=
    start (pairContainer ta tb) idleCommon (graph _ Key).new
  have hinFlight : s0.common.inFlightTracker.cusInFlightPerThread = [0] := rfl
  have hsenders : s0.common.consumeWorkSenders.length = 1 := rfl
  have hcus : [0].foldlM checkedAdd 0 = some 0 := rfl
  have hthreads : initialThreads [0] 1 (List.range 1) (ThreadSet.any 1) =
      some (only 0) := by decide +kernel
  have hsome : (only 0).isEmpty = false := by decide
  have hshare : (pairInput bundles : PassInput Tx Key).config.maxScheduledCus / 1 = 1 :=
    Nat.div_one _
  unfold schedule
  simp only [wp_bind, wp_get, wp_ofOption, wp_ite, wp_pure, wp_set, wp_throw, hinFlight, hsenders,
    hcus, hshare, hthreads, hsome, some_inj, reduceCtorEq, false_implies, and_true,
    forall_eq', one_ne_zero, Bool.false_eq_true, not_false_eq_true, true_implies, true_and]
  refine chunkedPops_pair ?_
  rw [wp_bind]
  refine passLoop_pair hlocked hfree fun locks => ?_
  rw [wp_bind]
  refine sendAll_empty rfl rfl ?_
  simp only [giveBack, wp_bind, wp_get, wp_ofOption, wp_set, wp_ite, wp_pure, wp_throw]
  exact ⟨fun _ _ => ⟨fun _ _ => ⟨fun _ _ => ⟨fun _ => ⟨rfl, rfl⟩, fun _ => ⟨rfl, rfl⟩⟩,
    fun _ => ⟨rfl, rfl⟩⟩, fun _ => ⟨rfl, rfl⟩⟩, fun _ => ⟨rfl, rfl⟩⟩

/-! ## Which transactions are overtaken -/

omit [SVMMessage Tx Key] in
theorem ready_pair (ta tb : Tx) : Ready (pairContainer ta tb) (idleCommon : SchedulingCommon Tx Key)
    (graph TransactionPriorityId Key).new where
  queued p hp := by
    rcases mem_pairContainer.mp hp with rfl | rfl
    · exact ⟨.new ta ⟨0, 0⟩ 2 0, ta, rfl, rfl, rfl⟩
    · exact ⟨.new tb ⟨0, 0⟩ 1 0, tb, rfl, rfl, rfl⟩
  batches batch hbatch := by
    cases mem_singleton.mp hbatch
    rfl
  sent sender hsender := by
    cases mem_singleton.mp hsender
    rfl
  graph := rfl

/-- **Overtaking.**  For the accounts that bundles hold, and two transactions: in no call of
`schedule`, whatever the graph, the container, the state of the locks and of the work in flight,
the budget, the configuration and the filter, is the second one sent after the first one was
popped and found unschedulable although they conflict, iff it is not the case that they conflict
and only the first one needs an account that a bundle holds. -/
theorem not_overtakes_iff (bundles : BundleAccountLocks Key) (ta tb : Tx) :
    (∀ (G : PrioGraph TransactionPriorityId Key) (g : G.Graph)
      (container : TransactionStateContainer Tx) (common : SchedulingCommon Tx Key)
      (input : PassInput Tx Key), input.bundleAccountLocks = bundles →
        Ready container common g → Conflicts ta tb →
          ¬ Overtakes container (final (schedule input) (start container common g)) tb ta) ↔
      ¬ (Conflicts ta tb ∧ bundleLocked bundles ta = true ∧ bundleLocked bundles tb = false) := by
  constructor
  · rintro hall ⟨hconflict, hlocked, hfree⟩
    obtain ⟨hpopped, hsent⟩ := wp_final (wp_schedule_pair hlocked hfree)
    refine hall (graph _ Key) (graph _ Key).new (pairContainer ta tb)
      idleCommon
      (pairInput bundles) rfl (ready_pair ta tb) hconflict ?_
    refine ⟨0, 1, first, second, .unschedulableConflicts, none, Nat.one_pos, ?_, ?_, rfl, rfl, ?_⟩
    · rw [hpopped]
      rfl
    · rw [hpopped]
      rfl
    · rw [hsent]
      exact mem_singleton_self _
  · intro hno G g container common input hbundles hready hconflict hovertakes
    subst hbundles
    have hlog : LogInv container input.bundleAccountLocks
        (final (schedule input) (start container common g)) :=
      wp_final (wp_schedule hready.queued (hready.inv _))
    exact hno ⟨hconflict, hlog.bundleLocked_of_overtakes hready.queued hconflict hovertakes⟩

/-- A bundle holds account `0`. The transaction that writes accounts `0` and `1` is refused, and
then the one that writes account `1` is sent. -/
theorem bundle_overtaking :
    let bundles : BundleAccountLocks ℕ := ⟨∅, (∅ : OrdMap ℕ ℕ).insert 0 1⟩
    let container := pairContainer [(0, true), (1, true)] [(1, true)]
    let s := final (schedule (pairInput bundles))
      (start container idleCommon (graph TransactionPriorityId ℕ).new)
    Conflicts [((0 : ℕ), true), (1, true)] [(1, true)] ∧
      Ready container (idleCommon : SchedulingCommon (List (ℕ × Bool)) ℕ)
        (graph TransactionPriorityId ℕ).new ∧
      s.popped = [(first, some .unschedulableConflicts), (second, none)] ∧ s.sentIds = [1] := by
  refine ⟨⟨1, by decide, by decide, by decide⟩, ready_pair _ _, ?_⟩
  exact wp_final (wp_schedule_pair (by decide +kernel) (by decide +kernel))

end Pass
end FlowraValidator.BankingStage
