import FlowraValidator.Lib.OrdMap

/-!
# Account locks that know the thread

A worker thread may be given several transactions on one account: they run one after another.
The scheduler therefore locks accounts for a *thread*, and counts the locks. An account is
written by at most one thread at a time; if it is written, nobody else reads it.

A thread set is a word with one bit for each thread; `t ∈ s` says that the bit of `t` is set.

* `ThreadSet.mem_only_iff`: the set of one thread.
* `ThreadSet.onlyOneContained_iff`: when the set has exactly one thread.
* `ThreadAwareAccountLocks`: the locks, and the functions that take them. Where the
  source asserts or indexes out of bounds, the functions have no value.
-/

namespace FlowraValidator.BankingStage
open Finset

/-- Identifier for a thread. -/
abbrev ThreadId := ℕ

def maxThreads : ℕ := 64

/-- A bit-set of threads an account is scheduled or can be scheduled for. -/
structure ThreadSet where
  bits : BitVec maxThreads
  deriving DecidableEq

namespace ThreadSet

def none : ThreadSet := ⟨0⟩

def asFlag (threadId : ThreadId) : BitVec maxThreads := BitVec.ofNat maxThreads 1 <<< threadId

def any (numThreads : ℕ) : ThreadSet :=
  if numThreads = maxThreads then
    ⟨BitVec.allOnes maxThreads⟩
  else
    ⟨asFlag numThreads - 1⟩

def only (threadId : ThreadId) : ThreadSet := ⟨asFlag threadId⟩

def numThreads (s : ThreadSet) : ℕ := s.bits.cpop.toNat

def onlyOneContained (s : ThreadSet) : Option ThreadId :=
  if s.numThreads = 1 then some s.bits.ctz.toNat else Option.none

def isEmpty (s : ThreadSet) : Bool := s == none

def insert (s : ThreadSet) (threadId : ThreadId) : ThreadSet := ⟨s.bits ||| asFlag threadId⟩

def remove (s : ThreadSet) (threadId : ThreadId) : ThreadSet := ⟨s.bits &&& ~~~ asFlag threadId⟩

def bitand (s u : ThreadSet) : ThreadSet := ⟨s.bits &&& u.bits⟩

/-- One step of the iterator over the threads: the lowest set bit, which is then cleared. -/
def next (s : ThreadSet) : Option (ThreadId × ThreadSet) :=
  if s.bits = 0 then Option.none else some (s.bits.ctz.toNat, ⟨s.bits &&& (s.bits - 1)⟩)

/-- The threads the iterator yields; it ends after at most one step for each bit. -/
def containedThreads : ℕ → ThreadSet → List ThreadId
  | 0, _ => []
  | fuel + 1, s =>
    match s.next with
    | Option.none => []
    | some (threadId, rest) => threadId :: containedThreads fuel rest

def containedThreadsIter (s : ThreadSet) : List ThreadId := s.containedThreads maxThreads

/-! ### Thread sets as sets -/

instance : Membership ThreadId ThreadSet where
  mem s threadId := s.bits.getLsbD threadId = true

variable {s : ThreadSet} {t : ThreadId}

theorem mem_iff : t ∈ s ↔ s.bits.getLsbD t = true := Iff.rfl

theorem lt_of_mem (h : t ∈ s) : t < maxThreads := BitVec.lt_of_getLsbD h

theorem ext_mem {u : ThreadSet} (h : ∀ t, t ∈ s ↔ t ∈ u) : s = u := by
  cases s
  cases u
  congr 1
  refine BitVec.eq_of_getLsbD_eq fun i _ => ?_
  exact Bool.eq_iff_iff.mpr (h i)

theorem getLsbD_asFlag (t u : ℕ) :
    (asFlag t).getLsbD u = (decide (u < maxThreads) && decide (u = t)) := by
  rw [asFlag, BitVec.getLsbD_shiftLeft, BitVec.getLsbD_one]
  by_cases hu : u < maxThreads
  · by_cases hut : u = t
    · subst hut
      simp [maxThreads]
    · by_cases hlt : u < t
      · simp [hlt, hut]
      · have : u - t ≠ 0 := by omega
        simp [hut, this]
  · simp [hu]

theorem mem_only_iff {u : ThreadId} : u ∈ only t ↔ u = t ∧ u < maxThreads := by
  rw [mem_iff, only, getLsbD_asFlag, Bool.and_eq_true, decide_eq_true_iff, decide_eq_true_iff,
    and_comm]

theorem cpopNatRec_eq_card (b : BitVec maxThreads) (n : ℕ) :
    b.cpopNatRec n 0 = ((range n).filter fun t => b.getLsbD t = true).card := by
  induction n with
  | zero => rfl
  | succ n ih =>
    rw [BitVec.cpopNatRec_succ, BitVec.cpopNatRec_eq, ih, range_add_one,
      filter_insert]
    cases hbit : b.getLsbD n with
    | true =>
      rw [if_pos rfl, card_insert_of_notMem (by simp)]
      rfl
    | false => simp

/-- A set has exactly one thread iff it is the set of that thread only. -/
theorem onlyOneContained_iff : s.onlyOneContained = some t ↔ s = only t ∧ t < maxThreads := by
  have hcount : s.numThreads =
      ((range maxThreads).filter fun t => s.bits.getLsbD t = true).card := by
    rw [numThreads, BitVec.toNat_cpop, cpopNatRec_eq_card]
  have hne {u : ThreadId} (hu : u ∈ s) : s.bits.ctz.toNat ∈ s := by
    refine BitVec.getLsbD_true_ctz_of_ne_zero fun hzero => ?_
    rw [mem_iff, hzero] at hu
    simp at hu
  have hone : s.numThreads = 1 ↔ ∃ u, s = only u ∧ u < maxThreads := by
    rw [hcount, card_eq_one]
    constructor
    · rintro ⟨u, hu⟩
      have hmem (v : ThreadId) : v ∈ s ↔ v = u := by
        have h := Finset.ext_iff.mp hu v
        rw [Finset.mem_filter, Finset.mem_range, Finset.mem_singleton] at h
        exact ⟨fun hv => h.mp ⟨lt_of_mem hv, hv⟩, fun hv => (h.mpr hv).2⟩
      have hlt := lt_of_mem ((hmem u).mpr rfl)
      refine ⟨u, ext_mem fun v => ?_, hlt⟩
      rw [hmem, mem_only_iff]
      exact ⟨fun h => ⟨h, h ▸ hlt⟩, fun h => h.1⟩
    · rintro ⟨u, rfl, hlt⟩
      refine ⟨u, ext fun v => ?_⟩
      rw [Finset.mem_filter, Finset.mem_range, Finset.mem_singleton, ← mem_iff, mem_only_iff]
      exact ⟨fun h => h.2.1, fun h => ⟨h ▸ hlt, h, h ▸ hlt⟩⟩
  rw [onlyOneContained]
  split
  · rename_i h
    obtain ⟨u, rfl, hlt⟩ := hone.mp h
    have hctz := (mem_only_iff.mp (hne (mem_only_iff.mpr ⟨rfl, hlt⟩))).1
    rw [hctz, Option.some_inj]
    constructor
    · rintro rfl
      exact ⟨rfl, hlt⟩
    · rintro ⟨heq, -⟩
      have hu := mem_only_iff.mpr ⟨rfl, hlt⟩
      rw [heq] at hu
      exact (mem_only_iff.mp hu).1
  · rename_i h
    exact ⟨fun hn => absurd hn (by simp), fun hs => absurd (hone.mpr ⟨t, hs⟩) h⟩

end ThreadSet

/-! ## The locks of one account -/

structure AccountWriteLocks where
  threadId : ThreadId
  lockCount : ℕ

structure AccountReadLocks where
  threadSet : ThreadSet
  lockCounts : List ℕ

/-- Only one thread can hold write locks at a time, and it may hold several; multiple threads can
hold read locks. -/
structure AccountLocks where
  writeLocks : Option AccountWriteLocks
  readLocks : Option AccountReadLocks

instance : Inhabited AccountLocks := ⟨none, none⟩

/-- `try_lock_accounts` may fail for different reasons. -/
inductive TryLockError where
  /-- Outstanding conflicts with multiple threads. -/
  | multipleConflicts
  /-- Outstanding conflict (if any) not in `allowed_threads`. -/
  | threadNotAllowed

/-- Lock counts are words of 32 bits. -/
def lockCountMod : ℕ := 2 ^ 32

namespace AccountLocks

/-- Locks the account for writing. -/
def writeLock (locks : AccountLocks) (threadId : ThreadId) : Option AccountLocks := do
  if let some readLocks := locks.readLocks then
    guard (readLocks.threadSet.onlyOneContained = some threadId)
  match locks.writeLocks with
  | some writeLocks =>
    guard (writeLocks.threadId = threadId)
    let lockCount := (writeLocks.lockCount + 1) % lockCountMod
    some { locks with writeLocks := some { writeLocks with lockCount := lockCount } }
  | none => some { locks with writeLocks := some { threadId := threadId, lockCount := 1 } }

/-- Locks the account for reading. -/
def readLock (locks : AccountLocks) (threadId : ThreadId) : Option AccountLocks := do
  if let some writeLocks := locks.writeLocks then
    guard (writeLocks.threadId = threadId)
  match locks.readLocks with
  | some readLocks =>
    let lockCount ← readLocks.lockCounts[threadId]?
    some { locks with readLocks := some {
      threadSet := readLocks.threadSet.insert threadId
      lockCounts := readLocks.lockCounts.set threadId ((lockCount + 1) % lockCountMod) } }
  | none =>
    guard (threadId < maxThreads)
    some { locks with readLocks := some {
      threadSet := ThreadSet.only threadId
      lockCounts := (List.replicate maxThreads 0).set threadId 1 } }

/-- The threads the account can be scheduled on, for a writer or for a reader. -/
def schedulableThreads (numThreads : ℕ) (write : Bool) : Option AccountLocks → Option ThreadSet
  | none => some (ThreadSet.any numThreads)
  | some { writeLocks := none, readLocks := some readLocks } =>
    if write then
      some ((readLocks.threadSet.onlyOneContained.map ThreadSet.only).getD ThreadSet.none)
    else
      some (ThreadSet.any numThreads)
  | some { writeLocks := some writeLocks, readLocks := none } =>
    some (ThreadSet.only writeLocks.threadId)
  | some { writeLocks := some writeLocks, readLocks := some readLocks } => do
    guard (readLocks.threadSet.onlyOneContained = some writeLocks.threadId)
    some readLocks.threadSet
  | some { writeLocks := none, readLocks := none } => none

end AccountLocks

/-! ## The locks of all accounts -/

/-- Thread-aware account locks, which allow for scheduling on threads that already hold locks on
the account. -/
structure ThreadAwareAccountLocks (Key : Type) [LinearOrder Key] where
  numThreads : ℕ
  locks : OrdMap Key AccountLocks

namespace ThreadAwareAccountLocks
variable {Key : Type} [LinearOrder Key]

/-- Restricts the threads by one account after the other, and stops when none is left. -/
def restrict (threads : Key → Option ThreadSet) :
    List Key → ThreadSet → Option (Option ThreadSet)
  | [], schedulable => some (some schedulable)
  | account :: accounts, schedulable => do
    let schedulable := schedulable.bitand (← threads account)
    if schedulable.isEmpty then some none else restrict threads accounts schedulable

variable (l : ThreadAwareAccountLocks Key)

def writeSchedulableThreads (account : Key) :
    Option ThreadSet :=
  AccountLocks.schedulableThreads l.numThreads true l.locks[account]?

def readSchedulableThreads (account : Key) :
    Option ThreadSet :=
  AccountLocks.schedulableThreads l.numThreads false l.locks[account]?

/-- The threads that the given accounts can be scheduled on; an inner `none` says that there are
none. -/
def accountsSchedulableThreads (writeAccountLocks readAccountLocks : List Key) :
    Option (Option ThreadSet) := do
  match ← restrict l.writeSchedulableThreads writeAccountLocks (ThreadSet.any l.numThreads) with
  | none => some none
  | some schedulable => restrict l.readSchedulableThreads readAccountLocks schedulable

def writeLockAccount (threadId : ThreadId) (l : ThreadAwareAccountLocks Key) (account : Key) :
    Option (ThreadAwareAccountLocks Key) := do
  let locks ← (l.locks[account]?.getD default).writeLock threadId
  some { l with locks := l.locks.insert account locks }

def readLockAccount (threadId : ThreadId) (l : ThreadAwareAccountLocks Key) (account : Key) :
    Option (ThreadAwareAccountLocks Key) := do
  let locks ← (l.locks[account]?.getD default).readLock threadId
  some { l with locks := l.locks.insert account locks }

/-- Add locks for all writable and readable accounts on the thread. -/
def lockAccounts (writeAccountLocks readAccountLocks : List Key) (threadId : ThreadId) :
    Option (ThreadAwareAccountLocks Key) := do
  guard (threadId < l.numThreads)
  let l ← writeAccountLocks.foldlM (writeLockAccount threadId) l
  readAccountLocks.foldlM (readLockAccount threadId) l

/-- If the accounts are schedulable on an allowed thread, they are locked for the thread that the
selector picks. -/
def tryLockAccounts (writeAccountLocks readAccountLocks : List Key) (allowedThreads : ThreadSet)
    (threadSelector : ThreadSet → Option ThreadId) :
    Option (Except TryLockError (ThreadId × ThreadAwareAccountLocks Key)) := do
  match ← l.accountsSchedulableThreads writeAccountLocks readAccountLocks with
  | none => some (.error .multipleConflicts)
  | some schedulableThreads =>
    let schedulableThreads := schedulableThreads.bitand allowedThreads
    if schedulableThreads.isEmpty then
      some (.error .threadNotAllowed)
    else
      let threadId ← threadSelector schedulableThreads
      let l ← l.lockAccounts writeAccountLocks readAccountLocks threadId
      some (.ok (threadId, l))

end ThreadAwareAccountLocks
end FlowraValidator.BankingStage
