import FlowraValidator.Lib.KeyedList
import FlowraValidator.UnifiedScheduler.Task

/-!
# Usage queues

`UsageQueueInner` of `unified-scheduler-logic/src/lib.rs`: who uses an address now, and who waits
for it. A fifo queue only counts its current readers and keeps waiting tasks in arrival order; a
priority queue knows its current tasks and keeps waiting tasks in `task_id` order, because a new
task may take a usage away from a task that holds it without running yet (reblocking).

The two `BTreeMap`s of a priority queue are keyed by the `task_id` of the task in the entry, so
they are `KeyedList`s. Functions return `none` where the source panics; the flag in a lock result
is `true` for `Ok(())`.
-/

namespace FlowraValidator.UnifiedScheduler

open KeyedList

/-- `Capability`: the kind of queueing. -/
inductive Capability where
  | fifoQueueing
  | priorityQueueing
  deriving DecidableEq

/-- A task together with the usage it asks for. -/
abbrev UsageFromTask := RequestedUsage × Task

/-- The key under which a priority queue stores an entry. -/
abbrev UsageFromTask.key (e : UsageFromTask) : ℕ := e.2.taskId

/-- How an address is used currently. -/
inductive Usage (R W : Type) where
  | readonly (r : R)
  | writable (w : W)

namespace Usage
variable {R W : Type}

def requestedUsage : Usage R W → RequestedUsage
  | .readonly _ => .readonly
  | .writable _ => .writable

/-- `FifoUsage::from`. -/
def fifoFrom : RequestedUsage → Usage ℕ Unit
  | .readonly => .readonly 1
  | .writable => .writable ()

/-- `PriorityUsage::from`. -/
def priorityFrom (task : Task) : RequestedUsage → Usage (List Task) Task
  | .readonly => .readonly [task]
  | .writable => .writable task

end Usage

inductive UsageQueueInner where
  | fifo (currentUsage : Option (Usage ℕ Unit)) (blockedUsagesFromTasks : List UsageFromTask)
  | priority (currentUsage : Option (Usage (List Task) Task))
      (blockedUsagesFromTasks : List UsageFromTask)

namespace UsageQueueInner

def new : Capability → UsageQueueInner
  | .fifoQueueing => .fifo none []
  | .priorityQueueing => .priority none []

def currentUsage : UsageQueueInner → Option RequestedUsage
  | .fifo cur _ => cur.map Usage.requestedUsage
  | .priority cur _ => cur.map Usage.requestedUsage

/-- `blocked_usages_from_tasks` of either kind of queue, in the order in which it is popped. -/
def blocked : UsageQueueInner → List UsageFromTask
  | .fifo _ b => b
  | .priority _ b => b

variable (q : UsageQueueInner)

def tryLock (newTask : Task) (requested : RequestedUsage) :
    Option (Bool × UsageQueueInner) :=
  match q with
  | .fifo none b => some (true, .fifo (some (Usage.fifoFrom requested)) b)
  | .fifo (some (.readonly count)) b =>
    match requested with
    | .readonly => do
      let count ← ShortCounter.increment count
      return (true, .fifo (some (.readonly count)) b)
    | .writable => some (false, q)
  | .fifo (some (.writable ())) _ => some (false, q)
  | .priority none b => some (true, .priority (some (Usage.priorityFrom newTask requested)) b)
  | .priority (some (.readonly tasks)) b =>
    match requested with
    | .readonly => do
      let tasks ← insertNew Task.taskId newTask tasks
      return (true, .priority (some (.readonly tasks)) b)
    | .writable => some (false, q)
  | .priority (some (.writable _)) _ => some (false, q)

/-- Both kinds of queue pop their first waiting entry. -/
def pop : UsageQueueInner → Option UsageFromTask × UsageQueueInner
  | .fifo cur b => (b.head?, .fifo cur b.tail)
  | .priority cur b => (b.head?, .priority cur b.tail)

def push (e : UsageFromTask) : Option UsageQueueInner :=
  match q with
  | .fifo cur b => some (.fifo cur (b ++ [e]))
  | .priority cur b => (insertNew UsageFromTask.key e b).map (.priority cur)

def peekBlocked : Option UsageFromTask := q.blocked.head?

/-- Release a usage. The first waiting entry is returned when the address has become free. -/
def unlock (task : Task) (requested : RequestedUsage) :
    Option (Option UsageFromTask × UsageQueueInner) :=
  match q, requested with
  | .fifo (some (.readonly count)) b, .readonly =>
    if count = 1 then some (pop (.fifo none b))
    else do
      let count ← ShortCounter.decrement count
      return (none, .fifo (some (.readonly count)) b)
  | .fifo (some (.writable ())) b, .writable => some (pop (.fifo none b))
  | .priority (some (.readonly tasks)) b, .readonly => do
    let tasks ← removeKey Task.taskId task.taskId tasks
    if tasks.isEmpty then return pop (.priority none b)
    else return (none, .priority (some (.readonly tasks)) b)
  | .priority (some (.writable _)) b, .writable => some (pop (.priority none b))
  | _, _ => none

def pushBlocked (e : UsageFromTask) : Option UsageQueueInner :=
  if q.currentUsage.isSome then q.push e else none

/-- Pop the first waiting entry if it reads; the assertion is that the address is being read. -/
def popLockableReadonly : Option (Option UsageFromTask × UsageQueueInner) :=
  match q.peekBlocked with
  | some (.readonly, _) => if q.currentUsage = some .readonly then some q.pop else none
  | _ => some (none, q)

/-- `current_tasks.extract_if(new_task.task_id().., |_, task| task.try_reblock(token))`: the tasks
that stay, the tasks that are taken out, and the counters afterwards. -/
def extractReblocked (newTaskId : ℕ) :
    List Task → BlockedUsageCounts → Option (List Task × List Task × BlockedUsageCounts)
  | [], counts => some ([], [], counts)
  | t :: ts, counts =>
    if t.taskId < newTaskId then do
      let (kept, out, counts) ← extractReblocked newTaskId ts counts
      return (t :: kept, out, counts)
    else do
      let (reblocked, counts) ← t.tryReblock counts
      let (kept, out, counts) ← extractReblocked newTaskId ts counts
      if reblocked then return (kept, t :: out, counts) else return (t :: kept, out, counts)

/-- The entries of reblocked readers go back to the waiting ones. -/
def insertReblocked : List Task → List UsageFromTask → Option (List UsageFromTask)
  | [], b => some b
  | t :: ts, b => do
    let b ← insertNew UsageFromTask.key (.readonly, t) b
    insertReblocked ts b

/-- Whether `newTask` may lock at all. In a priority queue this is where usages are taken back
from tasks of lower priority that hold them and are still blocked elsewhere. -/
def prepareLock (counts : BlockedUsageCounts) (newTask : Task) (requested : RequestedUsage) :
    Option (Bool × UsageQueueInner × BlockedUsageCounts) :=
  match q with
  | .fifo _ b => some (b.isEmpty, q, counts)
  | .priority none b => if b.isEmpty then some (true, q, counts) else none
  | .priority (some (.writable currentTask)) b => do
    let higher ← newTask.isHigherPriority currentTask
    if higher then
      let (reblocked, counts) ← currentTask.tryReblock counts
      if reblocked then
        let b ← insertNew UsageFromTask.key (.writable, currentTask) b
        return (true, .priority none b, counts)
      else return (false, q, counts)
    else return (false, q, counts)
  | .priority (some (.readonly currentTasks)) b =>
    match requested with
    | .readonly =>
      match b with
      | [] => some (true, q, counts)
      | (peekedUsage, peekedTask) :: _ =>
        -- the highest-priority waiting entry behind readers has to be a writer
        if peekedUsage = .writable then do
          let higher ← newTask.isHigherPriority peekedTask
          return (higher, q, counts)
        else none
    | .writable => do
      let (kept, out, counts) ← extractReblocked newTask.taskId currentTasks counts
      let b ← insertReblocked out b
      if kept.isEmpty then return (true, .priority none b, counts)
      else return (false, .priority (some (.readonly kept)) b, counts)

/-- The body of the loop of `try_lock_usage_queues` for one address: prepare, try to lock, and
wait otherwise. The flag says whether the usage was granted. -/
def lockUsage (counts : BlockedUsageCounts) (task : Task) (requested : RequestedUsage) :
    Option (Bool × UsageQueueInner × BlockedUsageCounts) := do
  let (prepared, q, counts) ← q.prepareLock counts task requested
  let (locked, q) ← if prepared then q.tryLock task requested else some (false, q)
  if locked then return (true, q, counts)
  else
    let q ← q.pushBlocked (requested, task)
    return (false, q, counts)

/-- The `while let` loop of `unlock_usage_queues` for one address: hand the address to the entry
that was popped, and go on with further readers. Tasks with no blocked usage left are appended to
`unblocked`. Every round but the last pops an entry, so `fuel` above the number of waiting
entries is never used up. -/
def relock : ℕ → UsageQueueInner → BlockedUsageCounts → List Task → Option UsageFromTask →
    Option (UsageQueueInner × BlockedUsageCounts × List Task)
  | _, q, counts, unblocked, none => some (q, counts, unblocked)
  | 0, _, _, _, some _ => none
  | fuel + 1, q, counts, unblocked, some (lockableUsage, lockableTask) => do
    let (locked, q) ← q.tryLock lockableTask lockableUsage
    if locked then
      let (didUnblock, counts) ← lockableTask.tryUnblock counts
      let unblocked := if didUnblock then unblocked ++ [lockableTask] else unblocked
      match lockableUsage with
      | .readonly =>
        let (newlyLockable, q) ← q.popLockableReadonly
        relock fuel q counts unblocked newlyLockable
      | .writable => return (q, counts, unblocked)
    else none

/-- The body of the loop of `unlock_usage_queues` for one address. -/
def unlockUsage (counts : BlockedUsageCounts) (unblocked : List Task) (task : Task)
    (requested : RequestedUsage) :
    Option (UsageQueueInner × BlockedUsageCounts × List Task) := do
  let (newlyLockable, q) ← q.unlock task requested
  relock (q.blocked.length + 1) q counts unblocked newlyLockable

end UsageQueueInner
end FlowraValidator.UnifiedScheduler
