import FlowraValidator.UnifiedScheduler.UsageQueue

/-!
# The scheduling state machine

`SchedulingStateMachine` of `unified-scheduler-logic/src/lib.rs`, together with the memory its two
tokens own: the blocked-usage counters of all tasks and the usage queues of all addresses.

The second half of the file is the caller's side. A `Session` is a state machine with what its
caller knows: the accepted tasks that are not descheduled yet, in the order of their submission,
and the tasks that were handed out and are running.
-/

namespace FlowraValidator.UnifiedScheduler
open ShortCounter Relation Option

structure SchedulingStateMachine where
  unblockedTaskQueue : List Task
  activeTaskCount : ℕ
  peakActiveTaskCount : ℕ
  droppedTaskCount : ℕ
  maxUniqueActiveTaskCount : Option ℕ
  uniqueActiveTaskHashes : Finset TaskHash
  runningTaskCount : ℕ
  maxRunningTaskCount : ℕ
  handledTaskCount : ℕ
  unblockedTaskCount : ℕ
  totalTaskCount : ℕ
  /-- The memory of `count_token`. -/
  blockedUsageCounts : BlockedUsageCounts
  /-- The memory of `usage_queue_token`. -/
  usageQueues : Pubkey → UsageQueueInner

namespace SchedulingStateMachine
open UsageQueueInner (lockUsage unlockUsage)

/-- `exclusively_initialize_current_thread_for_scheduling`, with usage queues of one capability.
`None` for the number of running tasks means `u32::MAX`; a larger number does not convert. -/
def new (capability : Capability) (maxRunningTaskCount maxUniqueActiveTaskCount : Option ℕ) :
    Option SchedulingStateMachine :=
  if maxRunningTaskCount.getD (counterLimit - 1) < counterLimit then
    some
      { unblockedTaskQueue := []
        activeTaskCount := 0
        peakActiveTaskCount := 0
        droppedTaskCount := 0
        maxUniqueActiveTaskCount := maxUniqueActiveTaskCount
        uniqueActiveTaskHashes := ∅
        runningTaskCount := 0
        maxRunningTaskCount := maxRunningTaskCount.getD (counterLimit - 1)
        handledTaskCount := 0
        unblockedTaskCount := 0
        totalTaskCount := 0
        blockedUsageCounts := fun _ => 0
        usageQueues := fun _ => UsageQueueInner.new capability }
  else none

variable (s : SchedulingStateMachine) {task : Task} {count : ℕ}

def hasNoActiveTask : Bool := s.activeTaskCount = 0

def isTaskRunnable : Bool := s.runningTaskCount < s.maxRunningTaskCount

/-- One more blocked usage, unless it was granted. -/
def countBlocked (granted : Bool) (blocked : ℕ) : Option ℕ :=
  if granted then some blocked else increment blocked

/-- The loop of `try_lock_usage_queues` over the lock contexts: the queues, the counters, and the
number of contexts that have to wait. -/
def lockContexts (task : Task) : List LockContext → (Pubkey → UsageQueueInner) →
    BlockedUsageCounts → ℕ → Option ((Pubkey → UsageQueueInner) × BlockedUsageCounts × ℕ)
  | [], queues, counts, blocked => some (queues, counts, blocked)
  | c :: cs, queues, counts, blocked => do
    let (granted, q, counts) ← lockUsage (queues c.usageQueue) counts task c.requestedUsage
    let queues := Function.update queues c.usageQueue q
    let blocked ← countBlocked granted blocked
    lockContexts task cs queues counts blocked

/-- Lock every address of `task`; the flag says whether all of them were granted. -/
def tryLockUsageQueues (task : Task) :
    Option (Bool × SchedulingStateMachine) := do
  let (queues, counts, blocked) ←
    lockContexts task task.lockContexts s.usageQueues s.blockedUsageCounts 0
  if blocked = 0 then
    return (true, { s with usageQueues := queues, blockedUsageCounts := counts })
  else
    return (false, { s with
      usageQueues := queues
      blockedUsageCounts := Function.update counts task blocked })

/-- The loop of `unlock_usage_queues` over the lock contexts. -/
def unlockContexts (task : Task) : List LockContext → (Pubkey → UsageQueueInner) →
    BlockedUsageCounts → List Task →
    Option ((Pubkey → UsageQueueInner) × BlockedUsageCounts × List Task)
  | [], queues, counts, unblocked => some (queues, counts, unblocked)
  | c :: cs, queues, counts, unblocked => do
    let (q, counts, unblocked) ←
      unlockUsage (queues c.usageQueue) counts unblocked task c.requestedUsage
    unlockContexts task cs (Function.update queues c.usageQueue q) counts unblocked

def unlockUsageQueues (task : Task) :
    Option SchedulingStateMachine := do
  let (queues, counts, unblocked) ← unlockContexts task task.lockContexts s.usageQueues
    s.blockedUsageCounts s.unblockedTaskQueue
  return { s with
    usageQueues := queues
    blockedUsageCounts := counts
    unblockedTaskQueue := unblocked }

/-- A capped state machine drops a task when it is full, or when a task of the same message is
active. -/
def isDropped (task : Task) : Bool :=
  match s.maxUniqueActiveTaskCount with
  | none => false
  | some cap => cap ≤ s.uniqueActiveTaskHashes.card || task.hash ∈ s.uniqueActiveTaskHashes

/-- The part of `schedule_or_buffer_task` between accepting a task and locking its addresses. -/
def countAccepted (task : Task) : Option SchedulingStateMachine := do
  let active ← increment s.activeTaskCount
  return { s with
    uniqueActiveTaskHashes :=
      if s.maxUniqueActiveTaskCount.isSome then insert task.hash s.uniqueActiveTaskHashes
      else s.uniqueActiveTaskHashes
    activeTaskCount := active
    peakActiveTaskCount := max s.peakActiveTaskCount active }

/-- The part of `schedule_or_buffer_task` after all addresses of the task are locked. -/
def runOrBuffer (task : Task) (forceBuffering : Bool) :
    Option (Option Task × SchedulingStateMachine) :=
  if !s.isTaskRunnable || forceBuffering then do
    let unblocked ← increment s.unblockedTaskCount
    return (none, { s with
      unblockedTaskCount := unblocked
      unblockedTaskQueue := s.unblockedTaskQueue ++ [task] })
  else do
    let running ← increment s.runningTaskCount
    return (some task, { s with runningTaskCount := running })

/-- `schedule_or_buffer_task`: the task if it may run at once. -/
def scheduleOrBufferTask (task : Task) (forceBuffering : Bool) :
    Option (Option Task × SchedulingStateMachine) := do
  let total ← increment s.totalTaskCount
  let s := { s with totalTaskCount := total }
  if s.isDropped task then
    let dropped ← increment s.droppedTaskCount
    return (none, { s with droppedTaskCount := dropped })
  else
    let s ← s.countAccepted task
    let (locked, s) ← s.tryLockUsageQueues task
    if locked then s.runOrBuffer task forceBuffering else return (none, s)

def scheduleNextUnblockedTask :
    Option (Option Task × SchedulingStateMachine) :=
  if s.isTaskRunnable then
    match s.unblockedTaskQueue with
    | [] => some (none, s)
    | task :: rest => do
      let running ← increment s.runningTaskCount
      let unblocked ← increment s.unblockedTaskCount
      return (some task, { s with
        unblockedTaskQueue := rest
        runningTaskCount := running
        unblockedTaskCount := unblocked })
  else some (none, s)

/-- `unique_active_task_hashes` without a task; the assertion is that its hash was there. -/
def removeHash (task : Task) : Option (Finset TaskHash) :=
  if s.maxUniqueActiveTaskCount.isSome then
    if task.hash ∈ s.uniqueActiveTaskHashes then
      some (s.uniqueActiveTaskHashes.erase task.hash)
    else none
  else some s.uniqueActiveTaskHashes

/-- The part of `deschedule_task` before the usages are released. -/
def countDescheduled (task : Task) :
    Option SchedulingStateMachine := do
  let running ← decrement s.runningTaskCount
  let hashes ← s.removeHash task
  let active ← decrement s.activeTaskCount
  let handled ← increment s.handledTaskCount
  return { s with
    runningTaskCount := running
    uniqueActiveTaskHashes := hashes
    activeTaskCount := active
    handledTaskCount := handled }

def descheduleTask (task : Task) : Option SchedulingStateMachine := do
  let s ← s.countDescheduled task
  s.unlockUsageQueues task

/-- `reinitialize`: the assertions, then all statistics start again. -/
def reinitialize : Option SchedulingStateMachine :=
  if s.hasNoActiveTask ∧ s.uniqueActiveTaskHashes.card = 0 ∧ s.runningTaskCount = 0 ∧
      s.unblockedTaskQueue.length = 0 then
    some { s with
      activeTaskCount := 0
      peakActiveTaskCount := 0
      droppedTaskCount := 0
      handledTaskCount := 0
      unblockedTaskCount := 0
      totalTaskCount := 0 }
  else none

theorem activeTaskCount_scheduleNextUnblockedTask {s s' : SchedulingStateMachine}
    {returned : Option Task} (h : s.scheduleNextUnblockedTask = some (returned, s')) :
    s'.activeTaskCount = s.activeTaskCount := by
  unfold scheduleNextUnblockedTask at h
  split_ifs at h
  · split at h
    · simp only [some.injEq, Prod.mk.injEq] at h
      rw [h.2]
    · simp only [bind_eq_bind, bind_eq_some_iff, pure_def,
        some.injEq, Prod.mk.injEq] at h
      obtain ⟨_, _, _, _, _, rfl⟩ := h
      rfl
  · simp only [some.injEq, Prod.mk.injEq] at h
    rw [h.2]

theorem activeTaskCount_descheduleTask {s s' : SchedulingStateMachine}
    (h : s.descheduleTask task = some s') : s.activeTaskCount = s'.activeTaskCount + 1 := by
  simp only [descheduleTask, countDescheduled, unlockUsageQueues, bind_eq_bind,
    bind_eq_some_iff, pure_def, some.injEq, Prod.exists] at h
  obtain ⟨s₁, ⟨_, _, _, _, active, hactive, _, _, rfl⟩, _, _, _, _, rfl⟩ := h
  exact decrement_eq_some_iff.mp hactive

/-- The loop of `clear_and_reinitialize`: hand out and deschedule until no task is handed out, and
count the tasks. Every round deschedules an active task. -/
def clear (s : SchedulingStateMachine) (count : ℕ) : Option (ℕ × SchedulingStateMachine) :=
  match _hnext : s.scheduleNextUnblockedTask with
  | none => none
  | some (none, s₁) => some (count, s₁)
  | some (some task, s₁) =>
    match _hdesch : s₁.descheduleTask task with
    | none => none
    | some s₂ =>
      match increment count with
      | none => none
      | some count => clear s₂ count
termination_by s.activeTaskCount
decreasing_by
  have h₁ := activeTaskCount_scheduleNextUnblockedTask _hnext
  have h₂ := activeTaskCount_descheduleTask _hdesch
  omega

/-- One round of the loop. -/
theorem clear_eq (s : SchedulingStateMachine) (count : ℕ) :
    s.clear count = s.scheduleNextUnblockedTask.bind fun r =>
      r.1.elim (some (count, r.2)) fun task =>
        (r.2.descheduleTask task).bind fun s => (increment count).bind s.clear := by
  rw [clear]
  split <;> rename_i hnext <;> rw [hnext]
  · rfl
  · rfl
  · dsimp only [bind_some, elim_some]
    split <;> rename_i hdesch <;> rw [hdesch]
    · rfl
    · cases increment count <;> rfl

/-- `clear_and_reinitialize`: the number of cleared tasks. -/
def clearAndReinitialize : Option (ℕ × SchedulingStateMachine) := do
  let (count, s) ← s.clear 0
  let s ← s.reinitialize
  return (count, s)

end SchedulingStateMachine

/-! ## The caller -/

/-- A state machine together with what its caller knows. -/
structure Session where
  machine : SchedulingStateMachine
  /-- The accepted tasks that are not descheduled, in the order of their submission. -/
  active : List Task
  /-- The tasks that were returned to the caller and are not descheduled. -/
  running : List Task

inductive Call where
  | scheduleOrBufferTask (task : Task) (forceBuffering : Bool)
  | scheduleNextUnblockedTask
  | descheduleTask (task : Task)
  deriving DecidableEq

namespace Session

/-- The tasks that are running or wait in `unblocked_task_queue` for being handed out. -/
def runnable (w : Session) : List Task := w.running ++ w.machine.unblockedTaskQueue

/-- One call on the state machine: what it returns, and the session afterwards. -/
def call (w : Session) : Call → Option (Option Task × Session)
  | .scheduleOrBufferTask task forceBuffering => do
    let (returned, machine) ← w.machine.scheduleOrBufferTask task forceBuffering
    return (returned,
      { machine
        active := if w.machine.isDropped task then w.active else w.active ++ [task]
        running := w.running ++ returned.toList })
  | .scheduleNextUnblockedTask => do
    let (returned, machine) ← w.machine.scheduleNextUnblockedTask
    return (returned, { w with machine, running := w.running ++ returned.toList })
  | .descheduleTask task => do
    let machine ← w.machine.descheduleTask task
    return (none, { machine, active := w.active.erase task, running := w.running.erase task })

/-- What the caller has to respect: a submitted task object is not active already and lists no
address twice, and only running tasks are descheduled. -/
def Permits (w : Session) : Call → Prop
  | .scheduleOrBufferTask task _ => task ∉ w.active ∧ task.addresses.Nodup
  | .scheduleNextUnblockedTask => True
  | .descheduleTask task => task ∈ w.running

/-- Active tasks have distinct ids. -/
def PermitsId (w : Session) : Call → Prop
  | .scheduleOrBufferTask task _ => ∀ t ∈ w.active, t.taskId ≠ task.taskId
  | _ => True

instance (w : Session) : (c : Call) → Decidable (w.Permits c)
  | .scheduleOrBufferTask task _ =>
    inferInstanceAs (Decidable (task ∉ w.active ∧ task.addresses.Nodup))
  | .scheduleNextUnblockedTask => inferInstanceAs (Decidable True)
  | .descheduleTask task => inferInstanceAs (Decidable (task ∈ w.running))

instance (w : Session) : (c : Call) → Decidable (w.PermitsId c)
  | .scheduleOrBufferTask task _ =>
    inferInstanceAs (Decidable (∀ t ∈ w.active, t.taskId ≠ task.taskId))
  | .scheduleNextUnblockedTask => inferInstanceAs (Decidable True)
  | .descheduleTask _ => inferInstanceAs (Decidable True)

open SchedulingStateMachine

/-- The session right after the state machine was created. -/
def Initial (capability : Capability) (w : Session) : Prop :=
  (∃ maxRunning maxUnique,
    new capability maxRunning maxUnique = some w.machine) ∧
    w.active = [] ∧ w.running = []

/-- One permitted call that does not panic. -/
def Step (w w' : Session) : Prop := ∃ c r, w.Permits c ∧ w.call c = some (r, w')

/-- One permitted call that keeps the ids of the active tasks distinct. -/
def IdStep (w w' : Session) : Prop := ∃ c r, w.Permits c ∧ w.PermitsId c ∧ w.call c = some (r, w')

/-- The sessions a permitted sequence of calls leads to. -/
def Reachable (capability : Capability) (w : Session) : Prop :=
  ∃ w₀, Initial capability w₀ ∧ ReflTransGen Step w₀ w

/-- The sessions reached while active tasks have distinct ids. -/
def IdReachable (capability : Capability) (w : Session) : Prop :=
  ∃ w₀, Initial capability w₀ ∧ ReflTransGen IdStep w₀ w

variable {capability : Capability} {w : Session}

theorem IdReachable.reachable (h : IdReachable capability w) : Reachable capability w := by
  obtain ⟨w₀, hinit, hrun⟩ := h
  refine ⟨w₀, hinit, ?_⟩
  induction hrun with
  | refl => exact ReflTransGen.refl
  | tail _ hs ih =>
    obtain ⟨c, r, hp, -, hcall⟩ := hs
    exact ih.tail ⟨c, r, hp, hcall⟩

/-- Make calls one after the other, as long as they are permitted and do not panic. -/
def perform (w : Session) : List Call → Option Session
  | [] => some w
  | c :: cs => if w.Permits c ∧ w.PermitsId c then (w.call c).bind fun x => x.2.perform cs else none

/-- Create a state machine and make calls. -/
def run (capability : Capability) (maxRunning maxUnique : Option ℕ) (cs : List Call) :
    Option Session :=
  (new capability maxRunning maxUnique).bind fun machine =>
    perform { machine := machine, active := [], running := [] } cs

variable {cs : List Call}

theorem reflTransGen_of_perform {w' : Session} (h : w.perform cs = some w') :
    ReflTransGen IdStep w w' := by
  induction cs generalizing w with
  | nil =>
    rw [perform, some_inj] at h
    rw [h]
  | cons c cs ih =>
    rw [perform] at h
    split_ifs at h with hp
    obtain ⟨⟨r, w1⟩, hcall, hrest⟩ := bind_eq_some_iff.mp h
    exact ReflTransGen.head ⟨c, r, hp.1, hp.2, hcall⟩ (ih hrest)

theorem idReachable_of_run {maxRunning maxUnique : Option ℕ}
    (h : run capability maxRunning maxUnique cs = some w) :
    IdReachable capability w := by
  obtain ⟨machine, hnew, hrun⟩ := bind_eq_some_iff.mp h
  exact ⟨_, ⟨⟨maxRunning, maxUnique, hnew⟩, rfl, rfl⟩, reflTransGen_of_perform hrun⟩

end Session
end FlowraValidator.UnifiedScheduler
