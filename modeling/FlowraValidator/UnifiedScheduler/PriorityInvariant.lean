import FlowraValidator.UnifiedScheduler.LockTable

/-!
# The invariant of a session with priority queues

What holds between any two calls on a state machine whose usage queues are all of the priority
kind, as long as its caller respects the rules: the lock table is consistent with the active tasks,
the runnable tasks are exactly the active tasks without a blocked usage, and the statistics agree
with the lists of tasks.

* `Session.Invariant`: the invariant.
* `Session.Invariant.idStep`: one permitted call preserves it. It also says that, in the state
  after the call, every holder that was not runnable before the call goes before everything that
  waits for the address.
* `Session.IdReachable.invariant`: the invariant holds in every run.
-/

namespace FlowraValidator.UnifiedScheduler
open ShortCounter Function List Option SchedulingStateMachine UnifiedScheduler.Task

/-! ## What the parts of a call do -/

variable {force : Bool} {returned : Option Task}

namespace SchedulingStateMachine
variable {s s' : SchedulingStateMachine} {task : Task}

theorem countAccepted_eq_some_iff :
    s.countAccepted task = some s' ↔ s.activeTaskCount + 1 < counterLimit ∧
      s' = { s with
        uniqueActiveTaskHashes :=
          if s.maxUniqueActiveTaskCount.isSome then insert task.hash s.uniqueActiveTaskHashes
          else s.uniqueActiveTaskHashes
        activeTaskCount := s.activeTaskCount + 1
        peakActiveTaskCount := max s.peakActiveTaskCount (s.activeTaskCount + 1) } := by
  simp only [countAccepted, bind_eq_bind, bind_eq_some_iff, Option.pure_def,
    some.injEq, increment_eq_some_iff]
  constructor
  · rintro ⟨_, ⟨rfl, hlt⟩, rfl⟩
    exact ⟨hlt, rfl⟩
  · rintro ⟨hlt, rfl⟩
    exact ⟨_, ⟨rfl, hlt⟩, rfl⟩

/-- Locking all addresses of a task: the loop, and the counter it stores for the task. -/
theorem tryLockUsageQueues_eq_some {locked : Bool}
    (h : s.tryLockUsageQueues task = some (locked, s')) :
    ∃ queues counts blocked,
      lockContexts task task.lockContexts s.usageQueues s.blockedUsageCounts 0 =
        some (queues, counts, blocked) ∧ locked = decide (blocked = 0) ∧
      s' = { s with
        usageQueues := queues
        blockedUsageCounts := if blocked = 0 then counts else update counts task blocked }
      := by
  simp only [tryLockUsageQueues, bind_eq_bind, bind_eq_some_iff, Prod.exists] at h
  obtain ⟨queues, counts, blocked, hl, h⟩ := h
  refine ⟨queues, counts, blocked, hl, ?_⟩
  by_cases hb : blocked = 0
  · rw [if_pos hb, Option.pure_def, some.injEq, Prod.mk.injEq] at h
    simp [hb, ← h.1, ← h.2]
  · rw [if_neg hb, Option.pure_def, some.injEq, Prod.mk.injEq] at h
    simp [hb, ← h.1, ← h.2]

/-- A task that holds all its addresses runs at once or is queued. -/
theorem runOrBuffer_cases (h : s.runOrBuffer task force = some (returned, s')) :
    (returned = none ∧ s.unblockedTaskCount + 1 < counterLimit ∧
      s' = { s with
        unblockedTaskCount := s.unblockedTaskCount + 1
        unblockedTaskQueue := s.unblockedTaskQueue ++ [task] }) ∨
    (returned = some task ∧ s.runningTaskCount < s.maxRunningTaskCount ∧
      s' = { s with runningTaskCount := s.runningTaskCount + 1 }) := by
  unfold runOrBuffer at h
  split_ifs at h with hc
  · simp only [bind_eq_bind, bind_eq_some_iff, Option.pure_def, some.injEq,
      Prod.mk.injEq, increment_eq_some_iff] at h
    obtain ⟨_, ⟨rfl, hlt⟩, rfl, rfl⟩ := h
    exact .inl ⟨rfl, hlt, rfl⟩
  · simp only [bind_eq_bind, bind_eq_some_iff, Option.pure_def, some.injEq,
      Prod.mk.injEq, increment_eq_some_iff] at h
    obtain ⟨_, ⟨rfl, _⟩, rfl, rfl⟩ := h
    refine .inr ⟨rfl, ?_, rfl⟩
    rw [Bool.or_eq_true, not_or, Bool.not_eq_true', Bool.not_eq_false] at hc
    simpa [isTaskRunnable] using hc.1

theorem scheduleNextUnblockedTask_cases (h : s.scheduleNextUnblockedTask = some (returned, s')) :
    (returned = none ∧ s' = s) ∨
    ∃ task rest, returned = some task ∧ s.unblockedTaskQueue = task :: rest ∧
      s.runningTaskCount < s.maxRunningTaskCount ∧ s.unblockedTaskCount + 1 < counterLimit ∧
      s' = { s with
        unblockedTaskQueue := rest
        runningTaskCount := s.runningTaskCount + 1
        unblockedTaskCount := s.unblockedTaskCount + 1 } := by
  unfold scheduleNextUnblockedTask at h
  split_ifs at h with hr
  · split at h
    · rw [some.injEq, Prod.mk.injEq] at h
      exact .inl ⟨h.1.symm, h.2.symm⟩
    · rename_i task rest hq
      simp only [bind_eq_bind, bind_eq_some_iff, Option.pure_def,
        some.injEq, Prod.mk.injEq, increment_eq_some_iff] at h
      obtain ⟨_, ⟨rfl, _⟩, _, ⟨rfl, hu⟩, rfl, rfl⟩ := h
      exact .inr ⟨task, rest, rfl, hq, by simpa [isTaskRunnable] using hr, hu, rfl⟩
  · rw [some.injEq, Prod.mk.injEq] at h
    exact .inl ⟨h.1.symm, h.2.symm⟩

theorem countDescheduled_eq_some_iff :
    s.countDescheduled task = some s' ↔
      ∃ running hashes active, s.runningTaskCount = running + 1 ∧
        s.removeHash task = some hashes ∧ s.activeTaskCount = active + 1 ∧
        s.handledTaskCount + 1 < counterLimit ∧
        s' = { s with
          runningTaskCount := running
          uniqueActiveTaskHashes := hashes
          activeTaskCount := active
          handledTaskCount := s.handledTaskCount + 1 } := by
  simp only [countDescheduled, bind_eq_bind, bind_eq_some_iff, Option.pure_def,
    some.injEq, increment_eq_some_iff, decrement_eq_some_iff]
  constructor
  · rintro ⟨running, hr, hashes, hh, active, ha, _, ⟨rfl, hlt⟩, rfl⟩
    exact ⟨running, hashes, active, hr, hh, ha, hlt, rfl⟩
  · rintro ⟨running, hashes, active, hr, hh, ha, hlt, rfl⟩
    exact ⟨running, hr, hashes, hh, active, ha, _, ⟨rfl, hlt⟩, rfl⟩

end SchedulingStateMachine

/-! ## The invariant -/

namespace Session

/-- The lock contexts that have an entry in a usage queue between two calls. -/
def entered (w : Session) (t : Task) : List LockContext :=
  if t ∈ w.active then t.lockContexts else []

variable {w : Session} {t task : Task} {w' : Session}

theorem entered_of_mem (h : t ∈ w.active) : w.entered t = t.lockContexts := if_pos h

theorem entered_of_notMem (h : t ∉ w.active) : w.entered t = [] := if_neg h

theorem mem_active_of_entered_ne_nil (h : w.entered t ≠ []) : t ∈ w.active := by
  by_contra hact
  exact h (entered_of_notMem hact)

/-- The statistics of the state machine agree with the tasks. -/
structure Tally (w : Session) : Prop where
  active : w.machine.activeTaskCount = w.active.length
  running : w.machine.runningTaskCount = w.running.length
  maxRunning : w.machine.maxRunningTaskCount < counterLimit
  hashes : if w.machine.maxUniqueActiveTaskCount.isSome then
      w.machine.uniqueActiveTaskHashes = (w.active.map hash).toFinset ∧
        (w.active.map hash).Nodup
    else w.machine.uniqueActiveTaskHashes = ∅
  total : w.machine.handledTaskCount + w.active.length ≤ w.machine.totalTaskCount
  totalLimit : w.machine.totalTaskCount < counterLimit
  unblockedLimit : w.machine.unblockedTaskCount < counterLimit

structure Invariant (w : Session) : Prop where
  consistent : Consistent (fun t => w.machine.blockedUsageCounts t ≠ 0) w.entered
    w.machine.usageQueues w.machine.blockedUsageCounts
  activeNodup : w.active.Nodup
  addressesNodup : ∀ t ∈ w.active, t.addresses.Nodup
  ids : ∀ t ∈ w.active, ∀ t' ∈ w.active, t.taskId = t'.taskId → t = t'
  runnableNodup : w.runnable.Nodup
  mem_runnable : ∀ t, t ∈ w.runnable ↔ t ∈ w.active ∧ w.machine.blockedUsageCounts t = 0
  tally : w.Tally

/-- Holders that were not runnable in `w` go before everything that waits in `w'`. -/
def Precedes (w w' : Session) : Prop :=
  Consistent (fun t => t ∉ w.runnable) w'.entered w'.machine.usageQueues
    w'.machine.blockedUsageCounts

variable (h : w.Invariant) (hnew : task ∉ w.active) (haddr : task.addresses.Nodup)
  (hid : ∀ t ∈ w.active, t.taskId ≠ task.taskId)
include h in
theorem Invariant.precedes_self : w.Precedes w := by
  refine ⟨fun a => (h.consistent.ordered a).mono ?_, h.consistent.uses_iff, h.consistent.counts_eq⟩
  intro e he hrun hzero
  refine hrun ((h.mem_runnable e.2).mpr ⟨?_, hzero⟩)
  by_contra hact
  have hmem := (h.consistent.uses_iff a e).mp (.inl he)
  rw [entered_of_notMem hact] at hmem
  cases hmem

theorem Invariant.mem_active_of_entered {c : LockContext} (h : c ∈ w.entered t) : t ∈ w.active :=
  mem_active_of_entered_ne_nil (ne_nil_of_mem h)

/-- The state machine has just been created. -/
theorem Initial.invariant (h : Initial .priorityQueueing w) : w.Invariant := by
  obtain ⟨⟨maxRunning, maxUnique, hnew⟩, hactive, hrunning⟩ := h
  rw [new] at hnew
  split_ifs at hnew with hlim
  rw [some_inj] at hnew
  have hrun : w.runnable = [] := by
    rw [runnable, hrunning, ← hnew]
    rfl
  refine ⟨?_, ?_, ?_, ?_, ?_, ?_, ?_⟩
  · rw [← hnew]
    refine ⟨fun a => UsageQueueInner.ordered_new _, fun a e => ?_, fun t => ?_⟩
    · rw [entered_of_notMem (by rw [hactive]; exact not_mem_nil)]
      simp [UsageQueueInner.Uses, UsageQueueInner.new]
    · symm
      rw [Set.ncard_eq_zero ?_]
      · ext a
        simp [waitsAt, UsageQueueInner.Waits, UsageQueueInner.new]
      · refine Set.Finite.subset Set.finite_empty ?_
        rintro a ⟨u, hu⟩
        simp [UsageQueueInner.new] at hu
  · rw [hactive]
    exact nodup_nil
  · rw [hactive]
    simp
  · rw [hactive]
    simp
  · rw [hrun]
    exact nodup_nil
  · intro t
    rw [hrun, hactive]
    simp
  · refine ⟨?_, ?_, ?_, ?_, ?_, ?_, ?_⟩ <;> rw [← hnew]
    · rw [hactive]
      rfl
    · rw [hrunning]
      rfl
    · exact hlim
    · simp [hactive]
    · simp [hactive]
    · simp [counterLimit]
    · simp [counterLimit]

include h in
/-- A call that changes neither the tasks nor the lock table. -/
theorem Invariant.of_unchanged (hactive : w'.active = w.active)
    (hrunnable : w'.runnable = w.runnable)
    (hqueues : w'.machine.usageQueues = w.machine.usageQueues)
    (hcounts : w'.machine.blockedUsageCounts = w.machine.blockedUsageCounts) (htally : w'.Tally) :
    w'.Invariant ∧ w.Precedes w' := by
  have hentered : w'.entered = w.entered := by
    funext t
    rw [entered, entered, hactive]
  refine ⟨⟨?_, ?_, ?_, ?_, ?_, ?_, htally⟩, ?_⟩
  · rw [hentered, hqueues, hcounts]
    exact h.consistent
  · rw [hactive]
    exact h.activeNodup
  · rw [hactive]
    exact h.addressesNodup
  · rw [hactive]
    exact h.ids
  · rw [hrunnable]
    exact h.runnableNodup
  · rw [hrunnable, hactive, hcounts]
    exact h.mem_runnable
  · rw [Precedes, hentered, hqueues, hcounts]
    exact h.precedes_self

/-! ## Submitting a task -/

include h hnew haddr hid in
/-- The lock table at the start of the locking loop, where the new task counts as pending. -/
theorem Invariant.locking :
    Consistent.Locking (fun t => w.machine.blockedUsageCounts t ≠ 0 ∨ t = task) w.entered
      w.machine.usageQueues w.machine.blockedUsageCounts task 0 task.lockContexts := by
  have hzero : w.machine.blockedUsageCounts task = 0 :=
    h.consistent.counts_of_entered_nil (entered_of_notMem hnew)
  refine ⟨?_, fun t ht => by simp only [ht, or_false], .inr rfl,
    fun t _ hent => hid t (mem_active_of_entered_ne_nil hent), ?_⟩
  · rw [update_eq_self_iff.mpr hzero.symm]
    refine ⟨fun a => (h.consistent.ordered a).mono ?_, h.consistent.uses_iff,
      h.consistent.counts_eq⟩
    rintro e he (hp | rfl)
    · exact hp
    · have hmem := (h.consistent.uses_iff a e).mp (.inl he)
      rw [entered_of_notMem hnew] at hmem
      cases hmem
  · rwa [entered_of_notMem hnew, nil_append]

include h hnew haddr hid in
/-- The tasks after a submission that was not dropped: `task` is locked as far as possible, and
runnable if all its addresses were granted. -/
theorem Invariant.accept {queues : Pubkey → UsageQueueInner} {counts : BlockedUsageCounts}
    {blocked : ℕ}
    (hl : lockContexts task task.lockContexts w.machine.usageQueues
      w.machine.blockedUsageCounts 0 = some (queues, counts, blocked))
    (hactive : w'.active = w.active ++ [task])
    (hrunnable : w'.runnable.Perm (w.runnable ++ if blocked = 0 then [task] else []))
    (hqueues : w'.machine.usageQueues = queues)
    (hcounts : w'.machine.blockedUsageCounts = if blocked = 0 then counts else update
      counts task blocked) (htally : w'.Tally) : w'.Invariant ∧ w.Precedes w' := by
  have hzero : w.machine.blockedUsageCounts task = 0 :=
    h.consistent.counts_of_entered_nil (entered_of_notMem hnew)
  obtain ⟨hlocking, hself⟩ := (h.locking hnew haddr hid).lockContexts hl
  have hcons := hlocking.consistent
  -- the stored counters are those of the loop
  have hcounts' : update counts task blocked = w'.machine.blockedUsageCounts := by
    rw [hcounts]
    by_cases hb : blocked = 0
    · rw [if_pos hb, hb, ← hzero, ← hself, update_eq_self]
    · rw [if_neg hb]
  have hentered : update w.entered task (w.entered task ++ task.lockContexts) = w'.entered := by
    funext t
    by_cases ht : t = task
    · subst ht
      rw [update_self, entered_of_notMem hnew, entered_of_mem (by simp [hactive]), nil_append]
    · rw [update_of_ne ht]
      simp [entered, hactive, ht]
  rw [hcounts', hentered, ← hqueues] at hcons
  have hother : ∀ t, t ≠ task → (w'.machine.blockedUsageCounts t = 0 ↔
      w.machine.blockedUsageCounts t = 0) := by
    intro t ht
    have hiff := hlocking.pending_iff t ht
    rw [or_iff_left ht] at hiff
    rw [← hcounts', update_of_ne ht]
    exact not_iff_not.mp hiff.symm
  have htask : w'.machine.blockedUsageCounts task = blocked := by rw [← hcounts', update_self]
  have hnotrun : task ∉ w.runnable := fun hr => hnew ((h.mem_runnable task).mp hr).1
  refine ⟨⟨?_, ?_, ?_, ?_, ?_, ?_, htally⟩, ?_⟩
  · refine ⟨fun a => (hcons.ordered a).mono ?_, hcons.uses_iff, hcons.counts_eq⟩
    intro e _ hp
    by_cases he : e.2 = task
    · exact .inr he
    · exact .inl fun h0 => hp ((hother e.2 he).mpr h0)
  · rw [hactive, nodup_append']
    refine ⟨h.activeNodup, nodup_singleton task, ?_⟩
    intro t ht ht'
    rw [mem_singleton.mp ht'] at ht
    exact hnew ht
  · rw [hactive]
    exact forall_mem_append.mpr ⟨h.addressesNodup, forall_mem_singleton.mpr haddr⟩
  · intro t ht t' ht' heq
    rw [hactive, mem_append, mem_singleton] at ht ht'
    rcases ht with ht | rfl <;> rcases ht' with ht' | rfl
    · exact h.ids t ht t' ht' heq
    · exact absurd heq (hid t ht)
    · exact absurd heq.symm (hid t' ht')
    · rfl
  · rw [hrunnable.nodup_iff, nodup_append']
    refine ⟨h.runnableNodup, ?_, ?_⟩
    · split_ifs
      · exact nodup_singleton task
      · exact nodup_nil
    · intro t ht ht'
      split_ifs at ht'
      · rw [mem_singleton.mp ht'] at ht
        exact hnotrun ht
      · cases ht'
  · intro t
    rw [hrunnable.mem_iff, mem_append, h.mem_runnable, hactive, mem_append, mem_singleton]
    by_cases ht : t = task
    · subst ht
      rw [htask]
      by_cases hb : blocked = 0
      · simp [hb]
      · simp [hb, hnew]
    · rw [hother t ht]
      by_cases hb : blocked = 0
      · simp [hb, ht]
      · simp [hb, ht]
  · refine ⟨fun a => (hcons.ordered a).mono ?_, hcons.uses_iff, hcons.counts_eq⟩
    intro e he hrun
    by_cases het : e.2 = task
    · exact .inr het
    · refine .inl fun h0 => hrun ((h.mem_runnable e.2).mpr ⟨?_, h0⟩)
      have hact := mem_active_of_entered ((hcons.uses_iff a e).mp (.inl he))
      rw [hactive, mem_append, mem_singleton] at hact
      exact hact.resolve_right het

/-- The statistics after a submission that was not dropped. -/
theorem Tally.accept (h : w.Tally) {total : ℕ} {running : List Task} {s s' : SchedulingStateMachine}
    (hdrop : w.machine.isDropped task = false)
    (htotal : increment w.machine.totalTaskCount = some total)
    (hs : countAccepted { w.machine with totalTaskCount := total } task = some s)
    (hactive : s'.activeTaskCount = s.activeTaskCount)
    (hhashes : s'.uniqueActiveTaskHashes = s.uniqueActiveTaskHashes)
    (hcap : s'.maxUniqueActiveTaskCount = s.maxUniqueActiveTaskCount)
    (hmax : s'.maxRunningTaskCount = s.maxRunningTaskCount)
    (hhandled : s'.handledTaskCount = s.handledTaskCount)
    (htotal' : s'.totalTaskCount = s.totalTaskCount)
    (hrunning : s'.runningTaskCount = running.length)
    (hunblocked : s'.unblockedTaskCount < counterLimit) :
    Tally { machine := s', active := w.active ++ [task], running := running } := by
  obtain ⟨rfl, hlim⟩ := increment_eq_some_iff.mp htotal
  obtain ⟨-, rfl⟩ := countAccepted_eq_some_iff.mp hs
  have hh := h.hashes
  refine ⟨?_, hrunning, ?_, ?_, ?_, ?_, hunblocked⟩
  · simp [hactive, h.active]
  · rw [hmax]
    exact h.maxRunning
  · simp only [hcap, hhashes]
    split_ifs with hsome
    · rw [if_pos hsome] at hh
      have hfresh : task.hash ∉ w.active.map hash := by
        obtain ⟨cap, hc⟩ := isSome_iff_exists.mp hsome
        simp only [SchedulingStateMachine.isDropped, hc, hh.1, List.mem_toFinset,
          Bool.or_eq_false_iff, decide_eq_false_iff_not] at hdrop
        exact hdrop.2
      constructor
      · rw [hh.1]
        ext x
        simp
      · rw [List.map_append, List.nodup_append']
        refine ⟨hh.2, List.nodup_singleton _, ?_⟩
        intro x hx hx'
        rw [map_singleton, mem_singleton] at hx'
        exact hfresh (hx' ▸ hx)
    · rwa [if_neg hsome] at hh
  · have := h.total
    simp only [hhandled, htotal', length_append, length_singleton]
    omega
  · simp only [htotal']
    exact hlim

include h hnew haddr hid in
theorem Invariant.scheduleOrBufferTask
    (hcall : w.call (.scheduleOrBufferTask task force) = some (returned, w')) :
    w'.Invariant ∧ w.Precedes w' := by
  simp only [call, SchedulingStateMachine.scheduleOrBufferTask, bind_eq_bind,
    bind_eq_some_iff, Option.pure_def, some.injEq, Prod.exists, Prod.mk.injEq]
    at hcall
  obtain ⟨returned', machine, ⟨total, htotal, hrest⟩, rfl, rfl⟩ := hcall
  have hdrop' : SchedulingStateMachine.isDropped { w.machine with totalTaskCount := total } task =
    w.machine.isDropped task := rfl
  rw [hdrop'] at hrest
  by_cases hdrop : w.machine.isDropped task = true
  · rw [if_pos hdrop, bind_eq_some_iff] at hrest
    obtain ⟨dropped, -, hm⟩ := hrest
    cases hm
    obtain ⟨rfl, hlim⟩ := increment_eq_some_iff.mp htotal
    have ht := h.tally
    simp only [hdrop, if_true, toList_none, append_nil]
    exact h.of_unchanged rfl rfl rfl rfl
      ⟨ht.active, ht.running, ht.maxRunning, ht.hashes, ht.total.trans (Nat.le_succ _), hlim,
        ht.unblockedLimit⟩
  · rw [Bool.not_eq_true] at hdrop
    simp only [hdrop, Bool.false_eq_true, if_false, bind_eq_some_iff] at hrest
    obtain ⟨s, hs, hrest⟩ := hrest
    obtain ⟨⟨locked, s1⟩, hlock, hrest⟩ := hrest
    obtain ⟨queues, counts, blocked, hl, rfl, rfl⟩ := tryLockUsageQueues_eq_some hlock
    obtain ⟨hact, hs'⟩ := countAccepted_eq_some_iff.mp hs
    have hl' : lockContexts task task.lockContexts w.machine.usageQueues
        w.machine.blockedUsageCounts 0 = some (queues, counts, blocked) := by
      rwa [hs'] at hl
    have hrunning : s.runningTaskCount = w.running.length := by
      rw [hs']
      exact h.tally.running
    have hqueue : s.unblockedTaskQueue = w.machine.unblockedTaskQueue := by rw [hs']
    have hunblocked : s.unblockedTaskCount < counterLimit := by
      rw [hs']
      exact h.tally.unblockedLimit
    by_cases hb : blocked = 0
    · simp only [hb, decide_true, if_true] at hrest
      rcases runOrBuffer_cases hrest with
        ⟨rfl, hunblocked', rfl⟩ | ⟨rfl, -, rfl⟩
      · refine h.accept hnew haddr hid hl' ?_ ?_ rfl ?_ ?_
        · simp [hdrop]
        · simp [runnable, hb, hqueue]
        · simp [hb]
        · simp only [hdrop, Bool.false_eq_true, if_false]
          exact h.tally.accept hdrop htotal hs rfl rfl rfl rfl rfl rfl (by simp [hrunning])
            hunblocked'
      · refine h.accept hnew haddr hid hl' ?_ ?_ rfl ?_ ?_
        · simp [hdrop]
        · simp only [runnable, hb, if_true, toList_some, hqueue, append_assoc]
          exact perm_append_comm.append_left _
        · simp [hb]
        · simp only [hdrop, Bool.false_eq_true, if_false]
          exact h.tally.accept hdrop htotal hs rfl rfl rfl rfl rfl rfl (by simp [hrunning])
            hunblocked
    · simp only [hb, decide_false, Bool.false_eq_true, if_false] at hrest
      cases hrest
      refine h.accept hnew haddr hid hl' ?_ ?_ rfl ?_ ?_
      · simp [hdrop]
      · simp [runnable, hb, hqueue]
      · simp [hb]
      · simp only [hdrop, Bool.false_eq_true, if_false]
        exact h.tally.accept hdrop htotal hs rfl rfl rfl rfl rfl rfl (by simp [hrunning])
          hunblocked

/-! ## Handing out a task -/

include h in
theorem Invariant.scheduleNextUnblockedTask
    (hcall : w.call .scheduleNextUnblockedTask = some (returned, w')) :
    w'.Invariant ∧ w.Precedes w' := by
  simp only [call, bind_eq_bind, bind_eq_some_iff, Option.pure_def,
    some.injEq, Prod.exists, Prod.mk.injEq] at hcall
  obtain ⟨returned', machine, hnext, rfl, rfl⟩ := hcall
  rcases scheduleNextUnblockedTask_cases hnext with
    ⟨rfl, rfl⟩ | ⟨task, rest, rfl, hq, -, hunblocked, rfl⟩
  · simp only [toList_none, append_nil]
    exact ⟨h, h.precedes_self⟩
  · have ht := h.tally
    refine h.of_unchanged rfl ?_ rfl rfl
      ⟨ht.active, ?_, ht.maxRunning, ht.hashes, ht.total, ht.totalLimit, hunblocked⟩
    · simp [runnable, hq]
    · simp [ht.running]

/-! ## Descheduling a task -/

theorem Tally.countDescheduled (h : w.Tally) (hrun : task ∈ w.running) (hact : task ∈ w.active) :
    ∃ s, w.machine.countDescheduled task = some s ∧
      s.usageQueues = w.machine.usageQueues ∧
      s.blockedUsageCounts = w.machine.blockedUsageCounts ∧
      s.unblockedTaskQueue = w.machine.unblockedTaskQueue ∧
      s.unblockedTaskCount = w.machine.unblockedTaskCount ∧
      s.maxRunningTaskCount = w.machine.maxRunningTaskCount ∧
      s.maxUniqueActiveTaskCount = w.machine.maxUniqueActiveTaskCount ∧
      Tally { machine := s, active := w.active.erase task, running := w.running.erase task } := by
  have hlen := length_erase_add_one hact
  have hlen' := length_erase_add_one hrun
  have htotal := h.total
  have hlimit := h.totalLimit
  obtain ⟨hashes, hrem, hhashes⟩ : ∃ hashes, w.machine.removeHash task = some hashes ∧
      if w.machine.maxUniqueActiveTaskCount.isSome then
        hashes = ((w.active.erase task).map hash).toFinset ∧
          ((w.active.erase task).map hash).Nodup
      else hashes = ∅ := by
    have hh := h.hashes
    unfold removeHash
    split_ifs at hh ⊢ with hsome hmem
    · refine ⟨_, rfl, ?_, hh.2.sublist ((erase_sublist).map _)⟩
      rw [hh.1]
      have hperm := (perm_cons_erase hact).map hash
      rw [map_cons] at hperm
      have hnd := hperm.nodup_iff.mp hh.2
      rw [nodup_cons] at hnd
      rw [toFinset_eq_of_perm _ _ hperm, toFinset_cons, Finset.erase_insert]
      rw [List.mem_toFinset]
      exact hnd.1
    · rw [hh.1, List.mem_toFinset] at hmem
      exact absurd (mem_map_of_mem hact) hmem
    · exact ⟨_, rfl, hh⟩
  refine ⟨_, countDescheduled_eq_some_iff.mpr
    ⟨(w.running.erase task).length, hashes, (w.active.erase task).length, ?_, hrem, ?_, ?_, rfl⟩,
    rfl, rfl, rfl, rfl, rfl, rfl,
    ⟨rfl, rfl, h.maxRunning, hhashes, ?_, hlimit, h.unblockedLimit⟩⟩
  · rw [h.running, hlen']
  · rw [h.active, hlen]
  · omega
  · show w.machine.handledTaskCount + 1 + (w.active.erase task).length ≤ w.machine.totalTaskCount
    omega

include h in
/-- **A running task can always be descheduled**, and this keeps the invariant. -/
theorem Invariant.descheduleTask (hrun : task ∈ w.running) :
    ∃ w', w.call (.descheduleTask task) = some (none, w') ∧ w'.Invariant ∧ w.Precedes w' ∧
      w'.active = w.active.erase task ∧ w'.running = w.running.erase task ∧
      w'.machine.unblockedTaskCount = w.machine.unblockedTaskCount ∧
      w'.machine.maxRunningTaskCount = w.machine.maxRunningTaskCount ∧
      w'.machine.maxUniqueActiveTaskCount = w.machine.maxUniqueActiveTaskCount := by
  have hrunnable : task ∈ w.runnable := mem_append_left _ hrun
  obtain ⟨hact, hzero⟩ := (h.mem_runnable task).mp hrunnable
  obtain ⟨s, hs, hqueues, hcounts, hqueue, hunblocked, hmax, hcap, htally⟩ :=
    h.tally.countDescheduled hrun hact
  obtain ⟨queues', counts', new, hu, hcons, hnd, hmem, hle⟩ :=
    h.precedes_self.unlockContexts w.machine.unblockedTaskQueue
      (entered_of_mem hact) (h.addressesNodup task hact) hzero
  have hcall : w.call (.descheduleTask task) = some (none,
      { machine := { s with
          usageQueues := queues'
          blockedUsageCounts := counts'
          unblockedTaskQueue := w.machine.unblockedTaskQueue ++ new }
        active := w.active.erase task
        running := w.running.erase task }) := by
    simp [call, SchedulingStateMachine.descheduleTask, hs,
      SchedulingStateMachine.unlockUsageQueues, hqueues, hcounts, hqueue, hu]
  have hentered : ∀ {w' : Session}, w'.active = w.active.erase task →
      update w.entered task [] = w'.entered := by
    intro w' hw'
    funext t
    by_cases ht : t = task
    · subst ht
      rw [update_self, entered_of_notMem]
      rw [hw']
      exact h.activeNodup.not_mem_erase
    · rw [update_of_ne ht]
      simp [entered, hw', mem_erase_of_ne ht]
  have hleft : ∀ t, t ∈ w.running.erase task ++ w.machine.unblockedTaskQueue ↔
      t ∈ w.runnable ∧ t ≠ task := by
    intro t
    rw [← erase_append_left _ hrun, and_comm]
    exact h.runnableNodup.mem_erase_iff
  refine ⟨_, hcall, ⟨?_, ?_, ?_, ?_, ?_, ?_, ?_⟩, ?_, rfl, rfl, hunblocked, hmax, hcap⟩
  · rw [← hentered rfl]
    refine ⟨fun a => (hcons.ordered a).mono ?_, hcons.uses_iff, hcons.counts_eq⟩
    intro e _ hp hr
    have := hle e.2
    rw [((h.mem_runnable e.2).mp hr).2] at this
    exact hp (Nat.le_zero.mp this)
  · exact h.activeNodup.erase task
  · exact fun t ht => h.addressesNodup t (mem_of_mem_erase ht)
  · exact fun t ht t' ht' => h.ids t (mem_of_mem_erase ht) t' (mem_of_mem_erase ht')
  · show (w.running.erase task ++ (w.machine.unblockedTaskQueue ++ new)).Nodup
    rw [← append_assoc, nodup_append', ← erase_append_left _ hrun]
    refine ⟨h.runnableNodup.erase task, hnd, ?_⟩
    intro t ht ht'
    exact ((hmem t).mp ht').1 ((h.mem_runnable t).mp (mem_of_mem_erase ht)).2
  · intro t
    show t ∈ w.running.erase task ++ (w.machine.unblockedTaskQueue ++ new) ↔
      t ∈ w.active.erase task ∧ counts' t = 0
    rw [← append_assoc, mem_append, hleft, h.mem_runnable, hmem, h.activeNodup.mem_erase_iff]
    have hle' := hle t
    constructor
    · rintro (⟨⟨ha, hc⟩, hne⟩ | ⟨hc, hc'⟩)
      · exact ⟨⟨hne, ha⟩, by omega⟩
      · refine ⟨⟨?_, by_contra fun hact =>
          hc (h.consistent.counts_of_entered_nil (entered_of_notMem hact))⟩, hc'⟩
        rintro rfl
        exact hc hzero
    · rintro ⟨⟨hne, ha⟩, hc'⟩
      by_cases hc : w.machine.blockedUsageCounts t = 0
      · exact .inl ⟨⟨ha, hc⟩, hne⟩
      · exact .inr ⟨hc, hc'⟩
  · exact ⟨htally.active, htally.running, htally.maxRunning, htally.hashes, htally.total,
      htally.totalLimit, htally.unblockedLimit⟩
  · rwa [Precedes, ← hentered rfl]

/-! ## Runs -/

include h in
/-- **One permitted call preserves the invariant.** -/
theorem Invariant.idStep (hs : IdStep w w') : w'.Invariant ∧ w.Precedes w' := by
  obtain ⟨c, r, hp, hid, hcall⟩ := hs
  cases c with
  | scheduleOrBufferTask task force => exact h.scheduleOrBufferTask hp.1 hp.2 hid hcall
  | scheduleNextUnblockedTask => exact h.scheduleNextUnblockedTask hcall
  | descheduleTask task =>
    obtain ⟨w1, hcall1, hinv, hprec, -⟩ := h.descheduleTask hp
    rw [hcall1, some.injEq, Prod.mk.injEq] at hcall
    rw [← hcall.2]
    exact ⟨hinv, hprec⟩

theorem IdReachable.invariant (h : IdReachable .priorityQueueing w) : w.Invariant := by
  obtain ⟨w0, hinit, hrun⟩ := h
  induction hrun with
  | refl => exact hinit.invariant
  | tail _ hs ih => exact (ih.idStep hs).1

end Session
end FlowraValidator.UnifiedScheduler
