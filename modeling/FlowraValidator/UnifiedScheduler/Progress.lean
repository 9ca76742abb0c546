import FlowraValidator.UnifiedScheduler.Exclusion

/-!
# The scheduler neither deadlocks nor leaks

As long as a task is active, some task is runnable: among the tasks that wait, the one with the
smallest id can only wait for a runnable task. So the loop of `clear_and_reinitialize` comes to an
end, and it leaves the state machine as it was created.

The one thing that can go wrong is a statistic. `unblocked_task_count` counts a buffered task when
it is queued and again when it is handed out, so it may pass the end of `u32` during clearing, and
`clear_and_reinitialize` panics then.

* `Session.Drainable`: what clearing needs to know about the sessions in a set.
* `Session.Drainable.clearAndReinitialize`: when clearing succeeds, and what it leaves.
* `Session.IdReachable.noDeadlock`: the result for all runs and both kinds of queue.
-/

namespace FlowraValidator.UnifiedScheduler.Session
open Function List Option SchedulingStateMachine ShortCounter

/-! ## No deadlock -/

/-- **Some task is runnable as long as a task is active.** -/
theorem Invariant.exists_runnable {w : Session} (h : w.Invariant) (hact : w.active ≠ []) :
    w.runnable ≠ [] := by
  obtain ⟨t0, ht0⟩ := exists_mem_of_ne_nil _ hact
  obtain ⟨t, ht, hmin⟩ := Finset.exists_min_image w.active.toFinset Task.taskId
    ⟨t0, mem_toFinset.mpr ht0⟩
  rw [List.mem_toFinset] at ht
  by_cases hzero : w.machine.blockedUsageCounts t = 0
  · exact ne_nil_of_mem ((h.mem_runnable t).mpr ⟨ht, hzero⟩)
  · -- `t` waits somewhere; a pending holder there would have a smaller id
    obtain ⟨a, u, hblocked⟩ := h.consistent.exists_waits hzero
    have hq := h.consistent.ordered a
    have hheld : (w.machine.usageQueues a).held ≠ [] := by
      intro hnil
      rw [hq.vacant hnil] at hblocked
      cases hblocked
    obtain ⟨e, he⟩ := exists_mem_of_ne_nil _ hheld
    have hact' : e.2 ∈ w.active :=
      Invariant.mem_active_of_entered ((h.consistent.uses_iff a e).mp (.inl he))
    have hle := hmin e.2 (mem_toFinset.mpr hact')
    have hzero' : w.machine.blockedUsageCounts e.2 = 0 := by
      by_contra hpend
      exact absurd (hq.outranks e he hpend (u, t) hblocked) (not_lt.mpr hle)
    exact ne_nil_of_mem ((h.mem_runnable e.2).mpr ⟨hact', hzero'⟩)

/-- Without active tasks, every queue is as it was created. -/
theorem Invariant.idle {w : Session} (h : w.Invariant) (hact : w.active = []) :
    w.machine.usageQueues = (fun _ => UsageQueueInner.new .priorityQueueing) ∧
      w.machine.blockedUsageCounts = fun _ => 0 := by
  have hnone : ∀ t, w.entered t = [] := fun t => entered_of_notMem (by rw [hact]; exact not_mem_nil)
  constructor
  · funext a
    refine (h.consistent.ordered a).vacant ?_
    rw [eq_nil_iff_forall_not_mem]
    intro e he
    have hmem := (h.consistent.uses_iff a e).mp (.inl he)
    rw [hnone] at hmem
    cases hmem
  · funext t
    exact h.consistent.counts_of_entered_nil (hnone t)

/-! ## Clearing -/

/-- A set of sessions in which clearing makes progress. -/
structure Drainable (capability : Capability) (P : Session → Prop) : Prop where
  tally : ∀ w, P w → w.Tally
  runnable_iff : ∀ w, P w → (w.runnable = [] ↔ w.active = [])
  next : ∀ w w' r, P w → w.call .scheduleNextUnblockedTask = some (r, w') → P w'
  deschedule : ∀ w task, P w → task ∈ w.running →
    ∃ w', w.call (.descheduleTask task) = some (none, w') ∧ P w' ∧
      w'.active = w.active.erase task ∧ w'.running = w.running.erase task ∧
      w'.machine.unblockedTaskCount = w.machine.unblockedTaskCount ∧
      w'.machine.maxRunningTaskCount = w.machine.maxRunningTaskCount ∧
      w'.machine.maxUniqueActiveTaskCount = w.machine.maxUniqueActiveTaskCount
  mem_active : ∀ w task, P w → task ∈ w.runnable → task ∈ w.active
  idle : ∀ w, P w → w.active = [] →
    w.machine.usageQueues = (fun _ => UsageQueueInner.new capability) ∧
      w.machine.blockedUsageCounts = fun _ => 0

theorem drainable_invariant : Drainable .priorityQueueing Invariant where
  tally := fun _ h => h.tally
  runnable_iff := by
    intro w h
    constructor
    · intro hnil
      by_contra hact
      exact h.exists_runnable hact hnil
    · intro hact
      rw [eq_nil_iff_forall_not_mem]
      intro t ht
      have hmem := ((h.mem_runnable t).mp ht).1
      rw [hact] at hmem
      cases hmem
  next := fun w w' r h hcall => (h.scheduleNextUnblockedTask hcall).1
  deschedule := by
    intro w task h hrun
    obtain ⟨w', hcall, hinv, -, hrest⟩ := h.descheduleTask hrun
    exact ⟨w', hcall, hinv, hrest⟩
  mem_active := fun w task h ht => ((h.mem_runnable task).mp ht).1
  idle := fun _ h hact => h.idle hact

theorem Sim.tally {f : Task → Task} {v w : Session} (h : Sim f v w) (hv : v.Tally) : w.Tally := by
  have hhash : w.active.map Task.hash = v.active.map Task.hash := by
    rw [h.active, List.map_map]
    exact map_congr_left fun t ht => h.hash t ht
  have hlen : w.active.length = v.active.length := by rw [h.active, length_map]
  have hlen' : w.running.length = v.running.length := by rw [h.running, length_map]
  refine ⟨?_, ?_, ?_, ?_, ?_, ?_, ?_⟩
  · rw [hlen, h.machine]
    exact hv.active
  · rw [hlen', h.machine]
    exact hv.running
  · rw [h.machine]
    exact hv.maxRunning
  · rw [hhash, h.machine]
    exact hv.hashes
  · rw [hlen, h.machine]
    exact hv.total
  · rw [h.machine]
    exact hv.totalLimit
  · rw [h.machine]
    exact hv.unblockedLimit

theorem drainable_sim : Drainable .fifoQueueing fun w => ∃ f v, Sim f v w ∧ v.Increasing where
  tally := by
    rintro w ⟨f, v, hsim, hinc⟩
    exact hsim.tally hinc.invariant.tally
  runnable_iff := by
    rintro w ⟨f, v, hsim, hinc⟩
    rw [hsim.runnable, hsim.active, map_eq_nil_iff, map_eq_nil_iff]
    exact drainable_invariant.runnable_iff v hinc.invariant
  next := by
    rintro w w' r ⟨f, v, hsim, hinc⟩ hcall
    exact hsim.step hinc ⟨.scheduleNextUnblockedTask, r, trivial, hcall⟩
  deschedule := by
    rintro w task ⟨f, v, hsim, hinc⟩ hrun
    rw [hsim.running] at hrun
    obtain ⟨t, ht, rfl⟩ := mem_map.mp hrun
    obtain ⟨v1, hcall1, -, -, -, -, hunblocked, hmax, hcap⟩ := hinc.invariant.descheduleTask ht
    rcases hsim.descheduleTask hinc ht with ⟨hn, -⟩ | ⟨r, v', w', hv', hw', hsim', hinc'⟩
    · cases hcall1.symm.trans hn
    · rw [hcall1, some.injEq, Prod.mk.injEq] at hv'
      obtain ⟨rfl, rfl⟩ := hv'
      have hlists : w'.active = w.active.erase (f t) ∧ w'.running = w.running.erase (f t) := by
        simp only [call, Option.bind_eq_bind, Option.bind_eq_some_iff, Option.pure_def,
          some.injEq, Prod.mk.injEq] at hw'
        obtain ⟨_, _, _, rfl⟩ := hw'
        exact ⟨rfl, rfl⟩
      refine ⟨w', hw', ⟨f, v1, hsim', hinc'⟩, hlists.1, hlists.2, ?_, ?_, ?_⟩
      · rw [hsim'.machine, hsim.machine]
        exact hunblocked
      · rw [hsim'.machine, hsim.machine]
        exact hmax
      · rw [hsim'.machine, hsim.machine]
        exact hcap
  mem_active := by
    rintro w task ⟨f, v, hsim, hinc⟩ ht
    rw [hsim.runnable] at ht
    obtain ⟨t, hrun, rfl⟩ := mem_map.mp ht
    rw [hsim.active]
    exact mem_map_of_mem ((hinc.invariant.mem_runnable t).mp hrun).1
  idle := by
    rintro w ⟨f, v, hsim, hinc⟩ hact
    have hv : v.active = [] := by
      rw [hsim.active, map_eq_nil_iff] at hact
      exact hact
    constructor
    · funext a
      rw [hsim.usageQueues, (hinc.invariant.idle hv).1]
      rfl
    · funext t
      refine hsim.counts.zero t fun x hx => ?_
      rw [hv] at hx
      cases hx

namespace Drainable
variable {capability : Capability} {P : Session → Prop} {w : Session}

section
variable (hP : Drainable capability P)
include hP
/-- Handing out the next task of a session in which nothing runs. -/
theorem scheduleNext (hw : P w) (hrun : w.running = []) (hmax : 1 ≤ w.machine.maxRunningTaskCount)
    {task : Task} {rest : List Task} (hqueue : w.machine.unblockedTaskQueue = task :: rest) :
    w.machine.scheduleNextUnblockedTask =
      if w.machine.unblockedTaskCount + 1 < counterLimit then
        some (some task, { w.machine with
          unblockedTaskQueue := rest
          runningTaskCount := 1
          unblockedTaskCount := w.machine.unblockedTaskCount + 1 })
      else none := by
  have hcount : w.machine.runningTaskCount = 0 := by rw [(hP.tally w hw).running, hrun]; rfl
  have hrunnable : w.machine.isTaskRunnable = true := by
    simp only [isTaskRunnable, hcount, decide_eq_true_eq]
    omega
  simp only [scheduleNextUnblockedTask, hrunnable, if_true, hqueue, hcount]
  unfold increment
  split_ifs <;> simp_all [counterLimit]

/-- The loop of `clear_and_reinitialize` hands out and deschedules all active tasks, one after the
other, unless `unblocked_task_count` overflows. -/
theorem clear {n : ℕ} (hn : w.active.length = n) (hw : P w) (hrun : w.running = [])
    (hmax : 1 ≤ w.machine.maxRunningTaskCount) (count : ℕ) (hcount : count + n < counterLimit) :
    (w.machine.unblockedTaskCount + n < counterLimit →
      ∃ w', w.machine.clear count = some (count + n, w'.machine) ∧ P w' ∧ w'.active = [] ∧
        w'.running = [] ∧
        w'.machine.maxRunningTaskCount = w.machine.maxRunningTaskCount ∧
        w'.machine.maxUniqueActiveTaskCount = w.machine.maxUniqueActiveTaskCount) ∧
    (counterLimit ≤ w.machine.unblockedTaskCount + n → w.machine.clear count = none) := by
  induction n generalizing w count with
  | zero =>
    have hact : w.active = [] := eq_nil_of_length_eq_zero hn
    have hqueue : w.machine.unblockedTaskQueue = [] :=
      (append_eq_nil_iff.mp ((hP.runnable_iff w hw).mpr hact)).2
    have hnext : w.machine.scheduleNextUnblockedTask = some (none, w.machine) := by
      simp [scheduleNextUnblockedTask, hqueue]
    constructor
    · intro _
      refine ⟨w, ?_, hw, hact, hrun, rfl, rfl⟩
      rw [clear_eq, hnext]
      rfl
    · intro hle
      have := (hP.tally w hw).unblockedLimit
      omega
  | succ n ih =>
    have hact : w.active ≠ [] := by
      rintro hnil
      rw [hnil] at hn
      cases hn
    have hrunnable : w.runnable = w.machine.unblockedTaskQueue := by rw [runnable, hrun, nil_append]
    obtain ⟨task, rest, hqueue⟩ : ∃ task rest, w.machine.unblockedTaskQueue = task :: rest := by
      refine exists_cons_of_ne_nil ?_
      rw [← hrunnable]
      exact fun hnil => hact ((hP.runnable_iff w hw).mp hnil)
    have hmem : task ∈ w.active := by
      refine hP.mem_active w task hw ?_
      rw [hrunnable, hqueue]
      exact mem_cons_self
    have hnext := hP.scheduleNext hw hrun hmax hqueue
    by_cases hlim : w.machine.unblockedTaskCount + 1 < counterLimit
    · rw [if_pos hlim] at hnext
      have hcall : w.call .scheduleNextUnblockedTask = some (some task,
          { machine := { w.machine with
              unblockedTaskQueue := rest
              runningTaskCount := 1
              unblockedTaskCount := w.machine.unblockedTaskCount + 1 }
            active := w.active
            running := [task] }) := by
        simp [call, hnext, hrun]
      obtain ⟨w2, hcall2, hw2, hactive2, hrunning2, hunblocked2, hmax2, hcap2⟩ :=
        hP.deschedule _ task (hP.next w _ _ hw hcall) mem_cons_self
      have hdesch : descheduleTask { w.machine with
          unblockedTaskQueue := rest
          runningTaskCount := 1
          unblockedTaskCount := w.machine.unblockedTaskCount + 1 } task = some w2.machine := by
        simp only [call, Option.bind_eq_bind, Option.bind_eq_some_iff, Option.pure_def,
          some.injEq, Prod.mk.injEq, true_and] at hcall2
        obtain ⟨m, hm, rfl⟩ := hcall2
        exact hm
      have hclear : w.machine.clear count = w2.machine.clear (count + 1) := by
        have hinc : increment count = some (count + 1) := increment_eq_some_iff.mpr ⟨rfl, by omega⟩
        rw [clear_eq, hnext]
        simp only [Option.bind_some, Option.elim_some, hdesch, hinc]
      have hlen : w2.active.length = n := by
        have := length_erase_add_one hmem
        rw [hactive2]
        show (w.active.erase task).length = n
        omega
      have hrun2 : w2.running = [] := by
        rw [hrunning2]
        simp
      obtain ⟨h1, h2⟩ := ih hlen hw2 hrun2 (by rw [hmax2]; exact hmax) (count + 1) (by omega)
      rw [hunblocked2] at h1 h2
      rw [hclear]
      constructor
      · intro hle
        obtain ⟨w', hc, hrest⟩ := h1 (by show w.machine.unblockedTaskCount + 1 + n < _; omega)
        refine ⟨w', ?_, ?_⟩
        · rw [hc]
          congr 2
          omega
        · rw [hmax2, hcap2] at hrest
          exact hrest
      · intro hle
        exact h2 (by show _ ≤ w.machine.unblockedTaskCount + 1 + n; omega)
    · rw [if_neg hlim] at hnext
      exact ⟨fun hle => absurd hle (by omega), fun _ => by rw [clear_eq, hnext]; rfl⟩

/-- `reinitialize` succeeds when no task is active, and leaves the state machine as it was
created. -/
theorem reinitialize (hw : P w) (hact : w.active = []) :
    ∃ s, w.machine.reinitialize = some s ∧
      new capability (some w.machine.maxRunningTaskCount)
        w.machine.maxUniqueActiveTaskCount = some s := by
  have htally := hP.tally w hw
  have hrunnable : w.running = [] ∧ w.machine.unblockedTaskQueue = [] :=
    append_eq_nil_iff.mp ((hP.runnable_iff w hw).mpr hact)
  have hactive : w.machine.activeTaskCount = 0 := by rw [htally.active, hact]; rfl
  have hrunning : w.machine.runningTaskCount = 0 := by rw [htally.running, hrunnable.1]; rfl
  have hhashes : w.machine.uniqueActiveTaskHashes = ∅ := by
    have hh := htally.hashes
    split_ifs at hh
    · rw [hh.1, hact]
      rfl
    · exact hh
  obtain ⟨hqueues, hcounts⟩ := hP.idle w hw hact
  refine ⟨{ w.machine with
    activeTaskCount := 0
    peakActiveTaskCount := 0
    droppedTaskCount := 0
    handledTaskCount := 0
    unblockedTaskCount := 0
    totalTaskCount := 0 }, ?_, ?_⟩
  · simp [SchedulingStateMachine.reinitialize, SchedulingStateMachine.hasNoActiveTask, hactive,
      hhashes, hrunning, hrunnable.2]
  · have hmaxlim := htally.maxRunning
    simp [new, hmaxlim, hrunnable.2, hhashes, hrunning, hqueues, hcounts]

/-- `clear_and_reinitialize` succeeds if and only if `unblocked_task_count` does not overflow, and
then leaves the state machine as it was created. -/
theorem clearAndReinitialize (hw : P w) (hrun : w.running = [])
    (hmax : 1 ≤ w.machine.maxRunningTaskCount) :
    (w.machine.unblockedTaskCount + w.active.length < counterLimit →
      ∃ s, w.machine.clearAndReinitialize = some (w.active.length, s) ∧
        new capability (some w.machine.maxRunningTaskCount)
          w.machine.maxUniqueActiveTaskCount = some s) ∧
    (counterLimit ≤ w.machine.unblockedTaskCount + w.active.length →
      w.machine.clearAndReinitialize = none) := by
  have htally := hP.tally w hw
  have htotal := htally.total
  have hlimit := htally.totalLimit
  obtain ⟨h1, h2⟩ := hP.clear rfl hw hrun hmax 0 (by omega)
  constructor
  · intro hle
    obtain ⟨w', hclear, hw', hact', hrun', hmax', hcap'⟩ := h1 hle
    obtain ⟨s, hs, hnew⟩ := hP.reinitialize hw' hact'
    rw [hmax', hcap'] at hnew
    refine ⟨s, ?_, hnew⟩
    simp [SchedulingStateMachine.clearAndReinitialize, hclear, hs]
  · intro hle
    simp [SchedulingStateMachine.clearAndReinitialize, h2 hle]

end
end Drainable

/-! ## All runs -/

/-- The sessions of all runs are drainable. -/
theorem exists_drainable (capability : Capability) :
    ∃ P : Session → Prop, Drainable capability P ∧ ∀ w, IdReachable capability w → P w := by
  cases capability with
  | priorityQueueing => exact ⟨Invariant, drainable_invariant, fun w h => h.invariant⟩
  | fifoQueueing => exact ⟨_, drainable_sim, fun w h => h.reachable.exists_sim⟩

/-- **The scheduler neither deadlocks nor leaks.**  As long as a task is active, a task is running
or can be handed out. When no task is running, `clear_and_reinitialize` returns the number of
active tasks and leaves the state machine, with all its usage queues, as it was created; it panics
if and only if `unblocked_task_count` overflows while the active tasks are handed out. -/
theorem IdReachable.noDeadlock {capability : Capability} {w : Session}
    (h : IdReachable capability w) :
    (0 < w.machine.activeTaskCount → w.running ≠ [] ∨ w.machine.unblockedTaskQueue ≠ []) ∧
      (w.running = [] → 1 ≤ w.machine.maxRunningTaskCount →
        (w.machine.unblockedTaskCount + w.machine.activeTaskCount < counterLimit →
          ∃ s, w.machine.clearAndReinitialize = some (w.machine.activeTaskCount, s) ∧
            (∀ a, s.usageQueues a = UsageQueueInner.new capability) ∧
            new capability (some w.machine.maxRunningTaskCount)
              w.machine.maxUniqueActiveTaskCount = some s) ∧
        (counterLimit ≤ w.machine.unblockedTaskCount + w.machine.activeTaskCount →
          w.machine.clearAndReinitialize = none)) := by
  obtain ⟨P, hP, hreach⟩ := exists_drainable capability
  have hw := hreach w h
  have hactive := (hP.tally w hw).active
  constructor
  · intro hpos
    by_contra hnone
    push Not at hnone
    have hnil : w.runnable = [] := append_eq_nil_iff.mpr hnone
    rw [hactive, (hP.runnable_iff w hw).mp hnil] at hpos
    exact absurd hpos (lt_irrefl 0)
  · intro hrun hmax
    obtain ⟨h1, h2⟩ := hP.clearAndReinitialize hw hrun hmax
    rw [hactive]
    refine ⟨fun hle => ?_, h2⟩
    obtain ⟨s, hclear, hnew⟩ := h1 hle
    refine ⟨s, hclear, fun a => ?_, hnew⟩
    rw [new] at hnew
    split_ifs at hnew
    rw [← some_inj.mp hnew]

/-- Two writers of one address, both buffered. -/
def bufferedWriters : Session :=
  (run .priorityQueueing (some 1) none
    [.scheduleOrBufferTask (writer 1 5) true,
      .scheduleOrBufferTask (writer 2 9) true]).get (by decide)

theorem noDeadlock_bufferedWriters :
    ∃ s, bufferedWriters.machine.clearAndReinitialize = some (2, s) ∧
      ∀ a, s.usageQueues a = UsageQueueInner.new .priorityQueueing := by
  have hreach : IdReachable .priorityQueueing bufferedWriters :=
    idReachable_of_run (some_get _).symm
  obtain ⟨s, hclear, hqueues, -⟩ := (hreach.noDeadlock.2 rfl (by decide)).1 (by decide)
  exact ⟨s, hclear, hqueues⟩

/-! ## The counter that overflows -/

/-- A task that writes an address of its own. -/
def ownWriter (n : ℕ) : Task :=
  { ptr := n, taskId := n, hash := n, lockContexts := [⟨n, .writable⟩] }

/-- The session in which `n` tasks with different addresses are buffered. -/
def buffered (n : ℕ) : Session :=
  { machine :=
      { unblockedTaskQueue := (List.range n).map ownWriter
        activeTaskCount := n
        peakActiveTaskCount := n
        droppedTaskCount := 0
        maxUniqueActiveTaskCount := none
        uniqueActiveTaskHashes := ∅
        runningTaskCount := 0
        maxRunningTaskCount := counterLimit - 1
        handledTaskCount := 0
        unblockedTaskCount := n
        totalTaskCount := n
        blockedUsageCounts := fun _ => 0
        usageQueues := fun a => if a < n then .fifo (some (.writable ())) [] else .fifo none [] }
    active := (List.range n).map ownWriter
    running := [] }

theorem call_buffered {n : ℕ} (hn : n + 1 < counterLimit) :
    (buffered n).call (.scheduleOrBufferTask (ownWriter n) true) =
      some (none, buffered (n + 1)) := by
  have hinc : increment n = some (n + 1) := increment_eq_some_iff.mpr ⟨rfl, hn⟩
  have hqueues : update
      (fun a => if a < n then UsageQueueInner.fifo (some (.writable ())) [] else .fifo none [])
      n (.fifo (some (.writable ())) []) =
      fun a => if a < n + 1 then .fifo (some (.writable ())) [] else .fifo none [] := by
    funext a
    by_cases ha : a = n
    · subst ha
      simp
    · rw [update_of_ne ha]
      have : a < n + 1 ↔ a < n := by omega
      simp only [this]
  simp [call, buffered, scheduleOrBufferTask, hinc, isDropped, countAccepted, tryLockUsageQueues,
    ownWriter, lockContexts, UsageQueueInner.lockUsage, UsageQueueInner.prepareLock,
    UsageQueueInner.tryLock, countBlocked, runOrBuffer, hqueues, Usage.fifoFrom, range_succ]

theorem idReachable_buffered {n : ℕ} (hn : n < counterLimit) :
    IdReachable .fifoQueueing (buffered n) := by
  induction n with
  | zero => exact ⟨buffered 0, ⟨⟨none, none, rfl⟩, rfl, rfl⟩, .refl⟩
  | succ n ih =>
    obtain ⟨w0, hinit, hrun⟩ := ih (by omega)
    refine ⟨w0, hinit, hrun.tail ⟨_, none, ?_, ?_, call_buffered hn⟩⟩
    · refine ⟨?_, nodup_singleton n⟩
      simp [buffered, ownWriter]
    · exact forall_mem_map.mpr fun m hm => (mem_range.mp hm).ne

/-- With `2 ^ 31` buffered tasks, clearing panics although no task is running. -/
theorem clearAndReinitialize_panics :
    ∃ w, IdReachable .fifoQueueing w ∧ w.running = [] ∧ 1 ≤ w.machine.maxRunningTaskCount ∧
      w.machine.clearAndReinitialize = none := by
  have hreach : IdReachable .fifoQueueing (buffered (2 ^ 31)) := idReachable_buffered (by decide)
  have hlen : (buffered (2 ^ 31)).active.length = 2 ^ 31 := by
    rw [buffered, length_map, length_range]
  have hmax : 1 ≤ (buffered (2 ^ 31)).machine.maxRunningTaskCount := by
    decide
  refine ⟨buffered (2 ^ 31), hreach, rfl, hmax, ?_⟩
  refine (drainable_sim.clearAndReinitialize hreach.reachable.exists_sim rfl hmax).2 ?_
  rw [hlen]
  decide

end FlowraValidator.UnifiedScheduler.Session
