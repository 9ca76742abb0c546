import FlowraValidator.UnifiedScheduler.Progress

/-!
# Where the scheduler can panic

The queues and the state machine are full of assertions: the first entry behind readers is a
writer, nobody waits for an unused address, a popped entry can be locked, a key is inserted once.
Here is the other half of the invariant: as long as the caller respects the rules, none of these
assertions fails, and the only counter that can overflow is `unblocked_task_count`.

That counter is incremented when a task is buffered and once more when the task is handed out, so
`2 ^ 31` tasks are enough to exhaust its 32 bits.

* `UsageQueueInner.exists_lockUsage`: locking one address of an ordered queue never fails.
* `Consistent.Locking.exists_lockContexts`: neither does the loop over all addresses of a task.
* `Session.Books`: the statistics that hold for both kinds of queue.
* `Session.Sound`: everything an observer may rely on between two calls.
* `Session.IdReachable.session_sound`: it holds in every run.
-/

namespace FlowraValidator.UnifiedScheduler
open LockContext ShortCounter Function KeyedList List Option SchedulingStateMachine
  UnifiedScheduler.Task

/-! ## Locking one address -/

variable {t : Task}

theorem Task.exists_tryReblock {counts : BlockedUsageCounts} (h : counts t + 1 < counterLimit)
    : ∃ r, t.tryReblock counts = some r := by
  by_cases h0 : counts t = 0
  · exact ⟨_, tryReblock_of_eq_zero h0⟩
  · rw [tryReblock, if_neg h0, increment_eq_some_iff.mpr ⟨rfl, h⟩]
    exact ⟨_, rfl⟩

namespace UsageQueueInner
variable {counts : BlockedUsageCounts} {ts : List Task}

theorem exists_extractReblocked {n : ℕ} (hts : ts.Nodup)
    (hc : ∀ t ∈ ts, counts t + 1 < counterLimit) :
    ∃ r, extractReblocked n ts counts = some r := by
  induction ts generalizing counts with
  | nil => exact ⟨_, rfl⟩
  | cons t ts ih =>
    obtain ⟨hnt, hts'⟩ := nodup_cons.mp hts
    have hrest : ∀ u ∈ ts, counts u + 1 < counterLimit := fun u hu => hc u (mem_cons_of_mem t hu)
    rw [extractReblocked]
    by_cases hlt : t.taskId < n
    · obtain ⟨r, hr⟩ := ih hts' hrest
      rw [if_pos hlt, hr]
      exact ⟨_, rfl⟩
    · obtain ⟨⟨reblocked, counts1⟩, hre⟩ := exists_tryReblock (hc t mem_cons_self)
      -- reblocking `t` leaves the counters of the other readers alone
      have hsame : ∀ u ∈ ts, counts1 u = counts u := by
        intro u hu
        by_cases h0 : counts t = 0
        · rw [tryReblock_of_eq_zero h0, some_inj, Prod.mk.injEq] at hre
          rw [← hre.2]
        · have hr := tryReblock_of_ne_zero h0 hre
          rw [Prod.mk.injEq] at hr
          rw [hr.2, update_of_ne]
          rintro rfl
          exact hnt hu
      have hroom : ∀ u ∈ ts, counts1 u + 1 < counterLimit := by
        intro u hu
        rw [hsame u hu]
        exact hrest u hu
      obtain ⟨r, hr⟩ := ih hts' hroom
      rw [if_neg hlt, hre, bind_eq_bind, bind_some]
      dsimp only
      rw [hr]
      cases reblocked with
      | true | false => exact ⟨_, rfl⟩

variable {b : List UsageFromTask} {pending : Task → Prop}

theorem exists_insertReblocked (hts : KeyedList.Sorted taskId ts)
    (hd : ∀ t ∈ ts, ∀ e ∈ b, e.key ≠ t.taskId) :
    ∃ b', insertReblocked ts b = some b' := by
  induction ts generalizing b with
  | nil => exact ⟨b, rfl⟩
  | cons t ts ih =>
    obtain ⟨hlt, hts'⟩ := sorted_cons.mp hts
    have hfresh : ∀ e ∈ b, e.key ≠ UsageFromTask.key (.readonly, t) := hd t mem_cons_self
    obtain ⟨b1, hb1⟩ := exists_insertNew hfresh
    have hd1 : ∀ u ∈ ts, ∀ e ∈ b1, e.key ≠ u.taskId := by
      intro u hu e he
      rcases (mem_of_insertNew hb1).mp he with rfl | he
      · exact (hlt u hu).ne
      · exact hd u (mem_cons_of_mem t hu) e he
    obtain ⟨b', hb'⟩ := ih hts' hd1
    rw [insertReblocked, hb1]
    exact ⟨b', hb'⟩

theorem exists_pushBlocked (cur : Usage (List Task) Task) (e : UsageFromTask)
    (h : ∀ x ∈ b, x.key ≠ e.key) :
    ∃ q', (priority (some cur) b).pushBlocked e = some q' := by
  obtain ⟨b', hb'⟩ := exists_insertNew h
  exact ⟨_, pushBlocked_eq_some_iff.mpr ⟨b', hb', rfl⟩⟩

section

attribute [local simp] lockUsage prepareLock tryLock

/-- An address that is written is left alone, or taken back from its writer. -/
theorem exists_lockUsage_writable {current : Task} {task : Task} (requested : RequestedUsage)
    (hq : Ordered pending (priority (some (.writable current)) b))
    (hcur : current.taskId ≠ task.taskId) (hfresh : ∀ e ∈ b, e.key ≠ task.taskId)
    (hcnt : counts current + 1 < counterLimit) :
    ∃ r, (priority (some (.writable current)) b).lockUsage counts task requested = some r := by
  obtain ⟨q2, hpush⟩ := exists_pushBlocked (.writable current) (requested, task) hfresh
  by_cases hlt : task.taskId < current.taskId
  · obtain ⟨⟨reblocked, counts1⟩, hre⟩ := exists_tryReblock hcnt
    cases reblocked with
    | true =>
      have hne : ∀ e ∈ b, e.key ≠ UsageFromTask.key (.writable, current) := fun e he =>
        (hq.disjoint (.writable, current) (by simp) e he).symm
      obtain ⟨b', hb'⟩ := exists_insertNew hne
      simp [isHigherPriority_of_lt hlt, hre, hb']
    | false => simp [isHigherPriority_of_lt hlt, hre, hpush]
  · have hgt : current.taskId < task.taskId := by omega
    simp [isHigherPriority_of_gt hgt, hpush]

/-- A reader joins the readers, or waits behind a writer of higher priority. -/
theorem exists_lockUsage_readonly_readonly {task : Task}
    (hq : Ordered pending (reading ts b))
    (hcur : ∀ t ∈ ts, t.taskId ≠ task.taskId) (hfresh : ∀ e ∈ b, e.key ≠ task.taskId) :
    ∃ r, (reading ts b).lockUsage counts task .readonly = some r := by
  obtain ⟨ts', hts'⟩ := exists_insertNew hcur
  cases b with
  | nil => simp [hts']
  | cons e b =>
    obtain ⟨usage, waiting⟩ := e
    have hw : usage = .writable := hq.writerFirst rfl (usage, waiting) rfl
    subst hw
    have hne : waiting.taskId ≠ task.taskId := hfresh _ mem_cons_self
    by_cases hlt : task.taskId < waiting.taskId
    · simp [isHigherPriority_of_lt hlt, hts']
    · have hgt : waiting.taskId < task.taskId := by omega
      obtain ⟨q2, hpush⟩ := exists_pushBlocked (.readonly ts) (.readonly, task) hfresh
      simp [isHigherPriority_of_gt hgt, hpush]

/-- A writer takes the address back from the pending readers of lower priority. -/
theorem exists_lockUsage_readonly_writable {task : Task}
    (hq : Ordered pending (reading ts b))
    (hcur : ∀ t ∈ ts, t.taskId ≠ task.taskId) (hfresh : ∀ e ∈ b, e.key ≠ task.taskId)
    (hcnt : ∀ t ∈ ts, counts t + 1 < counterLimit) :
    ∃ r, (reading ts b).lockUsage counts task .writable = some r := by
  have hts : KeyedList.Sorted taskId ts := hq.readers_sorted
  obtain ⟨⟨kept, out, counts1⟩, hext⟩ := exists_extractReblocked (n := task.taskId) hts.nodup hcnt
  obtain ⟨-, hout, -, -⟩ := extractReblocked_spec hts.nodup hext
  have hmem : ∀ t ∈ out, t ∈ ts := by
    intro t ht
    rw [hout] at ht
    exact mem_of_mem_filter ht
  have hsorted : KeyedList.Sorted taskId out := by
    rw [hout]
    exact hts.filter _
  have hapart : ∀ t ∈ out, ∀ e ∈ b, e.key ≠ t.taskId := fun t ht e he =>
    (hq.disjoint (.readonly, t) (mem_held_readonly (hmem t ht)) e he).symm
  obtain ⟨b', hb'⟩ := exists_insertReblocked hsorted hapart
  by_cases hkept : kept = []
  · simp [hext, hb', hkept]
  · have hfresh' : ∀ e ∈ b', e.key ≠ task.taskId := by
      intro e he
      rcases ((insertReblocked_spec hq.blockedSorted hb').2 e).mp he with he | ⟨t, ht, rfl⟩
      · exact hfresh e he
      · exact hcur t (hmem t ht)
    obtain ⟨q2, hpush⟩ := exists_pushBlocked (.readonly kept) (.writable, task) hfresh'
    simp [hext, hb', hkept, hpush]

/-- **Locking an address never fails** for a task that does not use it yet, as long as the counters
of the holders leave room for one more blocked usage. -/
theorem exists_lockUsage {q : UsageQueueInner} {task : Task} (requested : RequestedUsage)
    (hq : Ordered pending q) (hcur : ∀ e ∈ q.held, e.key ≠ task.taskId)
    (hfresh : ∀ e ∈ q.blocked, e.key ≠ task.taskId)
    (hcnt : ∀ e ∈ q.held, counts e.2 + 1 < counterLimit) :
    ∃ r, q.lockUsage counts task requested = some r := by
  obtain ⟨cur, b, rfl⟩ := hq.isPriority
  match cur with
  | none =>
    rw [hq.blocked_nil]
    simp
  | some (.writable current) =>
    exact exists_lockUsage_writable requested hq (hcur (.writable, current) (by simp)) hfresh
      (hcnt (.writable, current) (by simp))
  | some (.readonly ts) =>
    cases requested with
    | readonly =>
      exact exists_lockUsage_readonly_readonly hq (fun t ht => hcur _ (mem_held_readonly ht)) hfresh
    | writable =>
      exact exists_lockUsage_readonly_writable hq (fun t ht => hcur _ (mem_held_readonly ht)) hfresh
        fun t ht => hcnt _ (mem_held_readonly ht)

end
end UsageQueueInner

/-! ## Locking all addresses of a task -/

variable {a : Pubkey}

namespace Consistent
variable {pending : Task → Prop} {entered : Task → List LockContext}
  {queues : Pubkey → UsageQueueInner} {counts : BlockedUsageCounts}

section
variable (h : Consistent pending entered queues counts)
include h
/-- The addresses at which a task waits, among its own. -/
theorem waitsAt_subset (t : Task) : waitsAt queues t ⊆ ((entered t).map usageQueue).toFinset := by
  rintro a ⟨u, hu⟩
  rw [Finset.mem_coe, List.mem_toFinset]
  exact mem_map_of_mem (f := usageQueue) ((h.uses_iff a (u, t)).mp (.inr hu))

theorem counts_le_length (t : Task) : counts t ≤ (entered t).length := by
  rw [h.counts_eq t]
  calc (waitsAt queues t).ncard
      ≤ ((entered t).map usageQueue).toFinset.card := by
        rw [← Set.ncard_coe_finset]
        exact Set.ncard_le_ncard (h.waitsAt_subset t) (Finset.finite_toSet _)
    _ ≤ ((entered t).map usageQueue).length := toFinset_card_le _
    _ = (entered t).length := length_map _

/-- A task that holds an address waits at fewer addresses than it has. -/
theorem counts_lt_length {e : UsageFromTask} (he : e ∈ (queues a).held) :
    counts e.2 < (entered e.2).length := by
  have hmem : a ∈ ((entered e.2).map usageQueue).toFinset := by
    rw [List.mem_toFinset]
    exact mem_map_of_mem (f := usageQueue) ((h.uses_iff a e).mp (.inl he))
  have hsub : waitsAt queues e.2 ⊂ ((entered e.2).map usageQueue).toFinset := by
    refine ⟨h.waitsAt_subset e.2, fun hle => ?_⟩
    exact (h.ordered a).not_waits he (hle (Finset.mem_coe.mpr hmem))
  rw [h.counts_eq e.2]
  calc (waitsAt queues e.2).ncard
      < ((entered e.2).map usageQueue).toFinset.card := by
        rw [← Set.ncard_coe_finset]
        exact Set.ncard_lt_ncard hsub (Finset.finite_toSet _)
    _ ≤ ((entered e.2).map usageQueue).length := toFinset_card_le _
    _ = (entered e.2).length := length_map _

end

/-- **The locking loop never fails** for a task with a new id and without duplicate addresses, as
long as no task has so many addresses that its counter overflows. -/
theorem Locking.exists_lockContexts {task : Task} {cs : List LockContext} {blocked : ℕ}
    (h : Locking pending entered queues counts task blocked cs)
    (hlen : ∀ t, (entered t).length < counterLimit)
    (hlen' : (entered task ++ cs).length < counterLimit) :
    ∃ r, SchedulingStateMachine.lockContexts task cs queues counts blocked = some r := by
  induction cs generalizing entered queues counts blocked with
  | nil => exact ⟨_, rfl⟩
  | cons c cs ih =>
    have hcnt : ∀ e ∈ (queues c.usageQueue).held, counts e.2 + 1 < counterLimit := by
      intro e he
      have hlt := h.consistent.counts_lt_length he
      rw [update_of_ne (h.task_ne (.inl he))] at hlt
      have := hlen e.2
      omega
    obtain ⟨⟨granted, q', counts'⟩, hl⟩ :=
      UsageQueueInner.exists_lockUsage c.requestedUsage (h.consistent.ordered c.usageQueue)
        (fun e he => h.key_ne (.inl he)) (fun e he => h.key_ne (.inr he)) hcnt
    have hb : countBlocked granted blocked = some (if granted then blocked else blocked + 1) := by
      cases granted with
      | true => rfl
      | false =>
        have hle := h.consistent.counts_le_length task
        rw [update_self] at hle
        rw [length_append, length_cons] at hlen'
        exact increment_eq_some_iff.mpr ⟨rfl, by omega⟩
    rw [SchedulingStateMachine.lockContexts, hl, bind_eq_bind, bind_some]
    dsimp only
    rw [hb, bind_eq_bind, bind_some]
    refine ih (h.step hl).1 ?_ ?_
    · refine (forall_update_iff entered fun _ l => l.length < counterLimit).mpr
        ⟨?_, fun t _ => hlen t⟩
      rw [length_append, length_cons] at hlen'
      rw [length_append, length_singleton]
      omega
    · rwa [update_self, append_assoc]

end Consistent

/-! ## The books -/

/-- How the statistics of a state machine add up. A task that waits for being handed out has been
counted in `unblocked_task_count` at most once, and any other task at most twice. -/
structure SchedulingStateMachine.Books (s : SchedulingStateMachine) : Prop where
  total : s.totalTaskCount = s.droppedTaskCount + s.activeTaskCount + s.handledTaskCount
  running : s.runningTaskCount ≤ s.maxRunningTaskCount
  unblocked : s.unblockedTaskCount ≤ s.activeTaskCount + s.runningTaskCount + 2 * s.handledTaskCount

namespace Session
variable {w : Session} {capability : Capability}

theorem Initial.books (h : Initial capability w) : w.machine.Books := by
  obtain ⟨⟨maxRunning, maxUnique, hnew⟩, -, -⟩ := h
  rw [new] at hnew
  split_ifs at hnew with hlim
  rw [← some_inj.mp hnew]
  exact ⟨rfl, Nat.zero_le _, le_rfl⟩

variable {s : SchedulingStateMachine} {s' : SchedulingStateMachine} {f : Task → Task}
  {returned : Option Task} {c : Call} {v : Session}

/-- The books after a submission. -/
theorem books_submit {task : Task} {force : Bool} (h : s.Books)
    (hcall : s.scheduleOrBufferTask task force = some (returned, s')) : s'.Books := by
  have htot := h.total
  have hrun := h.running
  have hunb := h.unblocked
  simp only [scheduleOrBufferTask, bind_eq_bind, Option.bind_eq_some_iff, Option.pure_def] at hcall
  obtain ⟨total, htotal, hrest⟩ := hcall
  obtain ⟨rfl, -⟩ := increment_eq_some_iff.mp htotal
  split_ifs at hrest with hdrop
  · obtain ⟨dropped, hdropped, hm⟩ := bind_eq_some_iff.mp hrest
    obtain ⟨rfl, -⟩ := increment_eq_some_iff.mp hdropped
    rw [Option.some.injEq, Prod.mk.injEq] at hm
    rw [← hm.2]
    refine ⟨?_, hrun, hunb⟩
    show s.totalTaskCount + 1 = s.droppedTaskCount + 1 + s.activeTaskCount + s.handledTaskCount
    omega
  · obtain ⟨s1, hs1, hrest⟩ := bind_eq_some_iff.mp hrest
    obtain ⟨⟨locked, s2⟩, hlock, hrest⟩ := bind_eq_some_iff.mp hrest
    obtain ⟨-, rfl⟩ := countAccepted_eq_some_iff.mp hs1
    obtain ⟨queues, counts, blocked, -, -, rfl⟩ := tryLockUsageQueues_eq_some hlock
    have hadd : s.totalTaskCount + 1 =
        s.droppedTaskCount + (s.activeTaskCount + 1) + s.handledTaskCount := by omega
    cases locked with
    | true =>
      rcases runOrBuffer_cases hrest with ⟨-, -, rfl⟩ | ⟨-, hlt, rfl⟩
      · refine ⟨hadd, hrun, ?_⟩
        show s.unblockedTaskCount + 1 ≤
          s.activeTaskCount + 1 + s.runningTaskCount + 2 * s.handledTaskCount
        omega
      · refine ⟨hadd, hlt, ?_⟩
        show s.unblockedTaskCount ≤
          s.activeTaskCount + 1 + (s.runningTaskCount + 1) + 2 * s.handledTaskCount
        omega
    | false =>
      cases hrest
      refine ⟨hadd, hrun, ?_⟩
      show s.unblockedTaskCount ≤
        s.activeTaskCount + 1 + s.runningTaskCount + 2 * s.handledTaskCount
      omega

theorem books_next (h : s.Books) (hcall : s.scheduleNextUnblockedTask = some (returned, s'))
    : s'.Books := by
  rcases scheduleNextUnblockedTask_cases hcall with
    ⟨-, rfl⟩ | ⟨task, rest, -, -, hlt, -, rfl⟩
  · exact h
  · have hunb := h.unblocked
    refine ⟨h.total, hlt, ?_⟩
    show s.unblockedTaskCount + 1 ≤
      s.activeTaskCount + (s.runningTaskCount + 1) + 2 * s.handledTaskCount
    omega

theorem books_deschedule {task : Task} (h : s.Books) (hcall : s.descheduleTask task = some s') :
    s'.Books := by
  have htot := h.total
  have hrun := h.running
  have hunb := h.unblocked
  simp only [descheduleTask, unlockUsageQueues, Option.bind_eq_bind, Option.bind_eq_some_iff,
    Option.pure_def, Option.some.injEq, Prod.exists] at hcall
  obtain ⟨s1, hs1, queues, counts, unblocked, -, rfl⟩ := hcall
  obtain ⟨running, hashes, active, hr, -, ha, -, rfl⟩ := countDescheduled_eq_some_iff.mp hs1
  refine ⟨?_, ?_, ?_⟩
  · show s.totalTaskCount = s.droppedTaskCount + active + (s.handledTaskCount + 1)
    omega
  · show running ≤ s.maxRunningTaskCount
    omega
  · show s.unblockedTaskCount ≤ active + running + 2 * (s.handledTaskCount + 1)
    omega

/-- One call keeps the books, for either kind of queue. -/
theorem books_step {w' : Session} (h : w.machine.Books) (hs : Step w w') : w'.machine.Books := by
  obtain ⟨c, r, -, hcall⟩ := hs
  cases c with
  | scheduleOrBufferTask task force =>
    obtain ⟨⟨returned, s⟩, hs, hw⟩ := bind_eq_some_iff.mp hcall
    cases hw
    exact books_submit h hs
  | scheduleNextUnblockedTask =>
    obtain ⟨⟨returned, s⟩, hs, hw⟩ := bind_eq_some_iff.mp hcall
    cases hw
    exact books_next h hs
  | descheduleTask task =>
    obtain ⟨s, hs, hw⟩ := bind_eq_some_iff.mp hcall
    cases hw
    exact books_deschedule h hs

theorem Reachable.books (h : Reachable capability w) : w.machine.Books := by
  obtain ⟨w0, hinit, hrun⟩ := h
  induction hrun with
  | refl => exact hinit.books
  | tail _ hs ih => exact books_step ih hs

/-! ## No call panics -/

/-- The counters leave room for a call. The number of addresses of a task is bounded by the
transaction format, far below the bound that is needed here. -/
def HasRoom (w : Session) : Call → Prop
  | .scheduleOrBufferTask task _ =>
    w.machine.totalTaskCount + 1 < counterLimit ∧ w.machine.unblockedTaskCount + 1 < counterLimit ∧
      ∀ t ∈ task :: w.active, t.lockContexts.length < counterLimit
  | .scheduleNextUnblockedTask => w.machine.unblockedTaskCount + 1 < counterLimit
  | .descheduleTask _ => True

theorem exists_runOrBuffer (task : Task) (force : Bool)
    (hmax : s.maxRunningTaskCount < counterLimit) (hunb : s.unblockedTaskCount + 1 < counterLimit) :
    ∃ r, s.runOrBuffer task force = some r := by
  unfold runOrBuffer
  split_ifs with hc
  · rw [increment_eq_some_iff.mpr ⟨rfl, hunb⟩]
    exact ⟨_, rfl⟩
  · have hlt : s.runningTaskCount < s.maxRunningTaskCount := by
      rw [Bool.or_eq_true, not_or, Bool.not_eq_true', Bool.not_eq_false] at hc
      simpa [isTaskRunnable] using hc.1
    rw [increment_eq_some_iff.mpr ⟨rfl, by omega⟩]
    exact ⟨_, rfl⟩

theorem exists_scheduleNextUnblockedTask (hmax : s.maxRunningTaskCount < counterLimit)
    (hunb : s.unblockedTaskCount + 1 < counterLimit) :
    ∃ r, s.scheduleNextUnblockedTask = some r := by
  unfold scheduleNextUnblockedTask
  split_ifs with hc
  · have hlt : s.runningTaskCount < s.maxRunningTaskCount := by
      simpa [isTaskRunnable] using hc
    cases s.unblockedTaskQueue with
    | nil => exact ⟨_, rfl⟩
    | cons task rest =>
      have hrunning : increment s.runningTaskCount = some (s.runningTaskCount + 1) :=
        increment_eq_some_iff.mpr ⟨rfl, by omega⟩
      have hunblocked : increment s.unblockedTaskCount =
          some (s.unblockedTaskCount + 1) := increment_eq_some_iff.mpr ⟨rfl, hunb⟩
      simp [hrunning, hunblocked]
  · exact ⟨_, rfl⟩

/-- Locking all addresses of a new task succeeds. -/
theorem Invariant.exists_lockContexts (h : w.Invariant) {task : Task} (hnew : task ∉ w.active)
    (haddr : task.addresses.Nodup) (hid : ∀ t ∈ w.active, t.taskId ≠ task.taskId)
    (hlen : ∀ t ∈ task :: w.active, t.lockContexts.length < counterLimit) :
    ∃ r, lockContexts task task.lockContexts w.machine.usageQueues
      w.machine.blockedUsageCounts 0 = some r := by
  refine (h.locking hnew haddr hid).exists_lockContexts ?_ ?_
  · intro t
    by_cases ht : t ∈ w.active
    · rw [entered_of_mem ht]
      exact hlen t (mem_cons_of_mem _ ht)
    · rw [entered_of_notMem ht]
      decide
  · rw [entered_of_notMem hnew, nil_append]
    exact hlen task mem_cons_self

theorem Invariant.exists_scheduleOrBufferTask (h : w.Invariant) (hb : w.machine.Books) {task : Task}
    (force : Bool) (hnew : task ∉ w.active) (haddr : task.addresses.Nodup)
    (hid : ∀ t ∈ w.active, t.taskId ≠ task.taskId)
    (hroom : w.HasRoom (.scheduleOrBufferTask task force)) :
    ∃ r, w.call (.scheduleOrBufferTask task force) = some r := by
  obtain ⟨htotal, hunb, hlen⟩ := hroom
  have hadd := hb.total
  have hinc : increment w.machine.totalTaskCount = some (w.machine.totalTaskCount + 1) :=
    increment_eq_some_iff.mpr ⟨rfl, htotal⟩
  have hdropped : increment w.machine.droppedTaskCount = some (w.machine.droppedTaskCount + 1) :=
    increment_eq_some_iff.mpr ⟨rfl, by omega⟩
  suffices hs : ∃ r, w.machine.scheduleOrBufferTask task force = some r by
    obtain ⟨r, hr⟩ := hs
    simp [call, hr]
  unfold SchedulingStateMachine.scheduleOrBufferTask
  rw [hinc, bind_eq_bind, bind_some]
  dsimp only
  split_ifs with hdrop
  · simp [hdropped]
  · have hactive : w.machine.activeTaskCount + 1 < counterLimit := by omega
    obtain ⟨s, hs⟩ : ∃ s, countAccepted
        { w.machine with totalTaskCount := w.machine.totalTaskCount + 1 } task = some s :=
      ⟨_, countAccepted_eq_some_iff.mpr ⟨hactive, rfl⟩⟩
    obtain ⟨-, hs'⟩ := countAccepted_eq_some_iff.mp hs
    obtain ⟨⟨locked, s1⟩, hs1⟩ : ∃ r, s.tryLockUsageQueues task = some r := by
      obtain ⟨⟨queues, counts, blocked⟩, hl⟩ := h.exists_lockContexts hnew haddr hid hlen
      rw [hs', tryLockUsageQueues, hl, bind_eq_bind, bind_some]
      dsimp only
      split_ifs <;> exact ⟨_, rfl⟩
    obtain ⟨_, _, _, -, -, hs1'⟩ := tryLockUsageQueues_eq_some hs1
    rw [hs, bind_eq_bind, bind_some, hs1, bind_eq_bind, bind_some]
    cases locked with
    | false => exact ⟨_, rfl⟩
    | true =>
      refine exists_runOrBuffer task force ?_ ?_
      · rw [hs1', hs']
        exact h.tally.maxRunning
      · rwa [hs1', hs']

/-- **No permitted call panics** on priority queues while the counters have room. -/
theorem Invariant.exists_call (h : w.Invariant) (hb : w.machine.Books) (hp : w.Permits c)
    (hid : w.PermitsId c) (hroom : w.HasRoom c) : ∃ r, w.call c = some r := by
  cases c with
  | scheduleOrBufferTask task force =>
    exact h.exists_scheduleOrBufferTask hb force hp.1 hp.2 hid hroom
  | scheduleNextUnblockedTask =>
    obtain ⟨r, hr⟩ := exists_scheduleNextUnblockedTask h.tally.maxRunning hroom
    simp [call, hr]
  | descheduleTask task =>
    obtain ⟨w', hcall, -⟩ := h.descheduleTask hp
    exact ⟨_, hcall⟩

theorem Matches.exists_some {x y : Option (Option Task × Session)} (h : Matches f x y)
    (hx : ∃ r, x = some r) : ∃ r, y = some r := by
  obtain ⟨r, rfl⟩ := hx
  rcases h with ⟨hn, -⟩ | ⟨_, _, _, -, hy, -⟩
  · cases hn
  · exact ⟨_, hy⟩

/-- The same for fifo queues, where the ids of the tasks play no role. -/
theorem Sim.exists_call (h : Sim f v w) (hv : v.Increasing) (hb : w.machine.Books)
    (hp : w.Permits c) (hroom : w.HasRoom c) :
    ∃ r, w.call c = some r := by
  have hbooks : v.machine.Books := by
    rw [h.machine] at hb
    exact ⟨hb.total, hb.running, hb.unblocked⟩
  have htotal : w.machine.totalTaskCount = v.machine.totalTaskCount := by rw [h.machine]; rfl
  have hunb : w.machine.unblockedTaskCount = v.machine.unblockedTaskCount := by
    rw [h.machine]
    rfl
  cases c with
  | scheduleNextUnblockedTask =>
    refine (h.scheduleNextUnblockedTask hv).exists_some ?_
    refine hv.invariant.exists_call hbooks trivial trivial ?_
    rwa [HasRoom, ← hunb]
  | descheduleTask task =>
    have hmem : task ∈ w.running := hp
    rw [h.running, List.mem_map] at hmem
    obtain ⟨t, ht, rfl⟩ := hmem
    exact (h.descheduleTask hv ht).exists_some
      (hv.invariant.exists_call hbooks ht trivial trivial)
  | scheduleOrBufferTask task force =>
    obtain ⟨n, g, hlast, hmatch⟩ := h.exists_submit hv force hp
    have hnew : ({ task with taskId := n } : Task) ∉ v.active := fun hm => lt_irrefl _ (hlast _ hm)
    refine hmatch.exists_some (hv.invariant.exists_scheduleOrBufferTask hbooks force hnew hp.2
      (fun t ht => (hlast t ht).ne) ⟨?_, ?_, ?_⟩)
    · rw [← htotal]
      exact hroom.1
    · rw [← hunb]
      exact hroom.2.1
    · intro t ht
      rcases mem_cons.mp ht with rfl | ht
      · exact hroom.2.2 task mem_cons_self
      · rw [← h.lockContexts t ht]
        refine hroom.2.2 (f t) (mem_cons_of_mem _ ?_)
        rw [h.active]
        exact mem_map_of_mem ht

/-! ## What holds between two calls -/

/-- The addresses of a task in whose queue of waiting entries it sits. -/
def blockedAt (w : Session) (t : Task) : List Pubkey :=
  t.addresses.filter fun a => (w.machine.usageQueues a).blocked.any fun e => e.2 = t

theorem mem_blockedAt :
    a ∈ w.blockedAt t ↔ a ∈ t.addresses ∧ (w.machine.usageQueues a).Waits t := by
  rw [blockedAt, List.mem_filter, List.any_eq_true]
  refine and_congr_right fun _ => ⟨?_, ?_⟩
  · rintro ⟨⟨u, t'⟩, he, heq⟩
    rw [decide_eq_true_iff] at heq
    subst heq
    exact ⟨u, he⟩
  · rintro ⟨u, hu⟩
    exact ⟨(u, t), hu, by simp⟩

/-- What an observer may rely on between two calls. -/
structure Sound (w : Session) : Prop where
  /-- The counter of a task is the number of its addresses at which it waits. -/
  blockedUsageCounts : ∀ t ∈ w.active, w.machine.blockedUsageCounts t = (w.blockedAt t).length
  active : w.machine.activeTaskCount = w.active.length
  total : w.machine.totalTaskCount =
    w.machine.droppedTaskCount + w.machine.activeTaskCount + w.machine.handledTaskCount
  running : w.machine.runningTaskCount = w.running.length
  running_le : w.machine.runningTaskCount ≤ w.machine.maxRunningTaskCount
  hashes : w.machine.maxUniqueActiveTaskCount.isSome →
    w.machine.uniqueActiveTaskHashes = (w.active.map hash).toFinset
  /-- A task is counted in `unblocked_task_count` at most twice. -/
  unblocked_le : w.machine.unblockedTaskCount ≤ 2 * w.machine.totalTaskCount

theorem Invariant.blockedUsageCounts_eq (h : w.Invariant) (ht : t ∈ w.active) :
    w.machine.blockedUsageCounts t = (w.blockedAt t).length := by
  have hset : waitsAt w.machine.usageQueues t = (w.blockedAt t).toFinset := by
    ext a
    rw [Finset.mem_coe, List.mem_toFinset, mem_blockedAt, mem_waitsAt, iff_and_self]
    rintro ⟨u, hu⟩
    have hmem := (h.consistent.uses_iff a (u, t)).mp (.inr hu)
    rw [entered_of_mem ht] at hmem
    exact mem_map_of_mem (f := usageQueue) hmem
  rw [h.consistent.counts_eq, hset, Set.ncard_coe_finset, toFinset_card_of_nodup]
  exact (h.addressesNodup t ht).filter _

theorem Sim.blockedUsageCounts_eq (h : Sim f v w) (hv : v.Invariant) (ht : t ∈ w.active) :
    w.machine.blockedUsageCounts t = (w.blockedAt t).length := by
  rw [h.active, List.mem_map] at ht
  obtain ⟨t, ht, rfl⟩ := ht
  have haddr : (f t).addresses = t.addresses := by rw [addresses, addresses, h.lockContexts t ht]
  have hat : w.blockedAt (f t) = v.blockedAt t := by
    rw [blockedAt, blockedAt, haddr]
    refine filter_congr fun a ha => ?_
    have hfw := mem_blockedAt (w := w) (t := f t) (a := a)
    have hfv := mem_blockedAt (w := v) (t := t) (a := a)
    rw [haddr, blockedAt, haddr, mem_filter, and_congr_right_iff] at hfw
    rw [blockedAt, mem_filter, and_congr_right_iff] at hfv
    rw [Bool.eq_iff_iff, hfw ha, hfv ha]
    exact exists_congr fun u => h.mem_blocked hv ht a u
  rw [h.counts.eq t ht, hv.blockedUsageCounts_eq ht, hat]

theorem Tally.sound (h : w.Tally) (hb : w.machine.Books)
    (hcounts : ∀ t ∈ w.active, w.machine.blockedUsageCounts t = (w.blockedAt t).length)
    (hle : w.running.length ≤ w.active.length) : w.Sound where
  blockedUsageCounts := hcounts
  active := h.active
  total := hb.total
  running := h.running
  running_le := hb.running
  hashes := by
    intro hsome
    have hh := h.hashes
    rw [if_pos hsome] at hh
    exact hh.1
  unblocked_le := by
    have htotal := hb.total
    have hunb := hb.unblocked
    have hact := h.active
    have hrun := h.running
    omega

/-- The running tasks are active. -/
theorem Invariant.running_le (h : w.Invariant) : w.running.length ≤ w.active.length := by
  have hnd : w.running.Nodup := (nodup_append'.mp h.runnableNodup).1
  refine (subperm_of_subset hnd fun t ht => ?_).length_le
  exact ((h.mem_runnable t).mp (mem_append_left _ ht)).1

/-! ## All runs -/

/-- **Every run is sound, and no permitted call panics while the counters have room.**  Starting
over is possible as well: `reinitialize` succeeds when no task is active, and
`clear_and_reinitialize` when no task is running, and both leave the state machine as it was
created. -/
theorem IdReachable.session_sound {capability : Capability} {w : Session}
    (h : IdReachable capability w) :
    w.Sound ∧
      (∀ c, w.Permits c → w.PermitsId c → w.HasRoom c → ∃ r, w.call c = some r) ∧
      (w.running = [] → 1 ≤ w.machine.maxRunningTaskCount →
        w.machine.unblockedTaskCount + w.active.length < counterLimit →
        ∃ s, w.machine.clearAndReinitialize = some (w.active.length, s) ∧
          new capability (some w.machine.maxRunningTaskCount)
            w.machine.maxUniqueActiveTaskCount = some s) ∧
      (w.active = [] → ∃ s, w.machine.reinitialize = some s ∧
        new capability (some w.machine.maxRunningTaskCount)
          w.machine.maxUniqueActiveTaskCount = some s) := by
  have hb := h.reachable.books
  obtain ⟨P, hP, hreach⟩ := exists_drainable capability
  have hw := hreach w h
  refine ⟨?_, ?_, fun hrun hmax => (hP.clearAndReinitialize hw hrun hmax).1, hP.reinitialize hw⟩
  · cases capability with
    | priorityQueueing =>
      have hinv := h.invariant
      exact hinv.tally.sound hb (fun t ht => hinv.blockedUsageCounts_eq ht) hinv.running_le
    | fifoQueueing =>
      obtain ⟨f, v, hsim, hinc⟩ := h.reachable.exists_sim
      refine (hsim.tally hinc.invariant.tally).sound hb
        (fun t ht => hsim.blockedUsageCounts_eq hinc.invariant ht) ?_
      rw [hsim.running, hsim.active, length_map, length_map]
      exact hinc.invariant.running_le
  · intro c hp hid hroom
    cases capability with
    | priorityQueueing => exact h.invariant.exists_call hb hp hid hroom
    | fifoQueueing =>
      obtain ⟨f, v, hsim, hinc⟩ := h.reachable.exists_sim
      exact hsim.exists_call hinc hb hp hroom

theorem sound_bufferedWriters :
    bufferedWriters.Sound ∧ ∃ r, bufferedWriters.call .scheduleNextUnblockedTask = some r := by
  have hreach : IdReachable .priorityQueueing bufferedWriters :=
    idReachable_of_run (some_get _).symm
  obtain ⟨hsound, hcall, -⟩ := hreach.session_sound
  refine ⟨hsound, hcall .scheduleNextUnblockedTask trivial trivial ?_⟩
  show bufferedWriters.machine.unblockedTaskCount + 1 < counterLimit
  decide

/-- After `2 ^ 32 - 1` buffered tasks, handing out the first of them panics. -/
theorem scheduleNextUnblockedTask_panics :
    ∃ w, IdReachable .fifoQueueing w ∧ w.machine.totalTaskCount < 2 ^ 32 ∧
      w.Permits .scheduleNextUnblockedTask ∧ w.PermitsId .scheduleNextUnblockedTask ∧
      w.call .scheduleNextUnblockedTask = none := by
  have hpanic : ∀ n, n + 2 = counterLimit →
      (buffered (n + 1)).call .scheduleNextUnblockedTask = none := by
    intro n hn
    have hrunnable : (buffered (n + 1)).machine.isTaskRunnable = true := rfl
    have hfull : increment (n + 1) = none := by
      rw [increment, if_neg (by omega)]
    have hqueue : (buffered (n + 1)).machine.unblockedTaskQueue =
        ownWriter 0 :: ((List.range n).map Nat.succ).map ownWriter := by
      show (List.range (n + 1)).map ownWriter = _
      rw [range_succ_eq_map, map_cons]
    have hnext : (buffered (n + 1)).machine.scheduleNextUnblockedTask = none := by
      rw [scheduleNextUnblockedTask, if_pos hrunnable, hqueue]
      show (increment 0).bind (fun running =>
        (increment (n + 1)).bind fun unblocked => _) = none
      rw [hfull]
      cases increment 0 with
      | none => rfl
      | some running => rfl
    rw [call, hnext]
    rfl
  refine ⟨buffered (4294967294 + 1), idReachable_buffered (by decide), ?_, trivial, trivial,
    hpanic 4294967294 (by decide)⟩
  decide

end Session
end FlowraValidator.UnifiedScheduler
