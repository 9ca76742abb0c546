import FlowraValidator.UnifiedScheduler.FifoSimulation

/-!
# Sessions with fifo queues

Every session with fifo queues runs like a session with priority queues in which tasks get
increasing ids. Properties of the latter carry over along `Session.Sim`.

* `Session.Increasing`: the invariant of a session with priority queues and increasing ids. All
  holders of an address have smaller ids than all tasks that wait for it.
* `Session.Sim`: the simulation relation.
* `Session.Sim.scheduleOrBufferTask`, `Session.Sim.scheduleNextUnblockedTask`,
  `Session.Sim.descheduleTask`: the two sessions answer every permitted call alike.
* `Session.Reachable.exists_sim`: every reachable session with fifo queues is simulated.
-/

namespace FlowraValidator.UnifiedScheduler
open ShortCounter Function List Option SchedulingStateMachine

open UsageQueueInner (Ordered toFifo)
variable {force : Bool}

namespace SchedulingStateMachine

/-- The state machine with fifo queues that corresponds to one with priority queues, up to the
counters of the tasks. -/
def toFifo (f : Task → Task) (counts : BlockedUsageCounts) (s : SchedulingStateMachine) :
    SchedulingStateMachine :=
  { s with
    unblockedTaskQueue := s.unblockedTaskQueue.map f
    usageQueues := fun a => (s.usageQueues a).toFifo f
    blockedUsageCounts := counts }

variable (f : Task → Task) (counts : BlockedUsageCounts) (s : SchedulingStateMachine) {task : Task}
  {total : ℕ}

theorem countAccepted_toFifo (hhash : (f task).hash = task.hash) :
    (s.toFifo f counts).countAccepted (f task) = (s.countAccepted task).map (toFifo f counts) := by
  unfold countAccepted
  simp only [toFifo, hhash]
  cases increment s.activeTaskCount <;> rfl

theorem runOrBuffer_toFifo (force : Bool) :
    (s.toFifo f counts).runOrBuffer (f task) force =
      (s.runOrBuffer task force).map
        (Prod.map (Option.map f) (toFifo f counts)) := by
  have hrun : (s.toFifo f counts).isTaskRunnable = s.isTaskRunnable := rfl
  unfold runOrBuffer
  rw [hrun]
  split_ifs
  · simp only [toFifo]
    cases increment s.unblockedTaskCount with
    | none => rfl
    | some n => simp [toFifo]
  · simp only [toFifo]
    cases increment s.runningTaskCount <;> rfl

theorem scheduleNextUnblockedTask_toFifo :
    (s.toFifo f counts).scheduleNextUnblockedTask =
      s.scheduleNextUnblockedTask.map
        (Prod.map (Option.map f) (toFifo f counts)) := by
  have hrun : (s.toFifo f counts).isTaskRunnable = s.isTaskRunnable := rfl
  unfold scheduleNextUnblockedTask
  rw [hrun]
  split_ifs
  · simp only [toFifo]
    cases hq : s.unblockedTaskQueue with
    | nil => simp [toFifo, hq]
    | cons t rest =>
      cases increment s.runningTaskCount with
      | none => rfl
      | some n => cases increment s.unblockedTaskCount <;> rfl
  · rfl

theorem countDescheduled_toFifo (hhash : (f task).hash = task.hash) :
    (s.toFifo f counts).countDescheduled (f task) =
      (s.countDescheduled task).map (toFifo f counts) := by
  have hrem : (s.toFifo f counts).removeHash (f task) = s.removeHash task := by
    simp only [removeHash, toFifo, hhash]
  unfold countDescheduled
  rw [hrem]
  simp only [toFifo]
  cases decrement s.runningTaskCount with
  | none => rfl
  | some n =>
    cases s.removeHash task with
    | none => rfl
    | some hashes =>
      cases decrement s.activeTaskCount with
      | none => rfl
      | some m => cases increment s.handledTaskCount <;> rfl

theorem scheduleOrBufferTask_dropped (htotal : increment s.totalTaskCount = some total)
    (hdrop : s.isDropped task = true) :
    s.scheduleOrBufferTask task force = (increment s.droppedTaskCount).map fun n =>
      (none, { s with totalTaskCount := total, droppedTaskCount := n }) := by
  have hdrop' : isDropped { s with totalTaskCount := total } task = true := hdrop
  simp only [scheduleOrBufferTask, htotal, bind_eq_bind, bind_some, hdrop', if_true]
  cases increment s.droppedTaskCount <;> rfl

theorem scheduleOrBufferTask_accepted (htotal : increment s.totalTaskCount = some total)
    (hdrop : s.isDropped task = false) :
    s.scheduleOrBufferTask task force =
      (countAccepted { s with totalTaskCount := total } task).bind fun s =>
        (s.tryLockUsageQueues task).bind fun x =>
          if x.1 then x.2.runOrBuffer task force else some (none, x.2) := by
  have hdrop' : isDropped { s with totalTaskCount := total } task = false := hdrop
  simp only [scheduleOrBufferTask, htotal, bind_eq_bind, bind_some, hdrop',
    Bool.false_eq_true, if_false]
  rfl

/-- The state machine after the locking loop. -/
def withLocks (s : SchedulingStateMachine) (task : Task)
    (x : (Pubkey → UsageQueueInner) × ℕ) : SchedulingStateMachine :=
  { s with
    usageQueues := x.1
    blockedUsageCounts :=
      if x.2 = 0 then s.blockedUsageCounts
      else update s.blockedUsageCounts task x.2 }

/-- Both state machines lock a task that comes after all others alike. -/
theorem tryLockUsageQueues_toFifo (hctx : (f task).lockContexts = task.lockContexts)
    (hq : ∀ a, Ordered (fun _ => True) (s.usageQueues a)) (haddr : task.addresses.Nodup)
    (hlt : ∀ a e, (s.usageQueues a).Uses e → e.key < task.taskId)
    (hlim : ∀ a, (s.usageQueues a).held.length + 1 < counterLimit) :
    ∃ r : Option ((Pubkey → UsageQueueInner) × ℕ),
      s.tryLockUsageQueues task = r.map (fun x => (decide (x.2 = 0), s.withLocks task x)) ∧
      (s.toFifo f counts).tryLockUsageQueues (f task) =
        r.map (fun x => (decide (x.2 = 0), (s.withLocks task x).toFifo f
          (if x.2 = 0 then counts else update counts (f task) x.2))) ∧
      ∀ x, r = some x → ∀ a, Ordered (fun _ => True) (x.1 a) := by
  obtain ⟨r, h1, h2, h3⟩ := lockContexts_toFifo f s.blockedUsageCounts counts 0 hq haddr
    (fun c _ => hlt c.usageQueue) (fun c _ => hlim c.usageQueue)
  refine ⟨r, ?_, ?_, h3⟩
  · unfold tryLockUsageQueues
    rw [h1]
    cases r with
    | none => rfl
    | some x =>
      obtain ⟨queues, blocked⟩ := x
      by_cases hb : blocked = 0 <;> simp [hb, withLocks]
  · unfold tryLockUsageQueues
    rw [hctx]
    simp only [toFifo]
    rw [h2]
    cases r with
    | none => rfl
    | some x =>
      obtain ⟨queues, blocked⟩ := x
      by_cases hb : blocked = 0 <;> simp [hb, withLocks]

end SchedulingStateMachine

namespace Session

/-- The invariant of a session with priority queues in which tasks arrive with increasing ids. -/
structure Increasing (v : Session) : Prop where
  invariant : v.Invariant
  ordered : ∀ a, Ordered (fun _ => True) (v.machine.usageQueues a)
  sorted : v.active.Pairwise fun t t' => t.taskId < t'.taskId

/-- A session `v` with priority queues and a session `w` with fifo queues that agree along `f`. -/
structure Sim (f : Task → Task) (v w : Session) : Prop where
  injOn : ∀ t ∈ v.active, ∀ t' ∈ v.active, f t = f t' → t = t'
  lockContexts : ∀ t ∈ v.active, (f t).lockContexts = t.lockContexts
  hash : ∀ t ∈ v.active, (f t).hash = t.hash
  active : w.active = v.active.map f
  running : w.running = v.running.map f
  machine : w.machine = v.machine.toFifo f w.machine.blockedUsageCounts
  counts : CountsSim f (· ∈ v.active) v.machine.blockedUsageCounts w.machine.blockedUsageCounts

variable {f : Task → Task} {v w : Session} {task : Task} {s : SchedulingStateMachine}

variable (h : Sim f v w) (hv : v.Increasing)
include h in
theorem Sim.runnable : w.runnable = v.runnable.map f := by
  rw [Session.runnable, Session.runnable, map_append, h.running, h.machine]
  rfl

/-- Two answers to a call match: both state machines panic, or they return the same task and
agree afterwards. -/
def Matches (f : Task → Task) (x y : Option (Option Task × Session)) : Prop :=
  (x = none ∧ y = none) ∨ ∃ r v w, x = some (r, v) ∧ y = some (r.map f, w) ∧ Sim f v w ∧
    v.Increasing

/-! ## Handing out a task -/

include h hv in
theorem Sim.scheduleNextUnblockedTask :
    Matches f (v.call .scheduleNextUnblockedTask) (w.call .scheduleNextUnblockedTask) := by
  have hnext := scheduleNextUnblockedTask_toFifo f
    w.machine.blockedUsageCounts v.machine
  rw [← h.machine] at hnext
  cases hcall : v.machine.scheduleNextUnblockedTask with
  | none =>
    rw [hcall, map_none] at hnext
    exact .inl ⟨by simp [call, hcall], by simp [call, hnext]⟩
  | some x =>
    obtain ⟨r, s⟩ := x
    rw [hcall, map_some] at hnext
    have hv' : v.call .scheduleNextUnblockedTask =
        some (r, { v with machine := s, running := v.running ++ r.toList }) := by
      simp [call, hcall]
    have hw' : w.call .scheduleNextUnblockedTask =
        some (r.map f, { w with
          machine := s.toFifo f w.machine.blockedUsageCounts
          running := w.running ++ (r.map f).toList }) := by
      simp [call, hnext]
    have hinv := (hv.invariant.scheduleNextUnblockedTask hv').1
    refine .inr ⟨r, _, _, hv', hw', ?_, ⟨hinv, ?_, hv.sorted⟩⟩
    · have hsame : s.blockedUsageCounts = v.machine.blockedUsageCounts := by
        rcases scheduleNextUnblockedTask_cases hcall with
          ⟨-, rfl⟩ | ⟨_, _, -, -, -, -, rfl⟩ <;> rfl
      refine ⟨h.injOn, h.lockContexts, h.hash, h.active, ?_, rfl, ?_⟩
      · rw [h.running, map_append]
        cases r <;> rfl
      · rw [hsame]
        exact h.counts
    · have hsame : s.usageQueues = v.machine.usageQueues := by
        rcases scheduleNextUnblockedTask_cases hcall with
          ⟨-, rfl⟩ | ⟨_, _, -, -, -, -, rfl⟩ <;> rfl
      rw [hsame]
      exact hv.ordered

/-! ## Submitting a task -/

theorem call_scheduleOrBufferTask (w : Session) (task : Task) (force : Bool) :
    w.call (.scheduleOrBufferTask task force) =
      (w.machine.scheduleOrBufferTask task force).map fun x =>
        (x.1, { machine := x.2
                active := if w.machine.isDropped task then w.active else w.active ++ [task]
                running := w.running ++ x.1.toList }) := by
  cases hs : w.machine.scheduleOrBufferTask task force <;> simp [call, hs]

section
variable (hctx : (f task).lockContexts = task.lockContexts) (hhash : (f task).hash = task.hash)
  (hfresh : f task ∉ w.active) (hlast : ∀ t ∈ v.active, t.taskId < task.taskId)
include h hctx hhash hfresh in
/-- The sessions agree after a submission that was not dropped. -/
theorem Sim.accept (hv : v.Invariant) (hnew : task ∉ v.active) {blocked : ℕ} (running : List Task)
    (hcounts : s.blockedUsageCounts = if blocked = 0 then v.machine.blockedUsageCounts else
      update v.machine.blockedUsageCounts task blocked) :
    Sim f { machine := s, active := v.active ++ [task], running := running }
      { machine := s.toFifo f (if blocked = 0 then w.machine.blockedUsageCounts
          else update w.machine.blockedUsageCounts (f task) blocked)
        active := w.active ++ [f task]
        running := running.map f } := by
  have hne : ∀ t ∈ v.active, f t ≠ f task := by
    intro t ht heq
    refine hfresh ?_
    rw [h.active, ← heq]
    exact mem_map_of_mem ht
  have hmem : ∀ t, t ∈ v.active ++ [task] ↔ t ∈ v.active ∨ t = task := by simp
  have hzero : v.machine.blockedUsageCounts task = 0 :=
    hv.consistent.counts_of_entered_nil (entered_of_notMem hnew)
  have hzero' : w.machine.blockedUsageCounts (f task) = 0 := h.counts.zero _ hne
  refine ⟨?_, ?_, ?_, by simp [h.active], rfl, rfl, ?_, ?_⟩
  · intro t ht t' ht' heq
    rcases (hmem t).mp ht with h1 | h1 <;> rcases (hmem t').mp ht' with h2 | h2
    · exact h.injOn t h1 t' h2 heq
    · exact absurd (h2 ▸ heq) (hne t h1)
    · exact absurd (h1 ▸ heq).symm (hne t' h2)
    · rw [h1, h2]
  · intro t ht
    rcases (hmem t).mp ht with ht | rfl
    · exact h.lockContexts t ht
    · exact hctx
  · intro t ht
    rcases (hmem t).mp ht with ht | rfl
    · exact h.hash t ht
    · exact hhash
  · intro t ht
    show (if blocked = 0 then w.machine.blockedUsageCounts
      else update w.machine.blockedUsageCounts (f task) blocked) (f t) = s.blockedUsageCounts t
    rw [hcounts]
    rcases (hmem t).mp ht with ht | rfl
    · have htt : t ≠ task := fun heq => hnew (heq ▸ ht)
      split_ifs
      · exact h.counts.eq t ht
      · rw [update_of_ne (hne t ht), update_of_ne htt]
        exact h.counts.eq t ht
    · split_ifs
      · rw [hzero, hzero']
      · rw [update_self, update_self]
  · intro x hx
    show (if blocked = 0 then w.machine.blockedUsageCounts
      else update w.machine.blockedUsageCounts (f task) blocked) x = 0
    have hx' : w.machine.blockedUsageCounts x = 0 :=
      h.counts.zero x fun t ht => hx t ((hmem t).mpr (.inl ht))
    split_ifs
    · exact hx'
    · rwa [update_of_ne (hx task ((hmem task).mpr (.inr rfl))).symm]

include hv hlast in
theorem Increasing.accept {v' : Session} (hinv : v'.Invariant)
    (hq : ∀ a, Ordered (fun _ => True) (v'.machine.usageQueues a))
    (hactive : v'.active = v.active ++ [task]) : v'.Increasing := by
  refine ⟨hinv, hq, ?_⟩
  rw [hactive, pairwise_append]
  refine ⟨hv.sorted, pairwise_singleton _ _, ?_⟩
  intro t ht t' ht'
  rw [mem_singleton.mp ht']
  exact hlast t ht

variable (haddr : task.addresses.Nodup)
include h hv hctx hhash hfresh hlast haddr
/-- The two state machines agree on a task that has been accepted: on locking, and on running or
buffering it. -/
theorem Sim.lockAndRun (hqueues : s.usageQueues = v.machine.usageQueues)
    (hcounts : s.blockedUsageCounts = v.machine.blockedUsageCounts)
    (hlen : v.active.length + 1 < counterLimit) (x y : Option (Option Task × Session))
    (hx : x = ((s.tryLockUsageQueues task).bind fun x =>
      if x.1 then x.2.runOrBuffer task force else some (none, x.2)).map fun x =>
        (x.1, { machine := x.2, active := v.active ++ [task], running := v.running ++ x.1.toList }))
    (hy : y = (((s.toFifo f w.machine.blockedUsageCounts).tryLockUsageQueues (f task)).bind fun x =>
      if x.1 then x.2.runOrBuffer (f task) force else some (none, x.2)).map fun x =>
        (x.1, { machine := x.2
                active := w.active ++ [f task]
                running := w.running ++ x.1.toList }))
    (hinv : ∀ r v', x = some (r, v') → v'.Invariant) : Matches f x y := by
  have hnew : task ∉ v.active := fun hm => lt_irrefl _ (hlast task hm)
  have hts : ∀ t, v.entered t ≠ [] → t ∈ v.active := by
    intro t ht
    by_contra hn
    exact ht (entered_of_notMem hn)
  have hlt : ∀ a e, (s.usageQueues a).Uses e → e.key < task.taskId := by
    intro a e he
    rw [hqueues] at he
    have hmem := (hv.invariant.consistent.uses_iff a e).mp he
    exact hlast e.2 (Invariant.mem_active_of_entered hmem)
  have hlim : ∀ a, (s.usageQueues a).held.length + 1 < counterLimit := by
    intro a
    rw [hqueues]
    have hle := hv.invariant.consistent.length_le hts a
    omega
  have hordered : ∀ a, Ordered (fun _ => True) (s.usageQueues a) := by
    rw [hqueues]
    exact hv.ordered
  obtain ⟨r, h1, h2, h3⟩ := tryLockUsageQueues_toFifo f
    w.machine.blockedUsageCounts s hctx hordered haddr hlt hlim
  rw [h1] at hx
  rw [h2] at hy
  cases r with
  | none => exact .inl ⟨hx, hy⟩
  | some l =>
    have hl : (s.withLocks task l).blockedUsageCounts =
        if l.2 = 0 then v.machine.blockedUsageCounts
        else update v.machine.blockedUsageCounts task l.2 := by
      rw [← hcounts]
      rfl
    by_cases hb : l.2 = 0
    · simp only [map_some, bind_some, hb, decide_true, if_true] at hx hy
      rw [runOrBuffer_toFifo] at hy
      cases hr : (s.withLocks task l).runOrBuffer task force with
      | none =>
        rw [hr] at hx hy
        exact .inl ⟨hx, hy⟩
      | some z =>
        rw [hr] at hx hy
        have hsame : z.2.usageQueues = l.1 ∧
            z.2.blockedUsageCounts = (s.withLocks task l).blockedUsageCounts := by
          rcases runOrBuffer_cases hr with ⟨-, -, hz⟩ | ⟨-, -, hz⟩ <;>
            rw [hz] <;> exact ⟨rfl, rfl⟩
        refine .inr ⟨z.1, _, _, hx, hy, ?_, ?_⟩
        · have hsim := h.accept hctx hhash hfresh hv.invariant hnew (v.running ++ z.1.toList)
            (hsame.2.trans hl)
          have hrun : (v.running ++ z.1.toList).map f = w.running ++ (z.1.map f).toList := by
            rw [map_append, h.running]
            cases z.1 <;> rfl
          rwa [if_pos hb, hrun] at hsim
        · refine hv.accept hlast (hinv _ _ hx) ?_ rfl
          rw [hsame.1]
          exact h3 l rfl
    · simp only [map_some, bind_some, hb, decide_false, Bool.false_eq_true,
        if_false, toList_none, append_nil] at hx hy
      refine .inr ⟨none, _, _, hx, hy, ?_, ?_⟩
      · have hsim := h.accept hctx hhash hfresh hv.invariant hnew v.running hl
        rwa [if_neg hb, ← h.running] at hsim
      · exact hv.accept hlast (hinv _ _ hx) (h3 l rfl) rfl

theorem Sim.scheduleOrBufferTask (force : Bool) :
    Matches f (v.call (.scheduleOrBufferTask task force))
      (w.call (.scheduleOrBufferTask (f task) force)) := by
  have hnew : task ∉ v.active := fun hm => lt_irrefl _ (hlast task hm)
  have hinv : ∀ r v', v.call (.scheduleOrBufferTask task force) = some (r, v') →
      v'.Invariant := fun r v' hcall =>
    (hv.invariant.scheduleOrBufferTask hnew haddr (fun t ht => (hlast t ht).ne) hcall).1
  have hdrop : w.machine.isDropped (f task) = v.machine.isDropped task := by
    rw [h.machine]
    simp only [isDropped, SchedulingStateMachine.toFifo, hhash]
    cases v.machine.maxUniqueActiveTaskCount <;> rfl
  have htotal_eq : w.machine.totalTaskCount = v.machine.totalTaskCount := by rw [h.machine]; rfl
  rw [call_scheduleOrBufferTask] at hinv ⊢
  rw [call_scheduleOrBufferTask, hdrop]
  cases htotal : increment v.machine.totalTaskCount with
  | none =>
    refine .inl ⟨?_, ?_⟩
    · simp [SchedulingStateMachine.scheduleOrBufferTask, htotal]
    · simp [SchedulingStateMachine.scheduleOrBufferTask, htotal_eq, htotal]
  | some total =>
    have hmachine : { w.machine with totalTaskCount := total } =
        toFifo f w.machine.blockedUsageCounts
          { v.machine with totalTaskCount := total } := by
      conv_lhs => rw [h.machine]
      rfl
    have htotal' : increment w.machine.totalTaskCount = some total := by rw [htotal_eq, htotal]
    by_cases hd : v.machine.isDropped task = true
    · have hdropped : w.machine.droppedTaskCount = v.machine.droppedTaskCount := by
        rw [h.machine]
        rfl
      rw [hd] at hdrop
      rw [scheduleOrBufferTask_dropped _ htotal hd] at hinv ⊢
      rw [scheduleOrBufferTask_dropped _ htotal' hdrop, hdropped]
      cases hinc : increment v.machine.droppedTaskCount with
      | none => exact .inl ⟨rfl, rfl⟩
      | some n =>
        rw [hinc] at hinv
        refine .inr ⟨none, _, _, rfl, rfl, ?_, ⟨hinv _ _ rfl, hv.ordered, ?_⟩⟩
        · simp only [hd, if_true, toList_none, append_nil]
          exact ⟨h.injOn, h.lockContexts, h.hash, h.active, h.running,
            congrArg (fun s => { s with droppedTaskCount := n }) hmachine, h.counts⟩
        · simp only [hd, if_true]
          exact hv.sorted
    · rw [Bool.not_eq_true] at hd
      rw [hd] at hdrop
      rw [scheduleOrBufferTask_accepted _ htotal hd] at hinv ⊢
      rw [scheduleOrBufferTask_accepted _ htotal' hdrop, hmachine, countAccepted_toFifo f _ _ hhash]
      simp only [hd, Bool.false_eq_true, if_false] at hinv ⊢
      cases hs : countAccepted { v.machine with totalTaskCount := total }
          task with
      | none => exact .inl ⟨rfl, rfl⟩
      | some s =>
        rw [hs] at hinv
        obtain ⟨hactive, hs'⟩ := countAccepted_eq_some_iff.mp hs
        refine h.lockAndRun hv hctx hhash hfresh hlast haddr (by rw [hs']) (by rw [hs']) ?_ _ _
          rfl rfl hinv
        rwa [← hv.invariant.tally.active]

end

/-! ## Descheduling a task -/

/-- Erasing commutes with a map that is injective on the list. -/
theorem map_erase_of_injOn {l : List Task} {t : Task} (hf : ∀ x ∈ l, f x = f t → x = t) :
    (l.erase t).map f = (l.map f).erase (f t) := by
  induction l with
  | nil => rfl
  | cons x l ih =>
    by_cases hx : x = t
    · rw [hx, erase_cons_head, map_cons, erase_cons_head]
    · have hfx : f x ≠ f t := fun heq => hx (hf x mem_cons_self heq)
      rw [erase_cons_tail (by simpa using hx), map_cons, map_cons,
        erase_cons_tail (by simpa using hfx), ih fun y hy => hf y (mem_cons_of_mem _ hy)]

include h hv in
theorem Sim.descheduleTask (hrun : task ∈ v.running) :
    Matches f (v.call (.descheduleTask task)) (w.call (.descheduleTask (f task))) := by
  obtain ⟨hact, hzero⟩ := (hv.invariant.mem_runnable task).mp (mem_append_left _ hrun)
  obtain ⟨s, hs, hqueues, hcounts, hqueue, -, -, -, -⟩ :=
    hv.invariant.tally.countDescheduled hrun hact
  -- with increasing ids, every holder goes before everything that waits
  have hcons : Consistent (fun _ => True) v.entered v.machine.usageQueues
      v.machine.blockedUsageCounts :=
    ⟨hv.ordered, hv.invariant.consistent.uses_iff, hv.invariant.consistent.counts_eq⟩
  have haddr := hv.invariant.addressesNodup task hact
  have hts : ∀ t, v.entered t ≠ [] → t ∈ v.active := by
    intro t ht
    by_contra hn
    exact ht (entered_of_notMem hn)
  have hlen : v.active.length ≤ counterLimit := by
    have := hv.invariant.tally.total
    have := hv.invariant.tally.totalLimit
    omega
  obtain ⟨queues1, counts1, new, hu, hcons1, -, -, hle⟩ :=
    hcons.unlockContexts v.machine.unblockedTaskQueue (entered_of_mem hact) haddr hzero
  obtain ⟨counts1', hu', hc1⟩ := hcons.unlockContexts_toFifo h.injOn hlen (entered_of_mem hact)
    haddr hzero hts h.counts hu
  have hs' : w.machine.countDescheduled (f task) =
      some (s.toFifo f w.machine.blockedUsageCounts) := by
    conv_lhs => rw [h.machine]
    rw [countDescheduled_toFifo f _ _ (h.hash task hact), hs]
    rfl
  have hcall : v.call (.descheduleTask task) = some (none,
      { machine := { s with
          usageQueues := queues1
          blockedUsageCounts := counts1
          unblockedTaskQueue := v.machine.unblockedTaskQueue ++ new }
        active := v.active.erase task
        running := v.running.erase task }) := by
    simp [call, SchedulingStateMachine.descheduleTask, hs,
      SchedulingStateMachine.unlockUsageQueues, hqueues, hcounts, hqueue, hu]
  have hcall' : w.call (.descheduleTask (f task)) = some (none,
      { machine := { s with
          usageQueues := fun a => (queues1 a).toFifo f
          blockedUsageCounts := counts1'
          unblockedTaskQueue := (v.machine.unblockedTaskQueue ++ new).map f }
        active := w.active.erase (f task)
        running := w.running.erase (f task) }) := by
    simp only [call, SchedulingStateMachine.descheduleTask, hs',
      SchedulingStateMachine.unlockUsageQueues, SchedulingStateMachine.toFifo, hqueues, hqueue,
      h.lockContexts task hact, hu', Option.bind_eq_bind, Option.bind_some, Option.pure_def]
  obtain ⟨v', hcall1, hinv, -⟩ := hv.invariant.descheduleTask hrun
  rw [hcall, some.injEq, Prod.mk.injEq] at hcall1
  rw [← hcall1.2] at hinv
  have hsub : ∀ {t}, t ∈ v.active.erase task → t ∈ v.active := mem_of_mem_erase
  refine .inr ⟨none, _, _, hcall, hcall', ⟨?_, ?_, ?_, ?_, ?_, rfl, ?_, ?_⟩, ⟨hinv, ?_, ?_⟩⟩
  · exact fun t ht t' ht' => h.injOn t (hsub ht) t' (hsub ht')
  · exact fun t ht => h.lockContexts t (hsub ht)
  · exact fun t ht => h.hash t (hsub ht)
  · rw [h.active, map_erase_of_injOn fun t ht => h.injOn t ht task hact]
  · rw [h.running, map_erase_of_injOn]
    intro t ht
    refine h.injOn t ?_ task hact
    exact ((hv.invariant.mem_runnable t).mp (mem_append_left _ ht)).1
  · exact fun t ht => hc1.eq t (hsub ht)
  · intro x hx
    by_cases hxt : f task = x
    · rw [← hxt]
      exact (hc1.eq task hact).trans (Nat.le_zero.mp (hzero ▸ hle task))
    · refine hc1.zero x fun t ht heq => ?_
      refine hx t ((mem_erase_of_ne ?_).mpr ht) heq
      rintro rfl
      exact hxt heq
  · exact hcons1.ordered
  · exact hv.sorted.sublist erase_sublist

/-! ## Runs -/

include h in
/-- Only the images of active tasks matter. -/
theorem Sim.congr {g : Task → Task} (hv : v.Invariant) (hfg : ∀ t ∈ v.active, f t = g t)
    : Sim g v w := by
  have hmap : ∀ {l : List Task}, (∀ t ∈ l, t ∈ v.active) → l.map f = l.map g := fun hl =>
    map_congr_left fun t ht => hfg t (hl t ht)
  have hrun : ∀ t ∈ v.runnable, t ∈ v.active := fun t ht => ((hv.mem_runnable t).mp ht).1
  have hmachine : ∀ counts, v.machine.toFifo f counts = v.machine.toFifo g counts := by
    intro counts
    have hq : (fun a => (v.machine.usageQueues a).toFifo f) =
        fun a => (v.machine.usageQueues a).toFifo g := by
      funext a
      refine UsageQueueInner.toFifo_congr fun e he => hfg _ ?_
      exact Invariant.mem_active_of_entered ((hv.consistent.uses_iff a e).mp (.inr he))
    rw [SchedulingStateMachine.toFifo, SchedulingStateMachine.toFifo, hq,
      hmap fun t ht => hrun t (mem_append_right _ ht)]
  refine ⟨?_, ?_, ?_, ?_, ?_, ?_, ?_, ?_⟩
  · intro t ht t' ht' heq
    rw [← hfg t ht, ← hfg t' ht'] at heq
    exact h.injOn t ht t' ht' heq
  · intro t ht
    rw [← hfg t ht]
    exact h.lockContexts t ht
  · intro t ht
    rw [← hfg t ht]
    exact h.hash t ht
  · rw [h.active, hmap fun t ht => ht]
  · rw [h.running, hmap fun t ht => hrun t (mem_append_left _ ht)]
  · rw [← hmachine]
    exact h.machine
  · intro t ht
    rw [← hfg t ht]
    exact h.counts.eq t ht
  · intro x hx
    refine h.counts.zero x fun t ht => ?_
    rw [hfg t ht]
    exact hx t ht

/-- Two state machines with the same limits, just created. -/
theorem Initial.sim {maxRunning maxUnique : Option ℕ}
    (hv : new .priorityQueueing maxRunning maxUnique = some v.machine)
    (hw : new .fifoQueueing maxRunning maxUnique = some w.machine)
    (hva : v.active = [] ∧ v.running = []) (hwa : w.active = [] ∧ w.running = []) :
    Sim id v w ∧ v.Increasing := by
  have hinv : v.Invariant := Initial.invariant ⟨⟨maxRunning, maxUnique, hv⟩, hva⟩
  rw [new] at hv hw
  split_ifs at hv hw
  rw [some_inj] at hv hw
  refine ⟨⟨?_, ?_, ?_, ?_, ?_, ?_, ?_, ?_⟩, ⟨hinv, ?_, ?_⟩⟩
  · rw [hva.1]
    simp
  · rw [hva.1]
    simp
  · rw [hva.1]
    simp
  · rw [hva.1, hwa.1]
    rfl
  · rw [hva.2, hwa.2]
    rfl
  · rw [← hv, ← hw]
    rfl
  · rw [hva.1]
    simp
  · intro x _
    rw [← hw]
  · rw [← hv]
    exact fun a => UsageQueueInner.ordered_new _
  · rw [hva.1]
    exact List.Pairwise.nil

include h hv in
/-- A submission to a session with fifo queues is matched by the submission, to a session with
priority queues, of the task with a new id above all active ones. -/
theorem Sim.exists_submit (force : Bool) (hp : w.Permits (.scheduleOrBufferTask task force)) :
    ∃ n g, (∀ t ∈ v.active, t.taskId < n) ∧
      Matches g (v.call (.scheduleOrBufferTask { task with taskId := n } force))
        (w.call (.scheduleOrBufferTask task force)) := by
  set t : Task := { task with taskId := (v.active.map Task.taskId).sum + 1 } with ht
  have hlast : ∀ x ∈ v.active, x.taskId < t.taskId := fun x hx =>
    Nat.lt_succ_of_le (le_sum_of_mem (mem_map_of_mem hx))
  have hnew : t ∉ v.active := fun hm => lt_irrefl _ (hlast t hm)
  have hsim : Sim (update f t task) v w := by
    refine h.congr hv.invariant fun x hx => ?_
    rw [update_of_ne]
    rintro rfl
    exact hnew hx
  have himage : update f t task t = task := update_self ..
  have hmatch := hsim.scheduleOrBufferTask hv (by rw [himage]) (by rw [himage])
    (by rw [himage]; exact hp.1) hlast hp.2 force
  rw [himage] at hmatch
  exact ⟨_, _, hlast, hmatch⟩

include h hv in
/-- One call of a session with fifo queues, matched by a session with priority queues. -/
theorem Sim.step {w' : Session} (hs : Step w w') : ∃ f' v', Sim f' v' w' ∧ v'.Increasing := by
  obtain ⟨c, r, hp, hcall⟩ := hs
  have conclude : ∀ {g : Task → Task} {x}, Matches g x (w.call c) →
      ∃ f' v', Sim f' v' w' ∧ v'.Increasing := by
    rintro g x (⟨-, hn⟩ | ⟨r', v', w1, -, hw, hsim, hinc⟩)
    · rw [hcall] at hn
      cases hn
    · rw [hcall, some.injEq, Prod.mk.injEq] at hw
      rw [← hw.2] at hsim
      exact ⟨g, v', hsim, hinc⟩
  cases c with
  | scheduleNextUnblockedTask => exact conclude (h.scheduleNextUnblockedTask hv)
  | descheduleTask task =>
    have hmem : task ∈ w.running := hp
    rw [h.running, List.mem_map] at hmem
    obtain ⟨t, ht, rfl⟩ := hmem
    exact conclude (h.descheduleTask hv ht)
  | scheduleOrBufferTask task force =>
    obtain ⟨n, g, -, hmatch⟩ := h.exists_submit hv force hp
    exact conclude hmatch

/-- **Every reachable session with fifo queues is the image of one with priority queues and
increasing ids.** -/
theorem Reachable.exists_sim (h : Reachable .fifoQueueing w) : ∃ f v, Sim f v w ∧ v.Increasing := by
  obtain ⟨w0, ⟨⟨maxRunning, maxUnique, hnew⟩, hempty⟩, hrun⟩ := h
  induction hrun with
  | refl =>
    obtain ⟨m, hm⟩ : ∃ m,
        new .priorityQueueing maxRunning maxUnique = some m := by
      rw [new] at hnew ⊢
      split_ifs at hnew ⊢
      exact ⟨_, rfl⟩
    exact ⟨id, { machine := m, active := [], running := [] }, Initial.sim hm hnew ⟨rfl, rfl⟩ hempty⟩
  | tail _ hs ih =>
    obtain ⟨f, v, hsim, hinc⟩ := ih
    exact hsim.step hinc hs

end Session
end FlowraValidator.UnifiedScheduler
