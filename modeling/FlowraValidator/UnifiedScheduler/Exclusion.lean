import FlowraValidator.UnifiedScheduler.FifoSession

/-!
# Mutual exclusion and priority order

The two safety properties of the scheduler, over all runs.

* `Session.IdReachable.mutualExclusion`: for both kinds of queue, runnable tasks do not conflict,
  and each of them holds all its addresses.
* `Session.IdReachable.noOvertaking`: with priority queues, a task becomes runnable only when no
  conflicting task of higher priority is left waiting.
-/

namespace FlowraValidator.UnifiedScheduler.Session
open UsageQueueInner Function List Option Prod

/-! ## What it means to hold an address -/

/-- The active tasks that have an address among their lock contexts and do not wait for it. -/
def users (w : Session) (a : Pubkey) : List Task :=
  w.active.filter fun t => t.lockContexts.any fun c =>
    c.usageQueue = a && decide ((c.requestedUsage, t) ∉ (w.machine.usageQueues a).blocked)

/-- The usage queue records that the task holds the address. A fifo queue knows no tasks; it
records the right usage, and the right number of readers. -/
def Holds (w : Session) (t : Task) (c : LockContext) : Prop :=
  (c.requestedUsage, t) ∉ (w.machine.usageQueues c.usageQueue).blocked ∧
    match w.machine.usageQueues c.usageQueue with
    | .fifo (some (.readonly count)) _ =>
      c.requestedUsage = .readonly ∧ count = (w.users c.usageQueue).length
    | .fifo (some (.writable ())) _ => c.requestedUsage = .writable ∧ w.users c.usageQueue = [t]
    | .priority (some (.readonly tasks)) _ => c.requestedUsage = .readonly ∧ t ∈ tasks
    | .priority (some (.writable task)) _ => c.requestedUsage = .writable ∧ task = t
    | _ => False

/-! ## Sessions with priority queues -/

variable {w : Session} {c : LockContext} {t t' : Task} {f : Task → Task} {v : Session}

variable (h : w.Invariant) (ht : t ∈ w.runnable) (hc : c ∈ t.lockContexts)
include h ht hc in
theorem Invariant.mem_held : (c.requestedUsage, t) ∈ (w.machine.usageQueues c.usageQueue).held := by
  obtain ⟨hact, hzero⟩ := (h.mem_runnable t).mp ht
  refine h.consistent.mem_held hzero ?_
  rwa [entered_of_mem hact]

include h ht in
/-- Two tasks that hold one address both read it. -/
theorem Invariant.not_conflicts (ht' : t' ∈ w.runnable) (hne : t ≠ t') : ¬ t.Conflicts t' := by
  rintro ⟨c, hc, c', hc', ha, hw⟩
  have hheld := h.mem_held ht hc
  have hheld' := h.mem_held ht' hc'
  rw [← ha] at hheld'
  obtain ⟨hr, hr'⟩ := readonly_of_mem_held hheld hheld'
    fun heq => hne (congrArg snd heq)
  rcases hw with hw | hw
  · cases hr.symm.trans hw
  · cases hr'.symm.trans hw

include h ht hc in
theorem Invariant.holds : w.Holds t c := by
  have hheld := h.mem_held ht hc
  refine ⟨fun hb => ?_, ?_⟩
  · exact (h.consistent.ordered c.usageQueue).not_waits hheld ⟨_, hb⟩
  · match hq : w.machine.usageQueues c.usageQueue with
    | .fifo _ _ | .priority none _ =>
      rw [hq] at hheld
      cases hheld
    | .priority (some (.readonly ts)) _ =>
      rw [hq, held_readonly, List.mem_map] at hheld
      obtain ⟨x, hx, heq⟩ := hheld
      rw [Prod.mk.injEq] at heq
      exact ⟨heq.1.symm, heq.2 ▸ hx⟩
    | .priority (some (.writable x)) _ =>
      rw [hq, held_writable, mem_singleton, Prod.mk.injEq] at hheld
      exact ⟨hheld.1, hheld.2.symm⟩

include h in
/-- The users of an address are the tasks the priority queue records. -/
theorem Invariant.users_perm (a : Pubkey) :
    (w.users a).Perm ((w.machine.usageQueues a).held.map snd) := by
  have hq := h.consistent.ordered a
  have hnd : ((w.machine.usageQueues a).held.map snd).Nodup := by
    refine List.Nodup.of_map Task.taskId ?_
    rw [List.map_map, List.Nodup, List.pairwise_map]
    exact hq.heldSorted.imp ne_of_lt
  refine (perm_ext_iff_of_nodup (h.activeNodup.filter _) hnd).mpr fun t => ?_
  simp only [List.mem_filter, List.any_eq_true, Bool.and_eq_true, decide_eq_true_eq, List.mem_map]
  constructor
  · rintro ⟨hact, c, hc, rfl, hb⟩
    have huses := (h.consistent.uses_iff c.usageQueue (c.requestedUsage, t)).mpr
      (by rw [entered_of_mem hact]; exact hc)
    exact ⟨_, huses.resolve_right hb, rfl⟩
  · rintro ⟨e, he, rfl⟩
    have hmem := (h.consistent.uses_iff a e).mp (.inl he)
    have hact := mem_active_of_entered hmem
    rw [entered_of_mem hact] at hmem
    exact ⟨hact, ⟨a, e.1⟩, hmem, rfl, fun hb => hq.not_waits he ⟨_, hb⟩⟩

/-! ## Sessions with fifo queues -/

theorem Sim.conflicts (h : Sim f v w) (ht : t ∈ v.active) (ht' : t' ∈ v.active)
    (hc : (f t).Conflicts (f t')) : t.Conflicts t' := by
  rwa [Task.Conflicts, h.lockContexts t ht, h.lockContexts t' ht'] at hc

theorem Sim.usageQueues (h : Sim f v w) (a : Pubkey) :
    w.machine.usageQueues a = (v.machine.usageQueues a).toFifo f := by
  rw [h.machine]
  rfl

/-- An active task waits in a fifo queue if and only if it waits in the priority queue. -/
theorem Sim.mem_blocked (h : Sim f v w) (hv : v.Invariant) (ht : t ∈ v.active) (a : Pubkey)
    (u : RequestedUsage) :
    (u, f t) ∈ (w.machine.usageQueues a).blocked ↔ (u, t) ∈ (v.machine.usageQueues a).blocked := by
  obtain ⟨cur, b, hq⟩ := (hv.consistent.ordered a).isPriority
  have hact : ∀ e ∈ b, e.2 ∈ v.active := by
    intro e he
    refine Invariant.mem_active_of_entered ((hv.consistent.uses_iff a e).mp (.inr ?_))
    rwa [hq]
  rw [h.usageQueues, hq, toFifo, blocked_fifo, blocked_priority, List.mem_map]
  constructor
  · rintro ⟨e, he, heq⟩
    rw [map_apply', Prod.mk.injEq] at heq
    rwa [← h.injOn e.2 (hact e he) t ht heq.2, ← heq.1]
  · intro he
    exact ⟨(u, t), he, rfl⟩

theorem Sim.users (h : Sim f v w) (hv : v.Invariant) (a : Pubkey) :
    w.users a = (v.users a).map f := by
  rw [Session.users, Session.users, h.active, List.filter_map]
  congr 1
  refine filter_congr fun t ht => ?_
  simp only [comp_apply, h.lockContexts t ht, h.mem_blocked hv ht]

theorem Sim.holds (h : Sim f v w) (hv : v.Invariant) (ht : t ∈ v.runnable) (hc : c ∈ t.lockContexts)
    : w.Holds (f t) c := by
  obtain ⟨hact, -⟩ := (hv.mem_runnable t).mp ht
  obtain ⟨hblocked, hqueue⟩ := hv.holds ht hc
  have hperm := hv.users_perm c.usageQueue
  have husers := h.users hv c.usageQueue
  refine ⟨fun hb => hblocked ((h.mem_blocked hv hact _ _).mp hb), ?_⟩
  rw [h.usageQueues]
  match hq : v.machine.usageQueues c.usageQueue with
  | .fifo _ _ =>
    obtain ⟨_, _, hp⟩ := (hv.consistent.ordered c.usageQueue).isPriority
    cases hq.symm.trans hp
  | .priority none _ =>
    rw [hq] at hqueue
    exact hqueue.elim
  | .priority (some (.readonly ts)) _ =>
    rw [hq] at hqueue hperm
    refine ⟨hqueue.1, ?_⟩
    rw [husers, length_map, hperm.length_eq, held_readonly, length_map, length_map]
  | .priority (some (.writable x)) _ =>
    rw [hq] at hqueue hperm
    refine ⟨hqueue.1, ?_⟩
    rw [held_writable, map_singleton] at hperm
    rw [husers, perm_singleton.mp hperm, hqueue.2]
    rfl

/-! ## Mutual exclusion -/

/-- **Runnable tasks do not conflict, and each of them holds all its addresses.** -/
theorem IdReachable.mutualExclusion {capability : Capability} {w : Session}
    (h : IdReachable capability w) :
    w.runnable.Nodup ∧
      (∀ t ∈ w.runnable, ∀ t' ∈ w.runnable, t ≠ t' → ¬ t.Conflicts t') ∧
      ∀ t ∈ w.runnable, ∀ c ∈ t.lockContexts, w.Holds t c := by
  cases capability with
  | priorityQueueing =>
    have hinv := h.invariant
    exact ⟨hinv.runnableNodup, fun t ht t' ht' => hinv.not_conflicts ht ht',
      fun t ht c hc => hinv.holds ht hc⟩
  | fifoQueueing =>
    obtain ⟨f, v, hsim, hinc⟩ := h.reachable.exists_sim
    have hinv := hinc.invariant
    have hact : ∀ t ∈ v.runnable, t ∈ v.active := fun t ht => ((hinv.mem_runnable t).mp ht).1
    rw [hsim.runnable]
    refine ⟨?_, ?_, ?_⟩
    · refine hinv.runnableNodup.map_on fun t ht t' ht' => ?_
      exact hsim.injOn t (hact t ht) t' (hact t' ht')
    · intro t ht t' ht' hne hconf
      obtain ⟨x, hx, rfl⟩ := mem_map.mp ht
      obtain ⟨x', hx', rfl⟩ := mem_map.mp ht'
      refine hinv.not_conflicts hx hx' (fun heq => hne (congrArg f heq)) ?_
      exact hsim.conflicts (hact x hx) (hact x' hx') hconf
    · intro t ht c hc
      obtain ⟨x, hx, rfl⟩ := mem_map.mp ht
      rw [hsim.lockContexts x (hact x hx)] at hc
      exact hsim.holds hinv hx hc

/-- A task that writes address 7. -/
def writer (ptr taskId : ℕ) : Task :=
  { ptr := ptr, taskId := taskId, hash := ptr, lockContexts := [⟨7, .writable⟩] }

/-- A task that reads address 7 and writes address 8. -/
def reader (ptr taskId : ℕ) : Task :=
  { ptr := ptr, taskId := taskId, hash := ptr, lockContexts := [⟨7, .readonly⟩, ⟨8, .writable⟩] }

/-- Two readers of one address, and then a writer. -/
def readersThenWriter : Session :=
  (run .fifoQueueing none none
    [.scheduleOrBufferTask { reader 1 1 with lockContexts := [⟨7, .readonly⟩] } false,
      .scheduleOrBufferTask (reader 2 2) false,
      .scheduleOrBufferTask (writer 3 3) false]).get (by decide)

/-- The readers run together, and the writer waits for them. -/
theorem mutualExclusion_readersThenWriter :
    readersThenWriter.runnable =
        [{ reader 1 1 with lockContexts := [⟨7, .readonly⟩] }, reader 2 2] ∧
      readersThenWriter.active.length = 3 ∧
      readersThenWriter.Holds (reader 2 2) ⟨7, .readonly⟩ := by
  have hreach : IdReachable .fifoQueueing readersThenWriter := idReachable_of_run (some_get _).symm
  refine ⟨rfl, rfl, ?_⟩
  exact hreach.mutualExclusion.2.2 (reader 2 2) (by decide) ⟨7, .readonly⟩ (by decide)

/-! ## Priority order -/

/-- **A task becomes runnable only when no conflicting task of higher priority is active.**  At
the step from `w` to `w'` the task `t` first becomes runnable. In particular no such task is left
waiting. -/
theorem IdReachable.noOvertaking {w w' : Session} (h : IdReachable .priorityQueueing w)
    (hs : IdStep w w') {t t' : Task} (ht : t ∈ w'.runnable) (hnew : t ∉ w.runnable)
    (hact' : t' ∈ w'.active) (hconf : t'.Conflicts t) : ¬ t'.taskId < t.taskId := by
  obtain ⟨hinv, hprec⟩ := h.invariant.idStep hs
  obtain ⟨c', hc', c, hc, ha, hw⟩ := hconf
  intro hlt
  have hne : t' ≠ t := fun heq => lt_irrefl _ (heq ▸ hlt)
  have hheld := hinv.mem_held ht hc
  have huses : (w'.machine.usageQueues c.usageQueue).Uses (c'.requestedUsage, t') := by
    rwa [← ha, hprec.uses_iff, entered_of_mem hact']
  rcases huses with hheld' | hblocked
  · -- both hold the address, so both read it
    obtain ⟨hr', hr⟩ := readonly_of_mem_held hheld' hheld
      fun heq => hne (congrArg snd heq)
    rcases hw with hw | hw
    · cases hr'.symm.trans hw
    · cases hr.symm.trans hw
  · exact lt_asymm hlt ((hprec.ordered c.usageQueue).outranks _ hheld hnew _ hblocked)

/-- Three writers of one address; the last one has a smaller id than the second one. -/
def threeWriters : Session :=
  (run .priorityQueueing none none
    [.scheduleOrBufferTask (writer 1 5) false, .scheduleOrBufferTask (writer 2 9) false,
      .scheduleOrBufferTask (writer 3 7) false]).get (by decide)

/-- When the first writer is done, the last one goes before the second one. -/
theorem noOvertaking_threeWriters :
    ∃ w, threeWriters.call (.descheduleTask (writer 1 5)) = some (none, w) ∧
      w.runnable = [writer 3 7] ∧ ¬ (writer 2 9).taskId < (writer 3 7).taskId := by
  have hreach : IdReachable .priorityQueueing threeWriters := idReachable_of_run (some_get _).symm
  refine ⟨_, rfl, rfl, ?_⟩
  exact hreach.noOvertaking ⟨.descheduleTask (writer 1 5), none, by decide, by decide, rfl⟩
    (mem_singleton_self _) (by decide) (by decide) (by decide)

end FlowraValidator.UnifiedScheduler.Session
