import FlowraValidator.UnifiedScheduler.QueueSpec
import FlowraValidator.UnifiedScheduler.StateMachine

/-!
# All usage queues together

`try_lock_usage_queues` and `unlock_usage_queues` work on one address after the other. Here is
what they preserve for the table of all priority queues and for the counters.

`Consistent pending entered queues counts` says that every queue is ordered, that the entries of
the queues are exactly the contexts in `entered`, and that the counter of a task is the number of
addresses at which it waits. `entered` changes context by context inside a call, and `pending`
stays what it was before the call.

* `Consistent.Locking.lockContexts`: the locking loop enters the contexts of a task.
* `Consistent.unlockContexts`: the unlocking loop never fails for a task that holds all its
  addresses, removes its contexts, and reports the tasks whose counter has come down to zero.
-/

namespace FlowraValidator.UnifiedScheduler
open Function List Option SchedulingStateMachine LockContext

open UsageQueueInner (Ordered LockSpec UnlockSpec lockUsage unlockUsage lockUsage_spec
  unlockUsage_spec)

/-! ## One queue -/

variable {granted : Bool}

namespace UsageQueueInner

/-- The task of the entry holds the address or waits for it. -/
def Uses (q : UsageQueueInner) (e : UsageFromTask) : Prop := e ∈ q.held ∨ e ∈ q.blocked

/-- The task has a waiting entry. -/
def Waits (q : UsageQueueInner) (t : Task) : Prop := ∃ u, (u, t) ∈ q.blocked

variable {q : UsageQueueInner} {e : UsageFromTask} {q' : UsageQueueInner}

theorem Waits.of_mem (h : e ∈ q.blocked) : q.Waits e.2 := ⟨e.1, h⟩

variable {pending : Task → Prop}

/-- A holder does not wait at the same address. -/
theorem Ordered.not_waits (h : Ordered pending q) (he : e ∈ q.held) : ¬ q.Waits e.2 := by
  rintro ⟨u, hu⟩
  exact h.disjoint e he (u, e.2) hu rfl

/-- A task has at most one entry in a queue. -/
theorem Ordered.uses_unique (h : Ordered pending q) {e' : UsageFromTask} (he : q.Uses e)
    (he' : q.Uses e') (hk : e.key = e'.key) : e = e' := by
  rcases he with he | he <;> rcases he' with he' | he'
  · exact h.heldSorted.eq_of_key_eq he he' hk
  · exact absurd hk (h.disjoint e he e' he')
  · exact absurd hk.symm (h.disjoint e' he' e he)
  · exact h.blockedSorted.eq_of_key_eq he he' hk

variable {counts counts' : BlockedUsageCounts} {requested : RequestedUsage}
  {released : UsageFromTask} {new : List Task}

theorem LockSpec.uses_iff {task : Task} (h : LockSpec q q' counts counts' task requested granted)
    (e : UsageFromTask) :
    q'.Uses e ↔ q.Uses e ∨ e = (requested, task) := by
  constructor
  · rintro (he | he)
    · rcases h.held_of e he with rfl | he
      · exact .inr rfl
      · exact .inl (.inl he)
    · rcases h.blocked_of e he with rfl | he | he
      · exact .inr rfl
      · exact .inl (.inr he)
      · exact .inl (.inl he)
  · rintro ((he | he) | rfl)
    · rcases h.kept e he with ⟨he', _⟩ | ⟨he', _, _⟩
      · exact .inl he'
      · exact .inr he'
    · exact .inr (h.blocked_mono e he)
    · have hg := h.granted_iff
      cases granted with
      | true => exact .inl hg
      | false => exact .inr hg

theorem UnlockSpec.uses_iff (hq : Ordered pending q) (hr : released ∈ q.held)
    (h : UnlockSpec q q' counts counts' released new) (e : UsageFromTask) :
    q'.Uses e ↔ q.Uses e ∧ e ≠ released := by
  have hb : e ∈ q.blocked → e ≠ released := by
    rintro he rfl
    exact hq.not_waits hr (Waits.of_mem he)
  constructor
  · rintro (he | he)
    · rcases h.held_of e he with ⟨he, hne⟩ | he
      · exact ⟨.inl he, hne⟩
      · exact ⟨.inr he, hb he⟩
    · exact ⟨.inr (h.blocked_of e he), hb (h.blocked_of e he)⟩
  · rintro ⟨he | he, hne⟩
    · exact .inl (h.held_mono e he hne)
    · rcases h.promoted e he with ⟨he', _⟩ | ⟨he', _⟩
      · exact .inr he'
      · exact .inl he'

/-- A counter follows what happens to the entry of its task: it is unchanged, or the task has
started or stopped waiting. -/
def Tracks (q q' : UsageQueueInner) (counts counts' : BlockedUsageCounts) (t : Task) : Prop :=
  (q'.Waits t ↔ q.Waits t) ∧ counts' t = counts t ∨
    ¬ q.Waits t ∧ q'.Waits t ∧ counts' t = counts t + 1 ∨
    q.Waits t ∧ ¬ q'.Waits t ∧ counts' t + 1 = counts t

/-- Locking an address lets the counters of the other tasks follow. -/
theorem LockSpec.tracks {pending' : Task → Prop} {task : Task} (hq : Ordered pending q)
    (hq' : Ordered pending' q') (h : LockSpec q q' counts counts' task requested granted) {t : Task}
    (ht : t ≠ task) :
    Tracks q q' counts counts' t := by
  by_cases hheld : ∃ e ∈ q.held, e.2 = t
  · obtain ⟨e, he, rfl⟩ := hheld
    rcases h.kept e he with ⟨he', hc⟩ | ⟨he', _, hc⟩
    · exact .inl ⟨iff_of_false (hq'.not_waits he') (hq.not_waits he), hc⟩
    · exact .inr (.inl ⟨hq.not_waits he, Waits.of_mem he', hc⟩)
  · push Not at hheld
    refine .inl ⟨⟨?_, ?_⟩, h.frame t hheld⟩
    · rintro ⟨u, hu⟩
      rcases h.blocked_of _ hu with heq | hu | hu
      · exact absurd (congrArg Prod.snd heq) ht
      · exact ⟨u, hu⟩
      · exact absurd rfl (hheld _ hu)
    · rintro ⟨u, hu⟩
      exact ⟨u, h.blocked_mono _ hu⟩

theorem UnlockSpec.tracks (hq' : Ordered pending q')
    (h : UnlockSpec q q' counts counts' released new) (t : Task) :
    Tracks q q' counts counts' t := by
  by_cases hb : q.Waits t
  · obtain ⟨u, hu⟩ := hb
    rcases h.promoted _ hu with ⟨hu', hc⟩ | ⟨hu', hc⟩
    · exact .inl ⟨iff_of_true ⟨u, hu'⟩ ⟨u, hu⟩, hc⟩
    · exact .inr (.inr ⟨⟨u, hu⟩, hq'.not_waits hu', hc⟩)
  · refine .inl ⟨iff_of_false ?_ hb, h.frame t ?_⟩
    · rintro ⟨u, hu⟩
      exact hb ⟨u, h.blocked_of _ hu⟩
    · rintro e he rfl
      exact hb (Waits.of_mem he)

end UsageQueueInner

/-! ## The table -/

/-- The addresses at which a task waits. -/
def waitsAt (queues : Pubkey → UsageQueueInner) (t : Task) : Set Pubkey := {a | (queues a).Waits t}

theorem mem_waitsAt {queues : Pubkey → UsageQueueInner} {t : Task} {a : Pubkey} :
    a ∈ waitsAt queues t ↔ (queues a).Waits t :=
  Iff.rfl

structure Consistent (pending : Task → Prop) (entered : Task → List LockContext)
    (queues : Pubkey → UsageQueueInner) (counts : BlockedUsageCounts) : Prop where
  ordered : ∀ a, Ordered pending (queues a)
  uses_iff : ∀ a e, (queues a).Uses e ↔ ⟨a, e.1⟩ ∈ entered e.2
  counts_eq : ∀ t, counts t = (waitsAt queues t).ncard

namespace Consistent
variable {pending : Task → Prop} {entered : Task → List LockContext}
  {queues : Pubkey → UsageQueueInner} {counts : BlockedUsageCounts}

variable {a : Pubkey} {t : Task} (unblocked : List Task) {e : UsageFromTask} {q' : UsageQueueInner}

section
variable (h : Consistent pending entered queues counts)
include h
theorem finite_waitsAt (t : Task) : (waitsAt queues t).Finite := by
  refine Set.Finite.subset ((entered t).map usageQueue).finite_toSet ?_
  rintro a ⟨u, hu⟩
  exact mem_map_of_mem (f := usageQueue) ((h.uses_iff a (u, t)).mp (.inr hu))

open Set

/-- A task that waits somewhere has a positive counter. -/
theorem ne_zero_of_waits (hw : (queues a).Waits t) : counts t ≠ 0 := by
  rw [h.counts_eq t]
  exact ncard_ne_zero_of_mem hw (h.finite_waitsAt t)

theorem exists_waits (hc : counts t ≠ 0) : ∃ a, (queues a).Waits t := by
  rw [h.counts_eq t] at hc
  exact nonempty_of_ncard_ne_zero hc

/-- A task with counter zero holds all its contexts. -/
theorem mem_held (hc : counts t = 0)
    {c : LockContext} (hct : c ∈ entered t) :
    (c.requestedUsage, t) ∈ (queues c.usageQueue).held := by
  rcases (h.uses_iff c.usageQueue (c.requestedUsage, t)).mpr hct with hh | hb
  · exact hh
  · exact absurd hc (h.ne_zero_of_waits (UsageQueueInner.Waits.of_mem hb))

theorem counts_of_entered_nil (ht : entered t = []) : counts t = 0 := by
  by_contra hc
  obtain ⟨a, u, hu⟩ := h.exists_waits hc
  have hmem := (h.uses_iff a (u, t)).mp (.inr hu)
  rw [ht] at hmem
  cases hmem

/-- The counter of a task whose waiting entry changes at one address only. -/
theorem counts_eq_of_tracks (counts' : BlockedUsageCounts)
    (ht : (queues a).Tracks q' counts counts' t) :
    counts' t = (waitsAt (update queues a q') t).ncard := by
  have hfin := h.finite_waitsAt t
  have hother : ∀ x, x ≠ a → (x ∈ waitsAt (update queues a q') t ↔ x ∈ waitsAt queues t) := by
    intro x hx
    rw [mem_waitsAt, mem_waitsAt, update_of_ne hx]
  have hself : a ∈ waitsAt (update queues a q') t ↔ q'.Waits t := by rw [mem_waitsAt, update_self]
  rcases ht with ⟨hiff, hc⟩ | ⟨hnot, hw, hc⟩ | ⟨hw, hnot, hc⟩
  · rw [hc, h.counts_eq t]
    congr 1
    ext x
    by_cases hx : x = a
    · subst hx
      rw [hself, hiff]
      rfl
    · exact (hother x hx).symm
  · have hset : waitsAt (update queues a q') t = insert a (waitsAt queues t) := by
      ext x
      by_cases hx : x = a
      · subst hx
        exact iff_of_true (hself.mpr hw) (mem_insert x _)
      · rw [hother x hx, mem_insert_iff, or_iff_right hx]
    rw [hset, ncard_insert_of_notMem (mem_waitsAt.not.mpr hnot) hfin, hc, h.counts_eq t]
  · have hset : waitsAt (update queues a q') t = waitsAt queues t \ {a} := by
      ext x
      by_cases hx : x = a
      · subst hx
        refine iff_of_false (fun hm => hnot (hself.mp hm)) fun hm => hm.2 rfl
      · rw [hother x hx, mem_sdiff, mem_singleton_iff, and_iff_left hx]
    have hcard := ncard_sdiff_singleton_add_one (s := waitsAt queues t) hw hfin
    rw [hset]
    rw [h.counts_eq t] at hc
    omega

end

/-! ## Locking all addresses of a task -/

/-- `task` is being locked, and has still to be locked at `cs`. `blocked` is the counter the loop
keeps for it, which is stored only after the last round. -/
structure Locking (pending : Task → Prop) (entered : Task → List LockContext)
    (queues : Pubkey → UsageQueueInner) (counts : BlockedUsageCounts) (task : Task) (blocked : ℕ)
    (cs : List LockContext) : Prop where
  consistent : Consistent pending entered queues (update counts task blocked)
  pending_iff : ∀ t, t ≠ task → (pending t ↔ counts t ≠ 0)
  pending_task : pending task
  id_ne : ∀ t, t ≠ task → entered t ≠ [] → t.taskId ≠ task.taskId
  nodup : ((entered task ++ cs).map usageQueue).Nodup

namespace Locking
variable {task : Task} {blocked : ℕ} {c : LockContext} {cs : List LockContext}
  {counts' : BlockedUsageCounts}

section
variable (h : Locking pending entered queues counts task blocked (c :: cs))
include h
theorem ne_of_mem {d : LockContext} (hd : d ∈ entered task) : d.usageQueue ≠ c.usageQueue := by
  intro heq
  have hnd := h.nodup
  rw [map_append, nodup_append'] at hnd
  refine hnd.2.2 (mem_map_of_mem hd) ?_
  rw [heq]
  exact mem_map_of_mem mem_cons_self

theorem task_ne (he : (queues c.usageQueue).Uses e) : e.2 ≠ task := by
  rintro rfl
  exact h.ne_of_mem ((h.consistent.uses_iff _ e).mp he) rfl

theorem key_ne (he : (queues c.usageQueue).Uses e) : e.key ≠ task.taskId :=
  h.id_ne e.2 (h.task_ne he) (ne_nil_of_mem ((h.consistent.uses_iff c.usageQueue e).mp he))

/-- One round of the locking loop. -/
theorem step
    (hl : lockUsage (queues c.usageQueue) counts task c.requestedUsage =
      some (granted, q', counts')) :
    Locking pending (update entered task (entered task ++ [c]))
        (update queues c.usageQueue q') counts' task
        (if granted then blocked else blocked + 1) cs ∧ counts' task = counts task := by
  have hcons := h.consistent
  have hq := hcons.ordered c.usageQueue
  obtain ⟨hq', hspec⟩ := lockUsage_spec hq
    (fun e he => h.pending_iff e.2 (h.task_ne (.inl he))) (fun e he => h.key_ne (.inl he))
    (fun e he => h.key_ne (.inr he)) hl
  have hq'' : Ordered pending q' := hq'.mono fun e _ hp => .inl hp
  have hself : counts' task = counts task := hspec.frame task fun e he => h.task_ne (.inl he)
  refine ⟨⟨⟨?_, ?_, ?_⟩, ?_, h.pending_task, ?_, ?_⟩, hself⟩
  · exact (forall_update_iff queues fun _ q => Ordered pending q).mpr
      ⟨hq'', fun a _ => hcons.ordered a⟩
  · intro a e
    by_cases ha : a = c.usageQueue
    · subst ha
      rw [update_self, hspec.uses_iff, hcons.uses_iff]
      by_cases het : e.2 = task
      · have hnot : ¬ (⟨c.usageQueue, e.1⟩ : LockContext) ∈ entered task := fun hm =>
          h.ne_of_mem hm rfl
        rw [het, update_self, mem_append, mem_singleton, or_iff_right hnot,
          or_iff_right hnot, Prod.ext_iff, and_iff_left het]
        constructor
        · intro hu
          rw [hu]
        · intro hu
          exact congrArg requestedUsage hu
      · rw [update_of_ne het, or_iff_left]
        exact fun heq => het (congrArg Prod.snd heq)
    · rw [update_of_ne ha, hcons.uses_iff]
      by_cases het : e.2 = task
      · rw [het, update_self, mem_append, mem_singleton, or_iff_left]
        exact fun heq => ha (congrArg usageQueue heq)
      · rw [update_of_ne het]
  · intro t
    by_cases ht : t = task
    · subst ht
      have hnw : ¬ (queues c.usageQueue).Waits t := by
        rintro ⟨u, hu⟩
        exact h.task_ne (.inr hu) rfl
      refine hcons.counts_eq_of_tracks (update counts' t _) ?_
      have hg := hspec.granted_iff
      simp only [UsageQueueInner.Tracks, update_self]
      cases granted with
      | true => exact .inl ⟨iff_of_false (hq''.not_waits hg) hnw, rfl⟩
      | false => exact .inr (.inl ⟨hnw, ⟨_, hg⟩, rfl⟩)
    · refine hcons.counts_eq_of_tracks (update counts' task _) ?_
      have htr := hspec.tracks hq hq'' ht
      simp only [UsageQueueInner.Tracks, update_of_ne ht] at htr ⊢
      exact htr
  · intro t ht
    rw [h.pending_iff t ht]
    by_cases hheld : ∃ e ∈ (queues c.usageQueue).held, e.2 = t
    · obtain ⟨e, he, rfl⟩ := hheld
      rcases hspec.kept e he with ⟨_, hcnt⟩ | ⟨_, hne, hcnt⟩
      · rw [hcnt]
      · rw [hcnt]
        exact iff_of_true hne (Nat.succ_ne_zero _)
    · push Not at hheld
      rw [hspec.frame t hheld]
  · intro t ht
    rw [update_of_ne ht]
    exact h.id_ne t ht
  · rw [update_self, append_assoc]
    exact h.nodup

end

/-- The locking loop enters the contexts of the task. -/
theorem lockContexts {blocked' : ℕ} {queues' : Pubkey → UsageQueueInner}
    (h : Locking pending entered queues counts task blocked cs)
    (hl : lockContexts task cs queues counts blocked = some (queues', counts', blocked')) :
    Locking pending (update entered task (entered task ++ cs)) queues' counts' task
      blocked' [] ∧ counts' task = counts task := by
  induction cs generalizing entered queues counts blocked with
  | nil =>
    rw [lockContexts, some_inj, Prod.mk.injEq, Prod.mk.injEq] at hl
    obtain ⟨rfl, rfl, rfl⟩ := hl
    rw [append_nil, update_eq_self]
    exact ⟨h, rfl⟩
  | cons c cs ih =>
    rw [lockContexts] at hl
    simp only [bind_eq_bind, bind_eq_some_iff, Prod.exists] at hl
    obtain ⟨granted, q1, counts1, h1, blocked1, hblocked, hrest⟩ := hl
    obtain ⟨hstep, hself⟩ := h.step h1
    have hb : blocked1 = if granted then blocked else blocked + 1 := by
      cases granted with
      | true => exact (some_inj.mp hblocked).symm
      | false => exact (ShortCounter.increment_eq_some_iff.mp hblocked).1
    rw [← hb] at hstep
    obtain ⟨hdone, hself'⟩ := ih hstep hrest
    rw [update_self, update_idem, append_assoc] at hdone
    exact ⟨hdone, hself'.trans hself⟩

end Locking

/-! ## Unlocking all addresses of a task -/

/-- One round of the unlocking loop. -/
theorem unlock_step {task : Task} {c : LockContext} {cs : List LockContext}
    (h : Consistent pending entered queues counts) (hent : entered task = c :: cs)
    (hcs : ∀ d ∈ cs, d.usageQueue ≠ c.usageQueue) (htask : counts task = 0) :
    ∃ q' counts' new,
      unlockUsage (queues c.usageQueue) counts unblocked task c.requestedUsage =
        some (q', counts', unblocked ++ new) ∧
      Consistent pending (update entered task cs)
        (update queues c.usageQueue q') counts' ∧
      new.Nodup ∧ (∀ t, t ∈ new ↔ counts t ≠ 0 ∧ counts' t = 0) ∧ ∀ t, counts' t ≤ counts t := by
  have hq := h.ordered c.usageQueue
  have hheld : (c.requestedUsage, task) ∈ (queues c.usageQueue).held :=
    h.mem_held htask (by rw [hent]; exact mem_cons_self)
  obtain ⟨q', counts', new, hu, hq', hspec⟩ := unlockUsage_spec unblocked hq hheld
    fun e he => h.ne_zero_of_waits (UsageQueueInner.Waits.of_mem he)
  refine ⟨q', counts', new, hu, ⟨?_, ?_, ?_⟩, hspec.nodup, hspec.mem_new, ?_⟩
  · exact (forall_update_iff queues fun _ q => Ordered pending q).mpr
      ⟨hq', fun a _ => h.ordered a⟩
  · intro a e
    by_cases ha : a = c.usageQueue
    · subst ha
      rw [update_self, hspec.uses_iff hq hheld, h.uses_iff]
      by_cases het : e.2 = task
      · rw [het, update_self]
        refine iff_of_false ?_ fun hm => hcs _ hm rfl
        rintro ⟨hm, hne⟩
        refine hne (hq.uses_unique ?_ (.inl hheld) (congrArg Task.taskId het))
        exact (h.uses_iff _ _).mpr (het ▸ hm)
      · rw [update_of_ne het, and_iff_left]
        exact fun heq => het (congrArg Prod.snd heq)
    · rw [update_of_ne ha, h.uses_iff]
      by_cases het : e.2 = task
      · rw [het, update_self, hent, mem_cons, or_iff_right]
        exact fun heq => ha (congrArg usageQueue heq)
      · rw [update_of_ne het]
  · intro t
    exact h.counts_eq_of_tracks counts' (hspec.tracks hq' t)
  · intro t
    rcases hspec.tracks hq' t with ⟨_, hc⟩ | ⟨hw, hw', _⟩ | ⟨_, _, hc⟩
    · exact hc.le
    · obtain ⟨u, hu'⟩ := hw'
      exact absurd ⟨u, hspec.blocked_of _ hu'⟩ hw
    · omega

/-- The unlocking loop removes the contexts of the task. -/
theorem unlockContexts {task : Task} {cs : List LockContext}
    (h : Consistent pending entered queues counts) (hent : entered task = cs)
    (hnd : (cs.map usageQueue).Nodup) (htask : counts task = 0) :
    ∃ queues' counts' new,
      unlockContexts task cs queues counts unblocked = some (queues', counts', unblocked ++ new) ∧
      Consistent pending (update entered task []) queues' counts' ∧
      new.Nodup ∧ (∀ t, t ∈ new ↔ counts t ≠ 0 ∧ counts' t = 0) ∧ ∀ t, counts' t ≤ counts t := by
  induction cs generalizing entered queues counts unblocked with
  | nil =>
    refine ⟨queues, counts, [], by simp [unlockContexts], ?_, nodup_nil, ?_, fun _ => le_rfl⟩
    · rwa [← hent, update_eq_self]
    · intro t
      simp
  | cons c cs ih =>
    rw [map_cons, nodup_cons] at hnd
    have hcs : ∀ d ∈ cs, d.usageQueue ≠ c.usageQueue := by
      intro d hd heq
      exact hnd.1 (heq ▸ mem_map_of_mem hd)
    obtain ⟨q1, counts1, new1, hu, hcons, hnd1, hmem1, hle1⟩ :=
      h.unlock_step unblocked hent hcs htask
    have htask1 : counts1 task = 0 := Nat.le_zero.mp (htask ▸ hle1 task)
    obtain ⟨queues', counts', new2, hl, hcons', hnd2, hmem2, hle2⟩ :=
      ih (unblocked ++ new1) hcons (update_self ..) hnd.2 htask1
    rw [update_idem] at hcons'
    refine ⟨queues', counts', new1 ++ new2, ?_, hcons', ?_, ?_, fun t => (hle2 t).trans (hle1 t)⟩
    · rw [unlockContexts, hu, bind_eq_bind, bind_some, ← append_assoc]
      exact hl
    · refine nodup_append'.mpr ⟨hnd1, hnd2, ?_⟩
      intro t ht1 ht2
      exact ((hmem2 t).mp ht2).1 ((hmem1 t).mp ht1).2
    · intro t
      have := hle1 t
      have := hle2 t
      rw [mem_append, hmem1, hmem2]
      omega

end Consistent
end FlowraValidator.UnifiedScheduler
