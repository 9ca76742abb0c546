import FlowraValidator.UnifiedScheduler.PriorityInvariant

/-!
# Fifo queues are priority queues with increasing ids

A priority queue whose tasks arrive with increasing ids never takes a usage back, and appends every
task that has to wait. A fifo queue then is its image: readers are counted instead of kept, and
the waiting entries are the same, along a map `f` of the tasks.

* `UsageQueueInner.toFifo`: the image of a queue.
* `UsageQueueInner.lockLast`: what both kinds of queue do with a task that comes after all others
  (`lockUsage_last`, `lockUsage_toFifo`).
* `lockContexts_toFifo`, `Consistent.unlockContexts_toFifo`: the two loops over the addresses of a
  task agree on both kinds of queue.
-/

namespace FlowraValidator.UnifiedScheduler
open Function KeyedList List Option SchedulingStateMachine ShortCounter Usage UsageQueueInner

/-! ## One queue -/

/-- The usage a fifo queue records for a usage of a priority queue. -/
def Usage.toFifo : Usage (List Task) Task → Usage ℕ Unit
  | .readonly ts => .readonly ts.length
  | .writable _ => .writable ()

variable {ts : List Task} {pending : Task → Prop} {task : Task}
  {cur : Option (Usage (List Task) Task)} {b : List UsageFromTask} {t : Task} {u : RequestedUsage}
  {e : Option UsageFromTask}

namespace UsageQueueInner

/-- The fifo queue with the same holders and the same waiting entries. -/
def toFifo (f : Task → Task) : UsageQueueInner → UsageQueueInner
  | .priority cur b => .fifo (cur.map Usage.toFifo) (b.map (Prod.map id f))
  | .fifo cur b => .fifo cur b

variable {q : UsageQueueInner} (f : Task → Task) (counts : BlockedUsageCounts)
  {q' : UsageQueueInner}

@[simp] theorem toFifo_none (b : List UsageFromTask) :
    (priority none b).toFifo f = fifo none (b.map (Prod.map id f)) := rfl

@[simp] theorem toFifo_readonly (ts : List Task) (b : List UsageFromTask) :
    (priority (some (.readonly ts)) b).toFifo f =
      fifo (some (.readonly ts.length)) (b.map (Prod.map id f)) := rfl

@[simp] theorem toFifo_writable (t : Task) (b : List UsageFromTask) :
    (priority (some (.writable t)) b).toFifo f = fifo (some (.writable ())) (b.map (Prod.map id f))
    := rfl

/-- Only the waiting entries depend on the map of tasks. -/
theorem toFifo_congr {f g : Task → Task} (h : ∀ e ∈ q.blocked, f e.2 = g e.2) :
    q.toFifo f = q.toFifo g := by
  cases q with
  | fifo cur b => rfl
  | priority cur b =>
    have hb : b.map (Prod.map id f) = b.map (Prod.map id g) :=
      map_congr_left fun e he => Prod.ext rfl (h e he)
    rw [toFifo, toFifo, hb]

/-- Locking for a task that comes after all others: granted if nobody waits and the usages are
compatible, and otherwise the last one in the line. -/
def lockLast (q : UsageQueueInner) (task : Task) (requested : RequestedUsage) :
    Bool × UsageQueueInner :=
  match q, requested with
  | .priority none b, _ => (true, .priority (some (priorityFrom task requested)) b)
  | .priority (some (.readonly ts)) [], .readonly =>
    (true, .priority (some (.readonly (ts ++ [task]))) [])
  | .priority cur b, _ => (false, .priority cur (b ++ [(requested, task)]))
  | .fifo cur b, _ => (false, .fifo cur b)

theorem extractReblocked_of_forall_lt {n : ℕ} {counts : BlockedUsageCounts}
    (h : ∀ t ∈ ts, t.taskId < n) : extractReblocked n ts counts = some (ts, [], counts) := by
  induction ts with
  | nil => rfl
  | cons t ts ih =>
    rw [extractReblocked, if_pos (h t mem_cons_self), ih fun x hx => h x (mem_cons_of_mem _ hx)]
    rfl

section

attribute [local simp] lockUsage prepareLock tryLock lockLast pushBlocked push

/-- A priority queue grants or appends a task that comes after all others. -/
theorem lockUsage_last (requested : RequestedUsage) (hq : Ordered pending q)
    (hlt : ∀ e, q.Uses e → e.key < task.taskId) :
    lockUsage q counts task requested =
      some ((q.lockLast task requested).1, (q.lockLast task requested).2, counts) := by
  obtain ⟨cur, b, rfl⟩ := hq.isPriority
  have hins : KeyedList.insertNew UsageFromTask.key (requested, task) b =
      some (b ++ [(requested, task)]) :=
    insertNew_of_forall_lt fun e he => hlt e (.inr he)
  match cur with
  | none =>
    obtain rfl := hq.blocked_nil
    simp
  | some (.writable t) =>
    have ht : t.taskId < task.taskId := hlt (.writable, t) (.inl (by simp))
    simp [Task.isHigherPriority_of_gt ht, hins]
  | some (.readonly ts) =>
    have hts : ∀ t ∈ ts, t.taskId < task.taskId := fun t ht =>
      hlt (.readonly, t) (.inl (mem_map_of_mem ht))
    have hne : ts ≠ [] := hq.readers_ne_nil
    cases requested with
    | writable => simp [extractReblocked_of_forall_lt hts, insertReblocked, hne, hins]
    | readonly =>
      cases b with
      | nil => simp [insertNew_of_forall_lt hts]
      | cons e b =>
        have hw : e.1 = .writable := hq.writerFirst rfl e (by simp)
        have he : e.2.taskId < task.taskId := hlt e (.inr (by simp))
        simp [hw, Task.isHigherPriority_of_gt he, hins]

/-- A fifo queue does the same. -/
theorem lockUsage_toFifo (task : Task) (requested : RequestedUsage) (hq : Ordered pending q)
    (hreaders : q.held.length + 1 < counterLimit) :
    lockUsage (q.toFifo f) counts (f task) requested =
      some ((q.lockLast task requested).1, (q.lockLast task requested).2.toFifo f, counts) := by
  obtain ⟨cur, b, rfl⟩ := hq.isPriority
  match cur with
  | none =>
    obtain rfl := hq.blocked_nil
    cases requested <;> simp [priorityFrom, fifoFrom]
  | some (.writable t) => cases b <;> simp [currentUsage]
  | some (.readonly ts) =>
    rw [held_readonly, length_map] at hreaders
    have hinc : increment ts.length = some (ts.length + 1) :=
      increment_eq_some_iff.mpr ⟨rfl, hreaders⟩
    cases b <;> cases requested <;> simp [currentUsage, hinc]

end

/-- The order of the queue survives a task that comes after all others. -/
theorem Ordered.lockLast {requested : RequestedUsage} (hq : Ordered (fun _ => True) q)
    (hlt : ∀ e, q.Uses e → e.key < task.taskId) :
    Ordered (fun _ => True) (q.lockLast task requested).2 := by
  obtain ⟨cur, b, rfl⟩ := hq.isPriority
  have happ : KeyedList.Sorted UsageFromTask.key (b ++ [(requested, task)]) := by
    refine pairwise_append.mpr ⟨hq.blockedSorted, pairwise_singleton _ _, ?_⟩
    intro e he e' he'
    rw [mem_singleton.mp he']
    exact hlt e (.inr he)
  have hout : ∀ e ∈ (priority cur b).held, ∀ e' ∈ b ++ [(requested, task)], e.key < e'.key := by
    intro e he e' he'
    rcases mem_append.mp he' with he' | he'
    · exact hq.outranks e he trivial e' he'
    · rw [mem_singleton.mp he']
      exact hlt e (.inl he)
  match cur with
  | none =>
    obtain rfl := hq.blocked_nil
    cases requested with
    | writable => exact ordered_writable sorted_nil (by simp) (by simp)
    | readonly =>
      exact ordered_readonly (sorted_singleton task) (by simp) sorted_nil
        (by simp) (by simp) (by simp)
  | some (.writable t) =>
    have ht := hout (.writable, t) (by simp)
    cases b <;> exact ordered_writable happ (fun e he => (ht e he).ne) fun _ => ht
  | some (.readonly ts) =>
    have hne : ts ≠ [] := hq.readers_ne_nil
    have hlt' : ∀ t ∈ ts, t.taskId < task.taskId := fun t ht =>
      hlt (.readonly, t) (.inl (mem_map_of_mem ht))
    have ht : ∀ t ∈ ts, ∀ e ∈ b ++ [(requested, task)], t.taskId < e.key := fun t ht =>
      hout (.readonly, t) (mem_map_of_mem ht)
    -- a request that has to wait
    have hwait : (∀ e ∈ (b ++ [(requested, task)]).head?, e.1 = .writable) →
        Ordered (fun _ => True) (priority (some (.readonly ts)) (b ++ [(requested, task)])) :=
      fun hw => ordered_readonly hq.readers_sorted hne happ (fun t h e he => (ht t h e he).ne) hw
        fun t h _ => ht t h
    cases b with
    | nil =>
      cases requested with
      | writable => exact hwait (by simp)
      | readonly =>
        refine ordered_readonly ?_ (by simp) sorted_nil (by simp) (by simp) (by simp)
        refine pairwise_append.mpr ⟨hq.readers_sorted, pairwise_singleton _ _, ?_⟩
        intro t ht' t' ht''
        rw [mem_singleton.mp ht'']
        exact hlt' t ht'
    | cons e b =>
      have hw := hq.writerFirst rfl
      cases requested <;> exact hwait (by simpa using hw)

/-! ## Unlocking one queue -/

/-- Taking the address for a popped entry. -/
theorem tryLock_toFifo (h : (priority cur b).tryLock t u = some (true, q'))
    (hlim : (priority cur b).held.length + 1 < counterLimit) :
    ((priority cur b).toFifo f).tryLock (f t) u = some (true, q'.toFifo f) ∧
      q'.held.length = (priority cur b).held.length + 1 ∧ q'.blocked = b ∧
      ∃ cur', q' = priority cur' b := by
  match cur, u with
  | none, u =>
    simp only [tryLock, some.injEq, Prod.mk.injEq, true_and] at h
    subst h
    cases u <;> simp [tryLock, priorityFrom, fifoFrom]
  | some (.writable _), _ | some (.readonly ts), .writable => simp [tryLock] at h
  | some (.readonly ts), .readonly =>
    simp only [tryLock, Option.bind_eq_bind, Option.bind_eq_some_iff, Option.pure_def,
      some.injEq, Prod.mk.injEq, true_and] at h
    obtain ⟨ts', hins, rfl⟩ := h
    rw [held_readonly, length_map] at hlim
    have hinc : increment ts.length = some (ts.length + 1) := increment_eq_some_iff.mpr ⟨rfl, hlim⟩
    have hlen : ts'.length = ts.length + 1 := by
      rw [← (insertNew_eq_some_iff.mp hins).2, orderedInsert_length]
    simp [tryLock, hinc, hlen]

theorem popLockableReadonly_toFifo (h : (priority cur b).popLockableReadonly = some (e, q')) :
    ((priority cur b).toFifo f).popLockableReadonly = some (e.map (Prod.map id f), q'.toFifo f) ∧
      ∃ b', q' = priority cur b' ∧ e.toList ++ b' = b := by
  have hcur : ((priority cur b).toFifo f).currentUsage = (priority cur b).currentUsage := by
    match cur with
    | none => rfl
    | some (.readonly _) => rfl
    | some (.writable _) => rfl
  match b with
  | [] =>
    simp only [popLockableReadonly, peekBlocked, blocked_priority, head?_nil] at h
    cases h
    simp [popLockableReadonly, peekBlocked, toFifo]
  | (.writable, t) :: b =>
    simp only [popLockableReadonly, peekBlocked, blocked_priority, head?_cons] at h
    cases h
    simp [popLockableReadonly, peekBlocked, toFifo]
  | (.readonly, t) :: b =>
    simp only [popLockableReadonly, peekBlocked, blocked_priority, head?_cons] at h
    split_ifs at h with hread
    rw [← hcur] at hread
    simp only [pop, head?_cons, tail_cons] at h
    cases h
    refine ⟨?_, b, rfl, rfl⟩
    simp only [popLockableReadonly, hread, if_true]
    rfl

end UsageQueueInner

/-- The counters of the image tasks are those of the tasks in `A`, and all others are zero. -/
structure CountsSim (f : Task → Task) (A : Task → Prop) (counts counts' : BlockedUsageCounts) :
    Prop where
  eq : ∀ t, A t → counts' (f t) = counts t
  zero : ∀ x, (∀ t, A t → f t ≠ x) → counts' x = 0

variable {counts : BlockedUsageCounts} {queues : Pubkey → UsageQueueInner} (f : Task → Task)
  {A : Task → Prop} {counts1 counts' : BlockedUsageCounts} {unblocked unblocked1 : List Task}
  {entered : Task → List LockContext} {cs : List LockContext}

theorem CountsSim.tryUnblock {f : Task → Task} (h : CountsSim f A counts counts')
    (hf : ∀ t, A t → ∀ t', A t' → f t = f t' → t = t') (ht : A t) {flag : Bool}
    (hu : t.tryUnblock counts = some (flag, counts1)) :
    ∃ counts1', (f t).tryUnblock counts' = some (flag, counts1') ∧
      CountsSim f A counts1 counts1' := by
  rw [Task.tryUnblock, map_eq_some_iff] at hu
  obtain ⟨c, hc, heq⟩ := hu
  cases heq
  refine ⟨update counts' (f t) c, ?_, ?_, ?_⟩
  · rw [Task.tryUnblock, h.eq t ht, hc]
    rfl
  · intro x hx
    by_cases hxt : x = t
    · rw [hxt, update_self, update_self]
    · rw [update_of_ne hxt, update_of_ne fun he => hxt (hf x hx t ht he)]
      exact h.eq x hx
  · intro x hx
    rw [update_of_ne (hx t ht).symm]
    exact h.zero x hx

namespace UsageQueueInner

/-- The unlocking loop of a fifo queue follows that of the priority queue. -/
theorem relock_toFifo {f : Task → Task} (hf : ∀ t, A t → ∀ t', A t' → f t = f t' → t = t')
    {fuel : ℕ} {q1 : UsageQueueInner} (hc : CountsSim f A counts counts')
    (hA : ∀ x ∈ e.toList ++ b, A x.2)
    (hlim : (priority cur b).held.length + (e.toList ++ b).length < counterLimit)
    (h : relock fuel (priority cur b) counts unblocked e = some (q1, counts1, unblocked1)) :
    ∃ counts1', relock fuel ((priority cur b).toFifo f) counts' (unblocked.map f)
        (e.map (Prod.map id f)) = some (q1.toFifo f, counts1', unblocked1.map f) ∧
      CountsSim f A counts1 counts1' := by
  induction fuel generalizing cur b counts counts' unblocked e with
  | zero =>
    cases e with
    | some e => simp [relock] at h
    | none =>
      simp only [relock] at h
      cases h
      exact ⟨counts', rfl, hc⟩
  | succ fuel ih =>
    cases e with
    | none =>
      simp only [relock] at h
      cases h
      exact ⟨counts', rfl, hc⟩
    | some e =>
      obtain ⟨u, t⟩ := e
      simp only [relock, bind_eq_bind, bind_eq_some_iff, Prod.exists] at h
      obtain ⟨locked, q2, hlock, h⟩ := h
      cases locked with
      | false => simp at h
      | true =>
        simp only [if_true, bind_eq_some_iff, Prod.exists] at h
        obtain ⟨flag, counts2, hun, h⟩ := h
        have hAt : A t := hA (u, t) (by simp)
        simp only [toList_some, singleton_append, length_cons] at hlim
        obtain ⟨hlock', hlen, -, cur2, rfl⟩ := tryLock_toFifo f hlock (by omega)
        obtain ⟨counts2', hun', hc2⟩ := hc.tryUnblock hf hAt hun
        have hmap : (if flag then unblocked ++ [t] else unblocked).map f =
            if flag then unblocked.map f ++ [f t] else unblocked.map f := by
          cases flag <;> simp
        cases u with
        | writable =>
          simp only [Option.pure_def] at h
          cases h
          refine ⟨counts2', ?_, hc2⟩
          simp [relock, hlock', hun', hmap]
        | readonly =>
          simp only [bind_eq_some_iff, Prod.exists] at h
          obtain ⟨e3, q3, hpop, h⟩ := h
          obtain ⟨hpop', b3, rfl, hb3⟩ := popLockableReadonly_toFifo f hpop
          have hA3 : ∀ x ∈ e3.toList ++ b3, A x.2 := by
            intro x hx
            rw [hb3] at hx
            exact hA x (by simp [hx])
          have hlim3 : (priority cur2 b3).held.length + (e3.toList ++ b3).length <
              counterLimit := by
            rw [hb3, held_priority cur2 b3 b]
            omega
          obtain ⟨counts1', hrel, hc1⟩ := ih hc2 hA3 hlim3 h
          refine ⟨counts1', ?_, hc1⟩
          rw [hmap] at hrel
          simp [relock, hlock', hun', hpop', hrel]

theorem unlock_toFifo (f : Task → Task) {q q' : UsageQueueInner} (hq : Ordered pending q)
    (h : q.unlock t u = some (e, q')) :
    (q.toFifo f).unlock (f t) u = some (e.map (Prod.map id f), q'.toFifo f) ∧
      (∃ cur' b', q' = priority cur' b' ∧ e.toList ++ b' = q.blocked) ∧
      q'.held.length < q.held.length := by
  obtain ⟨cur, b, rfl⟩ := hq.isPriority
  match cur, u with
  | none, _ | some (.writable _), .readonly | some (.readonly _), .writable => simp [unlock] at h
  | some (.writable x), .writable =>
    simp only [unlock, pop] at h
    cases h
    refine ⟨?_, ⟨none, b.tail, rfl, ?_⟩, by simp⟩
    · simp [unlock, pop]
    · cases b <;> rfl
  | some (.readonly ts), .readonly =>
    simp only [unlock, bind_eq_bind, bind_eq_some_iff] at h
    obtain ⟨ts', hrem, h⟩ := h
    have hlen := length_of_removeKey hq.readers_sorted hrem
    by_cases hnil : ts' = []
    · subst hnil
      simp only [List.isEmpty_nil, if_true, pop, Option.pure_def] at h
      cases h
      have hone : ts.length = 1 := hlen.symm
      refine ⟨?_, ⟨none, b.tail, rfl, ?_⟩, ?_⟩
      · simp [unlock, pop, hone]
      · cases b <;> rfl
      · simp [hone]
    · have hpos : ts'.length ≠ 0 := fun h0 => hnil (eq_nil_of_length_eq_zero h0)
      simp only [List.isEmpty_iff, hnil, if_false, Option.pure_def] at h
      cases h
      have hone : ts.length ≠ 1 := by omega
      have hdec : decrement ts.length = some ts'.length := decrement_eq_some_iff.mpr hlen.symm
      refine ⟨?_, ⟨_, b, rfl, rfl⟩, ?_⟩
      · simp [unlock, hone, hdec]
      · simp only [held_readonly, length_map]
        omega

theorem unlockUsage_toFifo {f : Task → Task} (hf : ∀ t, A t → ∀ t', A t' → f t = f t' → t = t')
    {q q1 : UsageQueueInner} (hq : Ordered pending q) (hc : CountsSim f A counts counts')
    (hA : ∀ x ∈ q.blocked, A x.2) (hlim : q.held.length + q.blocked.length ≤ counterLimit)
    (h : unlockUsage q counts unblocked t u = some (q1, counts1, unblocked1)) :
    ∃ counts1', unlockUsage (q.toFifo f) counts' (unblocked.map f) (f t) u =
        some (q1.toFifo f, counts1', unblocked1.map f) ∧ CountsSim f A counts1 counts1' := by
  simp only [unlockUsage, bind_eq_bind, bind_eq_some_iff, Prod.exists] at h
  obtain ⟨e, q', hun, hrel⟩ := h
  obtain ⟨hun', ⟨cur', b', rfl, hb⟩, hlen⟩ := unlock_toFifo f hq hun
  obtain ⟨counts1', hrel', hc1⟩ := relock_toFifo hf hc (by rw [hb]; exact hA)
    (by rw [hb]; omega) hrel
  refine ⟨counts1', ?_, hc1⟩
  have hblen : ((priority cur' b').toFifo f).blocked.length = b'.length := by simp [toFifo]
  simp only [unlockUsage, hun', bind_eq_bind, bind_some, hblen]
  exact hrel'

end UsageQueueInner

/-! ## All queues of a task -/

open UsageQueueInner (Ordered toFifo lockLast)

theorem toFifo_update (queues : Pubkey → UsageQueueInner) (a : Pubkey) (q : UsageQueueInner) :
    (fun x => (update queues a q x).toFifo f) =
      update (fun x => (queues x).toFifo f) a (q.toFifo f) := by
  funext x
  by_cases hx : x = a
  · rw [hx, update_self, update_self]
  · rw [update_of_ne hx, update_of_ne hx]

/-- The entries of a queue belong to different tasks. -/
theorem Consistent.length_le (h : Consistent pending entered queues counts)
    (hts : ∀ t, entered t ≠ [] → t ∈ ts) (a : Pubkey) :
    (queues a).held.length + (queues a).blocked.length ≤ ts.length := by
  have hq := h.ordered a
  have hnd : (((queues a).held ++ (queues a).blocked).map Prod.snd).Nodup := by
    refine List.Nodup.of_map Task.taskId ?_
    rw [List.map_map, List.Nodup, List.pairwise_map, List.pairwise_append]
    refine ⟨hq.heldSorted.imp ne_of_lt, hq.blockedSorted.imp ne_of_lt, hq.disjoint⟩
  have hsub : ((queues a).held ++ (queues a).blocked).map Prod.snd ⊆ ts := by
    intro t ht
    obtain ⟨e, he, rfl⟩ := mem_map.mp ht
    exact hts _ (ne_nil_of_mem ((h.uses_iff a e).mp (mem_append.mp he)))
  have hle := (subperm_of_subset hnd hsub).length_le
  rwa [length_map, length_append] at hle

/-- Both locking loops for a task that comes after all others: they fail together, and otherwise
grant and queue alike. -/
theorem lockContexts_toFifo (counts counts' : BlockedUsageCounts) (blocked : ℕ)
    (hq : ∀ a, Ordered (fun _ => True) (queues a)) (hnd : (cs.map LockContext.usageQueue).Nodup)
    (hlt : ∀ c ∈ cs, ∀ e, (queues c.usageQueue).Uses e → e.key < task.taskId)
    (hlim : ∀ c ∈ cs, (queues c.usageQueue).held.length + 1 < counterLimit) :
    ∃ r : Option ((Pubkey → UsageQueueInner) × ℕ),
      lockContexts task cs queues counts blocked = r.map (fun x => (x.1, counts, x.2)) ∧
      lockContexts (f task) cs (fun a => (queues a).toFifo f) counts'
        blocked = r.map (fun x => (fun a => (x.1 a).toFifo f, counts', x.2)) ∧
      ∀ x, r = some x → ∀ a, Ordered (fun _ => True) (x.1 a) := by
  induction cs generalizing queues blocked with
  | nil =>
    refine ⟨some (queues, blocked), rfl, rfl, ?_⟩
    intro x hx
    rwa [← some_inj.mp hx]
  | cons c cs ih =>
    rw [map_cons, nodup_cons] at hnd
    have hltc := hlt c mem_cons_self
    have hlock := lockUsage_last counts c.requestedUsage (hq c.usageQueue) hltc
    have hlock' := lockUsage_toFifo f counts' task c.requestedUsage
      (hq c.usageQueue) (hlim c mem_cons_self)
    set granted := ((queues c.usageQueue).lockLast task c.requestedUsage).1
    set q1 := ((queues c.usageQueue).lockLast task c.requestedUsage).2
    have hother : ∀ d ∈ cs, update queues c.usageQueue q1 d.usageQueue = queues d.usageQueue := by
      intro d hd
      refine update_of_ne ?_ _ _
      intro heq
      exact hnd.1 (heq ▸ mem_map_of_mem hd)
    have hq' : ∀ a, Ordered (fun _ => True) (update queues c.usageQueue q1 a) := by
      intro a
      by_cases ha : a = c.usageQueue
      · rw [ha, update_self]
        exact (hq c.usageQueue).lockLast hltc
      · rw [update_of_ne ha]
        exact hq a
    -- the counter of the loop may overflow, in both loops at once
    cases hb : countBlocked granted blocked with
    | none =>
      refine ⟨none, ?_, ?_, by simp⟩
      · simp [lockContexts, hlock, hb]
      · simp [lockContexts, hlock', hb]
    | some blocked1 =>
      obtain ⟨r, h1, h2, h3⟩ := ih blocked1 hq' hnd.2
        (fun d hd => by
          rw [hother d hd]
          exact hlt d (mem_cons_of_mem _ hd))
        (fun d hd => by
          rw [hother d hd]
          exact hlim d (mem_cons_of_mem _ hd))
      refine ⟨r, ?_, ?_, h3⟩
      · simp [lockContexts, hlock, hb, h1]
      · rw [toFifo_update] at h2
        simp [lockContexts, hlock', hb, h2]

/-- The unlocking loop over fifo queues follows that over priority queues. -/
theorem Consistent.unlockContexts_toFifo {f : Task → Task}
    (hf : ∀ t ∈ ts, ∀ t' ∈ ts, f t = f t' → t = t') (hlen : ts.length ≤ counterLimit)
    {queues1 : Pubkey → UsageQueueInner} (h : Consistent pending entered queues counts)
    (hent : entered task = cs) (hnd : (cs.map LockContext.usageQueue).Nodup)
    (htask : counts task = 0) (hts : ∀ t, entered t ≠ [] → t ∈ ts)
    (hc : CountsSim f (· ∈ ts) counts counts')
    (hu : SchedulingStateMachine.unlockContexts task cs queues counts unblocked =
      some (queues1, counts1, unblocked1)) :
    ∃ counts1', SchedulingStateMachine.unlockContexts (f task) cs
        (fun a => (queues a).toFifo f) counts' (unblocked.map f) =
          some (fun a => (queues1 a).toFifo f, counts1', unblocked1.map f) ∧
      CountsSim f (· ∈ ts) counts1 counts1' := by
  induction cs generalizing entered queues counts counts' unblocked with
  | nil =>
    simp only [SchedulingStateMachine.unlockContexts] at hu
    cases hu
    exact ⟨counts', rfl, hc⟩
  | cons c cs ih =>
    rw [map_cons, nodup_cons] at hnd
    have hcs : ∀ d ∈ cs, d.usageQueue ≠ c.usageQueue := by
      intro d hd heq
      exact hnd.1 (heq ▸ mem_map_of_mem hd)
    obtain ⟨q2, counts2, new, hstep, hcons, -, -, hle⟩ := h.unlock_step unblocked hent hcs htask
    simp only [SchedulingStateMachine.unlockContexts, hstep, bind_eq_bind, bind_some] at hu
    have hA : ∀ x ∈ (queues c.usageQueue).blocked, x.2 ∈ ts := fun x hx =>
      hts _ (ne_nil_of_mem ((h.uses_iff _ x).mp (.inr hx)))
    obtain ⟨counts2', hstep', hc2⟩ := unlockUsage_toFifo hf
      (h.ordered c.usageQueue) hc hA ((h.length_le hts _).trans hlen) hstep
    have hts' : ∀ t, update entered task cs t ≠ [] → t ∈ ts := by
      intro t ht
      by_cases heq : t = task
      · subst heq
        exact hts t (by rw [hent]; exact cons_ne_nil _ _)
      · rw [update_of_ne heq] at ht
        exact hts t ht
    have htask2 : counts2 task = 0 := Nat.le_zero.mp (htask ▸ hle task)
    obtain ⟨counts1', hrest, hc1⟩ := ih hcons (update_self ..) hnd.2 htask2 hts' hc2 hu
    refine ⟨counts1', ?_, hc1⟩
    rw [toFifo_update] at hrest
    simp only [SchedulingStateMachine.unlockContexts, hstep', bind_eq_bind, bind_some]
    exact hrest

end FlowraValidator.UnifiedScheduler
