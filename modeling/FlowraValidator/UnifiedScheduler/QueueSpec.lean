import FlowraValidator.UnifiedScheduler.UsageQueue

/-!
# What one priority queue guarantees

The invariant of a single priority queue, and what locking and unlocking do to it.

The code comment of `prepare_lock` calls reblocking the heart of the priority queue and warns that
an inconsistency would deadlock. The invariant that makes it consistent is `Ordered.outranks`: a
task that holds the address while it is still *pending* (blocked at some other address) has a
smaller id than everything that waits here. Tasks that are already runnable are exempt, because
nothing can be taken back from them.

`Ordered` is stated for an arbitrary predicate `pending`, so that the same lemmas serve a state
between two calls (pending means a positive counter) and a state in the middle of a call, where
the tasks pending *before* the call are the ones that matter.
-/

namespace FlowraValidator.UnifiedScheduler.UsageQueueInner
open UnifiedScheduler.Task UsageFromTask Function KeyedList List Option Usage

/-- The usages a priority queue has granted. -/
def held : UsageQueueInner → List UsageFromTask
  | .priority (some (.readonly ts)) _ => ts.map fun t => (.readonly, t)
  | .priority (some (.writable t)) _ => [(.writable, t)]
  | _ => []

/-- An address that is being read. -/
abbrev reading (ts : List Task) (b : List UsageFromTask) : UsageQueueInner :=
  priority (some (.readonly ts)) b

variable {q q' : UsageQueueInner} {granted : Bool} (cur : Option (Usage (List Task) Task))
  (b : List UsageFromTask)

@[simp] theorem held_none : (priority none b).held = [] := rfl

@[simp] theorem held_readonly (ts : List Task) :
    (reading ts b).held = ts.map fun t => (.readonly, t) := rfl

@[simp] theorem held_writable (t : Task) :
    (priority (some (.writable t)) b).held = [(.writable, t)] := rfl

@[simp] theorem blocked_priority : (priority cur b).blocked = b := rfl

@[simp] theorem blocked_fifo (cur : Option (Usage ℕ Unit)) : (fifo cur b).blocked = b := rfl

@[simp] theorem currentUsage_none : (priority none b).currentUsage = none := rfl

@[simp] theorem currentUsage_readonly (ts : List Task) :
    (reading ts b).currentUsage = some .readonly := rfl

@[simp] theorem currentUsage_writable (t : Task) :
    (priority (some (.writable t)) b).currentUsage = some .writable := rfl

@[simp] theorem held_priorityFrom (t : Task) (u : RequestedUsage) :
    (priority (some (priorityFrom t u)) b).held = [(u, t)] := by
  cases u <;> rfl

theorem pushBlocked_eq_some_iff {cur : Usage (List Task) Task} {b : List UsageFromTask}
    {e : UsageFromTask} : (priority (some cur) b).pushBlocked e = some q ↔
      ∃ b', insertNew key e b = some b' ∧ priority (some cur) b' = q :=
  map_eq_some_iff

/-- The holders do not depend on who waits. -/
theorem held_priority (b b' : List UsageFromTask) :
    (priority cur b).held = (priority cur b').held := by
  match cur with
  | none => rfl
  | some (.readonly _) => rfl
  | some (.writable _) => rfl

/-- The invariant of a priority queue. -/
structure Ordered (pending : Task → Prop) (q : UsageQueueInner) : Prop where
  isPriority : ∃ cur b, q = priority cur b
  heldSorted : KeyedList.Sorted key q.held
  blockedSorted : KeyedList.Sorted key q.blocked
  disjoint : ∀ e ∈ q.held, ∀ e' ∈ q.blocked, e.key ≠ e'.key
  /-- Nobody waits for an unused address, and no reader set is empty. -/
  vacant : q.held = [] → q = priority none []
  /-- Behind readers, a writer waits first. -/
  writerFirst : q.currentUsage = some .readonly → ∀ e ∈ q.blocked.head?, e.1 = .writable
  /-- A pending holder goes before everything that waits. -/
  outranks : ∀ e ∈ q.held, pending e.2 → ∀ e' ∈ q.blocked, e.key < e'.key

theorem ordered_new (pending : Task → Prop) : Ordered pending (new .priorityQueueing) where
  isPriority := ⟨none, [], rfl⟩
  heldSorted := sorted_nil
  blockedSorted := sorted_nil
  disjoint := nofun
  vacant := fun _ => rfl
  writerFirst := fun h => by simp [new] at h
  outranks := nofun

/-- Fewer pending tasks are easier to serve. -/
theorem Ordered.mono {p p' : Task → Prop} (h : Ordered p q) (hp : ∀ e ∈ q.held, p' e.2 → p e.2) :
    Ordered p' q :=
  { h with outranks := fun e he hpe => h.outranks e he (hp e he hpe) }

variable {e : UsageFromTask} {e' : UsageFromTask}

/-- Two holders of one address both read it. -/
theorem readonly_of_mem_held (he : e ∈ q.held) (he' : e' ∈ q.held) (hne : e ≠ e')
    : e.1 = .readonly ∧ e'.1 = .readonly := by
  match q with
  | .priority (some (.readonly ts)) _ =>
    rw [held_readonly, List.mem_map] at he he'
    obtain ⟨_, _, rfl⟩ := he
    obtain ⟨_, _, rfl⟩ := he'
    exact ⟨rfl, rfl⟩
  | .priority (some (.writable t)) _ =>
    rw [held_writable, mem_singleton] at he he'
    exact absurd (he.trans he'.symm) hne
  | .priority none _ | .fifo _ _ => cases he

variable {pending : Task → Prop} {ts : List Task} {b : List UsageFromTask}

theorem mem_held_readonly {t : Task} (ht : t ∈ ts) : (.readonly, t) ∈ (reading ts b).held :=
  mem_map_of_mem ht

theorem Ordered.readers_sorted (h : Ordered pending (reading ts b)) :
    KeyedList.Sorted taskId ts := by
  have hs := h.heldSorted
  rwa [held_readonly, KeyedList.Sorted, pairwise_map] at hs

/-- Nobody waits for an address that is not used. -/
theorem Ordered.blocked_nil (h : Ordered pending (priority none b)) : b = [] := by
  have hv := h.vacant rfl
  rw [priority.injEq] at hv
  exact hv.2

theorem Ordered.readers_ne_nil (h : Ordered pending (reading ts b)) : ts ≠ [] := by
  rintro rfl
  have hv := h.vacant rfl
  rw [priority.injEq] at hv
  cases hv.1

/-! ## Building an ordered queue -/

theorem ordered_writable {t : Task} (hb : KeyedList.Sorted key b)
    (hne : ∀ e ∈ b, t.taskId ≠ e.key) (ho : pending t → ∀ e ∈ b, t.taskId < e.key) :
    Ordered pending (priority (some (.writable t)) b) where
  isPriority := ⟨_, _, rfl⟩
  heldSorted := sorted_singleton _
  blockedSorted := hb
  disjoint := forall_mem_singleton.mpr hne
  vacant := fun h => by simp at h
  writerFirst := fun h => by simp at h
  outranks := forall_mem_singleton.mpr ho

theorem ordered_readonly (hts : KeyedList.Sorted taskId ts) (hne : ts ≠ [])
    (hb : KeyedList.Sorted key b) (hd : ∀ t ∈ ts, ∀ e ∈ b, t.taskId ≠ e.key)
    (hw : ∀ e ∈ b.head?, e.1 = .writable) (ho : ∀ t ∈ ts, pending t → ∀ e ∈ b, t.taskId < e.key) :
    Ordered pending (reading ts b) where
  isPriority := ⟨_, _, rfl⟩
  heldSorted := by
    rwa [held_readonly, KeyedList.Sorted, pairwise_map]
  blockedSorted := hb
  disjoint := forall_mem_map.mpr hd
  vacant := by
    intro h
    rw [held_readonly, map_eq_nil_iff] at h
    exact absurd h hne
  writerFirst := fun _ => hw
  outranks := forall_mem_map.mpr ho

/-- The only holder goes before everything that waits. -/
theorem ordered_priorityFrom {t : Task} {u : RequestedUsage} (hb : KeyedList.Sorted key b)
    (hbelow : ∀ e ∈ b, t.taskId < e.key)
    (hw : u = .readonly → ∀ e ∈ b.head?, e.1 = .writable) :
    Ordered pending (priority (some (priorityFrom t u)) b) := by
  cases u with
  | writable => exact ordered_writable hb (fun e he => (hbelow e he).ne) fun _ => hbelow
  | readonly =>
    refine ordered_readonly (sorted_singleton t) (by simp) hb ?_ (hw rfl) ?_
    · exact forall_mem_singleton.mpr fun e he => (hbelow e he).ne
    · exact forall_mem_singleton.mpr fun _ => hbelow

/-! ## Locking -/

/-- What locking one address does to the queue and to the counters. -/
structure LockSpec (q q' : UsageQueueInner) (counts counts' : BlockedUsageCounts) (task : Task)
    (requested : RequestedUsage) (granted : Bool) : Prop where
  granted_iff : if granted then (requested, task) ∈ q'.held else (requested, task) ∈ q'.blocked
  held_of : ∀ e ∈ q'.held, e = (requested, task) ∨ e ∈ q.held
  blocked_of : ∀ e ∈ q'.blocked, e = (requested, task) ∨ e ∈ q.blocked ∨ e ∈ q.held
  blocked_mono : ∀ e ∈ q.blocked, e ∈ q'.blocked
  /-- A holder keeps its usage, or it is pending and waits again. -/
  kept : ∀ e ∈ q.held, (e ∈ q'.held ∧ counts' e.2 = counts e.2) ∨
    (e ∈ q'.blocked ∧ counts e.2 ≠ 0 ∧ counts' e.2 = counts e.2 + 1)
  frame : ∀ t, (∀ e ∈ q.held, e.2 ≠ t) → counts' t = counts t

variable {counts : BlockedUsageCounts} {task : Task} {requested : RequestedUsage}

/-- A lock request that is refused without touching the holders only adds a waiting entry. -/
theorem LockSpec.of_denied {cur : Option (Usage (List Task) Task)} {b' : List UsageFromTask}
    (h : insertNew key (requested, task) b = some b') :
    LockSpec (priority cur b) (priority cur b') counts counts task requested false where
  granted_iff := (mem_of_insertNew h).mpr (.inl rfl)
  held_of := fun _ he => .inr (held_priority cur b' b ▸ he)
  blocked_of := fun _ he => ((mem_of_insertNew h).mp he).imp_right .inl
  blocked_mono := fun _ he => (mem_of_insertNew h).mpr (.inr he)
  kept := fun _ he => .inl ⟨held_priority cur b b' ▸ he, rfl⟩
  frame := fun _ _ => rfl

variable {counts' : BlockedUsageCounts} {released : UsageFromTask}

/-- All holders wait again, and the task gets the address. -/
theorem LockSpec.of_taken {b' : List UsageFromTask} (hb' : ∀ e, e ∈ b' ↔ e ∈ q.blocked ∨ e ∈ q.held)
    (hheld : ∀ e ∈ q.held, counts e.2 ≠ 0 ∧ counts' e.2 = counts e.2 + 1)
    (hframe : ∀ t, (∀ e ∈ q.held, e.2 ≠ t) → counts' t = counts t) :
    LockSpec q (priority (some (priorityFrom task requested)) b') counts counts' task
      requested true where
  granted_iff := by simp
  held_of := by
    rw [held_priorityFrom, forall_mem_singleton]
    exact .inl rfl
  blocked_of := fun e he => .inr ((hb' e).mp he)
  blocked_mono := fun e he => (hb' e).mpr (.inl he)
  kept := fun e he => .inr ⟨(hb' e).mpr (.inr he), hheld e he⟩
  frame := hframe

/-- The tasks `extract_if` takes out, and what happens to the counters. -/
theorem extractReblocked_spec {n : ℕ} {kept out : List Task} (hts : ts.Nodup)
    (h : extractReblocked n ts counts = some (kept, out, counts')) :
    kept = ts.filter (fun t => decide (t.taskId < n ∨ counts t = 0)) ∧
      out = ts.filter (fun t => decide (n ≤ t.taskId ∧ counts t ≠ 0)) ∧
      (∀ t ∈ out, counts' t = counts t + 1) ∧ ∀ t, t ∉ out → counts' t = counts t := by
  induction ts generalizing counts kept out counts' with
  | nil =>
    simp only [extractReblocked] at h
    cases h
    simp
  | cons t ts ih =>
    obtain ⟨hnt, hts'⟩ := nodup_cons.mp hts
    unfold extractReblocked at h
    by_cases hlt : t.taskId < n
    · rw [if_pos hlt] at h
      simp only [bind_eq_bind, bind_eq_some_iff, Option.pure_def,
        some.injEq, Prod.mk.injEq, Prod.exists] at h
      obtain ⟨kept1, out1, counts1, h1, rfl, rfl, rfl⟩ := h
      obtain ⟨hk, ho, hin, hout⟩ := ih hts' h1
      refine ⟨?_, ?_, hin, hout⟩
      · simp [hk, hlt]
      · have hnle : ¬ n ≤ t.taskId := by omega
        simp [ho, hnle]
    · rw [if_neg hlt] at h
      have hle : n ≤ t.taskId := by omega
      simp only [bind_eq_bind, bind_eq_some_iff, Option.pure_def, Prod.exists] at h
      obtain ⟨r, counts1, hr, kept2, out2, counts2, h2, h3⟩ := h
      obtain ⟨hk, ho, hin, hout⟩ := ih hts' h2
      by_cases h0 : counts t = 0
      · rw [tryReblock_of_eq_zero h0, some_inj, Prod.mk.injEq] at hr
        obtain ⟨rfl, rfl⟩ := hr
        simp only [Bool.false_eq_true, if_false] at h3
        cases h3
        refine ⟨?_, ?_, hin, hout⟩
        · simp [hk, h0]
        · simp [ho, h0]
      · have hr' := tryReblock_of_ne_zero h0 hr
        cases hr'
        simp only [if_true, some.injEq, Prod.mk.injEq] at h3
        obtain ⟨rfl, rfl, rfl⟩ := h3
        -- the counter of `t` changes, and `t` does not occur in the rest
        have hsame : ∀ u ∈ ts, update counts t (counts t + 1) u = counts u := by
          intro u hu
          refine update_of_ne ?_ _ _
          rintro rfl
          exact hnt hu
        have hk' : kept2 = ts.filter fun u => decide (u.taskId < n ∨ counts u = 0) := by
          rw [hk]
          refine filter_congr fun u hu => ?_
          rw [hsame u hu]
        have ho' : out2 = ts.filter fun u => decide (n ≤ u.taskId ∧ counts u ≠ 0) := by
          rw [ho]
          refine filter_congr fun u hu => ?_
          rw [hsame u hu]
        have hmem : ∀ u ∈ out2, u ∈ ts := by
          intro u hu
          rw [ho'] at hu
          exact (mem_filter.mp hu).1
        refine ⟨?_, ?_, ?_, ?_⟩
        · simp [hk', hlt, h0]
        · simp [ho', hle, h0]
        · intro u hu
          rcases mem_cons.mp hu with rfl | hu'
          · rw [hout u fun h => hnt (hmem u h)]
            exact update_self ..
          · rw [hin u hu', hsame u (hmem u hu')]
        · intro u hu
          rw [mem_cons, not_or] at hu
          rw [hout u hu.2]
          exact update_of_ne hu.1 _ _

/-- Reinserting reblocked readers keeps the order and adds exactly them. -/
theorem insertReblocked_spec {b' : List UsageFromTask} (hb : KeyedList.Sorted key b)
    (h : insertReblocked ts b = some b') :
    KeyedList.Sorted key b' ∧ ∀ e, e ∈ b' ↔ e ∈ b ∨ ∃ t ∈ ts, e = (.readonly, t) := by
  induction ts generalizing b with
  | nil =>
    rw [insertReblocked, some_inj] at h
    rw [← h]
    exact ⟨hb, fun e => by simp⟩
  | cons t ts ih =>
    rw [insertReblocked, bind_eq_bind, bind_eq_some_iff] at h
    obtain ⟨b1, h1, h2⟩ := h
    obtain ⟨hs, hm⟩ := ih (sorted_of_insertNew hb h1) h2
    refine ⟨hs, fun e => ?_⟩
    rw [hm, mem_of_insertNew h1]
    simp only [mem_cons, exists_eq_or_imp]
    tauto

/-- The first entry of a sorted list has the smallest key. -/
theorem key_head_le (hb : KeyedList.Sorted key b) (he : e ∈ b.head?) (he' : e' ∈ b)
    : e.key ≤ e'.key := by
  cases b with
  | nil => cases he'
  | cons x b =>
    rw [head?_cons, mem_some_iff] at he
    subst he
    rcases mem_cons.mp he' with rfl | he''
    · exact le_rfl
    · exact ((sorted_cons.mp hb).1 e' he'').le

open LockSpec

/-- Locking an address that a writer uses. -/
theorem lockUsage_writable {current : Task}
    (hq : Ordered pending (priority (some (.writable current)) b))
    (hpend : pending current ↔ counts current ≠ 0) (hcur : current.taskId ≠ task.taskId)
    (h : lockUsage (priority (some (.writable current)) b) counts task requested = some (granted,
      q', counts')) :
    Ordered (fun t => pending t ∨ t = task) q' ∧
      LockSpec (priority (some (.writable current)) b) q' counts counts' task requested
        granted := by
  have hbs : KeyedList.Sorted key b := hq.blockedSorted
  have hne : ∀ e ∈ b, current.taskId ≠ e.key := hq.disjoint (.writable, current) (by simp)
  have hout : pending current → ∀ e ∈ b, current.taskId < e.key :=
    hq.outranks (.writable, current) (by simp)
  have hct : current ≠ task := fun e => hcur (congrArg taskId e)
  -- the request waits: nothing changes for the writer
  have denied : ¬ (task.taskId < current.taskId ∧ pending current) →
      ∀ b', insertNew key (requested, task) b = some b' →
      Ordered (fun t => pending t ∨ t = task) (priority (some (.writable current)) b') ∧
        LockSpec (priority (some (.writable current)) b) (priority (some (.writable current)) b')
          counts counts task requested false := by
    intro hno b' hb'
    refine ⟨ordered_writable (sorted_of_insertNew hbs hb') ?_ ?_, of_denied hb'⟩
    · intro e he
      rcases (mem_of_insertNew hb').mp he with rfl | he'
      · exact hcur
      · exact hne e he'
    · rintro (hp | hp) e he
      · rcases (mem_of_insertNew hb').mp he with rfl | he'
        · have hle : ¬ task.taskId < current.taskId := fun hlt => hno ⟨hlt, hp⟩
          show current.taskId < task.taskId
          omega
        · exact hout hp e he'
      · exact absurd hp hct
  rcases Nat.lt_or_gt_of_ne hcur with hlt | hlt
  · -- the writer goes first
    simp only [lockUsage, prepareLock, isHigherPriority_of_gt hlt, bind_eq_bind, bind_some,
      Bool.false_eq_true, if_false, Option.pure_def, bind_eq_some_iff, pushBlocked_eq_some_iff,
      some.injEq, Prod.mk.injEq] at h
    obtain ⟨_, ⟨b', hb', rfl⟩, rfl, rfl, rfl⟩ := h
    exact denied (fun hh => absurd hh.1 (by omega)) b' hb'
  · by_cases h0 : counts current = 0
    · -- the writer is runnable: nothing can be taken back from it
      simp only [lockUsage, prepareLock, isHigherPriority_of_lt hlt, tryReblock_of_eq_zero h0,
        bind_eq_bind, bind_some, Bool.false_eq_true, if_true, if_false, Option.pure_def,
        bind_eq_some_iff, pushBlocked_eq_some_iff, some.injEq, Prod.mk.injEq] at h
      obtain ⟨_, ⟨b', hb', rfl⟩, rfl, rfl, rfl⟩ := h
      exact denied (fun hh => hpend.mp hh.2 h0) b' hb'
    · -- the writer is pending: it goes back to the front of the waiting entries
      have hcp : pending current := hpend.mpr h0
      have hins : insertNew key (.writable, current) b =
          some ((.writable, current) :: b) := insertNew_of_forall_gt (hout hcp)
      cases hr : current.tryReblock counts with
      | none => simp [lockUsage, prepareLock, isHigherPriority_of_lt hlt, hr] at h
      | some r =>
        have hr' := tryReblock_of_ne_zero h0 hr
        subst hr'
        simp only [lockUsage, prepareLock, isHigherPriority_of_lt hlt, hr, hins, tryLock,
          bind_eq_bind, bind_some, if_true, Option.pure_def] at h
        cases h
        have hbs' : KeyedList.Sorted key ((.writable, current) :: b) :=
          sorted_cons.mpr ⟨hout hcp, hbs⟩
        have hbelow : ∀ e ∈ ((.writable, current) :: b : List UsageFromTask),
            task.taskId < e.key := by
          exact forall_mem_cons.mpr ⟨hlt, fun e he => hlt.trans (hout hcp e he)⟩
        refine ⟨ordered_priorityFrom hbs' hbelow ?_, of_taken ?_ ?_ ?_⟩
        · intro _ e he
          rw [head?_cons, mem_some_iff] at he
          rw [← he]
        · intro e
          rw [mem_cons, held_writable, mem_singleton, or_comm, blocked_priority]
        · exact forall_mem_singleton.mpr ⟨h0, update_self ..⟩
        · intro t ht
          refine update_of_ne ?_ _ _
          rintro rfl
          exact ht (.writable, t) (by simp) rfl

variable (hq : Ordered pending (reading ts b))
include hq in
/-- Reading an address that is being read. -/
theorem lockUsage_readonly_readonly (hcur : ∀ t ∈ ts, t.taskId ≠ task.taskId)
    (hfresh : ∀ e ∈ b, e.key ≠ task.taskId)
    (h : lockUsage (reading ts b) counts task .readonly = some (granted, q',
      counts')) :
    Ordered (fun t => pending t ∨ t = task) q' ∧
      LockSpec (reading ts b) q' counts counts' task .readonly granted := by
  have hts : KeyedList.Sorted taskId ts := hq.readers_sorted
  have hbs : KeyedList.Sorted key b := hq.blockedSorted
  -- the request is granted: one more reader, who goes before everything that waits
  have granted_case : ∀ ts', insertNew taskId task ts = some ts' →
      (∀ e ∈ b, task.taskId < e.key) →
      Ordered (fun t => pending t ∨ t = task) (reading ts' b) ∧
        LockSpec (reading ts b) (reading ts' b)
          counts counts task .readonly true := by
    intro ts' hts' hbelow
    refine ⟨ordered_readonly (sorted_of_insertNew hts hts') ?_ hbs ?_
      (hq.writerFirst rfl) ?_, ?_⟩
    · intro hnil
      have := (mem_of_insertNew hts').mpr (.inl rfl)
      rw [hnil] at this
      cases this
    · intro t ht e he
      rcases (mem_of_insertNew hts').mp ht with rfl | ht'
      · exact (hfresh e he).symm
      · exact hq.disjoint _ (mem_held_readonly ht') e he
    · rintro t ht hp e he
      rcases (mem_of_insertNew hts').mp ht with rfl | ht'
      · exact hbelow e he
      · rcases hp with hp | rfl
        · exact hq.outranks _ (mem_held_readonly ht') hp e he
        · exact hbelow e he
    · refine ⟨?_, ?_, fun e he => .inr (.inl he), fun e he => he, ?_, fun _ _ => rfl⟩
      · exact mem_held_readonly ((mem_of_insertNew hts').mpr (.inl rfl))
      · refine forall_mem_map.mpr fun t ht => ?_
        rcases (mem_of_insertNew hts').mp ht with rfl | ht'
        · exact .inl rfl
        · exact .inr (mem_held_readonly ht')
      · refine forall_mem_map.mpr fun t ht => ?_
        exact .inl ⟨mem_held_readonly ((mem_of_insertNew hts').mpr (.inr ht)), rfl⟩
  cases b with
  | nil =>
    simp only [lockUsage, prepareLock, tryLock, bind_eq_bind, bind_some, if_true, Option.pure_def,
      bind_eq_some_iff, some.injEq, Prod.mk.injEq, Prod.exists] at h
    obtain ⟨locked, q1, ⟨ts', hts', rfl, rfl⟩, h⟩ := h
    simp only [if_true] at h
    cases h
    exact granted_case ts' hts' nofun
  | cons p b =>
    obtain ⟨pu, pt⟩ := p
    have hpu : pu = .writable := hq.writerFirst rfl (pu, pt) (by simp)
    subst hpu
    have hpt : pt.taskId ≠ task.taskId := hfresh (.writable, pt) mem_cons_self
    rcases Nat.lt_or_gt_of_ne hpt with hlt | hlt
    · -- a waiting writer goes first
      simp only [lockUsage, prepareLock, isHigherPriority_of_gt hlt, bind_eq_bind,
        bind_some, Bool.false_eq_true, if_true, if_false, Option.pure_def, bind_eq_some_iff,
        pushBlocked_eq_some_iff, some.injEq, Prod.mk.injEq] at h
      obtain ⟨_, ⟨b', hb', rfl⟩, rfl, rfl, rfl⟩ := h
      refine ⟨ordered_readonly hts hq.readers_ne_nil (sorted_of_insertNew hbs hb')
        ?_ ?_ ?_, of_denied hb'⟩
      · intro t ht e he
        rcases (mem_of_insertNew hb').mp he with rfl | he'
        · exact hcur t ht
        · exact hq.disjoint _ (mem_held_readonly ht) e he'
      · intro e he
        have hle := key_head_le (sorted_of_insertNew hbs hb') he
          ((mem_of_insertNew hb').mpr (.inr mem_cons_self))
        rcases (mem_of_insertNew hb').mp (mem_of_mem_head? he) with rfl | he'
        · exact absurd hle (not_le.mpr hlt)
        · rcases mem_cons.mp he' with rfl | he''
          · rfl
          · exact absurd hle (not_le.mpr ((sorted_cons.mp hbs).1 e he''))
      · rintro t ht hp e he
        have hpt' : pending t := by
          rcases hp with hp | rfl
          · exact hp
          · exact absurd rfl (hcur t ht)
        rcases (mem_of_insertNew hb').mp he with rfl | he'
        · exact (hq.outranks _ (mem_held_readonly ht) hpt' _ mem_cons_self).trans hlt
        · exact hq.outranks _ (mem_held_readonly ht) hpt' e he'
    · simp only [lockUsage, prepareLock, isHigherPriority_of_lt hlt, tryLock,
        bind_eq_bind, bind_some, if_true, Option.pure_def, bind_eq_some_iff,
        some.injEq, Prod.mk.injEq, Prod.exists] at h
      obtain ⟨locked, q1, ⟨ts', hts', rfl, rfl⟩, h⟩ := h
      simp only [if_true] at h
      cases h
      refine granted_case ts' hts' fun e he => ?_
      rcases mem_cons.mp he with rfl | he'
      · exact hlt
      · exact hlt.trans ((sorted_cons.mp hbs).1 e he')

/-- How the readers of an address are divided when `task` asks to write it. -/
structure Reblocked (counts counts' : BlockedUsageCounts) (task : Task) (ts kept out : List Task) :
    Prop where
  keptSorted : KeyedList.Sorted taskId kept
  mem_kept : ∀ t, t ∈ kept ↔ t ∈ ts ∧ t ∉ out
  mem_out : ∀ t, t ∈ out ↔ t ∈ ts ∧ task.taskId < t.taskId ∧ counts t ≠ 0
  raised : ∀ t ∈ out, counts' t = counts t + 1
  same : ∀ t, t ∉ out → counts' t = counts t

section Reblocked
variable {kept out : List Task}

theorem reblocked_of_extractReblocked (hts : KeyedList.Sorted taskId ts)
    (hcur : ∀ t ∈ ts, t.taskId ≠ task.taskId)
    (h : extractReblocked task.taskId ts counts = some (kept, out, counts')) :
    Reblocked counts counts' task ts kept out := by
  obtain ⟨hkept, hout, hraised, hsame⟩ := extractReblocked_spec hts.nodup h
  have hmem : ∀ t, t ∈ out ↔ t ∈ ts ∧ task.taskId < t.taskId ∧ counts t ≠ 0 := by
    intro t
    rw [hout, mem_filter, decide_eq_true_iff]
    refine and_congr_right fun ht => and_congr_left' ?_
    exact ⟨fun hle => lt_of_le_of_ne hle (hcur t ht).symm, le_of_lt⟩
  refine ⟨?_, fun t => ?_, hmem, hraised, hsame⟩
  · rw [hkept]
    exact hts.filter _
  · rw [hkept, hmem, mem_filter, decide_eq_true_iff]
    refine and_congr_right fun ht => ?_
    have hne := hcur t ht
    rw [and_iff_right ht]
    omega

variable {b1 : List UsageFromTask} (hr : Reblocked counts counts' task ts kept out)
  (hq : Ordered pending (reading ts b))
  (hpend : ∀ t ∈ ts, pending t ↔ counts t ≠ 0) (hb1 : insertReblocked out b = some b1)
include hr
theorem Reblocked.frame {t : Task}
    (ht : ∀ e ∈ (reading ts b).held, e.2 ≠ t) : counts' t = counts t :=
  hr.same t fun hout => ht _ (mem_held_readonly ((hr.mem_out t).mp hout).1) rfl

include hq hpend hb1
/-- No reader is left: the writer gets the address. -/
theorem Reblocked.lock_taken (hkept : kept = []) :
    Ordered (fun t => pending t ∨ t = task)
        (priority (some (priorityFrom task .writable)) b1) ∧
      LockSpec (reading ts b)
        (priority (some (priorityFrom task .writable)) b1) counts counts' task .writable
        true := by
  obtain ⟨hsorted, hmem⟩ := insertReblocked_spec hq.blockedSorted hb1
  have hall : ∀ t ∈ ts, t ∈ out := by
    intro t ht
    by_contra hout
    have hin := (hr.mem_kept t).mpr ⟨ht, hout⟩
    rw [hkept] at hin
    cases hin
  have hbelow : ∀ e ∈ b1, task.taskId < e.key := by
    intro e he
    rcases (hmem e).mp he with he' | ⟨t, ht, rfl⟩
    · obtain ⟨t, ht⟩ := exists_mem_of_ne_nil ts hq.readers_ne_nil
      obtain ⟨-, hlt, h0⟩ := (hr.mem_out t).mp (hall t ht)
      exact hlt.trans (hq.outranks _ (mem_held_readonly ht) ((hpend t ht).mpr h0) e he')
    · exact ((hr.mem_out t).mp ht).2.1
  refine ⟨ordered_priorityFrom hsorted hbelow nofun,
    of_taken (fun e => ?_) ?_ fun _ => hr.frame⟩
  · rw [hmem, blocked_priority, held_readonly, List.mem_map]
    refine or_congr_right ⟨?_, ?_⟩
    · rintro ⟨t, ht, rfl⟩
      exact ⟨t, ((hr.mem_out t).mp ht).1, rfl⟩
    · rintro ⟨t, ht, rfl⟩
      exact ⟨t, hall t ht, rfl⟩
  · refine forall_mem_map.mpr fun t ht => ?_
    exact ⟨((hr.mem_out t).mp (hall t ht)).2.2, hr.raised t (hall t ht)⟩

variable {b' : List UsageFromTask} (hcur : ∀ t ∈ ts, t.taskId ≠ task.taskId)
  (hb' : insertNew key (.writable, task) b1 = some b')
include hb'
omit hr hpend in
/-- What waits after readers were put back and the writer was added. -/
theorem mem_pushed (e : UsageFromTask) :
    e ∈ b' ↔ e = (.writable, task) ∨ e ∈ b ∨ ∃ t ∈ out, e = (.readonly, t) := by
  rw [mem_of_insertNew hb', (insertReblocked_spec hq.blockedSorted hb1).2, blocked_priority]

omit hpend in
/-- The writer goes before every reader that was put back, so a writer is still first. -/
theorem Reblocked.writerFirst (he : e ∈ b'.head?) : e.1 = .writable := by
  have hsorted := sorted_of_insertNew (insertReblocked_spec hq.blockedSorted hb1).1 hb'
  have hhead : ∀ e' ∈ b', e.key ≤ e'.key := fun e' he' => key_head_le hsorted he he'
  rcases (mem_pushed hq hb1 hb' e).mp (mem_of_mem_head? he) with rfl | hin | ⟨u, hu, rfl⟩
  · rfl
  · refine hq.writerFirst rfl e ?_
    cases b with
    | nil => cases hin
    | cons x b =>
      rw [blocked_priority, head?_cons, mem_some_iff]
      rcases mem_cons.mp hin with rfl | hin'
      · rfl
      · have hxe := (sorted_cons.mp hq.blockedSorted).1 e hin'
        have hex := hhead x ((mem_pushed hq hb1 hb' x).mpr (.inr (.inl mem_cons_self)))
        exact absurd hex (not_le.mpr hxe)
  · have hle := hhead (.writable, task) ((mem_pushed hq hb1 hb' _).mpr (.inl rfl))
    exact absurd ((hr.mem_out u).mp hu).2.1 (not_lt.mpr hle)

include hcur
/-- Some readers stay: the writer waits behind those that are still pending. -/
theorem Reblocked.ordered_waits (hkept : kept ≠ []) :
    Ordered (fun t => pending t ∨ t = task) (reading kept b') := by
  have hsorted := sorted_of_insertNew (insertReblocked_spec hq.blockedSorted hb1).1 hb'
  refine ordered_readonly hr.keptSorted hkept hsorted ?_
    (fun e he => hr.writerFirst hq hb1 hb' he) ?_
  · intro t ht e he
    obtain ⟨hts, hout⟩ := (hr.mem_kept t).mp ht
    rcases (mem_pushed hq hb1 hb' e).mp he with rfl | he' | ⟨u, hu, rfl⟩
    · exact hcur t hts
    · exact hq.disjoint _ (mem_held_readonly hts) e he'
    · intro hkey
      rw [hq.readers_sorted.eq_of_key_eq hts ((hr.mem_out u).mp hu).1 hkey] at hout
      exact hout hu
  · rintro t ht hp e he
    obtain ⟨hts, hout⟩ := (hr.mem_kept t).mp ht
    have hpt : pending t := by
      rcases hp with hp | rfl
      · exact hp
      · exact absurd rfl (hcur t hts)
    have hlt : t.taskId < task.taskId := by
      refine lt_of_le_of_ne (not_lt.mp fun hlt => hout ?_) (hcur t hts)
      exact (hr.mem_out t).mpr ⟨hts, hlt, (hpend t hts).mp hpt⟩
    rcases (mem_pushed hq hb1 hb' e).mp he with rfl | he' | ⟨u, hu, rfl⟩
    · exact hlt
    · exact hq.outranks _ (mem_held_readonly hts) hpt e he'
    · exact hlt.trans ((hr.mem_out u).mp hu).2.1

omit hpend hcur in
/-- A reader keeps the address, or it waits again with one more blocked usage. -/
theorem Reblocked.lockSpec_waits :
    LockSpec (reading ts b) (reading kept b') counts
      counts' task .writable false := by
  have hmem := mem_pushed hq hb1 hb'
  refine ⟨(hmem _).mpr (.inl rfl), ?_, ?_, fun e he => (hmem e).mpr (.inr (.inl he)), ?_,
    fun _ => hr.frame⟩
  · exact forall_mem_map.mpr fun t ht => .inr (mem_held_readonly ((hr.mem_kept t).mp ht).1)
  · intro e he
    rcases (hmem e).mp he with rfl | he' | ⟨u, hu, rfl⟩
    · exact .inl rfl
    · exact .inr (.inl he')
    · exact .inr (.inr (mem_held_readonly ((hr.mem_out u).mp hu).1))
  · refine forall_mem_map.mpr fun t ht => ?_
    by_cases hout : t ∈ out
    · exact .inr ⟨(hmem _).mpr (.inr (.inr ⟨t, hout, rfl⟩)), ((hr.mem_out t).mp hout).2.2,
        hr.raised t hout⟩
    · exact .inl ⟨mem_held_readonly ((hr.mem_kept t).mpr ⟨ht, hout⟩), hr.same t hout⟩

end Reblocked

include hq in
/-- Writing an address that is being read: readers of lower priority that are still pending wait
again, and the writer gets the address when no reader is left. -/
theorem lockUsage_readonly_writable (hpend : ∀ t ∈ ts, pending t ↔ counts t ≠ 0)
    (hcur : ∀ t ∈ ts, t.taskId ≠ task.taskId)
    (h : lockUsage (reading ts b) counts task .writable = some (granted, q',
      counts')) :
    Ordered (fun t => pending t ∨ t = task) q' ∧
      LockSpec (reading ts b) q' counts counts' task .writable granted := by
  simp only [lockUsage, prepareLock, bind_eq_bind, Option.pure_def,
    bind_eq_some_iff, Prod.exists] at h
  obtain ⟨prepared, q1, counts1, ⟨kept, out, counts2, hext, b1, hb1, h1⟩, h2⟩ := h
  have hr := reblocked_of_extractReblocked hq.readers_sorted hcur hext
  by_cases hk : kept = []
  · simp only [hk, isEmpty_nil, if_true] at h1
    cases h1
    simp only [if_true, tryLock, bind_some] at h2
    cases h2
    exact hr.lock_taken hq hpend hb1 hk
  · have hkE : kept.isEmpty = false := by
      cases kept with
      | nil => exact absurd rfl hk
      | cons _ _ => rfl
    simp only [hkE, Bool.false_eq_true, if_false] at h1
    cases h1
    simp only [Bool.false_eq_true, if_false, bind_some, bind_eq_some_iff,
      pushBlocked_eq_some_iff, some.injEq, Prod.mk.injEq] at h2
    obtain ⟨_, ⟨b', hb', rfl⟩, rfl, rfl, rfl⟩ := h2
    exact ⟨hr.ordered_waits hq hpend hb1 hcur hb' hk, hr.lockSpec_waits hq hb1 hb'⟩

/-- **Locking one address.**  Whatever the state of a priority queue and whatever is requested, a
lock request that does not panic keeps the queue ordered, with the new task among the pending
ones, and moves nobody but pending holders. -/
theorem lockUsage_spec (hq : Ordered pending q) (hpend : ∀ e ∈ q.held, pending e.2 ↔ counts e.2 ≠ 0)
    (hcur : ∀ e ∈ q.held, e.key ≠ task.taskId) (hfresh : ∀ e ∈ q.blocked, e.key ≠ task.taskId)
    (h : lockUsage q counts task requested = some (granted, q', counts')) :
    Ordered (fun t => pending t ∨ t = task) q' ∧
      LockSpec q q' counts counts' task requested granted := by
  obtain ⟨cur, b, rfl⟩ := hq.isPriority
  match cur with
  | none =>
    obtain rfl := hq.blocked_nil
    simp only [lockUsage, prepareLock, isEmpty_nil, if_true, bind_eq_bind, bind_some,
      tryLock, Option.pure_def] at h
    cases h
    exact ⟨ordered_priorityFrom sorted_nil (by simp) (by simp),
      of_taken (by simp) (by simp) fun _ _ => rfl⟩
  | some (.writable current) =>
    exact lockUsage_writable hq (hpend (.writable, current) (by simp))
      (hcur (.writable, current) (by simp)) h
  | some (.readonly ts) =>
    cases requested with
    | readonly =>
      exact lockUsage_readonly_readonly hq (fun t ht => hcur _ (mem_held_readonly ht)) hfresh h
    | writable =>
      exact lockUsage_readonly_writable hq (fun t ht => hpend _ (mem_held_readonly ht))
        (fun t ht => hcur _ (mem_held_readonly ht)) h

/-! ## Unlocking -/

/-- What releasing one address does: one holder leaves, some waiting entries are promoted to
holders with one blocked usage less, and `new` lists the tasks with none left. -/
structure UnlockSpec (q q' : UsageQueueInner) (counts counts' : BlockedUsageCounts)
    (released : UsageFromTask) (new : List Task) : Prop where
  held_of : ∀ e ∈ q'.held, (e ∈ q.held ∧ e ≠ released) ∨ e ∈ q.blocked
  blocked_of : ∀ e ∈ q'.blocked, e ∈ q.blocked
  held_mono : ∀ e ∈ q.held, e ≠ released → e ∈ q'.held
  promoted : ∀ e ∈ q.blocked, (e ∈ q'.blocked ∧ counts' e.2 = counts e.2) ∨
    (e ∈ q'.held ∧ counts' e.2 + 1 = counts e.2)
  frame : ∀ t, (∀ e ∈ q.blocked, e.2 ≠ t) → counts' t = counts t
  nodup : new.Nodup
  mem_new : ∀ t, t ∈ new ↔ counts t ≠ 0 ∧ counts' t = 0

/-- The readers at the front of the waiting entries. -/
def frontReaders (b : List UsageFromTask) : List Task :=
  (b.takeWhile fun e => e.1 = .readonly).map Prod.snd

/-- What waits behind the readers at the front. -/
def behindReaders (b : List UsageFromTask) : List UsageFromTask :=
  b.dropWhile fun e => e.1 = .readonly

/-- One blocked usage less for each task of a list. -/
def lowered (counts : BlockedUsageCounts) (ts : List Task) : BlockedUsageCounts :=
  fun t => if t ∈ ts then counts t - 1 else counts t

@[simp] theorem lowered_nil (counts : BlockedUsageCounts) : lowered counts [] = counts := by
  funext t
  simp [lowered]

theorem frontReaders_append_behindReaders (b : List UsageFromTask) :
    ((frontReaders b).map fun t => (RequestedUsage.readonly, t)) ++ behindReaders b = b := by
  have hfront : ((frontReaders b).map fun t => (RequestedUsage.readonly, t)) =
      b.takeWhile fun e => e.1 = .readonly := by
    rw [frontReaders, List.map_map]
    refine (map_congr_left fun e he => ?_).trans (map_id _)
    have hread : e.1 = .readonly := by simpa using mem_takeWhile_imp he
    exact Prod.ext hread.symm rfl
  rw [hfront]
  exact takeWhile_append_dropWhile

theorem mem_of_mem_frontReaders {t : Task} (h : t ∈ frontReaders b) : (.readonly, t) ∈ b := by
  rw [← frontReaders_append_behindReaders b]
  exact mem_append_left _ (mem_map_of_mem h)

theorem writable_of_mem_head?_behindReaders (he : e ∈ (behindReaders b).head?) :
    e.1 = .writable := by
  have h := head?_dropWhile_not (fun e : UsageFromTask => decide (e.1 = .readonly)) b
  rw [behindReaders] at he
  rw [mem_def] at he
  rw [he] at h
  cases hu : e.1 with
  | writable => rfl
  | readonly => simp [hu] at h

section Lowered
variable {t : Task} {c : ℕ} (hc : counts t = c + 1) (hnot : t ∉ ts)
include hc hnot
theorem lowered_update : lowered (update counts t c) ts = lowered counts (t :: ts) := by
  funext x
  by_cases hx : x = t
  · subst hx
    simp [lowered, hnot, hc]
  · simp [lowered, hx]

theorem filter_update (unblocked : List Task) :
    (if decide (c = 0) then unblocked ++ [t] else unblocked) ++
        ts.filter (fun x => decide (update counts t c x = 1)) =
      unblocked ++ (t :: ts).filter fun x => decide (counts x = 1) := by
  have hfilter : ts.filter (fun x => decide (update counts t c x = 1)) =
      ts.filter fun x => decide (counts x = 1) := by
    refine filter_congr fun x hx => ?_
    rw [update_of_ne]
    rintro rfl
    exact hnot hx
  rw [hfilter]
  by_cases h0 : c = 0
  · simp [h0, hc]
  · simp [h0, hc]

end Lowered

/-- Once an address is read, the loop hands it to every reader at the front. -/
theorem relock_readers (ts : List Task) (counts : BlockedUsageCounts) (unblocked : List Task)
    {fuel : ℕ} (hb : KeyedList.Sorted key b)
    (hlt : ∀ t ∈ ts, ∀ e ∈ b, t.taskId < e.key) (hc : ∀ e ∈ b, counts e.2 ≠ 0)
    (hfuel : b.length ≤ fuel) :
    ((reading ts b).popLockableReadonly.bind fun r =>
        relock fuel r.2 counts unblocked r.1) =
      some (priority (some (.readonly (ts ++ frontReaders b))) (behindReaders b),
        lowered counts (frontReaders b),
        unblocked ++ (frontReaders b).filter fun t => counts t = 1) := by
  induction b generalizing ts counts unblocked fuel with
  | nil => simp [popLockableReadonly, peekBlocked, relock, frontReaders, behindReaders]
  | cons e b ih =>
    obtain ⟨u, t⟩ := e
    obtain ⟨htb, hb'⟩ := sorted_cons.mp hb
    cases u with
    | writable => simp [popLockableReadonly, peekBlocked, relock, frontReaders, behindReaders]
    | readonly =>
      obtain ⟨fuel, rfl⟩ : ∃ f, fuel = f + 1 := ⟨fuel - 1, by
        rw [length_cons] at hfuel
        omega⟩
      have hct : counts t ≠ 0 := hc (.readonly, t) mem_cons_self
      obtain ⟨c, hc'⟩ : ∃ c, counts t = c + 1 := ⟨counts t - 1, by omega⟩
      have hins : insertNew taskId t ts = some (ts ++ [t]) :=
        insertNew_of_forall_lt fun x hx => hlt x hx (.readonly, t) mem_cons_self
      have hne : ∀ e ∈ b, e.2 ≠ t := by
        rintro e he rfl
        exact lt_irrefl _ (htb e he)
      have hcb : ∀ e ∈ b, update counts t c e.2 ≠ 0 := by
        intro e he
        rw [update_of_ne (hne e he)]
        exact hc e (mem_cons_of_mem _ he)
      have hlt' : ∀ x ∈ ts ++ [t], ∀ e ∈ b, x.taskId < e.key := by
        intro x hx e he
        rcases mem_append.mp hx with hx | hx
        · exact hlt x hx e (mem_cons_of_mem _ he)
        · rw [mem_singleton.mp hx]
          exact htb e he
      have hstep := ih (ts ++ [t]) (update counts t c)
        (if decide (c = 0) then unblocked ++ [t] else unblocked) hb' hlt' hcb
        (Nat.le_of_succ_le_succ hfuel)
      have hpop : (priority (some (.readonly ts)) ((.readonly, t) :: b)).popLockableReadonly =
          some (some (.readonly, t), priority (some (.readonly ts)) b) := by
        simp [popLockableReadonly, peekBlocked, pop]
      rw [hpop, bind_some]
      simp only [relock, tryLock, hins, bind_eq_bind, bind_some, Option.pure_def,
        if_true, tryUnblock_of_pos hc']
      have hfront : frontReaders ((.readonly, t) :: b) = t :: frontReaders b := by
        simp [frontReaders]
      have hnf : t ∉ frontReaders b := fun h => hne _ (mem_of_mem_frontReaders h) rfl
      rw [hstep, lowered_update hc' hnf, filter_update hc' hnf, hfront]
      simp [behindReaders]

/-- Entries at the front with one usage become the holders. -/
theorem UnlockSpec.of_front (ts : List Task) (u : RequestedUsage) (hheld : q.held = [released])
    (hblocked : q.blocked = ts.map (fun t => (u, t)) ++ b)
    (hheld' : q'.held = ts.map fun t => (u, t)) (hblocked' : q'.blocked = b)
    (hb : KeyedList.Sorted key q.blocked) (hc : ∀ e ∈ q.blocked, counts e.2 ≠ 0) :
    UnlockSpec q q' counts (lowered counts ts) released
      (ts.filter fun t => decide (counts t = 1)) := by
  rw [hblocked, KeyedList.Sorted, pairwise_append] at hb
  obtain ⟨hfront, -, hlt⟩ := hb
  rw [pairwise_map] at hfront
  have hts : KeyedList.Sorted taskId ts := hfront
  rw [hblocked] at hc
  refine ⟨?_, ?_, ?_, ?_, ?_, hts.nodup.filter _, fun t => ?_⟩
  · intro e he
    rw [hheld'] at he
    rw [hblocked]
    exact .inr (mem_append_left _ he)
  · intro e he
    rw [hblocked'] at he
    rw [hblocked]
    exact mem_append_right _ he
  · intro e he hne
    rw [hheld, mem_singleton] at he
    exact absurd he hne
  · intro e he
    rw [hblocked] at he
    rw [hheld', hblocked']
    have hpos := hc e he
    rcases mem_append.mp he with he | he
    · obtain ⟨t, ht, rfl⟩ := mem_map.mp he
      refine .inr ⟨he, ?_⟩
      rw [lowered, if_pos ht]
      exact Nat.sub_add_cancel (Nat.pos_of_ne_zero hpos)
    · exact .inl ⟨he, if_neg fun ht => lt_irrefl _ (hlt _ (mem_map_of_mem ht) e he)⟩
  · intro t ht
    rw [hblocked] at ht
    exact if_neg fun ht' => ht _ (mem_append_left _ (mem_map_of_mem ht')) rfl
  · rw [mem_filter, decide_eq_true_iff, lowered]
    split_ifs with ht
    · have hpos := hc _ (mem_append_left _ (mem_map_of_mem ht))
      rw [and_iff_right ht]
      omega
    · exact iff_of_false (fun h => ht h.1) fun h => h.1 h.2

/-- A free address is handed to the waiting entries at the front: to one writer, or to all
readers up to the next writer. -/
theorem handOver_spec {unblocked : List Task} (hheld : q.held = [released])
    (hblocked : q.blocked = b) (hb : KeyedList.Sorted key b) (hc : ∀ e ∈ b, counts e.2 ≠ 0) :
    ∃ q' counts' new, relock (b.tail.length + 1) (priority none b.tail) counts unblocked b.head? =
        some (q', counts', unblocked ++ new) ∧
      Ordered pending q' ∧ UnlockSpec q q' counts counts' released new := by
  subst hblocked
  cases hq : q.blocked with
  | nil =>
    refine ⟨priority none [], _, _, ?_, ordered_new pending,
      UnlockSpec.of_front [] .writable hheld hq rfl rfl hb hc⟩
    simp [relock]
  | cons e b =>
    obtain ⟨u, t⟩ := e
    have hb0 := hb
    have hc0 := hc
    rw [hq] at hb hc
    obtain ⟨htb, hb'⟩ := sorted_cons.mp hb
    have hct : counts t ≠ 0 := hc (u, t) mem_cons_self
    obtain ⟨c, hc'⟩ : ∃ c, counts t = c + 1 := ⟨counts t - 1, by omega⟩
    cases u with
    | writable =>
      refine ⟨priority (some (.writable t)) b, _, _, ?_,
        ordered_writable hb' (fun e he => (htb e he).ne) fun _ => htb,
        UnlockSpec.of_front [t] .writable hheld hq rfl rfl hb0 hc0⟩
      rw [← lowered_update hc' not_mem_nil, ← filter_update hc' not_mem_nil]
      simp [relock, tryLock, priorityFrom, tryUnblock_of_pos hc']
    | readonly =>
      have hne : ∀ e ∈ b, e.2 ≠ t := by
        rintro e he rfl
        exact lt_irrefl _ (htb e he)
      have hnf : t ∉ frontReaders b := fun h => hne _ (mem_of_mem_frontReaders h) rfl
      have hread := relock_readers [t] (update counts t c)
        (if decide (c = 0) then unblocked ++ [t] else unblocked)
        hb' (by
          intro x hx e he
          rw [mem_singleton.mp hx]
          exact htb e he) (by
          intro e he
          rw [update_of_ne (hne e he)]
          exact hc e (mem_cons_of_mem _ he)) le_rfl
      rw [lowered_update hc' hnf, filter_update hc' hnf] at hread
      have hsplit : (.readonly, t) :: b =
          (t :: frontReaders b).map (fun t => (.readonly, t)) ++ behindReaders b := by
        rw [map_cons, cons_append, frontReaders_append_behindReaders]
      refine ⟨priority (some (.readonly (t :: frontReaders b))) (behindReaders b), _, _, ?_, ?_,
        UnlockSpec.of_front (t :: frontReaders b) .readonly hheld (hq.trans hsplit) rfl rfl hb0 hc0⟩
      · simp only [head?_cons, tail_cons, relock, tryLock, bind_eq_bind,
          bind_some, priorityFrom, if_true, tryUnblock_of_pos hc']
        exact hread
      · rw [hsplit, KeyedList.Sorted, pairwise_append] at hb
        obtain ⟨hfront, hbehind, hlt⟩ := hb
        rw [pairwise_map] at hfront
        refine ordered_readonly hfront (by simp) hbehind
          (fun x hx e he => (hlt _ (mem_map_of_mem hx) e he).ne)
          (fun e he => writable_of_mem_head?_behindReaders he)
          fun x hx _ e he => hlt _ (mem_map_of_mem hx) e he

include hq in
/-- One of several readers leaves. -/
theorem unlockUsage_reader {ts' : List Task} (ht : task ∈ ts) (hne : ts' ≠ [])
    (hrem : removeKey taskId task.taskId ts = some ts') :
    Ordered pending (reading ts' b) ∧
      UnlockSpec (reading ts b) (reading ts' b) counts
        counts (.readonly, task) [] := by
  have hmem : ∀ {x}, x ∈ ts' ↔ x ∈ ts ∧ x ≠ task := by
    intro x
    rw [mem_of_removeKey hrem]
    refine and_congr_right fun hx => not_congr ⟨?_, congrArg _⟩
    exact hq.readers_sorted.eq_of_key_eq hx ht
  constructor
  · refine ordered_readonly (sorted_of_removeKey hq.readers_sorted hrem) hne
      hq.blockedSorted (fun x hx => ?_) (hq.writerFirst rfl) fun x hx => ?_
    · exact hq.disjoint (.readonly, x) (mem_map_of_mem (hmem.mp hx).1)
    · exact hq.outranks (.readonly, x) (mem_map_of_mem (hmem.mp hx).1)
  · refine ⟨?_, fun _ he => he, ?_, fun e he => .inl ⟨he, rfl⟩, fun _ _ => rfl, nodup_nil, ?_⟩
    · refine forall_mem_map.mpr fun x hx => ?_
      obtain ⟨hx, hxt⟩ := hmem.mp hx
      exact .inl ⟨mem_map_of_mem hx, fun h => hxt (congrArg Prod.snd h)⟩
    · refine forall_mem_map.mpr fun x hx hne' => ?_
      exact mem_map_of_mem (hmem.mpr ⟨hx, fun h => hne' (by rw [h])⟩)
    · intro t
      simp

/-- **Unlocking an address never fails for a holder, and only promotes waiting entries.** -/
theorem unlockUsage_spec (unblocked : List Task) (hq : Ordered pending q)
    (hheld : (requested, task) ∈ q.held) (hc : ∀ e ∈ q.blocked, counts e.2 ≠ 0) :
    ∃ q' counts' new,
      unlockUsage q counts unblocked task requested = some (q', counts', unblocked ++ new) ∧
        Ordered pending q' ∧ UnlockSpec q q' counts counts' (requested, task) new := by
  match q with
  | .fifo _ _ | .priority none _ => cases hheld
  | .priority (some (.writable t)) b =>
    rw [held_writable, mem_singleton, Prod.mk.injEq] at hheld
    obtain ⟨rfl, rfl⟩ := hheld
    exact handOver_spec (by simp) (by simp) hq.blockedSorted hc
  | .priority (some (.readonly ts)) b =>
    rw [held_readonly, List.mem_map] at hheld
    obtain ⟨t, ht, heq⟩ := hheld
    rw [Prod.mk.injEq] at heq
    obtain ⟨rfl, rfl⟩ := heq
    obtain ⟨ts', hrem⟩ : ∃ ts', removeKey taskId t.taskId ts = some ts' :=
      ⟨_, removeKey_eq_some_iff.mpr ⟨⟨t, ht, rfl⟩, rfl⟩⟩
    by_cases hnil : ts' = []
    · -- `t` was the only reader
      have honly : ts = [t] := by
        have hall : ∀ x ∈ ts, x = t := by
          intro x hx
          by_contra hxt
          have hkey : x.taskId ≠ t.taskId := fun h => hxt (hq.readers_sorted.eq_of_key_eq hx ht h)
          have := (mem_of_removeKey hrem).mpr ⟨hx, hkey⟩
          rw [hnil] at this
          cases this
        obtain ⟨n, hn⟩ : ∃ n, ts = List.replicate n t := ⟨_, eq_replicate_of_mem hall⟩
        have hn1 : n ≤ 1 := nodup_replicate.mp (hn ▸ hq.readers_sorted.nodup)
        have hn0 : n ≠ 0 := by
          rintro rfl
          rw [hn] at ht
          cases ht
        rw [hn, show n = 1 by omega, replicate_one]
      have hunlock : unlockUsage (reading ts b) counts unblocked t .readonly =
          relock (b.tail.length + 1) (priority none b.tail) counts unblocked b.head? := by
        simp [unlockUsage, unlock, hrem, hnil, pop]
      rw [hunlock]
      exact handOver_spec (by simp [honly]) (by simp) hq.blockedSorted hc
    · have hunlock : unlockUsage (reading ts b) counts unblocked t .readonly =
          some (priority (some (.readonly ts')) b, counts, unblocked ++ []) := by
        simp [unlockUsage, unlock, hrem, hnil, relock]
      exact ⟨_, _, [], hunlock, unlockUsage_reader hq ht hnil hrem⟩

end FlowraValidator.UnifiedScheduler.UsageQueueInner
