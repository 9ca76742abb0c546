import FlowraValidator.UnifiedScheduler.Exclusion

/-!
# Fifo queues keep ledger order

* `History.HistoryReachable.serialisable`: with fifo queues, a task is released only after every
  conflicting task submitted before it has been descheduled, so conflicting tasks are released in
  the order of their submission.
* `Session.observations_eq`: with increasing ids, state machines with priority queues and with fifo
  queues cannot be told apart by their caller.
-/

namespace FlowraValidator.UnifiedScheduler
open Session List Option SchedulingStateMachine Relation

/-! ## Conflicting tasks wait for each other -/

variable {t t' : Task}

namespace Session

/-- The tasks a sequence of calls submits. -/
def submissions (cs : List Call) : List Task :=
  cs.filterMap fun
    | .scheduleOrBufferTask task _ => some task
    | _ => none

variable {w : Session}

theorem Reachable.mem_active_of_runnable (h : Reachable .fifoQueueing w) (ht : t ∈ w.runnable)
    : t ∈ w.active := by
  obtain ⟨f, v, hsim, hinc⟩ := h.exists_sim
  rw [hsim.runnable] at ht
  obtain ⟨x, hx, rfl⟩ := mem_map.mp ht
  rw [hsim.active]
  exact mem_map_of_mem ((hinc.invariant.mem_runnable x).mp hx).1

theorem Reachable.active_nodup (h : Reachable .fifoQueueing w) : w.active.Nodup := by
  obtain ⟨f, v, hsim, hinc⟩ := h.exists_sim
  rw [hsim.active]
  exact hinc.invariant.activeNodup.map_on fun t ht t' ht' => hsim.injOn t ht t' ht'

/-- With increasing ids, a task is not runnable as long as a conflicting task with a smaller id is
active. -/
theorem Increasing.not_runnable {v : Session} (h : v.Increasing) (ht : t ∈ v.active)
    (hlt : t.taskId < t'.taskId) (hconf : t.Conflicts t') :
    t' ∉ v.runnable := by
  intro hrun
  obtain ⟨c, hc, c', hc', ha, hw⟩ := hconf
  have hne : t ≠ t' := fun heq => lt_irrefl _ (heq ▸ hlt)
  have hheld' := h.invariant.mem_held hrun hc'
  have huses : (v.machine.usageQueues c'.usageQueue).Uses (c.requestedUsage, t) := by
    rwa [← ha, h.invariant.consistent.uses_iff, entered_of_mem ht]
  rcases huses with hheld | hblocked
  · obtain ⟨hr, hr'⟩ := UsageQueueInner.readonly_of_mem_held hheld hheld'
      fun heq => hne (congrArg Prod.snd heq)
    rcases hw with hw | hw
    · cases hr.symm.trans hw
    · cases hr'.symm.trans hw
  · exact lt_asymm hlt ((h.ordered c'.usageQueue).outranks _ hheld' trivial _ hblocked)

/-- With fifo queues, a task is not runnable as long as a conflicting task that was submitted
before it is active. -/
theorem Reachable.pairwise_active (h : Reachable .fifoQueueing w) :
    w.active.Pairwise fun t t' => t.Conflicts t' → t' ∉ w.runnable := by
  obtain ⟨f, v, hsim, hinc⟩ := h.exists_sim
  rw [hsim.active, pairwise_map]
  refine hinc.sorted.imp_of_mem fun {t t'} ht ht' hlt hconf hrun => ?_
  rw [hsim.runnable] at hrun
  obtain ⟨x, hx, heq⟩ := mem_map.mp hrun
  obtain rfl := hsim.injOn x ((hinc.invariant.mem_runnable x).mp hx).1 t' ht' heq
  exact hinc.not_runnable ht hlt (hsim.conflicts ht ht' hconf) hx

end Session

/-! ## Histories -/

/-- A session with its past. -/
structure History where
  session : Session
  /-- The accepted tasks, in ledger order. -/
  submitted : List Task
  /-- The tasks that were returned to the caller or placed in `unblocked_task_queue`, in the order
  in which this happened first. -/
  released : List Task
  descheduled : List Task

namespace History
open Session (Permits Initial Reachable)

def call (h : History) (c : Call) : Option (Option Task × History) :=
  (h.session.call c).map fun x =>
    (x.1,
      { session := x.2
        submitted := match c with
          | .scheduleOrBufferTask task _ =>
            if h.session.machine.isDropped task then h.submitted else h.submitted ++ [task]
          | _ => h.submitted
        released := h.released ++ x.2.runnable.filter fun t => t ∉ h.session.runnable
        descheduled := match c with
          | .descheduleTask task => h.descheduled ++ [task]
          | _ => h.descheduled })

/-- A permitted call; every task object is submitted once. -/
def Step (h h' : History) : Prop :=
  ∃ c r, h.session.Permits c ∧ (∀ task ∈ submissions [c], task ∉ h.submitted) ∧
    h.call c = some (r, h')

/-- The histories of all runs with queues of a capability. -/
def HistoryReachable (capability : Capability) (h : History) : Prop :=
  ∃ w₀, Initial capability w₀ ∧ ReflTransGen Step
    { session := w₀, submitted := [], released := [], descheduled := [] } h

/-- What the lists of a history have to do with its session. -/
structure Coherent (h : History) : Prop where
  reachable : Reachable .fifoQueueing h.session
  nodup : h.submitted.Nodup
  active : h.session.active = h.submitted.filter fun t => t ∉ h.descheduled
  runnable : ∀ t ∈ h.session.runnable, t ∈ h.released
  descheduled_released : ∀ t ∈ h.descheduled, t ∈ h.released
  released_submitted : ∀ t ∈ h.released, t ∈ h.submitted
  order : ∀ t t', [t, t'].Sublist h.submitted → t.Conflicts t' → t' ∈ h.released →
    t ∈ h.descheduled ∧ [t, t'].Sublist h.released

/-- A pair that ends before what was appended was there before. -/
theorem sublist_of_append {l l' : List Task} (hnd : (l ++ l').Nodup) (h : [t, t'].Sublist (l ++ l'))
    (ht' : t' ∈ l) : [t, t'].Sublist l := by
  obtain ⟨a, b, hab, ha, hb⟩ := sublist_append_iff.mp h
  rcases eq_nil_or_concat b with rfl | ⟨b', x, rfl⟩
  · rw [append_nil] at hab
    rwa [hab]
  · rw [concat_eq_append, ← append_assoc] at hab
    have hx : x = t' := by
      have hlast := congrArg List.getLast? hab
      simpa using hlast.symm
    have hmem : t' ∈ l' := hb.subset (by simp [hx])
    exact absurd hmem ((nodup_append'.mp hnd).2.2 ht')

variable {h h' : History}

/-- One call, whatever it is: `sub` are the tasks it accepted and `des` those it descheduled. -/
theorem Coherent.extend (hc : h.Coherent) (sub des : List Task)
    (hreach : Reachable .fifoQueueing h'.session) (hsub : h'.submitted = h.submitted ++ sub)
    (hnd : (h.submitted ++ sub).Nodup) (hdes : h'.descheduled = h.descheduled ++ des)
    (hrun : ∀ t ∈ des, t ∈ h.session.runnable)
    (hactive : h'.session.active = h'.submitted.filter fun t => t ∉ h'.descheduled)
    (hreleased : h'.released =
      h.released ++ h'.session.runnable.filter fun t => t ∉ h.session.runnable) :
    h'.Coherent := by
  have hmem : ∀ t ∈ h'.session.runnable, t ∈ h'.released := by
    intro t ht
    rw [hreleased, mem_append]
    by_cases hold : t ∈ h.session.runnable
    · exact .inl (hc.runnable t hold)
    · exact .inr (mem_filter.mpr ⟨ht, by simpa using hold⟩)
  have hdesc : ∀ t ∈ h'.descheduled, t ∈ h.released := by
    rw [hdes]
    exact forall_mem_append.mpr
      ⟨hc.descheduled_released, fun t ht => hc.runnable t (hrun t ht)⟩
  refine ⟨hreach, by rw [hsub]; exact hnd, hactive, hmem, ?_, ?_, ?_⟩
  · intro t ht
    rw [hreleased]
    exact mem_append_left _ (hdesc t ht)
  · intro t ht
    rw [hreleased, mem_append] at ht
    rcases ht with ht | ht
    · rw [hsub]
      exact mem_append_left _ (hc.released_submitted t ht)
    · have hact := hreach.mem_active_of_runnable (mem_filter.mp ht).1
      rw [hactive] at hact
      exact (mem_filter.mp hact).1
  · intro t t' hpair hconf ht'
    rw [hreleased, mem_append] at ht'
    rcases ht' with hold | hnew
    · -- `t'` had been released before
      rw [hsub] at hpair
      have hpair' := sublist_of_append hnd hpair (hc.released_submitted t' hold)
      obtain ⟨h1, h2⟩ := hc.order t t' hpair' hconf hold
      rw [hdes, hreleased]
      exact ⟨mem_append_left _ h1, h2.trans (sublist_append_left _ _)⟩
    · -- `t'` is released by this call, so `t` cannot be active any more
      have hrun' := (mem_filter.mp hnew).1
      have hact' := hreach.mem_active_of_runnable hrun'
      have ht : t ∈ h'.descheduled := by
        by_contra hnot
        have hpair' : [t, t'].Sublist h'.session.active := by
          rw [hactive] at hact' ⊢
          have hfilter := hpair.filter fun t => decide (t ∉ h'.descheduled)
          have hnot' : t' ∉ h'.descheduled := by simpa using (mem_filter.mp hact').2
          rwa [filter_cons_of_pos (by simpa using hnot),
            filter_cons_of_pos (by simpa using hnot'), filter_nil] at hfilter
        exact pairwise_iff_forall_sublist.mp hreach.pairwise_active hpair' hconf hrun'
      refine ⟨ht, ?_⟩
      rw [hreleased]
      exact (singleton_sublist.mpr (hdesc t ht)).append (singleton_sublist.mpr hnew)

theorem Coherent.step (hc : h.Coherent) (hs : Step h h') : h'.Coherent := by
  obtain ⟨c, r, hp, honce, hcall⟩ := hs
  unfold call at hcall
  rw [map_eq_some_iff] at hcall
  obtain ⟨⟨r', w'⟩, hw, heq⟩ := hcall
  cases heq
  obtain ⟨w₀, hinit, hrun⟩ := hc.reachable
  have hreach : Reachable .fifoQueueing w' := ⟨w₀, hinit, hrun.tail ⟨c, r', hp, hw⟩⟩
  cases c with
  | scheduleNextUnblockedTask =>
    have hactive : w'.active = h.session.active := by
      simp only [Session.call, bind_eq_bind, bind_eq_some_iff, Option.pure_def,
        some.injEq, Prod.exists, Prod.mk.injEq] at hw
      obtain ⟨_, _, _, _, rfl⟩ := hw
      rfl
    exact hc.extend [] [] hreach (by simp) (by simpa using hc.nodup) (by simp)
      (by simp) (hactive.trans hc.active) rfl
  | descheduleTask task =>
    have hactive : w'.active = h.session.active.erase task := by
      simp only [Session.call, bind_eq_bind, bind_eq_some_iff, Option.pure_def,
        some.injEq, Prod.mk.injEq] at hw
      obtain ⟨_, _, _, rfl⟩ := hw
      rfl
    refine hc.extend [] [task] hreach (by simp) (by simpa using hc.nodup) rfl
      ?_ ?_ rfl
    · exact forall_mem_singleton.mpr (mem_append_left _ hp)
    · rw [hactive, hc.reachable.active_nodup.erase_eq_filter, hc.active, List.filter_filter]
      refine filter_congr fun t _ => ?_
      rw [Bool.eq_iff_iff]
      simp [and_comm]
  | scheduleOrBufferTask task force =>
    have hactive : w'.active = if h.session.machine.isDropped task then h.session.active
        else h.session.active ++ [task] := by
      simp only [Session.call, bind_eq_bind, bind_eq_some_iff, Option.pure_def,
        some.injEq, Prod.exists, Prod.mk.injEq] at hw
      obtain ⟨_, _, _, _, rfl⟩ := hw
      rfl
    have hfresh := honce task (by simp [submissions])
    by_cases hd : h.session.machine.isDropped task = true
    · rw [if_pos hd] at hactive
      refine hc.extend [] [] hreach (by simp [hd]) (by simpa using hc.nodup)
        (by simp) (by simp) ?_ rfl
      simp only [hd, if_true]
      exact hactive.trans hc.active
    · rw [if_neg hd] at hactive
      refine hc.extend [task] [] hreach (by simp [hd]) ?_ (by simp) (by simp)
        ?_ rfl
      · rw [nodup_append']
        refine ⟨hc.nodup, nodup_singleton task, ?_⟩
        intro t ht ht'
        rw [mem_singleton.mp ht'] at ht
        exact hfresh ht
      · have hnd : task ∉ h.descheduled := fun hm =>
          hfresh (hc.released_submitted task (hc.descheduled_released task hm))
        simp only [hd, Bool.false_eq_true, if_false]
        rw [hactive, hc.active, filter_append]
        simp [hnd]

theorem HistoryReachable.coherent (hr : HistoryReachable .fifoQueueing h) : h.Coherent := by
  obtain ⟨w₀, hinit, hrun⟩ := hr
  induction hrun with
  | refl =>
    have hreach : Reachable .fifoQueueing w₀ := ⟨w₀, hinit, .refl⟩
    have hempty : w₀.runnable = [] := by
      rw [eq_nil_iff_forall_not_mem]
      intro t ht
      have := hreach.mem_active_of_runnable ht
      rw [hinit.2.1] at this
      cases this
    refine ⟨hreach, nodup_nil, hinit.2.1, ?_, by simp, by simp, by simp⟩
    rw [hempty]
    simp
  | tail _ hs ih => exact ih.step hs

/-- **Fifo serialisability.**  If `t` was submitted before `t'` and the two conflict, then `t'` is
not released before `t` has been descheduled, and `t` is released before `t'`. -/
theorem HistoryReachable.serialisable {h : History} (hr : HistoryReachable .fifoQueueing h)
    {t t' : Task} (hpair : [t, t'].Sublist h.submitted) (hconf : t.Conflicts t')
    (hreleased : t' ∈ h.released) : t ∈ h.descheduled ∧ [t, t'].Sublist h.released :=
  hr.coherent.order t t' hpair hconf hreleased

/-- The history after a call that does not panic. -/
def after (h : History) (c : Call) : History := ((h.call c).map Prod.snd).getD h

theorem step_after (h : History) (c : Call) (hp : h.session.Permits c)
    (honce : ∀ task ∈ submissions [c], task ∉ h.submitted)
    (hsome : (h.call c).isSome) : Step h (h.after c) := by
  obtain ⟨⟨r, h'⟩, hcall⟩ := isSome_iff_exists.mp hsome
  refine ⟨c, r, hp, honce, ?_⟩
  rw [after, hcall]
  rfl

def empty : History :=
  { session :=
      { machine := (new .fifoQueueing none none).get (by decide)
        active := []
        running := [] }
    submitted := []
    released := []
    descheduled := [] }

/-- Two writers of one address are submitted, the second one with the smaller id, and the first one
is descheduled. -/
def twoWriters : History :=
  ((empty.after (.scheduleOrBufferTask (writer 1 4) false)).after
    (.scheduleOrBufferTask (writer 2 3) false)).after
      (.descheduleTask (writer 1 4))

theorem serialisable_twoWriters :
    twoWriters.released = [writer 1 4, writer 2 3] ∧
      writer 1 4 ∈ twoWriters.descheduled ∧
      [writer 1 4, writer 2 3].Sublist twoWriters.released := by
  have hreach : HistoryReachable .fifoQueueing twoWriters := by
    refine ⟨empty.session, ⟨⟨none, none, rfl⟩, rfl, rfl⟩, ?_⟩
    exact ((ReflTransGen.single
      (step_after _ _ (by decide) (by decide) (by decide))).tail
      (step_after _ _ (by decide) (by decide) (by decide))).tail
      (step_after _ _ (by decide) (by decide) (by decide))
  exact ⟨rfl, hreach.serialisable (by decide) (by decide) (by decide)⟩

end History

/-! ## Priority queues with increasing ids -/

/-- The counters of a state machine. -/
structure Counters where
  active : ℕ
  peakActive : ℕ
  dropped : ℕ
  running : ℕ
  handled : ℕ
  unblocked : ℕ
  total : ℕ

def SchedulingStateMachine.counters (s : SchedulingStateMachine) : Counters :=
  { active := s.activeTaskCount
    peakActive := s.peakActiveTaskCount
    dropped := s.droppedTaskCount
    running := s.runningTaskCount
    handled := s.handledTaskCount
    unblocked := s.unblockedTaskCount
    total := s.totalTaskCount }

namespace Session

/-- What a sequence of calls shows after each call: the returned task, `unblocked_task_queue` and
the counters. A panic is shown as `none` and ends the sequence. -/
def observations (w : Session) : List Call → List (Option (Option Task × List Task × Counters))
  | [] => []
  | c :: cs =>
    match w.call c with
    | none => [none]
    | some (r, w') =>
      some (r, w'.machine.unblockedTaskQueue, w'.machine.counters) :: w'.observations cs

/-- Every call of the sequence is permitted when it is made. -/
def Legal (w : Session) : List Call → Prop
  | [] => True
  | c :: cs => w.Permits c ∧ ∀ r w', w.call c = some (r, w') → w'.Legal cs

variable {w w' : Session} {c : Call} {r : Option Task}

/-- The active tasks after a call were active before, or have just been submitted. -/
theorem mem_active_of_call (h : w.call c = some (r, w')) (ht : t ∈ w'.active) :
    t ∈ w.active ∨ t ∈ submissions [c] := by
  cases c with
  | scheduleNextUnblockedTask =>
    simp only [call, bind_eq_bind, bind_eq_some_iff, Option.pure_def,
      some.injEq, Prod.exists, Prod.mk.injEq] at h
    obtain ⟨_, _, _, _, rfl⟩ := h
    exact .inl ht
  | descheduleTask task =>
    simp only [call, bind_eq_bind, bind_eq_some_iff, Option.pure_def,
      some.injEq, Prod.mk.injEq] at h
    obtain ⟨_, _, _, rfl⟩ := h
    exact .inl (mem_of_mem_erase ht)
  | scheduleOrBufferTask task force =>
    simp only [call, bind_eq_bind, bind_eq_some_iff, Option.pure_def,
      some.injEq, Prod.exists, Prod.mk.injEq] at h
    obtain ⟨_, _, _, _, rfl⟩ := h
    simp only at ht
    split_ifs at ht
    · exact .inl ht
    · exact (mem_append.mp ht).imp_right fun hm => by simpa [submissions] using hm

variable {v w : Session}

/-- Sessions that agree answer a permitted call alike, if a submitted task comes after all active
ones. -/
theorem Sim.call_matches (h : Sim id v w) (hv : v.Increasing) (hp : v.Permits c)
    (hlast : ∀ t ∈ v.active, ∀ t' ∈ submissions [c], t.taskId < t'.taskId) :
    Matches id (v.call c) (w.call c) := by
  cases c with
  | scheduleNextUnblockedTask => exact h.scheduleNextUnblockedTask hv
  | descheduleTask task => exact h.descheduleTask hv hp
  | scheduleOrBufferTask task force =>
    have hfresh : id task ∉ w.active := by
      rw [h.active, List.map_id]
      exact hp.1
    exact h.scheduleOrBufferTask hv rfl rfl hfresh
      (fun t ht => hlast t ht task (by simp [submissions])) hp.2 force

variable {cs : List Call}

theorem Sim.observations (h : Sim id v w) (hv : v.Increasing) (hlegal : v.Legal cs)
    (hids : (submissions cs).Pairwise fun t t' => t.taskId < t'.taskId)
    (hlast : ∀ t ∈ v.active, ∀ t' ∈ submissions cs, t.taskId < t'.taskId) :
    v.observations cs = w.observations cs := by
  induction cs generalizing v w with
  | nil => rfl
  | cons c cs ih =>
    have hsplit : submissions (c :: cs) = submissions [c] ++ submissions cs := by
      rw [submissions, submissions, submissions, ← filterMap_append]
      rfl
    rw [hsplit] at hids hlast
    obtain ⟨-, hids', hcross⟩ := pairwise_append.mp hids
    rcases h.call_matches hv hlegal.1 fun t ht t' ht' =>
      hlast t ht t' (mem_append_left _ ht') with ⟨hn, hn'⟩ | ⟨r, v', w', hv', hw', hsim, hinc⟩
    · rw [Session.observations, Session.observations, hn, hn']
    · have hlast' : ∀ t ∈ v'.active, ∀ t' ∈ submissions cs, t.taskId < t'.taskId := by
        intro t ht t' ht'
        rcases mem_active_of_call hv' ht with hold | hnew
        · exact hlast t hold t' (mem_append_right _ ht')
        · exact hcross t hnew t' ht'
      rw [Session.observations, Session.observations, hv', hw', map_id_apply]
      simp only
      rw [ih hsim hinc (hlegal.2 r v' hv') hids' hlast', hsim.machine]
      simp [toFifo, counters]

/-- **Priority queues subsume fifo queues.**  If tasks are submitted with increasing ids, two state
machines with the same limits return the same tasks and show the same `unblocked_task_queue` and
the same counters after every call, or panic at the same call. -/
theorem observations_eq {maxRunning maxUnique : Option ℕ} {p q : SchedulingStateMachine}
    (hp : new .priorityQueueing maxRunning maxUnique = some p)
    (hq : new .fifoQueueing maxRunning maxUnique = some q)
    {cs : List Call} (hlegal : Legal { machine := p, active := [], running := [] } cs)
    (hids : (submissions cs).Pairwise fun t t' => t.taskId < t'.taskId) :
    observations { machine := p, active := [], running := [] } cs =
      observations { machine := q, active := [], running := [] } cs := by
  obtain ⟨hsim, hinc⟩ := Initial.sim (v := { machine := p, active := [], running := [] })
    (w := { machine := q, active := [], running := [] }) hp hq ⟨rfl, rfl⟩ ⟨rfl, rfl⟩
  exact hsim.observations hinc hlegal hids (by simp)

theorem legal_cons (hp : w.Permits c) (hcall : w.call c = some (r, w')) (h : w'.Legal cs)
    : w.Legal (c :: cs) := by
  refine ⟨hp, fun r1 w1 hcall1 => ?_⟩
  rw [hcall, some.injEq, Prod.mk.injEq] at hcall1
  rwa [← hcall1.2]

/-- A writer, and a reader that waits for it and is then handed out. -/
theorem observations_eq_writer_then_reader :
    ∃ p q, new .priorityQueueing (some 1) none = some p ∧
      new .fifoQueueing (some 1) none = some q ∧
      observations { machine := p, active := [], running := [] }
          [.scheduleOrBufferTask (writer 1 1) false, .scheduleOrBufferTask (reader 2 2) false,
            .descheduleTask (writer 1 1), .scheduleNextUnblockedTask] =
        observations { machine := q, active := [], running := [] }
          [.scheduleOrBufferTask (writer 1 1) false, .scheduleOrBufferTask (reader 2 2) false,
            .descheduleTask (writer 1 1), .scheduleNextUnblockedTask] := by
  refine ⟨_, _, rfl, rfl, @observations_eq (some 1) none _ _ rfl rfl _ ?_ (by decide)⟩
  exact legal_cons (by decide) rfl (legal_cons (by decide) rfl (legal_cons (by decide) rfl
    (legal_cons (by decide) rfl trivial)))

end Session
end FlowraValidator.UnifiedScheduler
