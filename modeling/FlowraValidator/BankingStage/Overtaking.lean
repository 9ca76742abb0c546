import FlowraValidator.BankingStage.PrioGraphScheduler

/-!
# Overtaking

A transaction that was popped and found unschedulable should not be overtaken by a later one that
conflicts with it. Of the reasons to give up on a transaction, two add its accounts to the
blocking locks; the third, an account that a bundle holds, does not.

The invariant of a call links the queue, the graph, the log and the batches: every transaction is
in one place, and it is popped from the graph once.
-/

namespace FlowraValidator.BankingStage.Pass
open GraphNode TransactionStateContainer List Option OrdMap OrdSet Fallible ReadWriteAccountSet

variable {Tx Key : Type} [LinearOrder Key]

/-- A container that a call may be given: every queued id is that of a transaction which is there,
under its priority. -/
def Queued (container : TransactionStateContainer Tx) : Prop :=
  ∀ p ∈ container.priorityQueue, ∃ state transaction,
    container.idToTransactionState[p.id]? = some (.transactionState state) ∧
      state.transaction = some transaction ∧ state.priority = p.priority

variable {p : TransactionPriorityId} {transaction : Tx}

theorem unwrapTransaction_eq_some_iff {container : TransactionStateContainer Tx} :
    unwrapTransaction container p = some transaction ↔ ∃ state,
      container.idToTransactionState[p.id]? = some (.transactionState state) ∧
        state.transaction = some transaction := by
  rw [unwrapTransaction, getTransaction]
  cases hentry : container.idToTransactionState[p.id]? with
  | none => simp
  | some entry =>
    cases entry with
    | batch info => simp
    | transactionState state =>
      cases hstate : state.transaction with
      | none => simp [hstate]
      | some transaction' => simp [hstate]

theorem Queued.unwrapTransaction {container : TransactionStateContainer Tx} (h : Queued container)
    (hp : p ∈ container.priorityQueue) :
    ∃ transaction, unwrapTransaction container p = some transaction := by
  obtain ⟨state, transaction, hentry, hstate, -⟩ := h p hp
  exact ⟨transaction, unwrapTransaction_eq_some_iff.mpr ⟨state, hentry, hstate⟩⟩

/-- Queued transactions with the same id are the same. -/
theorem Queued.eq_of_id_eq {container : TransactionStateContainer Tx} (h : Queued container)
    {q : TransactionPriorityId} (hp : p ∈ container.priorityQueue)
    (hq : q ∈ container.priorityQueue) (hid : p.id = q.id) : p = q := by
  obtain ⟨state, -, hentry, -, hpriority⟩ := h p hp
  obtain ⟨state', -, hentry', -, hpriority'⟩ := h q hq
  rw [hid, hentry'] at hentry
  cases hentry
  exact TransactionPriorityId.ext (hpriority.symm.trans hpriority') hid

/-! ## The ids a scheduler has taken -/

/-- The ids of the transactions sent to the workers or collected in batches. -/
def heldIds (common : SchedulingCommon Tx Key) : List TransactionId :=
  (common.consumeWorkSenders.flatMap fun sender => sender.sent.flatMap (·.ids)) ++
    common.batches.flatMap (·.ids)

variable {common : SchedulingCommon Tx Key} {P : SchedulingCommon Tx Key → Prop}

theorem mem_heldIds_iff {id : TransactionId} :
    id ∈ heldIds common ↔
      (∃ sender ∈ common.consumeWorkSenders, ∃ work ∈ sender.sent, id ∈ work.ids) ∨
        ∃ batch ∈ common.batches, id ∈ batch.ids := by
  simp only [heldIds, mem_append, mem_flatMap]

/-- Sending takes no new transactions. -/
theorem wp_sendBatch (threadIndex : ThreadId)
    (hP : ∀ common', (∀ id ∈ heldIds common', id ∈ heldIds common) → P common') :
    wp (sendBatch threadIndex) (fun _ => P) (fun _ => P) common := by
  have hself := hP common fun _ h => h
  unfold sendBatch
  simp only [wp_bind, wp_get, wp_ofOption, wp_ite, wp_pure, wp_set, wp_modify, wp_throw]
  refine ⟨fun batch hbatch => ⟨fun _ => hself, fun _ => ⟨fun tracked htracked => ?_,
    fun _ => hself⟩⟩, fun _ => hself⟩
  have hbatches {id : TransactionId}
      (h : ∃ batch ∈ common.batches.set threadIndex Batch.empty, id ∈ batch.ids) :
      ∃ batch ∈ common.batches, id ∈ batch.ids := by
    obtain ⟨batch', hmem, hid⟩ := h
    rcases mem_or_eq_of_mem_set hmem with hmem | rfl
    · exact ⟨batch', hmem, hid⟩
    · cases hid
  refine ⟨fun sender hsender => ⟨fun _ => hP _ fun id hid => ?_, fun _ => hP _ fun id hid => ?_⟩,
    fun _ => hself⟩
  · rcases mem_heldIds_iff.mp hid with ⟨sender', hmem, work, hwork, hid⟩ | hid
    · rcases mem_or_eq_of_mem_set hmem with hmem | rfl
      · exact mem_heldIds_iff.mpr (.inl ⟨sender', hmem, work, hwork, hid⟩)
      · rcases mem_append.mp hwork with hwork | hwork
        · exact mem_heldIds_iff.mpr
            (.inl ⟨sender, mem_of_getElem? hsender, work, hwork, hid⟩)
        · cases mem_singleton.mp hwork
          exact mem_heldIds_iff.mpr (.inr ⟨batch, mem_of_getElem? hbatch, hid⟩)
    · exact mem_heldIds_iff.mpr (.inr (hbatches hid))
  · rcases mem_heldIds_iff.mp hid with hid | hid
    · exact mem_heldIds_iff.mpr (.inl hid)
    · exact mem_heldIds_iff.mpr (.inr (hbatches hid))

theorem wp_sendBatchesOf (threads : List ThreadId)
    (hP : ∀ common', (∀ id ∈ heldIds common', id ∈ heldIds common) → P common') :
    wp (sendBatchesOf threads) (fun _ => P) (fun _ => P) common := by
  induction threads generalizing common with
  | nil => exact hP common fun _ h => h
  | cons threadIndex threads ih =>
    have hfirst := wp_sendBatch threadIndex (P := fun common' => ∀ id ∈ heldIds common',
      id ∈ heldIds common) fun _ h => h
    rw [sendBatchesOf, wp_bind]
    refine wp_mono hfirst (fun _ common' hcommon' => ?_) (fun _ common' hcommon' => ?_)
    · rw [wp_bind]
      exact ih fun common'' hcommon'' => hP common'' fun id hid => hcommon' id (hcommon'' id hid)
    · exact hP common' hcommon'

/-! ## The graph -/

section
variable {G : PrioGraph TransactionPriorityId Key}

/-- The ids inserted into a graph. -/
def insertedIds (g : G.Graph) : List TransactionPriorityId := (G.nodes g).map (·.id)

def Popped (g : G.Graph) (p : TransactionPriorityId) : Prop :=
  ∃ n ∈ G.nodes g, n.id = p ∧ n.popped = true

def Unblocked (g : G.Graph) (p : TransactionPriorityId) : Prop :=
  ∃ n ∈ G.nodes g, n.id = p ∧ n.unblocked = true

variable {g g' : G.Graph} {p : TransactionPriorityId}

theorem Popped.mem_insertedIds (h : Popped g p) : p ∈ insertedIds g := by
  obtain ⟨n, hn, rfl, -⟩ := h
  exact mem_map_of_mem hn

/-- Inserting a new transaction. -/
theorem insertTransaction_spec (hp : p ∉ insertedIds g) (access : List (Key × AccessKind)) :
    insertedIds (G.insertTransaction g p access) = insertedIds g ++ [p] ∧
      (∀ r, Popped (G.insertTransaction g p access) r ↔ Popped g r) ∧
      ∀ r, Unblocked (G.insertTransaction g p access) r ↔ Unblocked g r := by
  have hnodes := G.nodes_insertTransaction g p access fun n hn hid => hp (hid ▸ mem_map_of_mem hn)
  refine ⟨?_, fun r => ?_, fun r => ?_⟩
  · rw [insertedIds, hnodes, map_append]
    rfl
  · rw [Popped, hnodes]
    simp [Popped, inserted, or_and_right, exists_or]
  · rw [Unblocked, hnodes]
    simp [Unblocked, inserted, or_and_right, exists_or]

/-- Popping a transaction: it was not popped before. -/
theorem pop_spec (hnodup : (insertedIds g).Nodup) (hpop : G.pop g = some (p, g')) :
    insertedIds g' = insertedIds g ∧ p ∈ insertedIds g ∧ ¬ Popped g p ∧
      (∀ r, Popped g' r ↔ Popped g r ∨ r = p) ∧ ∀ r, Unblocked g' r ↔ Unblocked g r := by
  obtain ⟨hreleased, -, hnodes⟩ := G.pop_some _ _ _ hpop
  obtain ⟨before, n, after, hsplit, rfl, hpopped, -⟩ := G.free_of_released _ _ hreleased
  have hn : n ∈ G.nodes g := by
    rw [hsplit]
    simp
  refine ⟨?_, mem_map_of_mem hn, ?_, fun r => ?_, fun r => ?_⟩
  · rw [insertedIds, hnodes, map_id_markPopped]
    rfl
  · rintro ⟨m, hm, hid, hmpopped⟩
    cases inj_on_of_nodup_map hnodup hm hn hid
    rw [hpopped] at hmpopped
    cases hmpopped
  · rw [Popped, Popped, hnodes]
    constructor
    · rintro ⟨m', hm', rfl, hmpopped⟩
      obtain ⟨m, hm, rfl⟩ := mem_markPopped_iff.mp hm'
      split_ifs at hmpopped ⊢ with hid
      · exact .inr hid
      · exact .inl ⟨m, hm, rfl, hmpopped⟩
    · rintro (⟨m, hm, rfl, hmpopped⟩ | rfl)
      · refine ⟨_, mem_markPopped_iff.mpr ⟨m, hm, rfl⟩, ?_⟩
        split_ifs with hid
        · exact ⟨rfl, rfl⟩
        · exact ⟨rfl, hmpopped⟩
      · exact ⟨_, mem_markPopped_iff.mpr ⟨n, hn, rfl⟩, by rw [if_pos rfl], by
          rw [if_pos rfl]⟩
  · rw [Unblocked, Unblocked, hnodes]
    simp only [markPopped, List.mem_map, exists_exists_and_eq_and]
    refine exists_congr fun m => and_congr_right fun _ => ?_
    split_ifs <;> rfl

/-- Unblocking a transaction that was popped and not yet unblocked. -/
theorem unblock_spec (hpopped : Popped g p) (hblocked : ¬ Unblocked g p) :
    ∃ g', G.unblock g p = some g' ∧ insertedIds g' = insertedIds g ∧
      (∀ r, Popped g' r ↔ Popped g r) ∧ ∀ r, Unblocked g' r → Unblocked g r ∨ r = p := by
  obtain ⟨n, hn, hid, hnpopped⟩ := hpopped
  have hunblocked : n.unblocked = false := Bool.eq_false_iff.mpr fun h => hblocked ⟨n, hn, hid, h⟩
  obtain ⟨g', hg', hnodes⟩ := G.unblock_some g p ⟨n, hn, hid, hnpopped, hunblocked⟩
  refine ⟨g', hg', ?_, fun r => ?_, fun r hr => ?_⟩
  · rw [insertedIds, hnodes, map_id_markUnblocked]
    rfl
  · rw [Popped, Popped, hnodes]
    simp only [markUnblocked, List.mem_map, exists_exists_and_eq_and]
    refine exists_congr fun m => and_congr_right fun _ => ?_
    split_ifs <;> rfl
  · obtain ⟨m', hm', rfl, hm'unblocked⟩ := hr
    rw [hnodes, mem_markUnblocked_iff] at hm'
    obtain ⟨m, hm, rfl⟩ := hm'
    split_ifs at hm'unblocked ⊢ with hmid
    · exact .inr hmid
    · exact .inl ⟨m, hm, rfl, hm'unblocked⟩

end

/-! ## The invariant of a call -/

variable [SVMMessage Tx Key] {G : PrioGraph TransactionPriorityId Key}

/-- What is said of two entries of the log, the first popped before the second. The transactions
are those of the container that the call was given. -/
def Follows (container : TransactionStateContainer Tx) (bundles : BundleAccountLocks Key)
    (a b : TransactionPriorityId × Option TransactionSchedulingError) : Prop :=
  a.1 ≠ b.1 ∧ ∀ ta tb, unwrapTransaction container a.1 = some ta →
    unwrapTransaction container b.1 = some tb → Conflicts ta tb → a.2 ≠ none → b.2 = none →
      bundleLocked bundles ta = true

/-- What holds of the log and of the transactions taken, also when the call ends early. -/
structure LogInv (container : TransactionStateContainer Tx) (bundles : BundleAccountLocks Key)
    (s : Pass Tx Key G) : Prop where
  queued : ∀ e ∈ s.popped, e.1 ∈ container.priorityQueue
  follows : s.popped.Pairwise (Follows container bundles)
  free : ∀ p, (p, none) ∈ s.popped → ∀ transaction,
    unwrapTransaction container p = some transaction → bundleLocked bundles transaction = false
  held : ∀ id ∈ heldIds s.common, ∃ p, (p, none) ∈ s.popped ∧ p.id = id

/-- The invariant of a call, where `pending` are the transactions taken from the queue and not yet
put into the graph. -/
structure Inv (container : TransactionStateContainer Tx) (bundles : BundleAccountLocks Key)
    (pending : List TransactionPriorityId) (s : Pass Tx Key G) : Prop
    extends LogInv container bundles s where
  nodup : (pending ++ insertedIds s.prioGraph).Nodup
  apart : ∀ q ∈ s.container.priorityQueue, q ∉ pending ++ insertedIds s.prioGraph
  queue : ∀ q ∈ s.container.priorityQueue, q ∈ container.priorityQueue
  taken : ∀ p ∈ pending ++ insertedIds s.prioGraph, p ∈ container.priorityQueue
  present : ∀ p, ¬ Popped s.prioGraph p →
    p ∈ s.container.priorityQueue ∨ p ∈ pending ++ insertedIds s.prioGraph →
      unwrapTransaction s.container p = unwrapTransaction container p
  logged : ∀ e ∈ s.popped, Popped s.prioGraph e.1
  popped_of_unblocked : ∀ p, Unblocked s.prioGraph p → Popped s.prioGraph p
  covered : ∀ p e, (p, some e) ∈ s.popped → ∀ transaction,
    unwrapTransaction container p = some transaction →
      bundleLocked bundles transaction = true ∨ s.blockingLocks.Covers transaction
  toUnblock : s.unblockThisBatch.Nodup ∧
    ∀ p ∈ s.unblockThisBatch, Popped s.prioGraph p ∧ ¬ Unblocked s.prioGraph p

variable {container : TransactionStateContainer Tx} {bundles : BundleAccountLocks Key}
  {pending : List TransactionPriorityId} {s s' : Pass Tx Key G}

/-- The batches may change in between, if nothing new is taken. -/
theorem LogInv.onCommon (h : LogInv container bundles s)
    (hheld : ∀ id ∈ heldIds common, id ∈ heldIds s.common) :
    LogInv container bundles { s with common := common } :=
  { h with held := fun id hid => h.held id (hheld id hid) }

/-! ## Filling the window -/

variable {c : TransactionStateContainer Tx} {numThreads : ℕ}

/-- A transaction goes from the queue to the pending ones. -/
theorem Inv.pop (h : Inv container bundles pending s) (hpop : s.container.pop = some (p, c)) :
    Inv container bundles (pending ++ [p]) { s with container := c } := by
  obtain ⟨⟨q, queue⟩, hq, heq⟩ := map_eq_some_iff.mp hpop
  cases heq
  obtain ⟨hmem, -, rfl⟩ := popLast_eq_some_iff.mp hq
  have hperm : ((pending ++ [q]) ++ insertedIds s.prioGraph).Perm
      (q :: (pending ++ insertedIds s.prioGraph)) := by
    rw [append_assoc]
    exact perm_middle
  refine { h with
    nodup := hperm.nodup_iff.mpr (nodup_cons.mpr ⟨h.apart q hmem, h.nodup⟩)
    apart := fun r hr hin => ?_
    queue := fun r hr => h.queue r (mem_erase_iff.mp hr).2
    taken := fun r hr => ?_
    present := fun r hpopped hr => h.present r hpopped ?_ }
  · obtain ⟨hne, hr⟩ := mem_erase_iff.mp hr
    rcases mem_cons.mp (hperm.mem_iff.mp hin) with rfl | hin
    · exact hne rfl
    · exact h.apart r hr hin
  · rcases mem_cons.mp (hperm.mem_iff.mp hr) with rfl | hr
    · exact h.queue r hmem
    · exact h.taken r hr
  · rcases hr with hr | hr
    · exact .inl (mem_erase_iff.mp hr).2
    · rcases mem_cons.mp (hperm.mem_iff.mp hr) with rfl | hr
      · exact .inl hmem
      · exact .inr hr

theorem Inv.popChunk (h : Inv container bundles pending s) (n : ℕ) :
    Inv container bundles (pending ++ (Pass.popChunk n s.container).1)
      { s with container := (Pass.popChunk n s.container).2 } := by
  induction n generalizing pending s with
  | zero =>
    simp only [Pass.popChunk, append_nil]
    exact h
  | succ n ih =>
    rw [Pass.popChunk]
    cases hpop : s.container.pop with
    | none =>
      simp only [append_nil]
      exact h
    | some e =>
      obtain ⟨p, c⟩ := e
      have hnext := ih (h.pop hpop)
      rwa [append_assoc] at hnext

theorem length_popChunk_le (n : ℕ) (c : TransactionStateContainer Tx) :
    (Pass.popChunk n c).1.length ≤ n := by
  induction n generalizing c with
  | zero => exact Nat.le_refl 0
  | succ n ih =>
    rw [Pass.popChunk]
    cases c.pop with
    | none => exact Nat.zero_le _
    | some e => exact Nat.succ_le_succ (ih e.2)

/-- A pending transaction goes into the graph. -/
theorem Inv.insert (h : Inv container bundles (p :: pending) s) (access : List (Key × AccessKind)) :
    Inv container bundles pending { s with
      prioGraph := G.insertTransaction s.prioGraph p access } := by
  have hnew : p ∉ insertedIds s.prioGraph := fun hin =>
    (nodup_cons.mp h.nodup).1 (mem_append_right _ hin)
  obtain ⟨hids, hpopped, hunblocked⟩ := insertTransaction_spec hnew access
  have hperm : (pending ++ (insertedIds s.prioGraph ++ [p])).Perm
      (p :: pending ++ insertedIds s.prioGraph) := by
    rw [← append_assoc]
    exact perm_append_singleton p _
  refine { h with
    nodup := ?_
    apart := fun q hq => ?_
    taken := fun q hq => ?_
    present := fun q hq => ?_
    logged := fun e he => (hpopped e.1).mpr (h.logged e he)
    popped_of_unblocked := fun q hq =>
      (hpopped q).mpr (h.popped_of_unblocked q ((hunblocked q).mp hq))
    toUnblock := ⟨h.toUnblock.1, fun q hq => ?_⟩ }
  · rw [hids]
    exact hperm.nodup_iff.mpr h.nodup
  · rw [hids, hperm.mem_iff]
    exact h.apart q hq
  · rw [hids, hperm.mem_iff] at hq
    exact h.taken q hq
  · rw [hids, hperm.mem_iff]
    exact h.present q fun hp => hq ((hpopped q).mpr hp)
  · rw [hpopped, hunblocked]
    exact h.toUnblock.2 q hq

variable (hc : Queued container)
include hc in
/-- A pending transaction is removed from the container. -/
theorem Inv.remove (h : Inv container bundles (p :: pending) s)
    (hremove : s.container.removeById p.id = some c) (num : ℕ) :
    Inv container bundles pending { s with container := c, numFilteredOut := num } := by
  obtain ⟨hp, hnodup⟩ := nodup_cons.mp h.nodup
  have hpq := h.taken p mem_cons_self
  obtain ⟨transaction, htransaction⟩ := hc.unwrapTransaction hpq
  have hpopped : ¬ Popped s.prioGraph p := fun hpopped =>
    hp (mem_append_right _ hpopped.mem_insertedIds)
  rw [← h.present p hpopped (.inr mem_cons_self), unwrapTransaction_eq_some_iff]
    at htransaction
  obtain ⟨state, hentry, -⟩ := htransaction
  rw [removeById, hentry] at hremove
  cases hremove
  refine { h with
    nodup := hnodup
    apart := fun q hq hin => h.apart q (mem_erase_iff.mp hq).2 (mem_cons_of_mem p hin)
    queue := fun q hq => h.queue q (mem_erase_iff.mp hq).2
    taken := fun q hq => h.taken q (mem_cons_of_mem p hq)
    present := fun q hqpopped hq => ?_ }
  obtain ⟨hq, hqq, hne⟩ : (q ∈ s.container.priorityQueue ∨
      q ∈ p :: pending ++ insertedIds s.prioGraph) ∧ q ∈ container.priorityQueue ∧ q ≠ p := by
    rcases hq with hq | hq
    · have hq := (mem_erase_iff.mp hq).2
      exact ⟨.inl hq, h.queue q hq, fun heq => h.apart q hq (heq ▸ mem_cons_self)⟩
    · exact ⟨.inr (mem_cons_of_mem p hq), h.taken q (mem_cons_of_mem p hq),
        fun heq => hp (heq ▸ hq)⟩
  have hid : p.id ≠ q.id := fun hid => hne (hc.eq_of_id_eq hqq hpq hid.symm)
  rw [← h.present q hqpopped hq]
  simp only [unwrapTransaction, getTransaction, get_erase, if_neg hid]

include hc in
theorem wp_insertOrRemove {e : TransactionPriorityId × Bool}
    (h : Inv container bundles (e.1 :: pending) s) :
    wp (insertOrRemove e) (fun _ => Inv container bundles pending)
      (fun _ => LogInv container bundles) s := by
  unfold insertOrRemove
  simp only [wp_bind, wp_get, wp_ite, wp_ofOption, wp_set]
  refine ⟨fun _ => ⟨fun transaction _ => h.insert _,
    fun _ => h.toLogInv⟩, fun _ => ⟨fun c hremove => h.remove hc hremove _,
    fun _ => h.toLogInv⟩⟩

/-- An action keeps the invariant, and a panic leaves the log right. -/
abbrev Keeps (container : TransactionStateContainer Tx) (bundles : BundleAccountLocks Key)
    (s : Pass Tx Key G) {α : Type} (x : EStateM Halt (Pass Tx Key G) α) : Prop :=
  wp x (fun _ => Inv container bundles []) (fun _ => LogInv container bundles) s

include hc in
/-- Filling the window keeps the invariant. -/
theorem wp_chunkedPops (preGraphFilter : List Tx → ℕ → Bool) (fuel : ℕ)
    (h : Inv container bundles [] s) :
    Keeps container bundles s (chunkedPops preGraphFilter fuel) := by
  induction fuel generalizing s with
  | zero => exact h
  | succ fuel ih =>
    unfold chunkedPops
    simp only [wp_bind, wp_get, wp_ite, wp_set, wp_ofOption, wp_pure]
    refine ⟨fun _ => ?_, fun _ => h⟩
    set chunkSize := min s.windowBudget maxFilterChunkSize
    have hchunk : Inv container bundles (Pass.popChunk chunkSize s.container).1
        { s with
          container := (Pass.popChunk chunkSize s.container).2
          windowBudget := s.windowBudget - chunkSize } := by
      have hpopped := h.popChunk chunkSize
      rw [nil_append] at hpopped
      exact { hpopped with }
    refine ⟨fun txs _ => ?_, fun _ => hchunk.toLogInv⟩
    have hfst : ((Pass.popChunk chunkSize s.container).1.zip
        ((List.range chunkSize).map (preGraphFilter txs))).map Prod.fst =
        (Pass.popChunk chunkSize s.container).1 := by
      refine map_fst_zip ?_
      rw [length_map, length_range]
      exact length_popChunk_le chunkSize s.container
    have hloop := wp_forM (I := fun l => Inv container bundles (l.map Prod.fst))
      (E := fun _ => LogInv container bundles) (f := insertOrRemove)
      (fun e l t ht => wp_insertOrRemove hc ht)
      ((Pass.popChunk chunkSize s.container).1.zip
        ((List.range chunkSize).map (preGraphFilter txs))) (by rw [hfst]; exact hchunk)
    refine wp_post hloop fun _ t ht => ?_
    rw [wp_ite]
    exact ⟨fun _ => ht, fun _ => ih ht⟩

/-! ## Popping from the graph -/

/-- The transaction just popped: it is not in the log, and it is still in the container. -/
structure Current (container : TransactionStateContainer Tx) (p : TransactionPriorityId)
    (s : Pass Tx Key G) : Prop where
  popped : Popped s.prioGraph p
  notLogged : ∀ e ∈ s.popped, e.1 ≠ p
  present : unwrapTransaction s.container p = unwrapTransaction container p

variable (h : Inv container bundles [] s)
include h in
/-- A transaction is popped from the graph. -/
theorem Inv.popGraph {g : G.Graph} (hpop : G.pop s.prioGraph = some (p, g)) (num : ℕ) :
    Inv container bundles [] { s with
      prioGraph := g
      numScanned := num
      unblockThisBatch := s.unblockThisBatch ++ [p] } ∧
    Current container p { s with
      prioGraph := g
      numScanned := num
      unblockThisBatch := s.unblockThisBatch ++ [p] } := by
  obtain ⟨hids, hin, hnot, hpopped, hunblocked⟩ := pop_spec h.nodup hpop
  constructor
  · refine { h with
      nodup := by rw [hids]; exact h.nodup
      apart := by rw [hids]; exact h.apart
      taken := by rw [hids]; exact h.taken
      present := fun q hq => ?_
      logged := fun e he => (hpopped e.1).mpr (.inl (h.logged e he))
      popped_of_unblocked := fun q hq =>
        (hpopped q).mpr (.inl (h.popped_of_unblocked q ((hunblocked q).mp hq)))
      toUnblock := ⟨?_, fun q hq => ?_⟩ }
    · rw [hids]
      exact h.present q fun hqpopped => hq ((hpopped q).mpr (.inl hqpopped))
    · refine nodup_append.mpr ⟨h.toUnblock.1, nodup_singleton p, fun a ha b hb => ?_⟩
      rintro rfl
      exact hnot (mem_singleton.mp hb ▸ (h.toUnblock.2 a ha).1)
    · rw [hpopped, hunblocked]
      rcases mem_append.mp hq with hq | hq
      · exact ⟨.inl (h.toUnblock.2 q hq).1, (h.toUnblock.2 q hq).2⟩
      · cases mem_singleton.mp hq
        exact ⟨.inr rfl, fun hp => hnot (h.popped_of_unblocked p hp)⟩
  · exact ⟨(hpopped p).mpr (.inr rfl), fun e he heq => hnot (heq ▸ h.logged e he),
      h.present p hnot (.inr hin)⟩

/-! ## Deciding about a transaction -/

/-- The outcomes of `tryScheduleTransaction`. The second of the four leaves no trace in the
blocking locks. -/
theorem tryScheduleTransaction_cases {state : TransactionState Tx}
    (hstate : state.transaction = some transaction) {blocking blocking' : ReadWriteAccountSet Key}
    {locks : ThreadAwareAccountLocks Key} {selector : ThreadSet → Option ThreadId}
    {result : Except TransactionSchedulingError (Scheduled Tx Key)}
    (h : tryScheduleTransaction state blocking locks numThreads selector bundles =
      some (result, blocking')) :
    (∃ e, result = .error e ∧ (bundleLocked bundles transaction = true ∧ blocking' = blocking ∨
      blocking' = (blocking.takeLocks transaction).2)) ∨
    ∃ scheduled, result = .ok scheduled ∧ blocking' = blocking ∧
      blocking.checkLocks transaction = true ∧ bundleLocked bundles transaction = false := by
  rw [tryScheduleTransaction, hstate, bind_eq_bind, bind_some] at h
  split at h
  · cases h
    exact .inl ⟨_, rfl, .inr rfl⟩
  · rename_i hcheck
    split at h
    · rename_i hbundle
      cases h
      exact .inl ⟨_, rfl, .inl ⟨hbundle, rfl⟩⟩
    · rename_i hbundle
      obtain ⟨lockResult, -, h⟩ := bind_eq_some_iff.mp h
      split at h
      · cases h
        exact .inl ⟨_, rfl, .inr rfl⟩
      · cases h
        exact .inl ⟨_, rfl, .inr rfl⟩
      · obtain ⟨taken, -, h⟩ := bind_eq_some_iff.mp h
        cases h
        refine .inr ⟨_, rfl, rfl, ?_, Bool.eq_false_iff.mpr hbundle⟩
        rwa [Bool.not_eq_true', Bool.not_eq_false] at hcheck

include h in
/-- A transaction is logged, with an outcome that the earlier ones allow. -/
theorem Inv.log (hp : Current container p s) {outcome : Option TransactionSchedulingError}
    {blocking : ReadWriteAccountSet Key} (hqueue : c.priorityQueue = s.container.priorityQueue)
    (hpresent : ∀ q ∈ container.priorityQueue, q ≠ p →
      unwrapTransaction c q = unwrapTransaction s.container q)
    (hfollows : ∀ a ∈ s.popped, ∀ ta tb, unwrapTransaction container a.1 = some ta →
      unwrapTransaction container p = some tb → Conflicts ta tb → a.2 ≠ none → outcome = none →
        bundleLocked bundles ta = true)
    (hfree : outcome = none → ∀ transaction, unwrapTransaction container p = some transaction →
      bundleLocked bundles transaction = false)
    (hheld : ∀ id ∈ heldIds common, id ∈ heldIds s.common ∨ outcome = none ∧ id = p.id)
    (hcovered : outcome ≠ none → ∀ transaction, unwrapTransaction container p = some transaction →
      bundleLocked bundles transaction = true ∨ blocking.Covers transaction)
    (hkeep : ∀ other : Tx, s.blockingLocks.Covers other → blocking.Covers other)
    (hs' : s' = { s' with
      container := c, prioGraph := s.prioGraph, blockingLocks := blocking, common := common,
      popped := s.popped ++ [(p, outcome)], unblockThisBatch := s.unblockThisBatch }) :
    Inv container bundles [] s' := by
  rw [hs']
  have hpq := h.taken p hp.popped.mem_insertedIds
  have hlog {x : TransactionPriorityId × Option TransactionSchedulingError}
      (hx : x ∈ s.popped ++ [(p, outcome)]) : x ∈ s.popped ∨ x = (p, outcome) :=
    (mem_append.mp hx).imp_right mem_singleton.mp
  refine { h with
    queued := fun x hx => ?_
    follows := ?_
    free := fun q hq transaction htransaction => ?_
    held := fun id hid => ?_
    apart := by rw [hqueue]; exact h.apart
    queue := by rw [hqueue]; exact h.queue
    present := fun q hq hin => ?_
    logged := fun x hx => ?_
    covered := fun q e hq transaction htransaction => ?_ }
  · rcases hlog hx with hx | rfl
    · exact h.queued x hx
    · exact hpq
  · rw [pairwise_append]
    refine ⟨h.follows, pairwise_singleton _ _, fun a ha b hb => ?_⟩
    cases mem_singleton.mp hb
    exact ⟨hp.notLogged a ha, hfollows a ha⟩
  · rcases hlog hq with hq | hq
    · exact h.free q hq transaction htransaction
    · cases hq
      exact hfree rfl transaction htransaction
  · rcases hheld id hid with hid | ⟨rfl, rfl⟩
    · obtain ⟨q, hq, hqid⟩ := h.held id hid
      exact ⟨q, mem_append_left _ hq, hqid⟩
    · exact ⟨p, mem_append_right _ (mem_singleton_self _), rfl⟩
  · rw [hqueue] at hin
    have hqq : q ∈ container.priorityQueue := hin.elim (h.queue q) (h.taken q)
    rw [hpresent q hqq fun heq => hq (heq ▸ hp.popped)]
    exact h.present q hq hin
  · rcases hlog hx with hx | rfl
    · exact h.logged x hx
    · exact hp.popped
  · rcases hlog hq with hq | hq
    · exact (h.covered q e hq transaction htransaction).imp_right (hkeep transaction)
    · cases hq
      exact hcovered (by simp) transaction htransaction

variable {input : PassInput Tx Key}
include hc in
theorem wp_decideTransaction (h : Inv container input.bundleAccountLocks [] s)
    (hp : Current container p s) :
    Keeps container input.bundleAccountLocks s (decideTransaction input numThreads p) := by
  have hpq := h.taken p hp.popped.mem_insertedIds
  obtain ⟨transaction, htransaction⟩ := hc.unwrapTransaction hpq
  have hentry := htransaction
  rw [← hp.present, unwrapTransaction_eq_some_iff] at hentry
  obtain ⟨state, hentry, hstate⟩ := hentry
  have hget : s.container.getMutTransactionState p.id = some state := by
    rw [getMutTransactionState, hentry]
  unfold decideTransaction
  simp only [wp_bind, wp_get, wp_ofOption, hget, some_inj, reduceCtorEq,
    false_implies, and_true, forall_eq']
  refine ⟨fun result hresult => ?_, fun _ => h.toLogInv⟩
  obtain ⟨result, blocking⟩ := result
  rcases tryScheduleTransaction_cases hstate hresult with
    ⟨e, rfl, hblocking⟩ | ⟨scheduled, rfl, rfl, hcheck, hbundle⟩
  · have hreject {s' : Pass Tx Key G} (hs' : s' = { s' with
        container := s.container, prioGraph := s.prioGraph, blockingLocks := blocking,
        common := s.common, popped := s.popped ++ [(p, some e)],
        unblockThisBatch := s.unblockThisBatch }) :
        Inv container input.bundleAccountLocks [] s' := by
      refine h.log hp rfl (fun _ _ _ => rfl) (fun _ _ _ _ _ _ _ _ hnone => absurd hnone (by simp))
        (fun hnone => absurd hnone (by simp)) (fun id hid => .inl hid) (fun _ tx htx => ?_)
        (fun other hother => ?_) hs'
      · rw [htransaction] at htx
        cases htx
        rcases hblocking with ⟨hlocked, -⟩ | rfl
        · exact .inl hlocked
        · exact .inr ⟨fun _ ha => mem_takeLocks_writeSet.mpr (.inr ha),
            fun _ ha => mem_takeLocks_readSet.mpr (.inr ha)⟩
      · rcases hblocking with ⟨-, rfl⟩ | rfl
        · exact hother
        · exact hother.takeLocks transaction
    cases e with
    | unschedulableConflicts | unschedulableThread => exact hreject rfl
  · simp only [wp_bind, wp_ofOption, wp_set, wp_pure]
    refine ⟨fun batch hbatch => ⟨fun batch' hbatch' => ?_, fun _ => h.toLogInv⟩,
      fun _ => h.toLogInv⟩
    refine h.log hp (c := s.container.setTransactionState p.id scheduled.transactionState) rfl
      (fun q hqq hne => ?_) (fun a ha ta tb hta htb hconflict hne _ => ?_) (fun _ tx htx => ?_)
      (fun id hid => ?_)
      (fun hne => absurd rfl hne) (fun _ hother => hother) rfl
    · have hid : p.id ≠ q.id := fun hid => hne (hc.eq_of_id_eq hqq hpq hid.symm)
      simp only [unwrapTransaction, getTransaction, setTransactionState, get_insert, if_neg hid]
    · -- a transaction whose accounts are in the blocking locks keeps this one from being scheduled
      obtain ⟨e, he⟩ := ne_none_iff_exists'.mp hne
      rw [htransaction] at htb
      cases htb
      exact (h.covered a.1 e (he ▸ ha) ta hta).resolve_right fun hcovers =>
        hcovers.not_conflicts hcheck hconflict
    · rw [htransaction] at htx
      cases htx
      exact hbundle
    · rw [mem_heldIds_iff] at hid ⊢
      rcases hid with hid | ⟨b, hb, hid⟩
      · exact .inl (.inl hid)
      · rcases mem_or_eq_of_mem_set hb with hb | rfl
        · exact .inl (.inr ⟨b, hb, hid⟩)
        · obtain ⟨cus, -, heq⟩ := bind_eq_some_iff.mp hbatch'
          cases heq
          rcases mem_append.mp hid with hid | hid
          · exact .inl (.inr ⟨batch, mem_of_getElem? hbatch, hid⟩)
          · exact .inr ⟨rfl, mem_singleton.mp hid⟩

/-! ## The whole call -/

theorem wp_onCommon {α : Type} {x : EStateM Halt (SchedulingCommon Tx Key) α}
    (hx : wp x (fun _ common' => ∀ id ∈ heldIds common', id ∈ heldIds s.common)
      (fun _ common' => ∀ id ∈ heldIds common', id ∈ heldIds s.common) s.common)
    (h : Inv container bundles [] s) : Keeps container bundles s (onCommon x) := by
  rw [Keeps, onCommon, wp_zoom]
  refine wp_mono hx (fun _ common' hcommon' => ?_) (fun _ common' hcommon' => ?_)
  · exact { h with toLogInv := h.toLogInv.onCommon hcommon' }
  · exact h.toLogInv.onCommon hcommon'

theorem wp_sendFullBatch (threadId : ThreadId) (h : Inv container bundles [] s) :
    Keeps container bundles s (sendFullBatch input threadId) := by
  unfold sendFullBatch
  simp only [wp_bind, wp_get, wp_ofOption, wp_ite, wp_pure]
  refine ⟨fun batch _ => ⟨fun _ => ?_, fun _ => h⟩, fun _ => h.toLogInv⟩
  refine wp_post (wp_onCommon (wp_sendBatch threadId fun _ hid => hid) h) fun num t ht => ?_
  rw [wp_modify]
  exact { ht with }

theorem wp_retireThread (maxCuPerThread : ℕ) (threadId : ThreadId)
    (h : Inv container bundles [] s) :
    Keeps container bundles s (retireThread maxCuPerThread threadId) := by
  unfold retireThread
  simp only [wp_bind, wp_get, wp_ofOption, wp_ite, wp_pure, wp_set]
  refine ⟨fun batch _ => ⟨fun inFlight _ => ⟨fun cus _ => ⟨fun _ => ?_, fun _ => h⟩,
    fun _ => h.toLogInv⟩, fun _ => h.toLogInv⟩, fun _ => h.toLogInv⟩
  exact { h with }

include hc in
theorem wp_scheduleOne (numThreads maxCuPerThread : ℕ)
    (h : Inv container input.bundleAccountLocks [] s) (hp : Current container p s) :
    Keeps container input.bundleAccountLocks s (scheduleOne input numThreads maxCuPerThread p) := by
  rw [scheduleOne]
  refine wp_seq (wp_decideTransaction hc h hp) fun thread t ht => ?_
  cases thread with
  | none => exact ht
  | some threadId =>
    exact wp_seq (wp_sendFullBatch threadId ht)
      fun _ _ hu => wp_retireThread maxCuPerThread threadId hu

include hc in
theorem wp_scanLoop (numThreads maxCuPerThread fuel : ℕ)
    (h : Inv container input.bundleAccountLocks [] s) :
    Keeps container input.bundleAccountLocks s (scanLoop input numThreads maxCuPerThread fuel) := by
  induction fuel generalizing s with
  | zero => exact h
  | succ fuel ih =>
    unfold scanLoop
    rw [Keeps, wp_bind, wp_get]
    cases hpop : G.pop s.prioGraph with
    | none => exact h
    | some e =>
      obtain ⟨p, g⟩ := e
      obtain ⟨hnext, hcurrent⟩ := h.popGraph hpop (s.numScanned + 1)
      simp only [wp_bind, wp_set]
      refine wp_post (wp_scheduleOne hc numThreads maxCuPerThread hnext hcurrent)
        fun stop t ht => ?_
      simp only [wp_bind, wp_get, wp_ite, wp_pure]
      exact ⟨fun _ => ht, fun _ => ⟨fun _ => ht, fun _ => ih ht⟩⟩

include h in
theorem wp_sendAll : Keeps container bundles s sendAll := by
  rw [sendAll]
  refine wp_seq (wp_onCommon ?_ h) fun num t ht => ?_
  · simp only [sendBatches, wp_bind, wp_get]
    exact wp_sendBatchesOf _ fun _ hid => hid
  rw [wp_modify]
  exact { ht with }

/-- Unblocks one of the transactions that may be unblocked. -/
theorem wp_unblockOne {rest : List TransactionPriorityId}
    (h : Inv container bundles [] { s with unblockThisBatch := p :: rest }) :
    wp (unblockOne p)
      (fun _ t => Inv container bundles [] { t with unblockThisBatch := rest } ∧
        t.unblockThisBatch = s.unblockThisBatch) (fun _ => LogInv container bundles) s := by
  obtain ⟨hp, hrest⟩ := nodup_cons.mp h.toUnblock.1
  have hfirst := h.toUnblock.2 p mem_cons_self
  obtain ⟨g, hg, hids, hpopped, hunblocked⟩ := unblock_spec hfirst.1 hfirst.2
  simp only [unblockOne, wp_bind, wp_get, wp_ofOption, wp_set, hg, some_inj, reduceCtorEq,
    false_implies, and_true, forall_eq']
  refine { h with
    nodup := by rw [hids]; exact h.nodup
    apart := by rw [hids]; exact h.apart
    taken := by rw [hids]; exact h.taken
    present := by simp only [hids, hpopped]; exact h.present
    logged := fun e he => (hpopped e.1).mpr (h.logged e he)
    popped_of_unblocked := fun q hq => ?_
    toUnblock := ⟨hrest, fun q hq => ?_⟩ }
  · rw [hpopped]
    rcases hunblocked q hq with hq | rfl
    · exact h.popped_of_unblocked q hq
    · exact hfirst.1
  · obtain ⟨hqpopped, hqblocked⟩ := h.toUnblock.2 q (mem_cons_of_mem p hq)
    refine ⟨(hpopped q).mpr hqpopped, fun hqu => ?_⟩
    rcases hunblocked q hqu with hqu | rfl
    · exact hqblocked hqu
    · exact hp hq

include h in
theorem wp_unblockAll : Keeps container bundles s unblockAll := by
  simp only [unblockAll, wp_bind, wp_get, wp_set]
  have hloop := wp_forM (I := fun rest t => Inv container bundles []
      { t with unblockThisBatch := rest } ∧ t.unblockThisBatch = [])
    (E := fun _ => LogInv container bundles) (f := unblockOne)
    (fun p rest t ht => wp_post (wp_unblockOne ht.1) fun _ _ hu => ⟨hu.1, hu.2.trans ht.2⟩)
    s.unblockThisBatch (s := { s with unblockThisBatch := [] }) ⟨h, rfl⟩
  refine wp_post hloop fun _ t ht => ?_
  have hsame : { t with unblockThisBatch := [] } = t := by rw [← ht.2]
  exact hsame ▸ ht.1

include hc in
theorem wp_refill (input : PassInput Tx Key) (h : Inv container bundles [] s) :
    Keeps container bundles s (refill input) := by
  simp only [refill, wp_bind, wp_modify, wp_get]
  exact wp_chunkedPops hc _ _ { h with }

include hc in
theorem wp_passLoop (numThreads maxCuPerThread fuel : ℕ)
    (h : Inv container input.bundleAccountLocks [] s) :
    Keeps container input.bundleAccountLocks s (passLoop input numThreads maxCuPerThread fuel) := by
  induction fuel generalizing s with
  | zero => exact h
  | succ fuel ih =>
    unfold passLoop
    simp only [wp_bind, wp_get, wp_ite, wp_pure]
    refine ⟨fun _ => ⟨fun _ => h, fun _ => ?_⟩, fun _ => h⟩
    refine wp_post (wp_scanLoop hc _ _ _ h) fun _ t ht => ?_
    refine wp_seq (wp_sendAll ht) fun _ t ht => ?_
    refine wp_seq (wp_refill hc input ht) fun _ t ht => ?_
    exact wp_seq (wp_unblockAll ht) fun _ t ht => ih ht

theorem wp_giveBack (startingQueueSize : ℕ) (h : LogInv container bundles s) :
    wp (giveBack startingQueueSize) (fun _ => LogInv container bundles)
      (fun _ => LogInv container bundles) s := by
  unfold giveBack
  simp only [wp_bind, wp_get, wp_ofOption, wp_set]
  refine ⟨fun _ _ => ⟨fun _ _ => ⟨fun _ _ => ?_, fun _ => h⟩, fun _ => h⟩, fun _ => h⟩
  exact { h with }

include hc in
/-- Every call keeps the log, however it ends. -/
theorem wp_schedule (h : Inv container input.bundleAccountLocks [] s) :
    wp (schedule input) (fun _ => LogInv container input.bundleAccountLocks)
      (fun _ => LogInv container input.bundleAccountLocks) s := by
  unfold schedule
  simp only [wp_bind, wp_get, wp_ofOption, wp_ite, wp_pure, wp_set, wp_throw]
  refine ⟨fun cus _ => ⟨fun _ => h.toLogInv, fun _ => ⟨fun threads _ => ⟨fun _ => h.toLogInv,
    fun _ => ?_⟩, fun _ => h.toLogInv⟩⟩, fun _ => h.toLogInv⟩
  refine wp_post (wp_chunkedPops hc _ _ { h with }) fun _ t ht => ?_
  refine wp_seq (wp_passLoop hc _ _ _ ht) fun _ t ht => ?_
  refine wp_seq (wp_sendAll ht) fun _ t ht => ?_
  refine wp_seq (wp_giveBack _ ht.toLogInv) fun _ t ht => ?_
  simp only [wp_bind, wp_get, wp_ite, wp_pure, wp_throw]
  exact ⟨fun _ => ht, fun _ => ht⟩

/-! ## No overtaking -/

/-- What a call is given between two calls: a container of queued transactions, batches that are
empty, nothing sent yet, and an empty graph. -/
structure Ready (container : TransactionStateContainer Tx) (common : SchedulingCommon Tx Key)
    (g : G.Graph) : Prop where
  queued : Queued container
  batches : ∀ batch ∈ common.batches, batch.ids = []
  sent : ∀ sender ∈ common.consumeWorkSenders, sender.sent = []
  graph : G.nodes g = []

/-- A transaction was sent although it was popped after the other one, which was found
unschedulable. -/
def Overtakes (container : TransactionStateContainer Tx) (s : Pass Tx Key G) (tb ta : Tx) : Prop :=
  ∃ (i j : ℕ) (a b : TransactionPriorityId) (reason : TransactionSchedulingError)
    (result : Option TransactionSchedulingError), i < j ∧ s.popped[i]? = some (a, some reason) ∧
      s.popped[j]? = some (b, result) ∧ unwrapTransaction container a = some ta ∧
      unwrapTransaction container b = some tb ∧ b.id ∈ s.sentIds

omit [SVMMessage Tx Key] in
theorem Ready.heldIds {g : G.Graph} (h : Ready container common g) : ∀ id, id ∉ heldIds common := by
  intro id hid
  rcases mem_heldIds_iff.mp hid with ⟨sender, hsender, work, hwork, -⟩ | ⟨batch, hbatch, hid⟩
  · rw [h.sent sender hsender] at hwork
    cases hwork
  · rw [h.batches batch hbatch] at hid
    cases hid

theorem Ready.inv {g : G.Graph} (h : Ready container common g) (bundles : BundleAccountLocks Key) :
    Inv container bundles [] (start container common g) := by
  have hids : insertedIds g = [] := by rw [insertedIds, h.graph, map_nil]
  have hno {p : TransactionPriorityId} (hp : p ∈ insertedIds g) : False := by
    rw [hids] at hp
    cases hp
  exact {
    queued := nofun
    follows := List.Pairwise.nil
    free := nofun
    held := fun id hid => absurd hid (h.heldIds id)
    nodup := by
      show (insertedIds g).Nodup
      rw [hids]
      exact nodup_nil
    apart := fun q _ hq => hno hq
    queue := fun q hq => hq
    taken := fun p hp => (hno hp).elim
    present := fun p _ _ => rfl
    logged := nofun
    popped_of_unblocked := fun p ⟨n, hn, _⟩ => (hno (mem_map_of_mem hn)).elim
    covered := fun p e he => absurd he not_mem_nil
    toUnblock := ⟨nodup_nil, nofun⟩ }

include hc in
/-- A transaction is overtaken by a conflicting one only if it needs an account that a bundle
holds, and the other one does not. -/
theorem LogInv.bundleLocked_of_overtakes (h : LogInv container bundles s) {ta tb : Tx}
    (hconflict : Conflicts ta tb) (hovertakes : Overtakes container s tb ta) :
    bundleLocked bundles ta = true ∧ bundleLocked bundles tb = false := by
  obtain ⟨i, j, a, b, reason, result, hij, hi, hj, hta, htb, hsent⟩ := hovertakes
  have hbmem := mem_of_getElem? hj
  obtain ⟨-, hfollows⟩ : Follows container bundles (a, some reason) (b, result) := by
    obtain ⟨hilt, hi⟩ := List.getElem?_eq_some_iff.mp hi
    obtain ⟨hjlt, hj⟩ := List.getElem?_eq_some_iff.mp hj
    have hpair := pairwise_iff_getElem.mp h.follows i j hilt hjlt hij
    rwa [hi, hj] at hpair
  -- the id that was sent is that of a transaction logged as scheduled, which is this one
  obtain ⟨p, hp, hid⟩ := h.held b.id (mem_append_left _ hsent)
  have hpb : p = b := hc.eq_of_id_eq (h.queued _ hp) (h.queued _ hbmem) hid
  subst hpb
  have hresult := inj_on_of_nodup_map
    (pairwise_map.mpr (h.follows.imp fun hfollows => hfollows.1)) hp hbmem rfl
  exact ⟨hfollows ta tb hta htb hconflict (by simp) (congrArg Prod.snd hresult).symm,
    h.free p hp tb htb⟩

end FlowraValidator.BankingStage.Pass
