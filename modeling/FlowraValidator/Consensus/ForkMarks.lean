import FlowraValidator.Consensus.ForkUpdates

/-!
# Marking a fork valid or invalid

A mark is a batch of operations for the nodes below the marked node, followed by aggregations of
these and of the nodes above. Each node below an invalid one remembers the greatest slot of an
invalid node above it. A valid mark makes the nodes below forget the slots up to the marked one,
and the aggregations then confirm the nodes above, one after the other, because each of them has a
confirmed child.

That an aggregation confirms nothing else, and that an invalid mark does not meet a confirmed node,
needs that the nodes above a confirmed node are confirmed.

* `Marked`: the nodes above a confirmed node are confirmed, and confirmed nodes are candidates.
* `Marked.exists_markForkInvalidCandidate_eq`, `Marked.exists_markForkValidCandidate_eq`: the marks
  return, and what they do to each node.
-/

namespace FlowraValidator.Consensus.HeaviestSubtreeForkChoice
open List Option Forest UpdateOperations Relation ReflTransGen SlotHashKey Aggregation

variable (fc : HeaviestSubtreeForkChoice)

/-- The node is duplicate confirmed. -/
def Confirmed (k : SlotHashKey) : Prop := fc.isDuplicateConfirmed k = some true

/-- The nodes above a confirmed node are confirmed, a confirmed node is a candidate, and the latest
invalid slot is not after the node. -/
structure Marked : Prop where
  up : ∀ {c p}, fc.parent c = some p → fc.Confirmed c → fc.Confirmed p
  valid : ∀ {k}, fc.Confirmed k → fc.latestInvalidAncestor k = none
  latest_le : ∀ {k a}, fc.latestInvalidAncestor k = some a → a ≤ k.slot

variable {fc} {fc' : HeaviestSubtreeForkChoice} {k n c p : SlotHashKey} {info info' : ForkInfo}

section GetSome
variable (h : fc.get k = some info)
include h
theorem confirmed_iff : fc.Confirmed k ↔ info.isDuplicateConfirmed = true := by
  show (fc.get k).map ForkInfo.isDuplicateConfirmed = some true ↔ _
  rw [h]
  exact some_inj

theorem latestInvalidAncestor_eq : fc.latestInvalidAncestor k = info.latestInvalidAncestor := by
  show (fc.get k).bind ForkInfo.latestInvalidAncestor = _
  rw [h]
  rfl

theorem stakeVotedAt_eq : fc.stakeVotedAt k = some info.stakeVotedAt := by
  show (fc.get k).map ForkInfo.stakeVotedAt = _
  rw [h]
  rfl

end GetSome

theorem present_of_latestInvalidAncestor {slot : ℕ} (h : fc.latestInvalidAncestor k = some slot) :
    fc.Present k := by
  obtain ⟨info, hget, -⟩ := bind_eq_some_iff.mp h
  exact ⟨info, hget⟩

theorem present_of_confirmed (h : fc.Confirmed k) : fc.Present k := by
  obtain ⟨info, hget, -⟩ := map_eq_some_iff.mp h
  exact ⟨info, hget⟩

theorem Marked.of_below (h : fc.Marked) (hbelow : fc.Below c k) (hconf : fc.Confirmed k) :
    fc.Confirmed c := by
  induction hbelow with
  | refl => exact hconf
  | tail _ hp ih => exact ih (h.up hp hconf)

/-! ## One operation -/

/-- An aggregation confirms a node that has a confirmed child. -/
theorem Shaped.exists_applied_aggregate_eq (hs : fc.Shaped) (hget : fc.get k = some info) :
    ∃ info', fc.applied k info .aggregate = some info' ∧
      info'.stakeVotedAt = info.stakeVotedAt ∧
      ((∃ c, fc.parent c = some k ∧ fc.Confirmed c) → info'.latestInvalidAncestor = none ∧
        info'.isDuplicateConfirmed = true) ∧
      ((∀ c, fc.parent c = some k → ¬fc.Confirmed c) →
        info'.latestInvalidAncestor = info.latestInvalidAncestor ∧
        info'.isDuplicateConfirmed = info.isDuplicateConfirmed) := by
  obtain ⟨acc, heq, hacc⟩ := hs.exists_applied_aggregate hget
  refine ⟨acc.write info, heq, ?_, ?_, ?_⟩
  · unfold write
    split_ifs <;> rfl
  · rintro ⟨c, hp, hconf⟩
    have hc := hacc.confirmed.mpr ⟨c, (hs.mem_children_iff hget).mpr hp, hconf⟩
    unfold write
    rw [if_pos hc]
    exact ⟨rfl, rfl⟩
  · intro hnone
    have hc : ¬acc.isDuplicateConfirmed = true := by
      intro hacc'
      obtain ⟨c, hmem, hconf⟩ := hacc.confirmed.mp hacc'
      exact hnone c ((hs.mem_children_iff hget).mp hmem) hconf
    unfold write
    rw [if_neg hc]
    exact ⟨rfl, rfl⟩

/-- An aggregation changes no mark of a node that is confirmed if a child is. -/
theorem Shaped.exists_aggregate_unmarked (hs : fc.Shaped) (hget : fc.get k = some info)
    (hup : ∀ c, fc.parent c = some k → fc.Confirmed c →
      fc.Confirmed k ∧ fc.latestInvalidAncestor k = none) :
    ∃ info', fc.applied k info .aggregate = some info' ∧
      info'.stakeVotedAt = info.stakeVotedAt ∧
      info'.latestInvalidAncestor = info.latestInvalidAncestor ∧
      info'.isDuplicateConfirmed = info.isDuplicateConfirmed := by
  obtain ⟨info', heq, hat, hsome, hnone⟩ := hs.exists_applied_aggregate_eq hget
  refine ⟨info', heq, hat, ?_⟩
  by_cases hchild : ∃ c, fc.parent c = some k ∧ fc.Confirmed c
  · obtain ⟨c, hp, hconf⟩ := hchild
    obtain ⟨hk, hvalid⟩ := hup c hp hconf
    obtain ⟨hlatest, hconf'⟩ := hsome ⟨c, hp, hconf⟩
    rw [hlatest, hconf', ← latestInvalidAncestor_eq hget, hvalid, (confirmed_iff hget).mp hk]
    exact ⟨rfl, rfl⟩
  · exact hnone fun c hp hconf => hchild ⟨c, hp, hconf⟩

/-! ## The operations of a mark -/

/-- The entry that marks a node. -/
def markedEntry (operation : UpdateOperation) (n : SlotHashKey) : UpdateKey × UpdateOperation :=
  (⟨n, operation.label⟩, operation)

variable {operation : UpdateOperation} {below : List SlotHashKey}

/-- The entries of a mark: the nodes below are marked, and these and the nodes above are
aggregated. -/
def MarkEntry (fc : HeaviestSubtreeForkChoice) (operation : UpdateOperation) (k : SlotHashKey)
    (e : UpdateKey × UpdateOperation) : Prop :=
  (∃ n, fc.Below k n ∧ e = markedEntry operation n) ∨
    (∃ n, (fc.Below k n ∨ IsAncestor fc.parent n k) ∧ e = aggregateEntry n)

theorem MarkEntry.present {e : UpdateKey × UpdateOperation} (h : fc.MarkEntry operation k e)
    (hs : fc.Shaped) (hk : fc.Present k) :
    fc.Present e.1.key := by
  rcases h with ⟨n, hn, rfl⟩ | ⟨n, hn | hanc, rfl⟩
  · exact present_of_below hk hn
  · exact present_of_below hk hn
  · exact hs.present_of_isAncestor hanc

theorem Shaped.mem_entries_markOperations (hs : fc.Shaped) (hmark : operation.isMark = true)
    (hbelow : ∀ c, c ∈ below ↔ fc.Below k c) {e : UpdateKey × UpdateOperation} :
    e ∈ entries (fc.markOperations operation below k) ↔ fc.MarkEntry operation k e := by
  obtain ⟨⟨n, label⟩, operation'⟩ := e
  rw [mem_entries_iff, hs.get_markOperations hmark fun c hc => (hbelow c).mp hc, MarkEntry]
  constructor
  · rintro (⟨rfl, hlabel, hmem⟩ | ⟨rfl, hlabel, hmem⟩)
    · dsimp only at hlabel
      subst hlabel
      exact .inl ⟨n, (hbelow n).mp hmem, rfl⟩
    · dsimp only at hlabel
      subst hlabel
      exact .inr ⟨n, hmem.imp_left (hbelow n).mp, rfl⟩
  · rintro (⟨n', hn', heq⟩ | ⟨n', hn', heq⟩)
    · cases heq
      exact .inl ⟨rfl, rfl, (hbelow n).mpr hn'⟩
    · cases heq
      exact .inr ⟨rfl, rfl, hn'.imp_left (hbelow n).mpr⟩

section SetInfo
variable (hget : fc.get k = some info)
include hget
theorem stakeVotedAt_setInfo (hat : info'.stakeVotedAt = info.stakeVotedAt) :
    (fc.setInfo k info').stakeVotedAt = fc.stakeVotedAt := by
  funext n
  show ((fc.setInfo k info').get n).map ForkInfo.stakeVotedAt = fc.stakeVotedAt n
  rw [get_setInfo hget]
  split_ifs with heq
  · rw [← heq, stakeVotedAt_eq hget, ← hat]
    rfl
  · rfl

theorem latestInvalidAncestor_setInfo (n : SlotHashKey) :
    (fc.setInfo k info').latestInvalidAncestor n =
      if k = n then info'.latestInvalidAncestor else fc.latestInvalidAncestor n := by
  show ((fc.setInfo k info').get n).bind ForkInfo.latestInvalidAncestor = _
  rw [get_setInfo hget]
  split_ifs <;> rfl

theorem confirmed_setInfo (n : SlotHashKey) :
    (fc.setInfo k info').Confirmed n ↔
      if k = n then info'.isDuplicateConfirmed = true else fc.Confirmed n := by
  show ((fc.setInfo k info').get n).map ForkInfo.isDuplicateConfirmed = some true ↔ _
  rw [get_setInfo hget]
  split_ifs
  · exact some_inj
  · rfl

theorem latestInvalidAncestor_setInfo_same
    (hlatest : info'.latestInvalidAncestor = info.latestInvalidAncestor) :
    (fc.setInfo k info').latestInvalidAncestor = fc.latestInvalidAncestor := by
  funext n
  rw [latestInvalidAncestor_setInfo hget]
  split_ifs with heq
  · rw [← heq, hlatest, latestInvalidAncestor_eq hget]
  · rfl

theorem confirmed_setInfo_same
    (hconf : info'.isDuplicateConfirmed = info.isDuplicateConfirmed) (n : SlotHashKey) :
    (fc.setInfo k info').Confirmed n ↔ fc.Confirmed n := by
  rw [confirmed_setInfo hget]
  split_ifs with heq
  · rw [← heq, hconf, confirmed_iff hget]
  · rfl

end SetInfo

/-! ## The marks while a batch is processed -/

/-- A mark of the node `k`: what it does to the latest invalid slots of the nodes below, and whether
it confirms the node and the nodes above. -/
structure Mark (fc : HeaviestSubtreeForkChoice) (k : SlotHashKey) where
  operation : UpdateOperation
  latest : Option ℕ → Option ℕ
  confirms : Prop
  isMark : operation.isMark = true
  applied : ∀ {fc' : HeaviestSubtreeForkChoice} {n info}, fc.Below k n →
    (info.isDuplicateConfirmed = true ↔ fc.Confirmed n) →
    ∃ confirmed, fc'.applied n info operation =
        some (remark info (latest info.latestInvalidAncestor) confirmed) ∧
      (confirmed = true ↔ fc.Confirmed n ∨ (confirms ∧ n = k))
  latest_none : ∀ {n}, fc.Below k n → fc.Confirmed n → latest none = none

section Mark
variable {fc₀ : HeaviestSubtreeForkChoice} {mark : Mark fc₀ k} {e : UpdateKey × UpdateOperation}
  {rest : List (UpdateKey × UpdateOperation)}

variable (mark) (rest) in
open Classical in
/-- The latest invalid slot of a node, when some entries are left. -/
noncomputable def Mark.latestAfter (n : SlotHashKey) : Option ℕ :=
  if fc₀.Below k n ∧ markedEntry mark.operation n ∉ rest then
    mark.latest (fc₀.latestInvalidAncestor n)
  else if (mark.confirms ∧ IsAncestor fc₀.parent n k) ∧ aggregateEntry n ∉ rest then none
  else fc₀.latestInvalidAncestor n

variable (mark) (rest) in
/-- The node is confirmed, when some entries are left. -/
def Mark.ConfirmedAfter (n : SlotHashKey) : Prop :=
  fc₀.Confirmed n ∨ ((mark.confirms ∧ n = k) ∧ markedEntry mark.operation n ∉ rest) ∨
    ((mark.confirms ∧ IsAncestor fc₀.parent n k) ∧ aggregateEntry n ∉ rest)

/-- The fork is being marked, and some entries are left. -/
structure BeingMarked (mark : Mark fc₀ k) (fc : HeaviestSubtreeForkChoice)
    (rest : List (UpdateKey × UpdateOperation)) : Prop where
  stakeVotedAt : fc.stakeVotedAt = fc₀.stakeVotedAt
  latest : ∀ n, fc.latestInvalidAncestor n = mark.latestAfter rest n
  confirmed : ∀ n, fc.Confirmed n ↔ mark.ConfirmedAfter rest n

/-- The entry of one node is processed. -/
theorem BeingMarked.write (h : BeingMarked mark fc (e :: rest)) (hget : fc.get n = some info)
    (he : e.1.key = n) (hat : info'.stakeVotedAt = info.stakeVotedAt)
    (hlatest : info'.latestInvalidAncestor = mark.latestAfter rest n)
    (hconf : info'.isDuplicateConfirmed = true ↔ mark.ConfirmedAfter rest n) :
    BeingMarked mark (fc.setInfo n info') rest := by
  -- the entry is not one of another node
  have hmark : ∀ m, n ≠ m → markedEntry mark.operation m ≠ e :=
    fun m hne heq => hne (he.symm.trans (congrArg (fun e => e.1.key) heq.symm))
  have hagg : ∀ m, n ≠ m → aggregateEntry m ≠ e :=
    fun m hne heq => hne (he.symm.trans (congrArg (fun e => e.1.key) heq.symm))
  refine ⟨?_, fun m => ?_, fun m => ?_⟩
  · rw [stakeVotedAt_setInfo hget hat]
    exact h.stakeVotedAt
  · rw [latestInvalidAncestor_setInfo hget]
    split_ifs with heq
    · rwa [← heq]
    · classical
      rw [h.latest, Mark.latestAfter, Mark.latestAfter]
      simp only [mem_cons, hmark m heq, hagg m heq, false_or]
  · rw [confirmed_setInfo hget]
    split_ifs with heq
    · rwa [← heq]
    · rw [h.confirmed, Mark.ConfirmedAfter, Mark.ConfirmedAfter]
      simp only [mem_cons, hmark m heq, hagg m heq, false_or]

/-- One more node is marked. -/
theorem BeingMarked.mark_below (hs : fc₀.Shaped)
    (h : BeingMarked mark fc (markedEntry mark.operation n :: rest))
    (hnot : markedEntry mark.operation n ∉ rest) (hn : fc₀.Below k n)
    (hget : fc.get n = some info) :
    ∃ fc', fc.processOperation n mark.operation = some fc' ∧ BeingMarked mark fc' rest := by
  -- the node is not above the marked one
  have habove : ¬IsAncestor fc₀.parent n k := by
    intro hanc
    exact absurd (hs.slot_lt_of_isAncestor hanc) (not_lt.mpr (hs.slot_le hn))
  have hold : info.latestInvalidAncestor = fc₀.latestInvalidAncestor n := by
    rw [← latestInvalidAncestor_eq hget, h.latest, Mark.latestAfter, if_neg, if_neg]
    · exact fun hanc => habove hanc.1.2
    · exact fun hmem => hmem.2 mem_cons_self
  have hconf : info.isDuplicateConfirmed = true ↔ fc₀.Confirmed n := by
    rw [← confirmed_iff hget, h.confirmed]
    refine or_iff_left ?_
    rintro (⟨-, hmem⟩ | ⟨hanc, -⟩)
    · exact hmem mem_cons_self
    · exact habove hanc.2
  obtain ⟨confirmed, happ, hconfirmed⟩ := @Mark.applied _ _ mark fc _ _ hn hconf
  refine ⟨fc.setInfo n (remark info (mark.latest info.latestInvalidAncestor) confirmed), ?_,
    h.write hget rfl rfl ?_ ?_⟩
  · rw [processOperation_of_some hget, happ]
    rfl
  · rw [hold, Mark.latestAfter, if_pos ⟨hn, hnot⟩]
    rfl
  · refine hconfirmed.trans (or_congr_right ⟨fun hself => .inl ⟨hself, hnot⟩, ?_⟩)
    rintro (⟨hself, -⟩ | ⟨hanc, -⟩)
    · exact hself
    · exact absurd hanc.2 habove

/-- The aggregation of a node that is not confirmed changes no mark. -/
theorem BeingMarked.aggregate_other (hs : fc₀.Shaped) (hm : fc₀.Marked)
    (hsame : fc₀.SameTree fc) (h : BeingMarked mark fc (aggregateEntry n :: rest))
    (habove : ¬(mark.confirms ∧ IsAncestor fc₀.parent n k)) (hget : fc.get n = some info) :
    ∃ fc', fc.processOperation n .aggregate = some fc' ∧ BeingMarked mark fc' rest := by
  have hup : ∀ c, fc.parent c = some n → fc.Confirmed c →
      fc.Confirmed n ∧ fc.latestInvalidAncestor n = none := by
    intro c hp hc
    rw [hsame.parent] at hp
    -- the child was confirmed before
    have hc0 : fc₀.Confirmed c := by
      rcases (h.confirmed c).mp hc with hc0 | ⟨⟨hconfirms, rfl⟩, -⟩ | ⟨⟨hconfirms, hanc⟩, -⟩
      · exact hc0
      · exact absurd ⟨hconfirms, TransGen.single hp⟩ habove
      · exact absurd ⟨hconfirms, TransGen.head hp hanc⟩ habove
    have hn0 := hm.up hp hc0
    refine ⟨(h.confirmed n).mpr (.inl hn0), ?_⟩
    rw [h.latest, Mark.latestAfter, hm.valid hn0]
    split_ifs with hbelow
    · exact mark.latest_none hbelow.1 hn0
    · rfl
    · rfl
  obtain ⟨info', happ, hat, hlatest, hconf⟩ := (hsame.shaped hs).exists_aggregate_unmarked hget hup
  have hne : markedEntry mark.operation n ≠ aggregateEntry n :=
    fun heq => Bool.false_ne_true
      ((congrArg (fun e => e.2.isMark) heq).symm.trans mark.isMark)
  refine ⟨fc.setInfo n info', ?_, h.write hget rfl hat ?_ ?_⟩
  · rw [processOperation_of_some hget, happ]
    rfl
  · classical
    rw [hlatest, ← latestInvalidAncestor_eq hget, h.latest, Mark.latestAfter, Mark.latestAfter]
    simp only [mem_cons, hne, habove, false_or, false_and]
  · rw [hconf, ← confirmed_iff hget, h.confirmed, Mark.ConfirmedAfter, Mark.ConfirmedAfter]
    simp only [mem_cons, hne, habove, false_or, false_and]

/-- The aggregation of a node above confirms it. -/
theorem BeingMarked.aggregate_above (hs : fc₀.Shaped) (hsame : fc₀.SameTree fc)
    (hbatch : Batch fc₀.parent (aggregateEntry n :: rest))
    (h : BeingMarked mark fc (aggregateEntry n :: rest)) (hconfirms : mark.confirms)
    (hn : IsAncestor fc₀.parent n k) (hget : fc.get n = some info) :
    ∃ fc', fc.processOperation n .aggregate = some fc' ∧ BeingMarked mark fc' rest := by
  have hbelow : ¬fc₀.Below k n := by
    intro hbelow
    exact absurd (hs.slot_lt_of_isAncestor hn) (not_lt.mpr (hs.slot_le hbelow))
  -- the child towards the marked node has been confirmed
  have hchild : ∃ c, fc.parent c = some n ∧ fc.Confirmed c := by
    obtain ⟨c, hp, hck⟩ := TransGen.head'_iff.mp hn
    have hlt : n.slot < c.slot := hs.slot_lt hp
    refine ⟨c, ?_, (h.confirmed c).mpr (.inr ?_)⟩
    · rwa [hsame.parent]
    · rcases isAncestorOrSelf_iff.mp hck with heq | hanc
      · exact .inl ⟨⟨hconfirms, heq⟩, hbatch.notMem_of_slot_lt hlt⟩
      · exact .inr ⟨⟨hconfirms, hanc⟩, hbatch.notMem_of_slot_lt hlt⟩
  obtain ⟨info', happ, hat, hsome, -⟩ := (hsame.shaped hs).exists_applied_aggregate_eq hget
  obtain ⟨hlatest, hconf⟩ := hsome hchild
  refine ⟨fc.setInfo n info', ?_, h.write hget rfl hat ?_ ?_⟩
  · rw [processOperation_of_some hget, happ]
    rfl
  · rw [hlatest, Mark.latestAfter, if_neg fun hn' => hbelow hn'.1,
      if_pos ⟨⟨hconfirms, hn⟩, hbatch.head_notMem⟩]
  · exact iff_of_true hconf (.inr (.inr ⟨⟨hconfirms, hn⟩, hbatch.head_notMem⟩))

/-- One operation. -/
theorem BeingMarked.step (hs : fc₀.Shaped) (hm : fc₀.Marked) (hk : fc₀.Present k)
    (hsame : fc₀.SameTree fc) (hbatch : Batch fc₀.parent (e :: rest))
    (he : MarkEntry fc₀ mark.operation k e) (h : BeingMarked mark fc (e :: rest)) :
    ∃ fc', fc.processOperation e.1.key e.2 = some fc' ∧ BeingMarked mark fc' rest := by
  obtain ⟨info, hget⟩ := hsame.present_iff.mpr (he.present hs hk)
  rcases he with ⟨n, hn, rfl⟩ | ⟨n, -, rfl⟩
  · exact h.mark_below hs hbatch.head_notMem hn hget
  · by_cases habove : mark.confirms ∧ IsAncestor fc₀.parent n k
    · exact h.aggregate_above hs hsame hbatch habove.1 habove.2 hget
    · exact h.aggregate_other hs hm hsame habove hget

/-- **The batch of a mark is processed.** -/
theorem Mark.exists_processUpdateOperations_eq (mark : Mark fc k) (hm : fc.Marked) (hs : fc.Shaped)
    (hcached : fc.Cached []) (hk : fc.Present k) (hbelow : ∀ c, c ∈ below ↔ fc.Below k c) :
    ∃ fc', fc.processUpdateOperations (fc.markOperations mark.operation below k) = some fc' ∧
      fc.SameTree fc' ∧ fc'.Cached [] ∧ BeingMarked mark fc' [] := by
  have hentries := fun e => hs.mem_entries_markOperations mark.isMark hbelow (e := e)
  have hmem : ∀ n, fc.Below k n → markedEntry mark.operation n ∈
      entries (fc.markOperations mark.operation below k) :=
    fun n hn => (hentries _).mpr (.inl ⟨n, hn, rfl⟩)
  have hmem' : ∀ n, IsAncestor fc.parent n k → aggregateEntry n ∈
      entries (fc.markOperations mark.operation below k) :=
    fun n hanc => (hentries _).mpr (.inr ⟨n, .inr hanc, rfl⟩)
  refine hcached.exists_processEntries_eq hs (hs.batch_markOperations mark.isMark hbelow)
    (fun hsame _ hbatch he h => h.step hs hm hk hsame hbatch ((hentries _).mp he))
    ⟨rfl, fun n => ?_, fun n => ⟨.inl, ?_⟩⟩
  · rw [Mark.latestAfter, if_neg fun hn => hn.2 (hmem n hn.1),
      if_neg fun hanc => hanc.2 (hmem' n hanc.1.2)]
  · rintro (hconf | ⟨⟨-, rfl⟩, hnot⟩ | ⟨hanc, hnot⟩)
    · exact hconf
    · exact absurd (hmem n refl) hnot
    · exact absurd (hmem' n hanc.2) hnot

end Mark

/-! ## Invalid marks -/

/-- What an invalid mark does. -/
structure InvalidMark (fc : HeaviestSubtreeForkChoice) (k : SlotHashKey)
    (fc' : HeaviestSubtreeForkChoice) : Prop where
  sameTree : fc.SameTree fc'
  cached : fc'.Cached []
  stakeVotedAt : fc'.stakeVotedAt = fc.stakeVotedAt
  confirmed : ∀ n, fc'.Confirmed n ↔ fc.Confirmed n
  below : ∀ n, fc.Below k n →
    fc'.latestInvalidAncestor n = remember k.slot (fc.latestInvalidAncestor n)
  other : ∀ n, ¬fc.Below k n → fc'.latestInvalidAncestor n = fc.latestInvalidAncestor n

/-- The nodes below a node that is not the default one. -/
theorem Shaped.exists_subtreeDiff_default_eq (hs : fc.Shaped) (hk : fc.Present k)
    (hne : k ≠ .default) :
    ∃ below, fc.subtreeDiff k .default = some below ∧ ∀ c, c ∈ below ↔ fc.Below k c := by
  obtain ⟨below, heq, -, hbelow⟩ := hs.exists_subtreeDiff_eq hk .default
  refine ⟨below, heq, fun c => ?_⟩
  rw [hbelow]
  refine and_iff_left fun hboth => ?_
  -- the slot of the default key is zero, so it is below itself only
  rcases isAncestorOrSelf_iff.mp hboth.1 with heq | hanc
  · exact hne heq
  · exact absurd (hs.slot_lt_of_isAncestor hanc) (Nat.not_lt_zero _)

theorem markForkInvalidCandidate_eq_of (hget : fc.get k = some info) (hconf : ¬fc.Confirmed k)
    (hdiff : fc.subtreeDiff k .default = some below)
    (hrun : fc.processUpdateOperations (fc.markOperations (.markInvalid k.slot) below k) =
      some fc') :
    fc.markForkInvalidCandidate k = some fc' := by
  unfold markForkInvalidCandidate
  rw [hget]
  dsimp only
  rwa [if_neg (mt (confirmed_iff hget).mpr hconf), hdiff]

/-- The mark of a node that is not confirmed as invalid. -/
def invalidMark (hm : fc.Marked) (hconf : ¬fc.Confirmed k) : Mark fc k where
  operation := .markInvalid k.slot
  latest := remember k.slot
  confirms := False
  isMark := rfl
  applied := by
    intro fc' n info hn hinfo
    -- a confirmed node would be below a confirmed one
    have hfree : ¬fc.Confirmed n := fun hc => hconf (hm.of_below hn hc)
    refine ⟨false, applied_markInvalid k.slot (Bool.eq_false_iff.mpr (mt hinfo.mp hfree)), ?_⟩
    simp [hfree]
  latest_none := fun hn hc => absurd (hm.of_below hn hc) hconf

variable (hm : fc.Marked) (hs : fc.Shaped) (hcached : fc.Cached []) (hk : fc.Present k)
  (hne : k ≠ .default)
include hm hs hcached hk hne in
/-- **An invalid mark for a node that is not confirmed returns.** -/
theorem Marked.exists_markForkInvalidCandidate_eq (hconf : ¬fc.Confirmed k) :
    ∃ fc', fc.markForkInvalidCandidate k = some fc' ∧ fc.InvalidMark k fc' := by
  obtain ⟨info, hget⟩ := hk
  obtain ⟨below, hdiff, hbelow⟩ := hs.exists_subtreeDiff_default_eq ⟨info, hget⟩ hne
  obtain ⟨fc', heq, hsame, hcached', hend⟩ :=
    (invalidMark hm hconf).exists_processUpdateOperations_eq hm hs hcached ⟨info, hget⟩ hbelow
  refine ⟨fc', markForkInvalidCandidate_eq_of hget hconf hdiff heq, hsame, hcached',
    hend.stakeVotedAt, fun n => ?_, fun n hn => ?_, fun n hn => ?_⟩
  · rw [hend.confirmed]
    simp [Mark.ConfirmedAfter, invalidMark]
  · rw [hend.latest, Mark.latestAfter, if_pos ⟨hn, not_mem_nil⟩]
    rfl
  · rw [hend.latest, Mark.latestAfter, if_neg fun hn' => hn hn'.1, if_neg fun hanc => hanc.1.1]

/-! ## Valid marks -/

/-- What a valid mark does. -/
structure ValidMark (fc : HeaviestSubtreeForkChoice) (k : SlotHashKey)
    (fc' : HeaviestSubtreeForkChoice) : Prop where
  sameTree : fc.SameTree fc'
  cached : fc'.Cached []
  stakeVotedAt : fc'.stakeVotedAt = fc.stakeVotedAt
  confirmed : ∀ n, fc'.Confirmed n ↔ fc.Confirmed n ∨ fc.Below n k
  below : ∀ n, fc.Below k n →
    fc'.latestInvalidAncestor n = forget k.slot (fc.latestInvalidAncestor n)
  above : ∀ n, IsAncestor fc.parent n k → fc'.latestInvalidAncestor n = none
  other : ∀ n, ¬fc.Below k n → ¬IsAncestor fc.parent n k →
    fc'.latestInvalidAncestor n = fc.latestInvalidAncestor n

theorem exists_filterM_eq {α : Type} {p : α → Option Bool} {keys : List α}
    (h : ∀ a ∈ keys, ∃ b, p a = some b) : ∃ found, keys.filterM p = some found := by
  suffices haux : ∀ done, ∃ found, keys.filterAuxM p done = some found by
    obtain ⟨found, hfound⟩ := haux []
    refine ⟨found.reverse, ?_⟩
    rw [List.filterM, hfound]
    rfl
  induction keys with
  | nil => exact fun done => ⟨done, rfl⟩
  | cons a rest ih =>
    intro done
    obtain ⟨b, hb⟩ := h a mem_cons_self
    obtain ⟨found, hfound⟩ := ih (fun a' ha' => h a' (mem_cons_of_mem _ ha'))
      (cond b (a :: done) done)
    refine ⟨found, ?_⟩
    rwa [List.filterAuxM, hb]

/-- The nodes that will be confirmed are found. -/
theorem Shaped.exists_unconfirmed_eq (hs : fc.Shaped) (hk : fc.Present k) :
    ∃ confirmed, (k :: fc.ancestorIterator k).filterM (fun ancestor =>
      (fc.isDuplicateConfirmed ancestor).map Bool.not) = some confirmed := by
  refine exists_filterM_eq fun a ha => ?_
  have hpresent : fc.Present a := by
    rcases mem_cons.mp ha with rfl | ha
    · exact hk
    · exact hs.present_of_isAncestor (hs.mem_ancestorIterator_iff.mp ha)
  obtain ⟨info, hget⟩ := hpresent
  refine ⟨!info.isDuplicateConfirmed, ?_⟩
  show ((fc.get a).map ForkInfo.isDuplicateConfirmed).map Bool.not = _
  rw [hget]
  rfl

theorem markForkValidCandidate_eq_of {confirmed : List SlotHashKey}
    (hconfirmed : (k :: fc.ancestorIterator k).filterM (fun ancestor =>
      (fc.isDuplicateConfirmed ancestor).map Bool.not) = some confirmed)
    (hdiff : fc.subtreeDiff k .default = some below)
    (hrun : fc.processUpdateOperations (fc.markOperations (.markValid k.slot) below k) = some fc') :
    fc.markForkValidCandidate k = some (confirmed, fc') := by
  have hrun' : fc.processUpdateOperations
      (fc.insertAggregateOperations (insertForAll (.markValid k.slot) ∅ below) k) =
      some fc' := hrun
  unfold markForkValidCandidate
  rw [hconfirmed, hdiff]
  dsimp only [bind_eq_bind, bind_some]
  rw [hrun']
  rfl

/-- The mark of a node as valid. -/
def validMark (hs : fc.Shaped) : Mark fc k where
  operation := .markValid k.slot
  latest := forget k.slot
  confirms := True
  isMark := rfl
  applied := by
    intro fc' n info hn hinfo
    have hself : n.slot = k.slot ↔ n = k := by
      refine ⟨fun hslot => ?_, fun heq => congrArg slot heq⟩
      rcases isAncestorOrSelf_iff.mp hn with heq | hanc
      · exact heq.symm
      · have hlt := hs.slot_lt_of_isAncestor hanc
        omega
    refine ⟨_, applied_markValid k.slot, ?_⟩
    rw [Bool.or_eq_true, hinfo, decide_eq_true_iff, hself, true_and]
  latest_none := fun _ _ => rfl

include hm hs hcached hk hne in
/-- **A valid mark returns.** -/
theorem Marked.exists_markForkValidCandidate_eq :
    ∃ confirmed fc', fc.markForkValidCandidate k = some (confirmed, fc') ∧ fc.ValidMark k fc' := by
  obtain ⟨confirmed, hconfirmed⟩ := hs.exists_unconfirmed_eq hk
  obtain ⟨below, hdiff, hbelow⟩ := hs.exists_subtreeDiff_default_eq hk hne
  obtain ⟨fc', heq, hsame, hcached', hend⟩ :=
    (validMark hs).exists_processUpdateOperations_eq hm hs hcached hk hbelow
  refine ⟨confirmed, fc', markForkValidCandidate_eq_of hconfirmed hdiff heq, hsame, hcached',
    hend.stakeVotedAt, fun n => ?_, fun n hn => ?_, fun n hanc => ?_, fun n hn hanc => ?_⟩
  · rw [hend.confirmed]
    refine or_congr_right (Iff.trans ?_ isAncestorOrSelf_iff.symm)
    simp [validMark]
  · rw [hend.latest, Mark.latestAfter, if_pos ⟨hn, not_mem_nil⟩]
    rfl
  · have hbelow : ¬fc.Below k n := by
      intro hn
      exact absurd (hs.slot_lt_of_isAncestor hanc) (not_lt.mpr (hs.slot_le hn))
    rw [hend.latest, Mark.latestAfter, if_neg fun hn => hbelow hn.1,
      if_pos ⟨⟨trivial, hanc⟩, not_mem_nil⟩]
  · rw [hend.latest, Mark.latestAfter, if_neg fun hn' => hn hn'.1,
      if_neg fun hanc' => hanc hanc'.1.2]

/-! ## The default key -/

/-- Only what is cached is different, and it is right. -/
structure Kept (fc fc' : HeaviestSubtreeForkChoice) : Prop where
  sameTree : fc.SameTree fc'
  cached : fc'.Cached []
  marked : fc'.Marked
  stakeVotedAt : fc'.stakeVotedAt = fc.stakeVotedAt

theorem InvalidMark.kept (h : fc.InvalidMark k fc') (hm : fc.Marked) (hs : fc.Shaped)
    (hconf : ¬fc.Confirmed k) : fc.Kept fc' := by
  refine ⟨h.sameTree, h.cached, ⟨?_, ?_, ?_⟩, h.stakeVotedAt⟩
  · intro c p hp hc
    rw [h.sameTree.parent] at hp
    exact (h.confirmed p).mpr (hm.up hp ((h.confirmed c).mp hc))
  · intro n hn
    have hn0 := (h.confirmed n).mp hn
    rw [h.other n fun hbelow => hconf (hm.of_below hbelow hn0)]
    exact hm.valid hn0
  · intro n a hn
    by_cases hbelow : fc.Below k n
    · have hle := hs.slot_le hbelow
      rw [h.below n hbelow, remember, some_inj] at hn
      cases hlatest : fc.latestInvalidAncestor n with
      | none =>
        rw [hlatest] at hn
        exact hn ▸ hle
      | some b =>
        rw [hlatest] at hn
        rw [← hn]
        exact max_le hle (hm.latest_le hlatest)
    · rw [h.other n hbelow] at hn
      exact hm.latest_le hn

theorem ValidMark.kept (h : fc.ValidMark k fc') (hm : fc.Marked) : fc.Kept fc' := by
  refine ⟨h.sameTree, h.cached, ⟨?_, ?_, ?_⟩, h.stakeVotedAt⟩
  · intro c p hp hc
    rw [h.sameTree.parent] at hp
    refine (h.confirmed p).mpr (((h.confirmed c).mp hc).imp (hm.up hp) fun hck => ?_)
    exact head hp hck
  · intro n hn
    rcases (h.confirmed n).mp hn with hn0 | hnk
    · by_cases hbelow : fc.Below k n
      · rw [h.below n hbelow, hm.valid hn0]
        rfl
      · by_cases hanc : IsAncestor fc.parent n k
        · exact h.above n hanc
        · rw [h.other n hbelow hanc]
          exact hm.valid hn0
    · rcases isAncestorOrSelf_iff.mp hnk with rfl | hanc
      · rw [h.below n refl]
        cases hlatest : fc.latestInvalidAncestor n with
        | none => rfl
        | some a => exact if_neg (by simpa using hm.latest_le hlatest)
      · exact h.above n hanc
  · intro n a hn
    by_cases hbelow : fc.Below k n
    · rw [h.below n hbelow] at hn
      exact hm.latest_le (filter_eq_some_iff.mp hn).1
    · by_cases hanc : IsAncestor fc.parent n k
      · rw [h.above n hanc] at hn
        cases hn
      · rw [h.other n hbelow hanc] at hn
        exact hm.latest_le hn

/-- No operations are collected for the default key, with slot zero. -/
theorem Shaped.markOperations_default (hs : fc.Shaped) (hk : fc.Present .default)
    (operation : UpdateOperation) :
    ∃ below, fc.subtreeDiff .default .default = some below ∧
      fc.markOperations operation below .default = ∅ := by
  obtain ⟨below, hdiff, -, hbelow⟩ := hs.exists_subtreeDiff_eq hk .default
  have hnil : below = [] := by
    refine eq_nil_iff_forall_not_mem.mpr fun c hc => ?_
    obtain ⟨hkc, hnot⟩ := (hbelow c).mp hc
    exact hnot ⟨refl, hkc⟩
  refine ⟨below, hdiff, ?_⟩
  rw [hnil]
  rfl

theorem processUpdateOperations_empty : fc.processUpdateOperations ∅ = some fc := by
  have hlist : (∅ : UpdateOperations).toList = [] := rfl
  unfold processUpdateOperations
  rw [hlist]
  rfl

include hm hs hcached in
/-- **An invalid mark returns for every key that is not confirmed, and keeps the cache right.** -/
theorem Marked.exists_invalid_kept (hconf : ¬fc.Confirmed k) :
    ∃ fc', fc.markForkInvalidCandidate k = some fc' ∧ fc.Kept fc' := by
  have hkept : fc.Kept fc := ⟨SameTree.refl fc, hcached, hm, rfl⟩
  cases hget : fc.get k with
  | none =>
    refine ⟨fc, ?_, hkept⟩
    unfold markForkInvalidCandidate
    rw [hget]
  | some info =>
    by_cases hne : k = .default
    · subst hne
      obtain ⟨below, hdiff, hempty⟩ := hs.markOperations_default ⟨info, hget⟩
        (.markInvalid default.slot)
      refine ⟨fc, markForkInvalidCandidate_eq_of hget hconf hdiff ?_, hkept⟩
      rw [hempty]
      exact processUpdateOperations_empty
    · obtain ⟨fc', heq, h⟩ :=
        hm.exists_markForkInvalidCandidate_eq hs hcached ⟨info, hget⟩ hne hconf
      exact ⟨fc', heq, h.kept hm hs hconf⟩

theorem Shaped.exists_markForkValidCandidate_default (hs : fc.Shaped) (hk : fc.Present .default) :
    ∃ confirmed, fc.markForkValidCandidate .default = some (confirmed, fc) := by
  obtain ⟨below, hdiff, hempty⟩ := hs.markOperations_default hk
    (.markValid default.slot)
  obtain ⟨confirmed, hconfirmed⟩ := hs.exists_unconfirmed_eq hk
  refine ⟨confirmed, markForkValidCandidate_eq_of hconfirmed hdiff ?_⟩
  rw [hempty]
  exact processUpdateOperations_empty

include hm hs hcached hk in
/-- **A valid mark returns for every node, and keeps the cache right.** -/
theorem Marked.exists_valid_kept :
    ∃ confirmed fc', fc.markForkValidCandidate k = some (confirmed, fc') ∧ fc.Kept fc' := by
  by_cases hne : k = .default
  · subst hne
    obtain ⟨confirmed, heq⟩ := hs.exists_markForkValidCandidate_default hk
    exact ⟨confirmed, fc, heq, SameTree.refl fc, hcached, hm, rfl⟩
  · obtain ⟨confirmed, fc', heq, h⟩ := hm.exists_markForkValidCandidate_eq hs hcached hk hne
    exact ⟨confirmed, fc', heq, h.kept hm⟩

end FlowraValidator.Consensus.HeaviestSubtreeForkChoice
