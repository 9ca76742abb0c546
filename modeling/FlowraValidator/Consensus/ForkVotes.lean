import FlowraValidator.Consensus.ForkMarks

/-!
# Votes

New votes are turned into a map of operations: the stake of a validator is subtracted from its
latest vote and added to the new one, and the nodes above both are aggregated. While the operations
are collected, two balances are kept for each node. The stake cached at the node and the stake to
be added are the stake of the validators whose latest vote it is and the stake to be subtracted.
And the stake to be subtracted is covered by what is cached, even with the stake of the validators
that have not been looked at yet; this is why a subtraction does not underflow.

* `tally`: the stake of the validators whose latest vote is a node.
* `Collected`: operations that are closed under parents.
* `Balanced`: the two balances.
* `exists_addVotes_eq`: votes of different validators are added, and what is cached is right.
-/

namespace FlowraValidator.Consensus
open OrdMap List Option Relation

/-- The stake of the validators whose latest vote is the node. -/
def tally (es : EpochStakes) (latestVotes : OrdMap Pubkey SlotHashKey) (n : SlotHashKey) : ℕ :=
  total latestVotes fun pubkey vote => if vote = n then es.stakeAt pubkey vote.slot else 0

/-- The same, without the validators that have been looked at. -/
def unseenTally (es : EpochStakes) (latestVotes : OrdMap Pubkey SlotHashKey)
    (observed : List Pubkey) (n : SlotHashKey) : ℕ :=
  total latestVotes fun pubkey vote =>
    if vote = n ∧ pubkey ∉ observed then es.stakeAt pubkey vote.slot else 0

/-- The stake that an operation adds to a node. -/
def addedBy (n : SlotHashKey) (x : UpdateKey) : UpdateOperation → ℕ
  | .add stake => if x.key = n then stake else 0
  | _ => 0

/-- The stake that an operation subtracts from a node. -/
def subtractedBy (n : SlotHashKey) (x : UpdateKey) : UpdateOperation → ℕ
  | .subtract stake => if x.key = n then stake else 0
  | _ => 0

namespace HeaviestSubtreeForkChoice
open Forest UpdateOperations

variable {fc fc' : HeaviestSubtreeForkChoice} {operations : UpdateOperations}
  {k n p : SlotHashKey} {info : ForkInfo} {votes : List (Pubkey × SlotHashKey)}

/-! ## Collected operations -/

/-- Operations that are kept under their labels, mark nothing, and are closed under parents. -/
structure Collected (fc : HeaviestSubtreeForkChoice) (operations : UpdateOperations) : Prop where
  labelled : Labelled operations
  unmarked : ∀ (x : UpdateKey) (operation : UpdateOperation), operations[x]? = some operation →
    operation.isMark = false
  up : ∀ (x : UpdateKey) (operation : UpdateOperation), operations[x]? = some operation →
    ∀ p, fc.parent x.key = some p → Aggregates operations p

theorem collected_empty : fc.Collected ∅ := by
  have hget : ∀ x : UpdateKey, (∅ : UpdateOperations)[x]? = none :=
    fun x => Std.ExtTreeMap.getElem?_empty
  refine ⟨fun x operation h => ?_, fun x operation h => ?_, fun x operation h => ?_⟩ <;>
    cases (hget x).symm.trans h

theorem Collected.batch (h : fc.Collected operations) : Batch fc.parent (entries operations) :=
  batch_entries h.labelled h.up fun x operation hget hmark =>
    absurd ((h.unmarked x operation hget).symm.trans hmark) Bool.false_ne_true

/-- Nodes above one that is aggregated are aggregated. -/
theorem Collected.aggregates_of_isAncestor (h : fc.Collected operations)
    (hanc : IsAncestor fc.parent p k) (hagg : Aggregates operations k) :
    Aggregates operations p := by
  induction hanc with
  | single hp => exact h.up _ _ hagg _ hp
  | tail _ hp ih => exact ih (h.up _ _ hagg _ hp)

/-- The loop over the nodes above changes no sum to which aggregations do not contribute. -/
theorem total_insertAcross {f : UpdateKey → UpdateOperation → ℕ} (hf : ∀ x, f x .aggregate = 0)
    (keys : List SlotHashKey) :
    total (insertAcross none operations keys) f = total operations f := by
  induction keys generalizing operations with
  | nil => rfl
  | cons a rest ih =>
    rw [insertAcross]
    unfold doInsertAggregateOperation
    dsimp only
    by_cases hsome : operations[(⟨a, .aggregate⟩ : UpdateKey)]?.isSome = true
    · rw [if_pos hsome]
    · rw [if_neg hsome]
      rw [ih]
      have hnone : operations[(⟨a, .aggregate⟩ : UpdateKey)]? = none := by
        rwa [not_isSome_iff_eq_none] at hsome
      have htotal := total_insert operations ⟨a, .aggregate⟩ f .aggregate
      rwa [hnone, hf] at htotal

/-- Adding or subtracting a stake. -/
structure IsStake (mk : ℕ → UpdateOperation) : Prop where
  label : ∀ a b, (mk a).label = (mk b).label
  unmarked : ∀ a, (mk a).isMark = false
  ne_aggregate : ∀ a, (mk a).label ≠ .aggregate
  exists_eq : ∀ operation : UpdateOperation, operation.label = (mk 0).label → ∃ a, operation = mk a
  updateStake : ∀ a b, (mk a).updateStake b = some (mk (a + b))

theorem isStake_add : IsStake .add := by
  refine ⟨fun _ _ => rfl, fun _ => rfl, fun _ => UpdateLabel.noConfusion, ?_, fun _ _ => rfl⟩
  intro operation h
  cases operation with
  | add stake => exact ⟨stake, rfl⟩
  | _ => exact absurd h (by simp [UpdateOperation.label])

theorem isStake_subtract : IsStake .subtract := by
  refine ⟨fun _ _ => rfl, fun _ => rfl, fun _ => UpdateLabel.noConfusion, ?_, fun _ _ => rfl⟩
  intro operation h
  cases operation with
  | subtract stake => exact ⟨stake, rfl⟩
  | _ => exact absurd h (by simp [UpdateOperation.label])

section InsertStake
variable {mk : ℕ → UpdateOperation} (hmk : IsStake mk)
include hmk
/-- A stake is put into the map, with a stake that is there already. -/
theorem exists_insertStake_eq (hlabel : Labelled operations) (k : SlotHashKey) (stake : ℕ) :
    ∃ old, operations[(⟨k, (mk 0).label⟩ : UpdateKey)]?.getD (mk 0) = mk old ∧
      insertStake operations ⟨k, (mk 0).label⟩ stake (mk stake) =
        some (operations.insert ⟨k, (mk 0).label⟩ (mk (old + stake))) := by
  rw [insertStake]
  cases hget : operations[(⟨k, (mk 0).label⟩ : UpdateKey)]? with
  | none =>
    refine ⟨0, rfl, ?_⟩
    rw [Nat.zero_add]
  | some operation =>
    obtain ⟨old, rfl⟩ := hmk.exists_eq operation (hlabel _ _ hget)
    refine ⟨old, rfl, ?_⟩
    dsimp only
    rw [hmk.updateStake]
    rfl

/-- **A stake and the nodes above.**  The operations stay closed, and one stake grows. -/
theorem Collected.exists_insertStake (h : fc.Collected operations) (hs : fc.Shaped)
    (k : SlotHashKey) (stake : ℕ) :
    ∃ operations', insertStake operations ⟨k, (mk 0).label⟩ stake (mk stake) = some operations' ∧
      fc.Collected (fc.insertAggregateOperations operations' k) ∧
      ∀ (f : UpdateKey → UpdateOperation → ℕ) (P : SlotHashKey → Prop) [DecidablePred P],
        (∀ x, f x .aggregate = 0) → (∀ x a, f x (mk a) = if P x.key then a else 0) →
        total (fc.insertAggregateOperations operations' k) f =
          total operations f + if P k then stake else 0 := by
  obtain ⟨old, hold, heq⟩ := exists_insertStake_eq hmk h.labelled k stake
  set operations' := operations.insert ⟨k, (mk 0).label⟩ (mk (old + stake)) with hdef
  have hget : ∀ x : UpdateKey, operations'[x]? =
      if (⟨k, (mk 0).label⟩ : UpdateKey) = x then some (mk (old + stake)) else operations[x]? :=
    fun x => get_insert operations _ x _
  have hlabel : Labelled operations' := by
    rw [hdef, hmk.label 0 (old + stake)]
    exact labelled_insert h.labelled k (mk (old + stake))
  have hagg : ∀ a, Aggregates operations' a ↔ Aggregates operations a := by
    intro a
    unfold Aggregates
    rw [hget, if_neg]
    intro hkey
    exact hmk.ne_aggregate 0 (congrArg UpdateKey.label hkey)
  have hclosed : (fc.ancestorIterator k).Pairwise fun a b =>
      Aggregates operations' a → Aggregates operations' b := by
    refine (pairwise_ancestors k.slot k).imp fun {a b} hanc ha => ?_
    exact (hagg b).mpr (h.aggregates_of_isAncestor hanc ((hagg a).mp ha))
  have hacross : ∀ x : UpdateKey, (fc.insertAggregateOperations operations' k)[x]? =
      if x.label = .aggregate ∧ x.key ∈ fc.ancestorIterator k then some .aggregate
      else operations'[x]? :=
    fun x => get_insertAcross hlabel (hs.nodup_ancestorIterator k) hclosed x
  -- nothing that is aggregated is forgotten
  have hkeep : ∀ a, Aggregates operations a ∨ IsAncestor fc.parent a k →
      Aggregates (fc.insertAggregateOperations operations' k) a := by
    intro a ha
    unfold Aggregates
    rw [hacross]
    split_ifs with hanc
    · rfl
    · refine (hagg a).mpr (ha.resolve_right fun hanc' => hanc ⟨rfl, ?_⟩)
      exact hs.mem_ancestorIterator_iff.mpr hanc'
  refine ⟨operations', heq, ⟨?_, ?_, ?_⟩, fun f P _ hf hP => ?_⟩
  · intro x operation hx
    rw [hacross] at hx
    split_ifs at hx with hanc
    · cases hx
      exact hanc.1.symm
    · exact hlabel x operation hx
  · intro x operation hx
    rw [hacross, hget] at hx
    split_ifs at hx with hanc hkey
    · cases hx
      rfl
    · cases hx
      exact hmk.unmarked _
    · exact h.unmarked x operation hx
  · intro x operation hx q hq
    rw [hacross, hget] at hx
    split_ifs at hx with hanc hkey
    · refine hkeep q (.inr ?_)
      exact TransGen.head hq (hs.mem_ancestorIterator_iff.mp hanc.2)
    · rw [← hkey] at hq
      exact hkeep q (.inr (TransGen.single hq))
    · exact hkeep q (.inl (h.up x operation hx q hq))
  · have htotal := total_insert operations ⟨k, (mk 0).label⟩ f (mk (old + stake))
    have hsame : total (fc.insertAggregateOperations operations' k) f =
        total operations' f := total_insertAcross hf _
    have hprevious : operations[(⟨k, (mk 0).label⟩ : UpdateKey)]?.elim 0
        (f ⟨k, (mk 0).label⟩) = f ⟨k, (mk 0).label⟩ (mk old) := by
      rw [← hold]
      cases operations[(⟨k, (mk 0).label⟩ : UpdateKey)]? with
      | none => exact ((hP _ 0).trans (ite_self 0)).symm
      | some operation => rfl
    simp only [hprevious, hP] at htotal
    rw [hsame, hdef]
    split_ifs at htotal ⊢ <;> omega

end InsertStake

/-! ## The loop over the votes -/

/-- The tree with other latest votes. -/
def withVotes (fc : HeaviestSubtreeForkChoice) (latestVotes : OrdMap Pubkey SlotHashKey) :
    HeaviestSubtreeForkChoice :=
  { fc with latestVotes := latestVotes }

/-- The latest votes after one more vote. -/
def recordVote (treeRoot : SlotHashKey) (latestVotes : OrdMap Pubkey SlotHashKey)
    (vote : Pubkey × SlotHashKey) : OrdMap Pubkey SlotHashKey :=
  if vote.2.slot < treeRoot.slot ∨ isOutdated latestVotes[vote.1]? vote.2 = true then latestVotes
  else latestVotes.insert vote.1 vote.2

/-- What is to be added and subtracted makes up for the difference between the cached stakes and the
latest votes, and the stake to be subtracted is there. -/
structure Balanced (fc : HeaviestSubtreeForkChoice) (es : EpochStakes)
    (latestVotes : OrdMap Pubkey SlotHashKey) (observed : List Pubkey)
    (operations : UpdateOperations) : Prop where
  balance : ∀ {n info}, fc.get n = some info →
    info.stakeVotedAt + total operations (addedBy n) =
      tally es latestVotes n + total operations (subtractedBy n)
  enough : ∀ {n info}, fc.get n = some info →
    total operations (subtractedBy n) + unseenTally es latestVotes observed n ≤ info.stakeVotedAt

section Loop
variable {es : EpochStakes} {latestVotes : OrdMap Pubkey SlotHashKey} {observed : List Pubkey}
  {pubkey : Pubkey} {vote : SlotHashKey}

/-- A validator that has been looked at does not count any more. -/
theorem unseenTally_cons (es : EpochStakes) (latestVotes : OrdMap Pubkey SlotHashKey)
    (n : SlotHashKey) (hnew : pubkey ∉ observed) :
    unseenTally es latestVotes (pubkey :: observed) n +
      latestVotes[pubkey]?.elim 0 (fun old => if old = n then es.stakeAt pubkey old.slot else 0) =
    unseenTally es latestVotes observed n := by
  have hcongr := total_congr_except latestVotes pubkey
    (f := fun pubkey' vote => if vote = n ∧ pubkey' ∉ pubkey :: observed then
      es.stakeAt pubkey' vote.slot else 0)
    (g := fun pubkey' vote => if vote = n ∧ pubkey' ∉ observed then
      es.stakeAt pubkey' vote.slot else 0)
    (by
      intro pubkey' hne vote
      simp only [mem_cons, hne, false_or])
  simp only [hnew, not_false_eq_true, and_true, mem_cons_self, not_true_eq_false,
    and_false, if_false] at hcongr
  unfold unseenTally
  rw [hcongr]
  cases latestVotes[pubkey]? <;> rfl

theorem unseenTally_cons_insert (es : EpochStakes) (latestVotes : OrdMap Pubkey SlotHashKey)
    (observed : List Pubkey) (n : SlotHashKey) (pubkey : Pubkey) (vote : SlotHashKey) :
    unseenTally es (latestVotes.insert pubkey vote) (pubkey :: observed) n =
      unseenTally es latestVotes (pubkey :: observed) n := by
  have htotal := total_insert latestVotes pubkey
    (fun pubkey' vote => if vote = n ∧ pubkey' ∉ pubkey :: observed then
      es.stakeAt pubkey' vote.slot else 0) vote
  simp only [mem_cons_self, not_true_eq_false, and_false, if_false] at htotal
  unfold unseenTally
  rw [Nat.add_zero] at htotal
  rw [← htotal]
  cases latestVotes[pubkey]? <;> rfl

variable (h : fc.Collected operations) (hs : fc.Shaped)
include h hs in
/-- The latest vote of a validator, if there is one. -/
theorem Collected.exists_subtractLatest (es : EpochStakes) (pubkey : Pubkey)
    {latest : Option SlotHashKey} (hnew : ¬isOutdated latest vote = true) :
    ∃ operations', fc.subtractLatest es pubkey vote operations latest = some operations' ∧
      fc.Collected operations' ∧
      (∀ n, total operations' (subtractedBy n) =
        total operations (subtractedBy n) +
          latest.elim 0 (fun old => if old = n then es.stakeAt pubkey old.slot else 0)) ∧
      ∀ n, total operations' (addedBy n) = total operations (addedBy n) := by
  cases latest with
  | none => exact ⟨operations, rfl, h, fun _ => rfl, fun _ => rfl⟩
  | some old =>
    have hassert : if vote.slot = old.slot then vote.hash < old.hash else vote.slot > old.slot := by
      simp only [isOutdated, decide_eq_true_eq] at hnew
      split_ifs with hslot <;> omega
    rw [subtractLatest, if_pos hassert]
    by_cases hpos : es.stakeAt pubkey old.slot > 0
    · obtain ⟨operations', heq, hcoll, htotal⟩ :=
        h.exists_insertStake isStake_subtract hs old (es.stakeAt pubkey old.slot)
      refine ⟨fc.insertAggregateOperations operations' old, ?_, hcoll,
        fun n => htotal (subtractedBy n) (· = n) (fun _ => rfl) fun _ _ => rfl,
        fun n => htotal (addedBy n) (fun _ => False) (fun _ => rfl) fun _ _ => rfl⟩
      rw [if_pos hpos]
      exact congrArg (Option.map _) heq
    · refine ⟨operations, if_neg hpos, h, fun n => ?_, fun _ => rfl⟩
      have hzero : es.stakeAt pubkey old.slot = 0 := by omega
      show _ = _ + if old = n then es.stakeAt pubkey old.slot else 0
      rw [hzero, ite_self, Nat.add_zero]

/-- A vote that is not counted. -/
theorem Balanced.skip (h : fc.Balanced es latestVotes observed operations)
    (hnew : pubkey ∉ observed) : fc.Balanced es latestVotes (pubkey :: observed) operations := by
  refine ⟨h.balance, fun {n info} hget => ?_⟩
  have henough := h.enough hget
  have hcons := unseenTally_cons es latestVotes n hnew
  omega

/-- A vote that is counted. -/
theorem Balanced.count {operations' : UpdateOperations}
    (h : fc.Balanced es latestVotes observed operations) (hnew : pubkey ∉ observed)
    (hadd : ∀ n, total operations' (addedBy n) =
      total operations (addedBy n) + if vote = n then es.stakeAt pubkey vote.slot else 0)
    (hsub : ∀ n, total operations' (subtractedBy n) =
      total operations (subtractedBy n) + latestVotes[pubkey]?.elim 0
        (fun old => if old = n then es.stakeAt pubkey old.slot else 0)) :
    fc.Balanced es (latestVotes.insert pubkey vote) (pubkey :: observed) operations' := by
  refine ⟨fun {n info} hget => ?_, fun {n info} hget => ?_⟩
  · have hbalance := h.balance hget
    have htally : tally es (latestVotes.insert pubkey vote) n + _ = tally es latestVotes n + _ :=
      total_insert latestVotes pubkey _ vote
    have haddn := hadd n
    have hsubn := hsub n
    omega
  · have henough := h.enough hget
    have hcons := unseenTally_cons es latestVotes n hnew
    have hinsert := unseenTally_cons_insert es latestVotes observed n pubkey vote
    have hsubn := hsub n
    omega

include h hs in
/-- **The loop over votes of different validators.** -/
theorem Collected.exists_generateLoop_eq (hbal : fc.Balanced es latestVotes observed operations)
    (hnodup : (votes.map Prod.fst).Nodup) (hnew : ∀ v ∈ votes, v.1 ∉ observed) :
    ∃ operations' observed', generateLoop es (fc.withVotes latestVotes) observed operations votes =
        some (fc.withVotes (votes.foldl (recordVote fc.treeRoot) latestVotes), operations') ∧
      fc.Collected operations' ∧
      fc.Balanced es (votes.foldl (recordVote fc.treeRoot) latestVotes) observed' operations' := by
  induction votes generalizing latestVotes observed operations with
  | nil => exact ⟨operations, observed, rfl, h, hbal⟩
  | cons v rest ih =>
    obtain ⟨pubkey, vote⟩ := v
    obtain ⟨hfirst, hnodup'⟩ := nodup_cons.mp hnodup
    have hpubkey : pubkey ∉ observed := hnew (pubkey, vote) mem_cons_self
    have hrest : ∀ v ∈ rest, v.1 ∉ observed := fun v hv => hnew v (mem_cons_of_mem _ hv)
    have hrest' : ∀ v ∈ rest, v.1 ∉ pubkey :: observed := by
      intro v hv hmem
      rcases mem_cons.mp hmem with heq | hmem
      · exact hfirst (mem_map.mpr ⟨v, hv, heq⟩)
      · exact hrest v hv hmem
    rw [generateLoop, foldl_cons]
    have htree : (fc.withVotes latestVotes).treeRoot = fc.treeRoot := rfl
    have hlatest : (fc.withVotes latestVotes).latestVotes = latestVotes := rfl
    rw [htree, hlatest, recordVote]
    by_cases hroot : vote.slot < fc.treeRoot.slot
    · rw [if_pos hroot, if_pos (.inl hroot)]
      exact ih h hbal hnodup' hrest
    · rw [if_neg hroot, if_neg hpubkey]
      by_cases hout : isOutdated latestVotes[pubkey]? vote = true
      · rw [if_pos hout, if_pos (.inr hout)]
        exact ih h (hbal.skip hpubkey) hnodup' hrest'
      · rw [if_neg hout, if_neg (not_or.mpr ⟨hroot, hout⟩)]
        obtain ⟨operations1, heq1, hcoll1, hsub1, hadd1⟩ :=
          h.exists_subtractLatest hs es pubkey hout
        obtain ⟨operations2, heq2, hcoll2, htotal⟩ :=
          hcoll1.exists_insertStake isStake_add hs vote (es.stakeAt pubkey vote.slot)
        have hbal2 : fc.Balanced es (latestVotes.insert pubkey vote) (pubkey :: observed)
            (fc.insertAggregateOperations operations2 vote) := by
          refine hbal.count hpubkey (fun n => ?_) fun n => ?_
          · rw [htotal (addedBy n) (· = n) (fun _ => rfl) fun _ _ => rfl, hadd1]
          · rw [← hsub1]
            exact htotal (subtractedBy n) (fun _ => False) (fun _ => rfl) fun _ _ => rfl
        obtain ⟨operations', observed', heq', hcoll', hbal'⟩ := ih hcoll2 hbal2 hnodup' hrest'
        refine ⟨operations', observed', ?_, hcoll', hbal'⟩
        have heq1' : (fc.withVotes (latestVotes.insert pubkey vote)).subtractLatest es pubkey vote
            operations latestVotes[pubkey]? = some operations1 := heq1
        show (HeaviestSubtreeForkChoice.subtractLatest
          (fc.withVotes (latestVotes.insert pubkey vote)) es pubkey vote operations
          latestVotes[pubkey]?).bind _ = _
        rw [heq1']
        dsimp only [bind_eq_bind, bind_some]
        exact (congrArg (Option.bind · _) heq2).trans heq'

end Loop

/-! ## Applying the operations -/

/-- The stake that the operations add to a node. -/
def addedSum (entries : List (UpdateKey × UpdateOperation)) (n : SlotHashKey) : ℕ :=
  (entries.map fun e => addedBy n e.1 e.2).sum

/-- The stake that the operations subtract from a node. -/
def subtractedSum (entries : List (UpdateKey × UpdateOperation)) (n : SlotHashKey) : ℕ :=
  (entries.map fun e => subtractedBy n e.1 e.2).sum

theorem addedSum_entries (operations : UpdateOperations) (n : SlotHashKey) :
    addedSum (entries operations) n = total operations (addedBy n) := by
  rw [addedSum, entries, map_reverse, sum_reverse]
  rfl

theorem subtractedSum_entries (operations : UpdateOperations) (n : SlotHashKey) :
    subtractedSum (entries operations) n = total operations (subtractedBy n) := by
  rw [subtractedSum, entries, map_reverse, sum_reverse]
  rfl

/-- Votes are being counted: the operations that are left lead to the target, and nothing is
marked. -/
structure Counting (fc₀ : HeaviestSubtreeForkChoice) (target : SlotHashKey → ℕ)
    (fc : HeaviestSubtreeForkChoice) (rest : List (UpdateKey × UpdateOperation)) : Prop where
  balance : ∀ {n info}, fc.get n = some info →
    info.stakeVotedAt + addedSum rest n = target n + subtractedSum rest n
  enough : ∀ {n info}, fc.get n = some info → subtractedSum rest n ≤ info.stakeVotedAt
  confirmed : ∀ n, fc.Confirmed n ↔ fc₀.Confirmed n
  latest : fc.latestInvalidAncestor = fc₀.latestInvalidAncestor

section Counting
variable {fc₀ : HeaviestSubtreeForkChoice} {target : SlotHashKey → ℕ}
  {e : UpdateKey × UpdateOperation} {rest : List (UpdateKey × UpdateOperation)} {info' : ForkInfo}
  {operation : UpdateOperation} {x : UpdateKey}

theorem addedSum_cons (n : SlotHashKey) :
    addedSum (e :: rest) n = addedBy n e.1 e.2 + addedSum rest n := by
  rw [addedSum, map_cons, sum_cons]
  rfl

theorem subtractedSum_cons (n : SlotHashKey) :
    subtractedSum (e :: rest) n = subtractedBy n e.1 e.2 + subtractedSum rest n := by
  rw [subtractedSum, map_cons, sum_cons]
  rfl

theorem addedBy_of_ne (hne : x.key ≠ n) : addedBy n x operation = 0 := by
  cases operation with
  | add stake => exact if_neg hne
  | _ => rfl

theorem subtractedBy_of_ne (hne : x.key ≠ n) : subtractedBy n x operation = 0 := by
  cases operation with
  | subtract stake => exact if_neg hne
  | _ => rfl

/-- An operation changes nothing for the other nodes. -/
theorem Counting.other (h : Counting fc₀ target fc (e :: rest)) (hget : fc.get n = some info)
    (hne : e.1.key ≠ n) :
    info.stakeVotedAt + addedSum rest n = target n + subtractedSum rest n ∧
      subtractedSum rest n ≤ info.stakeVotedAt := by
  have hbalance := h.balance hget
  have henough := h.enough hget
  rw [addedSum_cons, subtractedSum_cons, addedBy_of_ne hne, subtractedBy_of_ne hne] at hbalance
  rw [subtractedSum_cons, subtractedBy_of_ne hne] at henough
  exact ⟨by omega, by omega⟩

/-- The node of an operation is replaced. -/
theorem Counting.setInfo (h : Counting fc₀ target fc (e :: rest))
    (hget : fc.get e.1.key = some info)
    (hbalance : info'.stakeVotedAt + addedSum rest e.1.key =
      target e.1.key + subtractedSum rest e.1.key)
    (henough : subtractedSum rest e.1.key ≤ info'.stakeVotedAt)
    (hlatest : info'.latestInvalidAncestor = info.latestInvalidAncestor)
    (hconf : info'.isDuplicateConfirmed = info.isDuplicateConfirmed) :
    Counting fc₀ target (fc.setInfo e.1.key info') rest := by
  refine ⟨fun {n info1} hget1 => ?_, fun {n info1} hget1 => ?_, fun n => ?_, ?_⟩
  · rw [get_setInfo hget] at hget1
    split_ifs at hget1 with heq
    · cases hget1
      rwa [← heq]
    · exact (h.other hget1 heq).1
  · rw [get_setInfo hget] at hget1
    split_ifs at hget1 with heq
    · cases hget1
      rwa [← heq]
    · exact (h.other hget1 heq).2
  · rw [confirmed_setInfo_same hget hconf]
    exact h.confirmed n
  · rw [latestInvalidAncestor_setInfo_same hget hlatest]
    exact h.latest

/-- **One operation.** -/
theorem Counting.step (hs : fc₀.Shaped) (hm : fc₀.Marked) (hsame : fc₀.SameTree fc)
    (hcached : fc.Cached (e :: rest)) (hmark : e.2.isMark = false)
    (h : Counting fc₀ target fc (e :: rest)) :
    ∃ fc', fc.processOperation e.1.key e.2 = some fc' ∧ Counting fc₀ target fc' rest := by
  cases hget : fc.get e.1.key with
  | none =>
    refine ⟨fc, processOperation_of_none hget _, fun {n info} hn => ?_, fun {n info} hn => ?_,
      h.confirmed, h.latest⟩
    · have hne : e.1.key ≠ n := fun heq => by
        rw [heq, hn] at hget
        cases hget
      exact (h.other hn hne).1
    · have hne : e.1.key ≠ n := fun heq => by
        rw [heq, hn] at hget
        cases hget
      exact (h.other hn hne).2
  | some info =>
    have hbalance := h.balance hget
    have henough := h.enough hget
    have hle := hcached.own_le hget
    rw [addedSum_cons, subtractedSum_cons] at hbalance
    rw [subtractedSum_cons] at henough
    rw [processOperation_of_some hget]
    cases hop : e.2 with
    | add stake =>
      rw [hop] at hbalance henough
      simp only [addedBy, subtractedBy, if_true] at hbalance henough
      refine ⟨_, rfl, h.setInfo hget ?_ ?_ rfl rfl⟩
      · dsimp only
        omega
      · dsimp only
        omega
    | subtract stake =>
      rw [hop] at hbalance henough
      simp only [addedBy, subtractedBy, if_true] at hbalance henough
      have hfits : stake ≤ info.stakeVotedAt ∧ stake ≤ info.stakeVotedSubtree := by omega
      simp only [applied, if_pos hfits]
      refine ⟨_, rfl, h.setInfo hget ?_ ?_ rfl rfl⟩
      · dsimp only
        omega
      · dsimp only
        omega
    | markValid slot | markInvalid slot =>
      rw [hop] at hmark
      exact absurd hmark Bool.noConfusion
    | aggregate =>
      rw [hop] at hbalance henough
      simp only [addedBy, subtractedBy] at hbalance henough
      have hup : ∀ c, fc.parent c = some e.1.key → fc.Confirmed c →
          fc.Confirmed e.1.key ∧ fc.latestInvalidAncestor e.1.key = none := by
        intro c hp hc
        rw [hsame.parent] at hp
        have hc0 := hm.up hp ((h.confirmed c).mp hc)
        refine ⟨(h.confirmed _).mpr hc0, ?_⟩
        rw [h.latest]
        exact hm.valid hc0
      obtain ⟨info', happ, hat, hlatest, hconf⟩ :=
        (hsame.shaped hs).exists_aggregate_unmarked hget hup
      rw [happ]
      refine ⟨_, rfl, h.setInfo hget ?_ ?_ hlatest hconf⟩
      · rw [hat]
        omega
      · rw [hat]
        omega

end Counting

/-! ## Adding votes -/

/-- The stake cached at a node is that of the validators whose latest vote it is. -/
def Counted (es : EpochStakes) (fc : HeaviestSubtreeForkChoice) : Prop :=
  ∀ {n info}, fc.get n = some info → info.stakeVotedAt = tally es fc.latestVotes n

/-- What is cached does not depend on the latest votes. -/
theorem Cached.withVotes (h : fc.Cached []) (latestVotes : OrdMap Pubkey SlotHashKey) :
    (fc.withVotes latestVotes).Cached [] := by
  refine ⟨fun n => .inl fun info hget => ?_, h.best_below, h.own_le⟩
  have hset : fc.Settled n info := h.settled hget
  exact hset.congr fun c _ => rfl

theorem Marked.withVotes (h : fc.Marked) (latestVotes : OrdMap Pubkey SlotHashKey) :
    (fc.withVotes latestVotes).Marked :=
  ⟨h.up, h.valid, h.latest_le⟩

/-- What new votes do. -/
structure VotesAdded (es : EpochStakes) (fc : HeaviestSubtreeForkChoice)
    (votes : List (Pubkey × SlotHashKey)) (fc' : HeaviestSubtreeForkChoice) : Prop where
  sameTree : (fc.withVotes (votes.foldl (recordVote fc.treeRoot) fc.latestVotes)).SameTree fc'
  cached : fc'.Cached []
  counted : Counted es fc'
  confirmed : ∀ n, fc'.Confirmed n ↔ fc.Confirmed n
  latest : fc'.latestInvalidAncestor = fc.latestInvalidAncestor

/-- **Votes of different validators are added.** -/
theorem Marked.exists_addVotes_eq (hm : fc.Marked) (hs : fc.Shaped) (hcached : fc.Cached [])
    {es : EpochStakes} (hcounted : Counted es fc) (hnodup : (votes.map Prod.fst).Nodup) :
    ∃ fc' best, fc.addVotes es votes = some (fc', best) ∧ VotesAdded es fc votes fc' := by
  have hzero : ∀ f, total (∅ : UpdateOperations) f = 0 := fun f => rfl
  have hstart : fc.Balanced es fc.latestVotes [] ∅ := by
    refine ⟨fun {n info} hget => ?_, fun {n info} hget => ?_⟩
    · rw [hzero, hzero, hcounted hget]
    · have hall : unseenTally es fc.latestVotes [] n = tally es fc.latestVotes n := by
        simp only [unseenTally, tally, not_mem_nil, not_false_eq_true, and_true]
      rw [hzero, hall, hcounted hget, Nat.zero_add]
  obtain ⟨operations, observed, hgenerate, hcoll, hbal⟩ :=
    collected_empty.exists_generateLoop_eq hs hstart hnodup fun _ _ => not_mem_nil
  set latestVotes := votes.foldl (recordVote fc.treeRoot) fc.latestVotes
  have hs1 : (fc.withVotes latestVotes).Shaped := hs
  have hm1 := hm.withVotes latestVotes
  have hcount : Counting (fc.withVotes latestVotes) (tally es latestVotes)
      (fc.withVotes latestVotes) (entries operations) := by
    refine ⟨fun {n info} hget => ?_, fun {n info} hget => ?_, fun _ => Iff.rfl, rfl⟩
    · rw [addedSum_entries, subtractedSum_entries]
      exact hbal.balance hget
    · rw [subtractedSum_entries]
      exact (Nat.le_add_right _ _).trans (hbal.enough hget)
  obtain ⟨fc', hprocess, hsame, hcached', hend⟩ :=
    (hcached.withVotes latestVotes).exists_processEntries_eq hs1 hcoll.batch
      (fun hsame hcached1 _ hmem h => h.step hs1 hm1 hsame hcached1
        (hcoll.unmarked _ _ (mem_entries_iff.mp hmem))) hcount
  obtain ⟨info, hget⟩ := (hsame.shaped hs1).root_present
  refine ⟨fc', info.bestSlot, ?_, hsame, hcached', ?_, hend.confirmed, hend.latest⟩
  · have hgenerate' : fc.generateUpdateOperations es votes =
        some (fc.withVotes latestVotes, operations) := hgenerate
    have hprocess' : (fc.withVotes latestVotes).processUpdateOperations operations =
        some fc' := hprocess
    have hbest : fc'.bestOverallSlot = some info.bestSlot := by
      show (fc'.get fc'.treeRoot).map ForkInfo.bestSlot = _
      rw [hget]
      rfl
    rw [addVotes, hgenerate']
    dsimp only [bind_eq_bind, bind_some]
    rw [hprocess']
    dsimp only [bind_some]
    rw [hbest]
    rfl
  · intro n info hget
    have hbalance := hend.balance hget
    have hvotes : fc'.latestVotes = latestVotes := hsame.latestVotes
    rwa [hvotes]

end HeaviestSubtreeForkChoice
end FlowraValidator.Consensus
