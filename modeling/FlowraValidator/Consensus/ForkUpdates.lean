import FlowraValidator.Consensus.ForkTree

/-!
# Applying operations to the tree

What a node caches has to fit to what its children cache: the stake of its subtree is its own stake
and that of the subtrees of its children, its height is one more than that of its deepest child, and
its best and deepest slots are those of its best and its deepest child. Then the node is settled.

An operation changes one node only. So it can unsettle that node and its parent, and no other one.
In a batch, both are aggregated later, except for a node that only gets a stake, which stays
settled. So at each point every node is settled or will be aggregated, and at the end all are
settled.

* `Settled`: the equations of a node.
* `Aggregated.settled`: aggregation solves them.
* `Covered.step`, `Cached.step`: every node is settled or will be aggregated.
* `Cached.exists_processEntries_eq`: the rule for invariants of a batch.
-/

namespace FlowraValidator.Consensus.HeaviestSubtreeForkChoice
open List Option OrdMap Forest UpdateOperations Relation

variable (fc : HeaviestSubtreeForkChoice)

/-! ## Settled nodes -/

/-- The cached stake of a subtree. -/
def stakeOf (k : SlotHashKey) : ℕ := (fc.stakeVotedSubtree k).getD 0

def heightOf (k : SlotHashKey) : ℕ := (fc.height k).getD 0

def bestOf (k : SlotHashKey) : SlotHashKey := (fc.bestSlot k).getD k

def deepestOf (k : SlotHashKey) : SlotHashKey := (fc.deepestSlot k).getD k

/-- The node may be chosen. -/
def Candidate (k : SlotHashKey) : Prop := fc.isCandidate k = some true

/-- Heavier nodes come first, then nodes with a smaller key. -/
def bestRank (k : SlotHashKey) : ℕ ×ₗ SlotHashKeyᵒᵈ := toLex (fc.stakeOf k, OrderDual.toDual k)

/-- Deeper nodes come first, then heavier ones, then nodes with a smaller key. -/
def deepestRank (k : SlotHashKey) : ℕ ×ₗ ℕ ×ₗ SlotHashKeyᵒᵈ := toLex (fc.heightOf k, fc.bestRank k)

/-- The child is the first candidate of the children. -/
structure BestChild (children : List SlotHashKey) (c : SlotHashKey) : Prop where
  mem : c ∈ children
  candidate : fc.Candidate c
  greatest : ∀ d ∈ children, fc.Candidate d → fc.bestRank d ≤ fc.bestRank c

/-- The child is the first one in depth. -/
structure DeepestChild (children : List SlotHashKey) (c : SlotHashKey) : Prop where
  mem : c ∈ children
  greatest : ∀ d ∈ children, fc.deepestRank d ≤ fc.deepestRank c

/-- What a node caches fits to what its children cache. -/
structure Settled (k : SlotHashKey) (info : ForkInfo) : Prop where
  subtree : info.stakeVotedSubtree = info.stakeVotedAt + (info.children.map fc.stakeOf).sum
  deepest : (info.children = [] ∧ info.height = 1 ∧ info.deepestSlot = k) ∨
    ∃ c, fc.DeepestChild info.children c ∧ info.height = fc.heightOf c + 1 ∧
      info.deepestSlot = fc.deepestOf c
  best : info.isCandidate = true →
    ((∀ c ∈ info.children, ¬fc.Candidate c) ∧ info.bestSlot = k) ∨
      ∃ c, fc.BestChild info.children c ∧ info.bestSlot = fc.bestOf c

def SettledAt (k : SlotHashKey) : Prop := ∀ info, fc.get k = some info → fc.Settled k info

variable {fc} {fc' : HeaviestSubtreeForkChoice} {k c d : SlotHashKey} {info info' : ForkInfo}

theorem bestRank_lt_iff : fc.bestRank c < fc.bestRank d ↔
    fc.stakeOf c < fc.stakeOf d ∨ fc.stakeOf c = fc.stakeOf d ∧ d < c :=
  Prod.Lex.lt_iff

theorem deepestRank_lt_iff : fc.deepestRank c < fc.deepestRank d ↔
    fc.heightOf c < fc.heightOf d ∨ fc.heightOf c = fc.heightOf d ∧ fc.bestRank c < fc.bestRank d :=
  Prod.Lex.lt_iff

section Congr
variable (h : fc'.get c = fc.get c)
include h
theorem stakeOf_congr : fc'.stakeOf c = fc.stakeOf c := by
  unfold stakeOf stakeVotedSubtree
  rw [h]

theorem heightOf_congr : fc'.heightOf c = fc.heightOf c := by
  unfold heightOf height
  rw [h]

theorem bestOf_congr : fc'.bestOf c = fc.bestOf c := by
  unfold bestOf bestSlot
  rw [h]

theorem deepestOf_congr : fc'.deepestOf c = fc.deepestOf c := by
  unfold deepestOf deepestSlot
  rw [h]

theorem candidate_congr : fc'.Candidate c ↔ fc.Candidate c := by
  unfold Candidate isCandidate
  rw [h]

theorem bestRank_congr : fc'.bestRank c = fc.bestRank c := by
  unfold bestRank
  rw [stakeOf_congr h]

theorem deepestRank_congr : fc'.deepestRank c = fc.deepestRank c := by
  unfold deepestRank
  rw [heightOf_congr h, bestRank_congr h]

end Congr

theorem BestChild.congr {children : List SlotHashKey} (h : fc.BestChild children c)
    (hget : ∀ d ∈ children, fc'.get d = fc.get d) : fc'.BestChild children c := by
  refine ⟨h.mem, (candidate_congr (hget c h.mem)).mpr h.candidate, fun d hd hcand => ?_⟩
  rw [bestRank_congr (hget d hd), bestRank_congr (hget c h.mem)]
  exact h.greatest d hd ((candidate_congr (hget d hd)).mp hcand)

variable {children : List SlotHashKey} {operation : UpdateOperation}
  {e : UpdateKey × UpdateOperation} {rest : List (UpdateKey × UpdateOperation)}

theorem DeepestChild.congr (h : fc.DeepestChild children c)
    (hget : ∀ d ∈ children, fc'.get d = fc.get d) : fc'.DeepestChild children c := by
  refine ⟨h.mem, fun d hd => ?_⟩
  rw [deepestRank_congr (hget d hd), deepestRank_congr (hget c h.mem)]
  exact h.greatest d hd

/-- Only the children matter. -/
theorem Settled.congr (h : fc.Settled k info)
    (hget : ∀ c ∈ info.children, fc'.get c = fc.get c) : fc'.Settled k info := by
  refine ⟨?_, ?_, fun hcand => ?_⟩
  · rw [h.subtree, map_congr_left fun c hc => stakeOf_congr (hget c hc)]
  · rcases h.deepest with hleaf | ⟨c, hc, hheight, hslot⟩
    · exact .inl hleaf
    · refine .inr ⟨c, hc.congr hget, ?_, ?_⟩
      · rw [heightOf_congr (hget c hc.mem), hheight]
      · rw [deepestOf_congr (hget c hc.mem), hslot]
  · rcases h.best hcand with ⟨hnone, hslot⟩ | ⟨c, hc, hslot⟩
    · exact .inl ⟨fun c hc => mt (candidate_congr (hget c hc)).mp (hnone c hc), hslot⟩
    · refine .inr ⟨c, hc.congr hget, ?_⟩
      rw [bestOf_congr (hget c hc.mem), hslot]

/-! ## Aggregation -/

section
variable (h : fc.get c = some info)
include h
theorem stakeOf_eq : fc.stakeOf c = info.stakeVotedSubtree := by
  unfold stakeOf stakeVotedSubtree
  rw [h]
  rfl

theorem heightOf_eq : fc.heightOf c = info.height := by
  unfold heightOf height
  rw [h]
  rfl

theorem bestOf_eq : fc.bestOf c = info.bestSlot := by
  unfold bestOf bestSlot
  rw [h]
  rfl

theorem deepestOf_eq : fc.deepestOf c = info.deepestSlot := by
  unfold deepestOf deepestSlot
  rw [h]
  rfl

theorem candidate_iff : fc.Candidate c ↔ info.isCandidate = true := by
  unfold Candidate isCandidate
  rw [h]
  exact some_inj

end

/-- The best child after some children, or the node itself if there was no candidate. -/
def BestSoFar (fc : HeaviestSubtreeForkChoice) (k : SlotHashKey) (done : List SlotHashKey)
    (acc : Aggregation) : Prop :=
  (acc.bestChild = k ∧ acc.bestSlot = k ∧ ∀ c ∈ done, ¬fc.Candidate c) ∨
    (fc.BestChild done acc.bestChild ∧ acc.bestChildStake = fc.stakeOf acc.bestChild ∧
      acc.bestSlot = fc.bestOf acc.bestChild)

/-- The deepest child after some children, or the node itself if there was no child. -/
def DeepestSoFar (fc : HeaviestSubtreeForkChoice) (k : SlotHashKey) (done : List SlotHashKey)
    (acc : Aggregation) : Prop :=
  (done = [] ∧ acc.deepestChild = k ∧ acc.deepestChildHeight = 0 ∧ acc.deepestSlot = k) ∨
    (fc.DeepestChild done acc.deepestChild ∧
      acc.deepestChildHeight = fc.heightOf acc.deepestChild ∧
      acc.deepestChildStake = fc.stakeOf acc.deepestChild ∧
      acc.deepestSlot = fc.deepestOf acc.deepestChild)

/-- The variables of the loop over the children, after some of them. -/
structure Aggregated (fc : HeaviestSubtreeForkChoice) (k : SlotHashKey) (stakeVotedAt : ℕ)
    (done : List SlotHashKey) (acc : Aggregation) : Prop where
  subtree : acc.stakeVotedSubtree = stakeVotedAt + (done.map fc.stakeOf).sum
  confirmed : acc.isDuplicateConfirmed = true ↔ ∃ c ∈ done, fc.isDuplicateConfirmed c = some true
  best : fc.BestSoFar k done acc
  deepest : fc.DeepestSoFar k done acc

theorem BestChild.concat (h : fc.BestChild children c)
    (hle : fc.Candidate d → fc.bestRank d ≤ fc.bestRank c) :
    fc.BestChild (children ++ [d]) c := by
  refine ⟨mem_append_left _ h.mem, h.candidate, fun e he hcand => ?_⟩
  rcases mem_append.mp he with he | he
  · exact h.greatest e he hcand
  · rw [mem_singleton] at he
    subst he
    exact hle hcand

theorem DeepestChild.concat (h : fc.DeepestChild children c)
    (hle : fc.deepestRank d ≤ fc.deepestRank c) : fc.DeepestChild (children ++ [d]) c := by
  refine ⟨mem_append_left _ h.mem, fun e he => ?_⟩
  rcases mem_append.mp he with he | he
  · exact h.greatest e he
  · rw [mem_singleton] at he
    subst he
    exact hle

/-- The last child is the best one. -/
theorem bestChild_concat (hcand : fc.Candidate c)
    (hle : ∀ d ∈ children, fc.Candidate d → fc.bestRank d ≤ fc.bestRank c) :
    fc.BestChild (children ++ [c]) c := by
  refine ⟨mem_append_right _ (mem_singleton_self c), hcand, fun d hd hcand' => ?_⟩
  rcases mem_append.mp hd with hd | hd
  · exact hle d hd hcand'
  · rw [mem_singleton.mp hd]

theorem deepestChild_concat (hle : ∀ d ∈ children, fc.deepestRank d ≤ fc.deepestRank c) :
    fc.DeepestChild (children ++ [c]) c := by
  refine ⟨mem_append_right _ (mem_singleton_self c), fun d hd => ?_⟩
  rcases mem_append.mp hd with hd | hd
  · exact hle d hd
  · rw [mem_singleton.mp hd]

section AddChild
variable {stakeVotedAt : ℕ} {done : List SlotHashKey} {acc : Aggregation}

/-- One more child, for the best one. -/
theorem BestSoFar.updateBest (h : fc.BestSoFar k done acc) (hk : k ∉ done)
    (hget : fc.get c = some info) : fc.BestSoFar k (done ++ [c]) (acc.updateBest k c info) := by
  have hstake := stakeOf_eq hget
  have hcand := candidate_iff hget
  unfold Aggregation.updateBest
  by_cases hupdate : info.isCandidate = true ∧ (acc.bestChild = k ∨
      info.stakeVotedSubtree > acc.bestChildStake ∨
      info.stakeVotedSubtree = acc.bestChildStake ∧ c < acc.bestChild)
  · rw [if_pos hupdate]
    refine .inr ⟨bestChild_concat (hcand.mpr hupdate.1) fun d hd hdc => ?_, hstake.symm,
      (bestOf_eq hget).symm⟩
    rcases h with ⟨-, -, hnone⟩ | ⟨hbest, hbestStake, -⟩
    · exact absurd hdc (hnone d hd)
    · refine (hbest.greatest d hd hdc).trans (le_of_lt (bestRank_lt_iff.mpr ?_))
      rcases hupdate.2 with heq | hlt
      · exact absurd (heq ▸ hbest.mem) hk
      · rw [hstake, ← hbestStake]
        rcases hlt with hlt | ⟨heq, hlt⟩
        · exact .inl hlt
        · exact .inr ⟨heq.symm, hlt⟩
  · rw [if_neg hupdate]
    rcases h with ⟨hchild, hslot, hnone⟩ | ⟨hbest, hbestStake, hslot⟩
    · refine .inl ⟨hchild, hslot, fun d hd => ?_⟩
      rcases mem_append.mp hd with hd | hd
      · exact hnone d hd
      · rw [mem_singleton.mp hd, hcand]
        exact fun hc => hupdate ⟨hc, .inl hchild⟩
    · refine .inr ⟨hbest.concat fun hc => ?_, hbestStake, hslot⟩
      by_contra hlt
      rw [not_le, bestRank_lt_iff, hstake, ← hbestStake] at hlt
      refine hupdate ⟨hcand.mp hc, .inr ?_⟩
      rcases hlt with hlt | ⟨heq, hlt⟩
      · exact .inl hlt
      · exact .inr ⟨heq.symm, hlt⟩

/-- One more child, for the deepest one. -/
theorem DeepestSoFar.updateDeepest (h : fc.DeepestSoFar k done acc) (hk : k ∉ done)
    (hget : fc.get c = some info) :
    fc.DeepestSoFar k (done ++ [c]) (acc.updateDeepest k c info) := by
  have hstake := stakeOf_eq hget
  have hheight := heightOf_eq hget
  unfold Aggregation.updateDeepest
  by_cases hupdate : acc.deepestChild = k ∨ info.height > acc.deepestChildHeight ∨
      (info.height = acc.deepestChildHeight ∧ info.stakeVotedSubtree > acc.deepestChildStake) ∨
      (info.height = acc.deepestChildHeight ∧ info.stakeVotedSubtree = acc.deepestChildStake ∧
        c < acc.deepestChild)
  · rw [if_pos hupdate]
    refine .inr ⟨deepestChild_concat fun d hd => ?_, hheight.symm, hstake.symm,
      (deepestOf_eq hget).symm⟩
    rcases h with ⟨hnil, -⟩ | ⟨hdeep, hdeepHeight, hdeepStake, -⟩
    · rw [hnil] at hd
      cases hd
    · refine (hdeep.greatest d hd).trans (le_of_lt ?_)
      rw [deepestRank_lt_iff, bestRank_lt_iff, hheight, hstake, ← hdeepHeight, ← hdeepStake]
      rcases hupdate with heq | hlt | ⟨heq, hlt⟩ | ⟨heq, heq', hlt⟩
      · exact absurd (heq ▸ hdeep.mem) hk
      · exact .inl hlt
      · exact .inr ⟨heq.symm, .inl hlt⟩
      · exact .inr ⟨heq.symm, .inr ⟨heq'.symm, hlt⟩⟩
  · rw [if_neg hupdate]
    rcases h with ⟨-, hchild, -⟩ | ⟨hdeep, hdeepHeight, hdeepStake, hslot⟩
    · exact absurd (.inl hchild) hupdate
    · refine .inr ⟨hdeep.concat ?_, hdeepHeight, hdeepStake, hslot⟩
      by_contra hlt
      rw [not_le, deepestRank_lt_iff, bestRank_lt_iff, hheight, hstake, ← hdeepHeight,
        ← hdeepStake] at hlt
      refine hupdate (.inr ?_)
      rcases hlt with hlt | ⟨heq, hlt | ⟨heq', hlt⟩⟩
      · exact .inl hlt
      · exact .inr (.inl ⟨heq.symm, hlt⟩)
      · exact .inr (.inr ⟨heq.symm, heq'.symm, hlt⟩)

/-- One more child. -/
theorem Aggregated.addChild (h : fc.Aggregated k stakeVotedAt done acc) (hk : k ∉ done)
    (hget : fc.get c = some info) :
    fc.Aggregated k stakeVotedAt (done ++ [c]) (acc.addChild k c info) := by
  set acc1 : Aggregation := { acc with
    isDuplicateConfirmed := acc.isDuplicateConfirmed || info.isDuplicateConfirmed
    stakeVotedSubtree := acc.stakeVotedSubtree + info.stakeVotedSubtree } with hacc1
  have hadd : acc.addChild k c info = (acc1.updateBest k c info).updateDeepest k c info := rfl
  have hbest1 : fc.BestSoFar k done acc1 := h.best
  have hbest := hbest1.updateBest hk hget
  have hdeepest1 : fc.DeepestSoFar k done (acc1.updateBest k c info) := by
    unfold Aggregation.updateBest
    split_ifs <;> exact h.deepest
  obtain ⟨hsub, hconf⟩ : (acc.addChild k c info).stakeVotedSubtree = acc1.stakeVotedSubtree ∧
      (acc.addChild k c info).isDuplicateConfirmed = acc1.isDuplicateConfirmed := by
    rw [hadd]
    unfold Aggregation.updateDeepest Aggregation.updateBest
    split_ifs <;> exact ⟨rfl, rfl⟩
  refine ⟨?_, ?_, ?_, hdeepest1.updateDeepest hk hget⟩
  · rw [hsub, map_append, sum_append, map_singleton, sum_singleton,
      stakeOf_eq hget, ← Nat.add_assoc, ← h.subtree]
  · have hc : fc.isDuplicateConfirmed c = some true ↔ info.isDuplicateConfirmed = true := by
      unfold isDuplicateConfirmed
      rw [hget]
      exact some_inj
    rw [hconf, Bool.or_eq_true, h.confirmed, ← hc]
    simp only [mem_append, mem_singleton]
    constructor
    · rintro (⟨d, hd, hconfd⟩ | hconfc)
      · exact ⟨d, .inl hd, hconfd⟩
      · exact ⟨c, .inr rfl, hconfc⟩
    · rintro ⟨d, hd | rfl, hconfd⟩
      · exact .inl ⟨d, hd, hconfd⟩
      · exact .inr hconfd
  · rw [hadd]
    unfold Aggregation.updateDeepest
    split_ifs <;> exact hbest

end AddChild

/-- The loop over all children. -/
theorem exists_aggregateChildren_eq {stakeVotedAt : ℕ} {done : List SlotHashKey} {acc : Aggregation}
    (h : fc.Aggregated k stakeVotedAt done acc) (hpresent : ∀ c ∈ children, fc.Present c)
    (hk : k ∉ done ++ children) :
    ∃ acc', fc.aggregateChildren k acc children = some acc' ∧
      fc.Aggregated k stakeVotedAt (done ++ children) acc' := by
  induction children generalizing done acc with
  | nil =>
    refine ⟨acc, rfl, ?_⟩
    rwa [append_nil]
  | cons c rest ih =>
    obtain ⟨info, hget⟩ := hpresent c mem_cons_self
    have hdone : k ∉ done := fun hmem => hk (mem_append_left _ hmem)
    have happend : done ++ c :: rest = done ++ [c] ++ rest := by simp
    rw [happend] at hk ⊢
    obtain ⟨acc', heq, hacc'⟩ := ih (h.addChild hdone hget)
      (fun d hd => hpresent d (mem_cons_of_mem _ hd)) hk
    refine ⟨acc', ?_, hacc'⟩
    rwa [aggregateChildren, hget]

/-- The node after aggregation. -/
theorem Aggregated.settled {acc : Aggregation}
    (h : fc.Aggregated k info.stakeVotedAt info.children acc) :
    fc.Settled k (acc.write info) := by
  have hchildren : (acc.write info).children = info.children := by
    unfold Aggregation.write
    split_ifs <;> rfl
  have hat : (acc.write info).stakeVotedAt = info.stakeVotedAt := by
    unfold Aggregation.write
    split_ifs <;> rfl
  refine ⟨?_, ?_, fun _ => ?_⟩
  · rw [hchildren, hat]
    exact h.subtree
  · rw [hchildren]
    rcases h.deepest with ⟨hnil, -, hheight, hslot⟩ | ⟨hdeep, hheight, -, hslot⟩
    · exact .inl ⟨hnil, congrArg (· + 1) hheight, hslot⟩
    · exact .inr ⟨_, hdeep, congrArg (· + 1) hheight, hslot⟩
  · rw [hchildren]
    rcases h.best with ⟨-, hslot, hnone⟩ | ⟨hbest, -, hslot⟩
    · exact .inl ⟨hnone, hslot⟩
    · exact .inr ⟨_, hbest, hslot⟩

/-! ## One operation -/

theorem get_modifyInfo (k' : SlotHashKey) (f : ForkInfo → ForkInfo) :
    (fc.modifyInfo k f).get k' = if k = k' then (fc.get k).map f else fc.get k' :=
  get_modify fc.forkInfos k k' f

/-- The node after an operation for it. -/
def applied (fc : HeaviestSubtreeForkChoice) (k : SlotHashKey) (info : ForkInfo) :
    UpdateOperation → Option ForkInfo
  | .add stake => some { info with
      stakeVotedAt := info.stakeVotedAt + stake
      stakeVotedSubtree := info.stakeVotedSubtree + stake }
  | .subtract stake =>
    if stake ≤ info.stakeVotedAt ∧ stake ≤ info.stakeVotedSubtree then
      some { info with
        stakeVotedAt := info.stakeVotedAt - stake
        stakeVotedSubtree := info.stakeVotedSubtree - stake }
    else none
  | .markValid slot =>
    let info := info.updateWithNewlyValidAncestor slot
    some (if k.slot = slot then { info with isDuplicateConfirmed := true } else info)
  | .markInvalid slot => info.updateWithNewlyInvalidAncestor slot
  | .aggregate =>
    (fc.aggregateChildren k ⟨info.stakeVotedAt, 0, k, k, false, 0, k, 0, k⟩ info.children).map
      fun acc => acc.write info

/-- The tree with another node. -/
def setInfo (fc : HeaviestSubtreeForkChoice) (k : SlotHashKey) (info : ForkInfo) :
    HeaviestSubtreeForkChoice :=
  fc.modifyInfo k fun _ => info

theorem modifyInfo_eq_of_get_none (h : fc.get k = none) (f : ForkInfo → ForkInfo) :
    fc.modifyInfo k f = fc := by
  refine congrArg (fun infos => { fc with forkInfos := infos }) ?_
  refine Std.ExtTreeMap.ext_getElem? fun k' => ?_
  rw [get_modify]
  split_ifs with heq
  · have hnone : fc.forkInfos[k]? = none := h
    rw [← heq, hnone]
    rfl
  · rfl

theorem modifyInfo_eq_of_get_some (h : fc.get k = some info) (f : ForkInfo → ForkInfo) :
    fc.modifyInfo k f = fc.setInfo k (f info) := by
  refine congrArg (fun infos => { fc with forkInfos := infos }) ?_
  refine Std.ExtTreeMap.ext_getElem? fun k' => ?_
  rw [get_modify, get_modify]
  have hsome : fc.forkInfos[k]? = some info := h
  rw [hsome]
  rfl

/-- An operation for a missing node does nothing. -/
theorem processOperation_of_none (h : fc.get k = none) (operation : UpdateOperation) :
    fc.processOperation k operation = some fc := by
  cases operation with
  | add stake | markValid slot => exact congrArg some (modifyInfo_eq_of_get_none h _)
  | markInvalid slot =>
    show fc.markForkInvalid k slot = some fc
    unfold markForkInvalid
    rw [h]
  | subtract stake =>
    show fc.subtractSlotStake k stake = some fc
    unfold subtractSlotStake
    rw [h]
  | aggregate =>
    show fc.aggregateSlot k = some fc
    unfold aggregateSlot
    rw [h]

/-- **An operation changes one node only.** -/
theorem processOperation_of_some (h : fc.get k = some info) (operation : UpdateOperation) :
    fc.processOperation k operation =
      (fc.applied k info operation).map fun info' => fc.setInfo k info' := by
  cases operation with
  | add stake | markValid slot => exact congrArg some (modifyInfo_eq_of_get_some h _)
  | markInvalid slot =>
    show fc.markForkInvalid k slot = _
    unfold markForkInvalid
    rw [h]
    rfl
  | subtract stake =>
    show fc.subtractSlotStake k stake = _
    unfold subtractSlotStake applied
    rw [h]
    dsimp only
    split_ifs
    · exact congrArg some (modifyInfo_eq_of_get_some h _)
    · rfl
  | aggregate =>
    show fc.aggregateSlot k = _
    unfold aggregateSlot applied
    rw [h]
    dsimp only
    cases fc.aggregateChildren k ⟨info.stakeVotedAt, 0, k, k, false, 0, k, 0, k⟩ info.children with
    | none => rfl
    | some acc => exact congrArg some (modifyInfo_eq_of_get_some h _)

theorem get_setInfo (h : fc.get k = some info) (info' : ForkInfo) (k' : SlotHashKey) :
    (fc.setInfo k info').get k' = if k = k' then some info' else fc.get k' := by
  unfold setInfo
  rw [get_modifyInfo, h]
  rfl

/-- Slots up to the given one are forgotten. -/
def forget (slot : ℕ) (latest : Option ℕ) : Option ℕ := latest.filter fun a => decide (slot < a)

/-- The greater one of the slots. -/
def remember (slot : ℕ) (latest : Option ℕ) : Option ℕ := some (latest.elim slot (max slot))

/-- The node with other marks. -/
def remark (info : ForkInfo) (latest : Option ℕ) (confirmed : Bool) : ForkInfo :=
  { info with latestInvalidAncestor := latest, isDuplicateConfirmed := confirmed }

theorem applied_markValid (slot : ℕ) :
    fc.applied k info (.markValid slot) =
      some (remark info (forget slot info.latestInvalidAncestor)
        (info.isDuplicateConfirmed || decide (k.slot = slot))) := by
  obtain ⟨_, _, _, _, _, _, _, latest, confirmed⟩ := info
  simp only [applied, ForkInfo.updateWithNewlyValidAncestor, forget, remark]
  cases latest with
  | none => by_cases hslot : k.slot = slot <;> simp [hslot]
  | some a =>
    by_cases hle : a ≤ slot
    · by_cases hslot : k.slot = slot <;> simp [hslot, hle, Option.filter]
    · by_cases hslot : k.slot = slot <;> simp [hslot, hle, Option.filter]

theorem applied_markInvalid (slot : ℕ) (h : info.isDuplicateConfirmed = false) :
    fc.applied k info (.markInvalid slot) =
      some (remark info (remember slot info.latestInvalidAncestor) false) := by
  obtain ⟨_, _, _, _, _, _, _, latest, confirmed⟩ := info
  subst h
  simp only [applied, ForkInfo.updateWithNewlyInvalidAncestor, remember, remark]
  cases latest with
  | none => simp
  | some a =>
    by_cases hlt : slot > a
    · simp [hlt, hlt.le]
    · simp [hlt, not_lt.mp hlt]

/-- A mark changes nothing but the marks of the node. -/
theorem exists_remark_of_isMark (h : fc.applied k info operation = some info')
    (hmark : operation.isMark = true) :
    ∃ latest confirmed, info' = remark info latest confirmed := by
  cases operation with
  | markValid slot =>
    rw [applied_markValid] at h
    cases h
    exact ⟨_, _, rfl⟩
  | markInvalid slot =>
    cases hconf : info.isDuplicateConfirmed with
    | true => simp [applied, ForkInfo.updateWithNewlyInvalidAncestor, hconf] at h
    | false =>
      rw [applied_markInvalid slot hconf] at h
      cases h
      exact ⟨_, _, rfl⟩
  | _ => cases hmark

/-- An operation does not change the tree itself. -/
theorem applied_shape (h : fc.applied k info operation = some info') :
    info'.parent = info.parent ∧ info'.children = info.children := by
  cases operation with
  | add stake =>
    cases h
    exact ⟨rfl, rfl⟩
  | subtract stake =>
    simp only [applied] at h
    split_ifs at h
    cases h
    exact ⟨rfl, rfl⟩
  | markValid slot | markInvalid slot =>
    obtain ⟨_, _, rfl⟩ := exists_remark_of_isMark h rfl
    exact ⟨rfl, rfl⟩
  | aggregate =>
    obtain ⟨acc, -, rfl⟩ := map_eq_some_iff.mp h
    unfold Aggregation.write
    split_ifs <;> exact ⟨rfl, rfl⟩

/-- Only what is cached in the nodes is different. -/
structure SameTree (fc fc' : HeaviestSubtreeForkChoice) : Prop where
  parent : fc'.parent = fc.parent
  children : fc'.children = fc.children
  treeRoot : fc'.treeRoot = fc.treeRoot
  latestVotes : fc'.latestVotes = fc.latestVotes

theorem SameTree.refl (fc : HeaviestSubtreeForkChoice) : fc.SameTree fc := ⟨rfl, rfl, rfl, rfl⟩

theorem SameTree.trans {fc'' : HeaviestSubtreeForkChoice} (h : fc.SameTree fc')
    (h' : fc'.SameTree fc'') : fc.SameTree fc'' :=
  ⟨h'.parent.trans h.parent, h'.children.trans h.children, h'.treeRoot.trans h.treeRoot,
    h'.latestVotes.trans h.latestVotes⟩

theorem SameTree.shaped (h : fc.SameTree fc') (hs : fc.Shaped) : fc'.Shaped := by
  unfold Shaped
  rw [h.parent, h.children, h.treeRoot]
  exact hs

theorem SameTree.below_iff (h : fc.SameTree fc') : fc'.Below c d ↔ fc.Below c d := by
  unfold Below
  rw [h.parent]

theorem SameTree.present_iff (h : fc.SameTree fc') : fc'.Present k ↔ fc.Present k := by
  rw [← exists_children_iff, ← exists_children_iff, h.children]

theorem sameTree_setInfo (hget : fc.get k = some info) (hparent : info'.parent = info.parent)
    (hchildren : info'.children = info.children) : fc.SameTree (fc.setInfo k info') := by
  refine ⟨?_, ?_, rfl, rfl⟩
  · funext k'
    unfold parent
    rw [get_setInfo hget]
    split_ifs with heq
    · rwa [← heq, hget]
    · rfl
  · funext k'
    unfold children
    rw [get_setInfo hget]
    split_ifs with heq
    · rw [← heq, hget]
      exact congrArg some hchildren
    · rfl

/-! ## Batches -/

/-- Everything that can happen to the first operation of a batch: there is no such node, or the
operation is applied to it. -/
theorem processOperation_cases (h : fc.processOperation k operation = some fc') :
    (fc.get k = none ∧ fc' = fc) ∨
      ∃ info info', fc.get k = some info ∧ fc.applied k info operation = some info' ∧
        fc' = fc.setInfo k info' := by
  cases hget : fc.get k with
  | none =>
    rw [processOperation_of_none hget] at h
    exact .inl ⟨rfl, (some_inj.mp h).symm⟩
  | some info =>
    rw [processOperation_of_some hget] at h
    obtain ⟨info', happ, rfl⟩ := map_eq_some_iff.mp h
    exact .inr ⟨info, info', rfl, happ, rfl⟩

theorem sameTree_of_processOperation (h : fc.processOperation k operation = some fc') :
    fc.SameTree fc' := by
  rcases processOperation_cases h with ⟨-, rfl⟩ | ⟨info, info', hget, happ, rfl⟩
  · exact SameTree.refl fc'
  · obtain ⟨hparent, hchildren⟩ := applied_shape happ
    exact sameTree_setInfo hget hparent hchildren

/-- A batch, applied from its first entry on. -/
def processEntries (fc : HeaviestSubtreeForkChoice) (entries : List (UpdateKey × UpdateOperation)) :
    Option HeaviestSubtreeForkChoice :=
  entries.foldlM (fun fc entry => fc.processOperation entry.1.key entry.2) fc

/-- Every node is settled, or will be aggregated. -/
def Covered (fc : HeaviestSubtreeForkChoice) (entries : List (UpdateKey × UpdateOperation)) :
    Prop :=
  ∀ k, fc.SettledAt k ∨ aggregateEntry k ∈ entries

section
variable (hs : fc.Shaped)
include hs
section
variable (hget : fc.get k = some info)
include hget
/-- An aggregation returns. -/
theorem Shaped.exists_applied_aggregate :
    ∃ acc, fc.applied k info .aggregate = some (acc.write info) ∧
      fc.Aggregated k info.stakeVotedAt info.children acc := by
  have hstart : fc.Aggregated k info.stakeVotedAt []
      ⟨info.stakeVotedAt, 0, k, k, false, 0, k, 0, k⟩ := by
    refine ⟨rfl, ?_, .inl ⟨rfl, rfl, by simp⟩, .inl ⟨rfl, rfl, rfl, rfl⟩⟩
    simp
  have hpresent : ∀ c ∈ info.children, fc.Present c :=
    fun c hc => present_of_parent ((hs.mem_children_iff hget).mp hc)
  have hself : k ∉ [] ++ info.children := by
    intro hmem
    exact absurd (hs.slot_lt ((hs.mem_children_iff hget).mp hmem)) (lt_irrefl _)
  obtain ⟨acc, heq, hacc⟩ := exists_aggregateChildren_eq hstart hpresent hself
  refine ⟨acc, ?_, hacc⟩
  unfold applied
  rw [heq]
  rfl

/-- An operation that is not a mark leaves its node settled. -/
theorem Shaped.settledAt_self (happ : fc.applied k info operation = some info')
    (hmark : operation.isMark = false) (h : fc.SettledAt k ∨ operation = .aggregate) :
    (fc.setInfo k info').SettledAt k := by
  intro info'' hget'
  rw [get_setInfo hget, if_pos rfl] at hget'
  cases hget'
  have hchildren := (applied_shape happ).2
  have hkeep : fc.Settled k info' → (fc.setInfo k info').Settled k info' := by
    refine fun hset => hset.congr fun c hc => ?_
    rw [hchildren] at hc
    rw [get_setInfo hget, if_neg]
    rintro rfl
    exact absurd (hs.slot_lt ((hs.mem_children_iff hget).mp hc)) (lt_irrefl _)
  refine hkeep ?_
  cases operation with
  | aggregate =>
    obtain ⟨acc, heq, hacc⟩ := hs.exists_applied_aggregate hget
    rw [happ] at heq
    cases heq
    exact hacc.settled
  | markValid slot | markInvalid slot => exact absurd hmark Bool.noConfusion
  | add stake =>
    have hset := (h.resolve_right UpdateOperation.noConfusion) info hget
    cases happ
    refine ⟨?_, hset.deepest, hset.best⟩
    have hsub := hset.subtree
    dsimp only
    omega
  | subtract stake =>
    have hset := (h.resolve_right UpdateOperation.noConfusion) info hget
    simp only [applied] at happ
    split_ifs at happ with hle
    cases happ
    refine ⟨?_, hset.deepest, hset.best⟩
    have hsub := hset.subtree
    dsimp only
    omega

/-- A node that is not the parent stays settled. -/
theorem Shaped.settledAt_other (info' : ForkInfo) {n : SlotHashKey} (hne : n ≠ k)
    (hparent : fc.parent k ≠ some n) (h : fc.SettledAt n) :
    (fc.setInfo k info').SettledAt n := by
  intro info'' hget'
  rw [get_setInfo hget, if_neg hne.symm] at hget'
  refine (h info'' hget').congr fun c hc => ?_
  rw [get_setInfo hget, if_neg]
  rintro rfl
  exact hparent ((hs.mem_children_iff hget').mp hc)

end

/-- **Every node is settled or will be aggregated, after each operation of a batch.** -/
theorem Covered.step (hbatch : Batch fc.parent (e :: rest)) (h : fc.Covered (e :: rest))
    (hprocess : fc.processOperation e.1.key e.2 = some fc') : fc'.Covered rest := by
  obtain ⟨⟨k, label⟩, operation⟩ := e
  intro n
  rcases processOperation_cases hprocess with ⟨hnone, rfl⟩ | ⟨info, info', hget, happ, rfl⟩
  · rcases h n with hset | hmem
    · exact .inl hset
    · rcases mem_cons.mp hmem with heq | hmem
      · have hn : n = k := congrArg (fun e => e.1.key) heq
        refine .inl fun info hget => ?_
        rw [hn] at hget
        cases hget.symm.trans hnone
      · exact .inr hmem
  · dsimp only at hget happ
    by_cases hparent : fc.parent k = some n
    · exact .inr (hbatch.up_head hs.rank hparent)
    · by_cases hn : n = k
      · subst hn
        by_cases hmark : operation.isMark = true
        · exact .inr (hbatch.own_head hmark)
        · rw [Bool.not_eq_true] at hmark
          rcases h n with hset | hmem
          · exact .inl (hs.settledAt_self hget happ hmark (.inl hset))
          · rcases mem_cons.mp hmem with heq | hmem
            · have hagg : operation = .aggregate := (congrArg Prod.snd heq).symm
              exact .inl (hs.settledAt_self hget happ hmark (.inr hagg))
            · exact .inr hmem
      · rcases h n with hset | hmem
        · exact .inl (hs.settledAt_other hget info' hn hparent hset)
        · rcases mem_cons.mp hmem with heq | hmem
          · exact absurd (congrArg (fun e => e.1.key) heq) hn
          · exact .inr hmem

variable (hget : fc.get k = some info) (happ : fc.applied k info operation = some info')
include hget happ
/-- The best slot after an operation is the one from before, the node, or that of a child. -/
theorem applied_bestSlot :
    info'.bestSlot = info.bestSlot ∨ info'.bestSlot = k ∨
      ∃ c ∈ info.children, info'.bestSlot = fc.bestOf c := by
  cases operation with
  | add stake =>
    cases happ
    exact .inl rfl
  | subtract stake =>
    simp only [applied] at happ
    split_ifs at happ
    cases happ
    exact .inl rfl
  | markValid slot | markInvalid slot =>
    obtain ⟨_, _, rfl⟩ := exists_remark_of_isMark happ rfl
    exact .inl rfl
  | aggregate =>
    obtain ⟨acc, heq, hacc⟩ := hs.exists_applied_aggregate hget
    rw [happ] at heq
    cases heq
    rcases hacc.best with ⟨-, hslot, -⟩ | ⟨hbest, -, hslot⟩
    · exact .inr (.inl hslot)
    · exact .inr (.inr ⟨_, hbest.mem, hslot⟩)

/-- The stake of the subtree after an operation has the stake of the node in it. -/
theorem applied_own_le (h : info.stakeVotedAt ≤ info.stakeVotedSubtree) :
    info'.stakeVotedAt ≤ info'.stakeVotedSubtree := by
  cases operation with
  | add stake =>
    cases happ
    dsimp only
    omega
  | subtract stake =>
    simp only [applied] at happ
    split_ifs at happ
    cases happ
    dsimp only
    omega
  | markValid slot | markInvalid slot =>
    obtain ⟨_, _, rfl⟩ := exists_remark_of_isMark happ rfl
    exact h
  | aggregate =>
    obtain ⟨acc, heq, hacc⟩ := hs.exists_applied_aggregate hget
    rw [happ] at heq
    cases heq
    rw [hacc.settled.subtree]
    exact Nat.le_add_right _ _

end

/-- What is cached is right, up to the operations that are left. -/
structure Cached (fc : HeaviestSubtreeForkChoice) (entries : List (UpdateKey × UpdateOperation)) :
    Prop where
  covered : fc.Covered entries
  best_below : ∀ {k info}, fc.get k = some info → fc.Below k info.bestSlot
  own_le : ∀ {k info}, fc.get k = some info → info.stakeVotedAt ≤ info.stakeVotedSubtree

theorem Cached.settled (h : fc.Cached []) (hget : fc.get k = some info) : fc.Settled k info :=
  (h.covered k).resolve_right not_mem_nil info hget

/-- **An operation of a batch keeps the cache right.** -/
theorem Cached.step (hs : fc.Shaped) (hbatch : Batch fc.parent (e :: rest))
    (h : fc.Cached (e :: rest)) (hprocess : fc.processOperation e.1.key e.2 = some fc')
    : fc'.Cached rest := by
  have hcovered := h.covered.step hs hbatch hprocess
  rcases processOperation_cases hprocess with ⟨-, rfl⟩ | ⟨info, info', hget, happ, rfl⟩
  · exact ⟨hcovered, h.best_below, h.own_le⟩
  · obtain ⟨hparent, hchildren⟩ := applied_shape happ
    have hsame := sameTree_setInfo hget hparent hchildren
    refine ⟨hcovered, ?_, ?_⟩
    · intro n info1 hget1
      rw [hsame.below_iff]
      rw [get_setInfo hget] at hget1
      split_ifs at hget1 with heq
      · cases hget1
        subst heq
        rcases applied_bestSlot hs hget happ with hslot | hslot | ⟨c, hc, hslot⟩
        · rw [hslot]
          exact h.best_below hget
        · rw [hslot]
          exact ReflTransGen.refl
        · have hp := (hs.mem_children_iff hget).mp hc
          obtain ⟨infoc, hgetc⟩ := present_of_parent hp
          rw [hslot, bestOf_eq hgetc]
          exact ReflTransGen.head hp (h.best_below hgetc)
      · exact h.best_below hget1
    · intro n info1 hget1
      rw [get_setInfo hget] at hget1
      split_ifs at hget1 with heq
      · cases hget1
        exact applied_own_le hs hget happ (h.own_le hget)
      · exact h.own_le hget1

/-- **The rule for batches.**  An invariant of the tree and the operations that are left is true in
the end, if each operation returns and keeps it. -/
theorem Cached.exists_processEntries_eq
    {I : HeaviestSubtreeForkChoice → List (UpdateKey × UpdateOperation) → Prop}
    {entries : List (UpdateKey × UpdateOperation)} (hcached : fc.Cached []) (hs : fc.Shaped)
    (hbatch : Batch fc.parent entries)
    (hstep : ∀ {fc1 : HeaviestSubtreeForkChoice} {e : UpdateKey × UpdateOperation}
      {rest : List (UpdateKey × UpdateOperation)}, fc.SameTree fc1 → fc1.Cached (e :: rest) →
      Batch fc.parent (e :: rest) → e ∈ entries → I fc1 (e :: rest) →
      ∃ fc', fc1.processOperation e.1.key e.2 = some fc' ∧ I fc' rest)
    (hI : I fc entries) :
    ∃ fc', fc.processEntries entries = some fc' ∧ fc.SameTree fc' ∧ fc'.Cached [] ∧ I fc' [] := by
  -- the operations that are left are some of all operations
  suffices hrun : ∀ (rest : List (UpdateKey × UpdateOperation)) (fc1 : HeaviestSubtreeForkChoice),
      fc.SameTree fc1 → fc1.Cached rest → Batch fc.parent rest → rest ⊆ entries → I fc1 rest →
      ∃ fc', fc1.processEntries rest = some fc' ∧ fc.SameTree fc' ∧ fc'.Cached [] ∧ I fc' [] from
    hrun entries fc (SameTree.refl fc) ⟨fun k => .inl ((hcached.covered k).resolve_right
      not_mem_nil), hcached.best_below, hcached.own_le⟩ hbatch (List.Subset.refl _) hI
  intro rest
  induction rest with
  | nil => exact fun fc1 hsame hcached1 _ _ hI1 => ⟨fc1, rfl, hsame, hcached1, hI1⟩
  | cons e rest ih =>
    intro fc1 hsame hcached1 hbatch1 hsub hI1
    obtain ⟨fc2, heq, hI2⟩ := hstep hsame hcached1 hbatch1 (hsub mem_cons_self) hI1
    have hbatch1' : Batch fc1.parent (e :: rest) := by rwa [hsame.parent]
    obtain ⟨fc', heq', hsame', hcached', hI'⟩ := ih fc2
      (hsame.trans (sameTree_of_processOperation heq))
      (hcached1.step (hsame.shaped hs) hbatch1' heq) (hbatch1.tail hs.rank)
      (fun e' he' => hsub (mem_cons_of_mem _ he')) hI2
    refine ⟨fc', ?_, hsame', hcached', hI'⟩
    show List.foldlM _ fc1 (e :: rest) = some fc'
    rwa [foldlM_cons, heq]

end FlowraValidator.Consensus.HeaviestSubtreeForkChoice
