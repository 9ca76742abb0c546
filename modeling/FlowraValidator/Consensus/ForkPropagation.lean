import FlowraValidator.Consensus.ForkMarks

/-!
# Propagation from a new leaf

A new leaf can become the best slot of the nodes above it, and it can make them higher. Both are
propagated from the parent of the leaf up the tree, and stop at the first node that the leaf does
not change.

The two loops have one shape. All nodes but one fit to their children; the remaining one is the
hole. The loop fills the hole, which moves it to the node above, or finds that the node in the hole
fits already. For the best slots the test is whether the old best slot of the parent was the best
slot of the node; this is right because best slots are found by descending, so a node has that best
slot iff its descent runs through the parent. For the deepest slots the test compares the nodes,
and it is right because heights only grow.

* `BestAt`, `DeepestAt`, `StakeAt`: nodes that fit to their children.
* `BestHole.move`, `DeepestHole.move`: one round of the loops.
* `BestHole.exists_propagateBest_eq`, `DeepestHole.exists_propagateDeepest_eq`: the loops.
-/

namespace FlowraValidator.Consensus.HeaviestSubtreeForkChoice
open List Option Forest

variable (fc : HeaviestSubtreeForkChoice)

/-! ## Nodes that fit to their children -/

/-- The best slot of a candidate fits to those of its children. -/
def BestAt (n : SlotHashKey) : Prop :=
  fc.Candidate n → ∀ children, fc.children n = some children →
    ((∀ c ∈ children, ¬fc.Candidate c) ∧ fc.bestOf n = n) ∨
      ∃ c, fc.BestChild children c ∧ fc.bestOf n = fc.bestOf c

/-- The height and the deepest slot of a node fit to those of its children. -/
def DeepestAt (n : SlotHashKey) : Prop :=
  ∀ children, fc.children n = some children →
    (children = [] ∧ fc.heightOf n = 1 ∧ fc.deepestOf n = n) ∨
      ∃ c, fc.DeepestChild children c ∧ fc.heightOf n = fc.heightOf c + 1 ∧
        fc.deepestOf n = fc.deepestOf c

/-- The stake of a subtree fits to those of the children. -/
def StakeAt (n : SlotHashKey) : Prop :=
  ∀ children, fc.children n = some children →
    fc.stakeOf n = (fc.stakeVotedAt n).getD 0 + (children.map fc.stakeOf).sum

variable {fc} {fc' : HeaviestSubtreeForkChoice} {a c d k n p leaf : SlotHashKey}
  {info info' : ForkInfo}

theorem settledAt_iff : fc.SettledAt n ↔ fc.StakeAt n ∧ fc.DeepestAt n ∧ fc.BestAt n := by
  constructor
  · intro h
    refine ⟨?_, ?_, ?_⟩
    · intro children hchildren
      obtain ⟨info, hget, rfl⟩ := map_eq_some_iff.mp hchildren
      rw [stakeOf_eq hget, stakeVotedAt_eq hget]
      exact (h info hget).subtree
    · intro children hchildren
      obtain ⟨info, hget, rfl⟩ := map_eq_some_iff.mp hchildren
      rw [heightOf_eq hget, deepestOf_eq hget]
      exact (h info hget).deepest
    · intro hcand children hchildren
      obtain ⟨info, hget, rfl⟩ := map_eq_some_iff.mp hchildren
      rw [bestOf_eq hget]
      exact (h info hget).best ((candidate_iff hget).mp hcand)
  · rintro ⟨hstake, hdeepest, hbest⟩ info hget
    have hchildren := children_eq_of_get hget
    refine ⟨?_, ?_, fun hcand => ?_⟩
    · have h := hstake _ hchildren
      rwa [stakeOf_eq hget, stakeVotedAt_eq hget] at h
    · have h := hdeepest _ hchildren
      rwa [heightOf_eq hget, deepestOf_eq hget] at h
    · have h := hbest ((candidate_iff hget).mpr hcand) _ hchildren
      rwa [bestOf_eq hget] at h

/-- Only the node and its children matter. -/
theorem BestAt.congr (h : fc.BestAt n) (hchildren : fc'.children n = fc.children n)
    (hcand : fc'.Candidate n → fc.Candidate n) (hbest : fc'.bestOf n = fc.bestOf n)
    (hc : ∀ children, fc.children n = some children → ∀ c ∈ children,
      (fc'.Candidate c ↔ fc.Candidate c) ∧ fc'.bestRank c = fc.bestRank c ∧
        fc'.bestOf c = fc.bestOf c) :
    fc'.BestAt n := by
  intro hn children heq
  rw [hchildren] at heq
  have hsame := hc children heq
  rw [hbest]
  rcases h (hcand hn) children heq with ⟨hnone, hself⟩ | ⟨c, hchild, hslot⟩
  · exact .inl ⟨fun c hmem => mt (hsame c hmem).1.mp (hnone c hmem), hself⟩
  · refine .inr ⟨c, ⟨hchild.mem, (hsame c hchild.mem).1.mpr hchild.candidate, ?_⟩, ?_⟩
    · intro d hd hcandd
      rw [(hsame d hd).2.1, (hsame c hchild.mem).2.1]
      exact hchild.greatest d hd ((hsame d hd).1.mp hcandd)
    · rwa [(hsame c hchild.mem).2.2]

theorem DeepestAt.congr (h : fc.DeepestAt n) (hchildren : fc'.children n = fc.children n)
    (hheight : fc'.heightOf n = fc.heightOf n) (hdeepest : fc'.deepestOf n = fc.deepestOf n)
    (hc : ∀ children, fc.children n = some children → ∀ c ∈ children,
      fc'.heightOf c = fc.heightOf c ∧ fc'.deepestRank c = fc.deepestRank c ∧
        fc'.deepestOf c = fc.deepestOf c) :
    fc'.DeepestAt n := by
  intro children heq
  rw [hchildren] at heq
  have hsame := hc children heq
  rw [hheight, hdeepest]
  rcases h children heq with hleaf | ⟨c, hchild, hh, hslot⟩
  · exact .inl hleaf
  · refine .inr ⟨c, ⟨hchild.mem, fun d hd => ?_⟩, ?_, ?_⟩
    · rw [(hsame d hd).2.1, (hsame c hchild.mem).2.1]
      exact hchild.greatest d hd
    · rwa [(hsame c hchild.mem).1]
    · rwa [(hsame c hchild.mem).2.2]

/-! ## Trees that differ in pointers -/

/-- At most the best and deepest slots and the heights are different. -/
structure SameWeights (fc fc' : HeaviestSubtreeForkChoice) : Prop where
  sameTree : fc.SameTree fc'
  stakeOf : fc'.stakeOf = fc.stakeOf
  candidate : ∀ n, fc'.Candidate n ↔ fc.Candidate n
  stakeVotedAt : fc'.stakeVotedAt = fc.stakeVotedAt
  confirmed : ∀ n, fc'.Confirmed n ↔ fc.Confirmed n
  latestInvalidAncestor : fc'.latestInvalidAncestor = fc.latestInvalidAncestor

theorem SameWeights.refl (fc : HeaviestSubtreeForkChoice) : fc.SameWeights fc :=
  ⟨SameTree.refl fc, rfl, fun _ => Iff.rfl, rfl, fun _ => Iff.rfl, rfl⟩

theorem SameWeights.trans {fc'' : HeaviestSubtreeForkChoice} (h : fc.SameWeights fc')
    (h' : fc'.SameWeights fc'') : fc.SameWeights fc'' :=
  ⟨h.sameTree.trans h'.sameTree, h'.stakeOf.trans h.stakeOf,
    fun n => (h'.candidate n).trans (h.candidate n), h'.stakeVotedAt.trans h.stakeVotedAt,
    fun n => (h'.confirmed n).trans (h.confirmed n),
    h'.latestInvalidAncestor.trans h.latestInvalidAncestor⟩

theorem SameWeights.bestRank (h : fc.SameWeights fc') : fc'.bestRank = fc.bestRank := by
  funext n
  show toLex (fc'.stakeOf n, OrderDual.toDual n) = _
  rw [h.stakeOf]
  rfl

variable {children : List SlotHashKey}

theorem SameWeights.bestChild (h : fc.SameWeights fc') (hc : fc.BestChild children c) :
    fc'.BestChild children c := by
  refine ⟨hc.mem, (h.candidate c).mpr hc.candidate, fun d hd hcand => ?_⟩
  rw [h.bestRank]
  exact hc.greatest d hd ((h.candidate d).mp hcand)

/-- The node with other pointers. -/
def repoint (info : ForkInfo) (best deepest : SlotHashKey) (height : ℕ) : ForkInfo :=
  { info with bestSlot := best, deepestSlot := deepest, height := height }

theorem map_get_repoint {β : Type} (hget : fc.get a = some info) (best deepest : SlotHashKey)
    (height : ℕ) {f : ForkInfo → β} (hf : f (repoint info best deepest height) = f info)
    (n : SlotHashKey) :
    ((fc.setInfo a (repoint info best deepest height)).get n).map f = (fc.get n).map f := by
  rw [get_setInfo hget]
  split_ifs with heq
  · rw [← heq, hget]
    exact congrArg some hf
  · rfl

section Repoint
variable (hget : fc.get a = some info) (best deepest : SlotHashKey) (height : ℕ)
include hget
theorem sameWeights_repoint : fc.SameWeights (fc.setInfo a (repoint info best deepest height)) := by
  refine ⟨sameTree_setInfo hget rfl rfl, ?_, fun n => ?_, ?_, fun n => ?_, ?_⟩
  · funext n
    exact congrArg (Option.getD · 0) (map_get_repoint hget best deepest height rfl n)
  · exact Iff.of_eq (congrArg (· = some true) (map_get_repoint hget best deepest height rfl n))
  · exact funext (map_get_repoint hget best deepest height rfl)
  · exact Iff.of_eq (congrArg (· = some true) (map_get_repoint hget best deepest height rfl n))
  · refine latestInvalidAncestor_setInfo_same hget ?_
    rfl

theorem bestOf_repoint (n : SlotHashKey) :
    (fc.setInfo a (repoint info best deepest height)).bestOf n =
      if a = n then best else fc.bestOf n := by
  show (((fc.setInfo a (repoint info best deepest height)).get n).map ForkInfo.bestSlot).getD n = _
  rw [get_setInfo hget]
  split_ifs <;> rfl

theorem deepestOf_repoint (n : SlotHashKey) :
    (fc.setInfo a (repoint info best deepest height)).deepestOf n =
      if a = n then deepest else fc.deepestOf n := by
  show (((fc.setInfo a (repoint info best deepest height)).get n).map
    ForkInfo.deepestSlot).getD n = _
  rw [get_setInfo hget]
  split_ifs <;> rfl

theorem heightOf_repoint (n : SlotHashKey) :
    (fc.setInfo a (repoint info best deepest height)).heightOf n =
      if a = n then height else fc.heightOf n := by
  show (((fc.setInfo a (repoint info best deepest height)).get n).map ForkInfo.height).getD 0 = _
  rw [get_setInfo hget]
  split_ifs <;> rfl

theorem deepestRank_repoint_of_ne (m : SlotHashKey) (hm : a ≠ m) :
    (fc.setInfo a (repoint info best deepest height)).deepestRank m = fc.deepestRank m := by
  show toLex (_, _) = toLex (_, _)
  rw [heightOf_repoint hget, if_neg hm, (sameWeights_repoint hget best deepest height).bestRank]

end Repoint

/-! ## Comparisons with the other children -/

theorem Present.stakeVotedSubtree_eq (h : fc.Present c) :
    fc.stakeVotedSubtree c = some (fc.stakeOf c) := by
  obtain ⟨info, hget⟩ := h
  rw [stakeOf_eq hget, stakeVotedSubtree, hget]
  rfl

theorem Present.height_eq (h : fc.Present c) : fc.height c = some (fc.heightOf c) := by
  obtain ⟨info, hget⟩ := h
  rw [heightOf_eq hget, height, hget]
  rfl

theorem Present.bestSlot_eq (h : fc.Present c) : fc.bestSlot c = some (fc.bestOf c) := by
  obtain ⟨info, hget⟩ := h
  rw [bestOf_eq hget, bestSlot, hget]
  rfl

open Present

/-- No candidate among the children comes before the node. -/
theorem exists_noneHeavier_eq (h : ∀ d ∈ children, fc.Present d) :
    ∃ b, fc.noneHeavier c (fc.stakeOf c) children = some b ∧
      (b = true ↔ ∀ d ∈ children, fc.Candidate d → fc.bestRank d ≤ fc.bestRank c) := by
  induction children with
  | nil => exact ⟨true, rfl, by simp⟩
  | cons d rest ih =>
    obtain ⟨b, heq, hb⟩ := ih fun e he => h e (mem_cons_of_mem _ he)
    obtain ⟨info, hget⟩ := h d mem_cons_self
    have hstake := stakeVotedSubtree_eq ⟨info, hget⟩
    have hcand : fc.isCandidate d = some info.isCandidate := by
      rw [isCandidate, hget]
      rfl
    rw [noneHeavier, hstake, hcand]
    dsimp only [bind_eq_bind, bind_some]
    by_cases hc : info.isCandidate = true
    · have hd : fc.Candidate d := (candidate_iff hget).mpr hc
      have hbeats : (fc.stakeOf d > fc.stakeOf c ∨ fc.stakeOf c = fc.stakeOf d ∧ d < c) ↔
          fc.bestRank c < fc.bestRank d := bestRank_lt_iff.symm
      rw [hc]
      by_cases hlt : fc.bestRank c < fc.bestRank d
      · refine ⟨false, by simp [hbeats, hlt], iff_of_false Bool.false_ne_true fun hall => ?_⟩
        exact absurd (hall d mem_cons_self hd) (not_le.mpr hlt)
      · refine ⟨b, by simp [hbeats, hlt, heq], hb.trans ?_⟩
        rw [forall_mem_cons]
        exact (and_iff_right fun _ => not_lt.mp hlt).symm
    · refine ⟨b, by simp [hc, heq], hb.trans ?_⟩
      rw [forall_mem_cons]
      exact (and_iff_right fun hd => absurd ((candidate_iff hget).mp hd) hc).symm

/-- No child comes before the node in depth. -/
theorem exists_noneDeeper_eq (h : ∀ d ∈ children, fc.Present d) :
    ∃ b, fc.noneDeeper c (fc.stakeOf c) (fc.heightOf c) children = some b ∧
      (b = true ↔ ∀ d ∈ children, fc.deepestRank d ≤ fc.deepestRank c) := by
  induction children with
  | nil => exact ⟨true, rfl, by simp⟩
  | cons d rest ih =>
    obtain ⟨b, heq, hb⟩ := ih fun e he => h e (mem_cons_of_mem _ he)
    obtain ⟨info, hget⟩ := h d mem_cons_self
    have hstake := stakeVotedSubtree_eq ⟨info, hget⟩
    have hheight := height_eq ⟨info, hget⟩
    rw [noneDeeper, hheight, hstake]
    dsimp only [bind_eq_bind, bind_some]
    -- the three tests of the loop are one comparison
    have hbeats : (fc.heightOf d > fc.heightOf c ∨
        (fc.heightOf d = fc.heightOf c ∧ fc.stakeOf d > fc.stakeOf c) ∨
        (fc.heightOf d = fc.heightOf c ∧ fc.stakeOf d = fc.stakeOf c ∧ d < c)) ↔
        fc.deepestRank c < fc.deepestRank d := by
      rw [deepestRank_lt_iff, bestRank_lt_iff, and_or_left, eq_comm (a := fc.heightOf d),
        eq_comm (a := fc.stakeOf d)]
    by_cases hlt : fc.deepestRank c < fc.deepestRank d
    · refine ⟨false, ?_, iff_of_false Bool.false_ne_true fun hall => ?_⟩
      · rcases hbeats.mpr hlt with hcase | hcase | hcase
        · rw [if_pos hcase]
        · rw [if_pos hcase, ite_self]
        · rw [if_pos hcase, ite_self, ite_self]
      · exact absurd (hall d mem_cons_self) (not_le.mpr hlt)
    · have hnone := mt hbeats.mp hlt
      push Not at hnone
      refine ⟨b, ?_, hb.trans ?_⟩
      · rw [if_neg (not_lt.mpr hnone.1), if_neg fun hcase => ?_, if_neg fun hcase => ?_]
        · exact heq
        · exact absurd hcase.2.2 (not_lt.mpr (hnone.2.2 hcase.1 hcase.2.1))
        · exact absurd hcase.2 (not_lt.mpr (hnone.2.1 hcase.1))
      · rw [forall_mem_cons]
        exact (and_iff_right (not_lt.mp hlt)).symm

theorem Shaped.exists_isBestChild_eq (hs : fc.Shaped) (hp : fc.parent c = some p) :
    ∃ b, fc.isBestChild c = some b ∧ (b = true ↔
      ∀ d, fc.parent d = some p → fc.Candidate d → fc.bestRank d ≤ fc.bestRank c) := by
  obtain ⟨info, hget⟩ := present_of_parent hp
  obtain ⟨infop, hgetp⟩ := hs.present_parent hp
  have hstake := stakeVotedSubtree_eq ⟨info, hget⟩
  obtain ⟨b, heq, hb⟩ := exists_noneHeavier_eq (c := c) fun d hd =>
    present_of_parent ((hs.mem_children_iff hgetp).mp hd)
  refine ⟨b, ?_, ?_⟩
  · rw [isBestChild, hstake, hp]
    dsimp only [bind_eq_bind, bind_some]
    rwa [children_eq_of_get hgetp]
  · simp only [hb, hs.mem_children_iff hgetp]

theorem Shaped.exists_isDeepestChild_eq (hs : fc.Shaped) (hp : fc.parent c = some p) :
    ∃ b, fc.isDeepestChild c = some b ∧ (b = true ↔
      ∀ d, fc.parent d = some p → fc.deepestRank d ≤ fc.deepestRank c) := by
  obtain ⟨info, hget⟩ := present_of_parent hp
  obtain ⟨infop, hgetp⟩ := hs.present_parent hp
  have hstake := stakeVotedSubtree_eq ⟨info, hget⟩
  have hheight := height_eq ⟨info, hget⟩
  obtain ⟨b, heq, hb⟩ := exists_noneDeeper_eq (c := c) fun d hd =>
    present_of_parent ((hs.mem_children_iff hgetp).mp hd)
  refine ⟨b, ?_, ?_⟩
  · rw [isDeepestChild, hstake, hheight, hp]
    dsimp only [bind_eq_bind, bind_some]
    rwa [children_eq_of_get hgetp]
  · simp only [hb, hs.mem_children_iff hgetp]

/-! ## Best slots -/

/-- All nodes but `a` have the right best slot. If the best slot of `a` is the old one, then the
leaf is to take its place. -/
structure BestHole (fc : HeaviestSubtreeForkChoice) (leaf old a : SlotHashKey) : Prop where
  others : ∀ n, n ≠ a → fc.BestAt n
  best_below : ∀ n, fc.Present n → fc.Below n (fc.bestOf n)
  change : fc.Candidate a → fc.bestOf a = old → ∀ children, fc.children a = some children →
    ∃ c, fc.BestChild children c ∧ fc.bestOf c = leaf
  stay : fc.bestOf a ≠ old → fc.BestAt a
  old_below : fc.Below a old
  leaf_below : fc.Below a leaf

section BestHole
variable {old : SlotHashKey}

variable (hs : fc.Shaped) (h : fc.BestHole leaf old a) (hget : fc.get a = some info)
  (hold : info.bestSlot = old)
include hs h hget hold in
/-- The hole is filled: only the node above may not fit now. -/
theorem BestHole.fill :
    (∀ n, fc.parent a ≠ some n →
        (fc.setInfo a (repoint info leaf info.deepestSlot info.height)).BestAt n) ∧
      ∀ n, fc.Present n →
        fc.Below n ((fc.setInfo a (repoint info leaf info.deepestSlot info.height)).bestOf n) := by
  have hw := sameWeights_repoint hget leaf info.deepestSlot info.height
  have hbest := bestOf_repoint hget leaf info.deepestSlot info.height
  refine ⟨fun n hparent => ?_, fun n hn => ?_⟩
  · by_cases hna : n = a
    · subst hna
      intro hcand children hchildren
      rw [hw.sameTree.children] at hchildren
      have hslot : fc.bestOf n = old := (bestOf_eq hget).trans hold
      obtain ⟨c, hc, hleaf⟩ := h.change ((hw.candidate n).mp hcand) hslot children hchildren
      have hcn : n ≠ c := by
        rintro rfl
        exact absurd (hs.slot_lt (hs.down hchildren n hc.mem)) (lt_irrefl _)
      refine .inr ⟨c, hw.bestChild hc, ?_⟩
      rw [hbest, hbest, if_pos rfl, if_neg hcn, hleaf]
    · refine (h.others n hna).congr (by rw [hw.sameTree.children]) (hw.candidate n).mp ?_ ?_
      · rw [hbest, if_neg fun heq => hna heq.symm]
      · intro children hchildren c hc
        refine ⟨hw.candidate c, by rw [hw.bestRank], ?_⟩
        rw [hbest, if_neg]
        rintro rfl
        exact hparent (hs.down hchildren a hc)
  · rw [hbest]
    split_ifs with heq
    · rw [← heq]
      exact h.leaf_below
    · exact h.best_below n hn

include hs h hget hold in
/-- **One round of the first loop.**  The hole moves up. -/
theorem BestHole.move (hp : fc.parent a = some p) :
    (fc.setInfo a (repoint info leaf info.deepestSlot info.height)).BestHole leaf old p := by
  have hw := sameWeights_repoint hget leaf info.deepestSlot info.height
  have hbest := bestOf_repoint hget leaf info.deepestSlot info.height
  have hslot : fc.bestOf a = old := (bestOf_eq hget).trans hold
  have hne : p ≠ a := by
    rintro rfl
    exact absurd (hs.slot_lt hp) (lt_irrefl _)
  have hpa : fc.Below p a := Relation.ReflTransGen.single hp
  obtain ⟨hfit, hbelow⟩ := h.fill hs hget hold
  refine ⟨fun n hn => hfit n fun heq => hn ?_, fun n hn => ?_, ?_, ?_, ?_, ?_⟩
  · rw [hp] at heq
    exact (some_inj.mp heq).symm
  · rw [hw.sameTree.below_iff]
    exact hbelow n (hw.sameTree.present_iff.mp hn)
  · -- a node with the old best slot descends through the hole
    intro hcand hpold children hchildren
    rw [hbest, if_neg hne.symm] at hpold
    rw [hw.sameTree.children] at hchildren
    rcases h.others p hne ((hw.candidate p).mp hcand) children hchildren with
      ⟨-, hself⟩ | ⟨c, hc, hcold⟩
    · rw [hpold] at hself
      rw [hself] at h
      exact absurd h.old_below (hs.not_below_child hp)
    · have hca : c = a := by
        have hcp := hs.down hchildren c hc.mem
        have hcbelow := h.best_below c (present_of_parent hcp)
        rw [← hcold, hpold] at hcbelow
        exact hs.eq_of_below hcp hp hcbelow h.old_below
      subst hca
      refine ⟨c, hw.bestChild hc, ?_⟩
      rw [hbest, if_pos rfl]
  · -- the descent of another node does not run through the hole
    intro hpold hcand children hchildren
    rw [hbest, if_neg hne.symm] at hpold
    rw [hw.sameTree.children] at hchildren
    rw [hbest, if_neg hne.symm]
    rcases h.others p hne ((hw.candidate p).mp hcand) children hchildren with
      ⟨hnone, hself⟩ | ⟨c, hc, hcold⟩
    · exact .inl ⟨fun c hmem => mt (hw.candidate c).mp (hnone c hmem), hself⟩
    · refine .inr ⟨c, hw.bestChild hc, ?_⟩
      rw [hbest, if_neg]
      · exact hcold
      · rintro rfl
        exact hpold (hcold.trans hslot)
  · rw [hw.sameTree.below_iff]
    exact hpa.trans h.old_below
  · rw [hw.sameTree.below_iff]
    exact hpa.trans h.leaf_below

/-- The tree after the first loop: only best slots are different, and all nodes fit. -/
structure BestDone (fc fc' : HeaviestSubtreeForkChoice) : Prop where
  weights : fc.SameWeights fc'
  heightOf : fc'.heightOf = fc.heightOf
  deepestOf : fc'.deepestOf = fc.deepestOf
  best : ∀ n, fc'.BestAt n
  best_below : ∀ n, fc'.Present n → fc'.Below n (fc'.bestOf n)

include hs h in
/-- **The first loop.** -/
theorem BestHole.exists_propagateBest_eq (ha : fc.Present a) {fuel : ℕ} (hfuel : a.slot < fuel) :
    ∃ fc', propagateBest leaf old fuel (some a) fc = some fc' ∧ fc.BestDone fc' := by
  induction fuel generalizing fc a with
  | zero => exact absurd hfuel (Nat.not_lt_zero _)
  | succ fuel ih =>
    obtain ⟨info, hget⟩ := ha
    rw [propagateBest, hget]
    dsimp only
    by_cases hold : info.bestSlot = old
    · have hnew : fc.modifyInfo a (fun info => { info with bestSlot := leaf }) =
          fc.setInfo a (repoint info leaf info.deepestSlot info.height) :=
        modifyInfo_eq_of_get_some hget _
      rw [if_pos hold, hnew, ← parent_eq_of_get hget]
      have hw := sameWeights_repoint hget leaf info.deepestSlot info.height
      have hheight : (fc.setInfo a (repoint info leaf info.deepestSlot info.height)).heightOf =
          fc.heightOf := by
        funext n
        exact congrArg (Option.getD · 0) (map_get_repoint hget leaf _ _ rfl n)
      have hdeepest : (fc.setInfo a (repoint info leaf info.deepestSlot info.height)).deepestOf =
          fc.deepestOf := by
        funext n
        exact congrArg (Option.getD · n) (map_get_repoint hget leaf _ _ rfl n)
      cases hp : fc.parent a with
      | none =>
        obtain ⟨hfit, hbelow⟩ := h.fill hs hget hold
        refine ⟨fc.setInfo a (repoint info leaf info.deepestSlot info.height), ?_, hw, hheight,
          hdeepest, fun n => hfit n (by rw [hp]; simp), fun n hn => ?_⟩
        · cases fuel <;> rfl
        · rw [hw.sameTree.below_iff]
          exact hbelow n (hw.sameTree.present_iff.mp hn)
      | some p =>
        have hlt := hs.slot_lt hp
        obtain ⟨fc', heq, hdone⟩ := ih (hw.sameTree.shaped hs) (h.move hs hget hold hp)
          (hw.sameTree.present_iff.mpr (hs.present_parent hp)) (by omega)
        exact ⟨fc', heq, hw.trans hdone.weights, hdone.heightOf.trans hheight,
          hdone.deepestOf.trans hdeepest, hdone.best, hdone.best_below⟩
    · rw [if_neg hold]
      refine ⟨fc, rfl, SameWeights.refl fc, rfl, rfl, fun n => ?_, h.best_below⟩
      by_cases hna : n = a
      · subst hna
        refine h.stay ?_
        rwa [bestOf_eq hget]
      · exact h.others n hna

end BestHole

/-! ## Deepest slots -/

/-- All nodes but `a` have the right height and deepest slot, and its child `c` leads to the
leaf. -/
structure DeepestHole (fc : HeaviestSubtreeForkChoice) (leaf a c : SlotHashKey) : Prop where
  others : ∀ n, n ≠ a → fc.DeepestAt n
  child : fc.parent c = some a
  leads : fc.deepestOf c = leaf
  low : ∃ d, fc.parent d = some a ∧ fc.heightOf a ≤ fc.heightOf d + 1
  stay : ∀ d, fc.parent d = some a → fc.deepestRank c < fc.deepestRank d → fc.DeepestAt a

section DeepestHole
variable (hs : fc.Shaped) (h : fc.DeepestHole leaf a c) (hget : fc.get a = some info)
  (hgreatest : ∀ d, fc.parent d = some a → fc.deepestRank d ≤ fc.deepestRank c)
include hs h hget hgreatest in
/-- The hole is filled: only the node above may not fit now. -/
theorem DeepestHole.fill (n : SlotHashKey) (hn : fc.parent a ≠ some n) :
    (fc.setInfo a (repoint info info.bestSlot leaf (fc.heightOf c + 1))).DeepestAt n := by
  have hw := sameWeights_repoint hget info.bestSlot leaf (fc.heightOf c + 1)
  have hheight := heightOf_repoint hget info.bestSlot leaf (fc.heightOf c + 1)
  have hdeepest := deepestOf_repoint hget info.bestSlot leaf (fc.heightOf c + 1)
  have hrank := deepestRank_repoint_of_ne hget info.bestSlot leaf (fc.heightOf c + 1)
  by_cases hna : n = a
  · subst hna
    intro children hchildren
    rw [hw.sameTree.children] at hchildren
    have hne : ∀ d ∈ children, n ≠ d := by
      rintro d hd rfl
      exact absurd (hs.slot_lt (hs.down hchildren n hd)) (lt_irrefl _)
    have hmem : c ∈ children := by
      obtain ⟨below, hbelow, hmem⟩ := hs.link h.child
      rw [hchildren] at hbelow
      cases hbelow
      exact hmem
    refine .inr ⟨c, ⟨hmem, fun d hd => ?_⟩, ?_, ?_⟩
    · rw [hrank d (hne d hd), hrank c (hne c hmem)]
      exact hgreatest d (hs.down hchildren d hd)
    · rw [hheight, hheight, if_pos rfl, if_neg (hne c hmem)]
    · rw [hdeepest, hdeepest, if_pos rfl, if_neg (hne c hmem), h.leads]
  · have hna' : a ≠ n := fun heq => hna heq.symm
    refine (h.others n hna).congr (by rw [hw.sameTree.children]) ?_ ?_ ?_
    · rw [hheight, if_neg hna']
    · rw [hdeepest, if_neg hna']
    · intro children hchildren d hd
      have hda : a ≠ d := by
        rintro rfl
        exact hn (hs.down hchildren a hd)
      refine ⟨?_, hrank d hda, ?_⟩
      · rw [hheight, if_neg hda]
      · rw [hdeepest, if_neg hda]

include hs h hget hgreatest in
/-- **One round of the second loop.**  The hole moves up, and the node in it got higher. -/
theorem DeepestHole.move (hp : fc.parent a = some p) :
    (fc.setInfo a (repoint info info.bestSlot leaf (fc.heightOf c + 1))).DeepestHole leaf p a := by
  have hw := sameWeights_repoint hget info.bestSlot leaf (fc.heightOf c + 1)
  have hheight := heightOf_repoint hget info.bestSlot leaf (fc.heightOf c + 1)
  have hdeepest := deepestOf_repoint hget info.bestSlot leaf (fc.heightOf c + 1)
  have hne : a ≠ p := by
    rintro rfl
    exact absurd (hs.slot_lt hp) (lt_irrefl _)
  -- the height of `a` does not shrink
  have hgrow : fc.heightOf a ≤ fc.heightOf c + 1 := by
    obtain ⟨d, hd, hle⟩ := h.low
    have hdc : fc.heightOf d ≤ fc.heightOf c := by
      by_contra hlt
      refine absurd (hgreatest d hd) (not_le.mpr (deepestRank_lt_iff.mpr (.inl ?_)))
      omega
    omega
  have hrank := deepestRank_repoint_of_ne hget info.bestSlot leaf (fc.heightOf c + 1)
  have hranka : fc.deepestRank a ≤
      (fc.setInfo a (repoint info info.bestSlot leaf (fc.heightOf c + 1))).deepestRank a := by
    show toLex (_, _) ≤ toLex (_, _)
    rw [hheight, if_pos rfl, hw.bestRank]
    rcases hgrow.lt_or_eq with hlt | heq
    · exact le_of_lt (Prod.Lex.lt_iff.mpr (.inl hlt))
    · rw [heq]
  obtain ⟨children, hchildren, hmem⟩ := hs.link hp
  -- the node above has a deepest child
  obtain ⟨b, hb, hbheight, hbslot⟩ : ∃ b, fc.DeepestChild children b ∧
      fc.heightOf p = fc.heightOf b + 1 ∧ fc.deepestOf p = fc.deepestOf b := by
    rcases h.others p hne.symm children hchildren with ⟨hnil, -⟩ | hdeep
    · rw [hnil] at hmem
      cases hmem
    · exact hdeep
  refine ⟨fun n hn => h.fill hs hget hgreatest n fun heq => hn ?_, ?_, ?_, ?_, ?_⟩
  · rw [hp] at heq
    exact (some_inj.mp heq).symm
  · rwa [hw.sameTree.parent]
  · rw [hdeepest, if_pos rfl]
  · refine ⟨b, ?_, ?_⟩
    · rw [hw.sameTree.parent]
      exact hs.down hchildren b hb.mem
    · rw [hheight, if_neg hne, hheight, hbheight]
      split_ifs with heq
      · rw [← heq]
        omega
      · exact le_rfl
  · -- a node that beats the one in the hole did so before
    intro d hd hlt children' hchildren'
    rw [hw.sameTree.children, hchildren] at hchildren'
    cases hchildren'
    rw [hw.sameTree.parent] at hd
    have hda : a ≠ d := by
      rintro rfl
      exact absurd hlt (lt_irrefl _)
    have hdmem : d ∈ children := by
      obtain ⟨below, hbelow, hdmem⟩ := hs.link hd
      rw [hchildren] at hbelow
      cases hbelow
      exact hdmem
    rw [hrank d hda] at hlt
    have hab : _ < fc.deepestRank b := hlt.trans_le (hb.greatest d hdmem)
    have hne' : a ≠ b := by
      rintro rfl
      exact absurd (hab.trans_le hranka) (lt_irrefl _)
    refine .inr ⟨b, ⟨hb.mem, fun e he => ?_⟩, ?_, ?_⟩
    · rw [hrank b hne']
      by_cases hea : a = e
      · rw [← hea]
        exact hab.le
      · rw [hrank e hea]
        exact hb.greatest e he
    · rwa [hheight, hheight, if_neg hne, if_neg hne']
    · rwa [hdeepest, hdeepest, if_neg hne, if_neg hne']

/-- The tree after the second loop: only heights and deepest slots are different, and all nodes
fit. -/
structure DeepestDone (fc fc' : HeaviestSubtreeForkChoice) : Prop where
  weights : fc.SameWeights fc'
  bestOf : fc'.bestOf = fc.bestOf
  deepest : ∀ n, fc'.DeepestAt n

include hs h in
/-- **The second loop.** -/
theorem DeepestHole.exists_propagateDeepest_eq {fuel : ℕ} (hfuel : a.slot < fuel) :
    ∃ fc', propagateDeepest leaf fuel (some a) c (fc.heightOf c) fc = some fc' ∧
      fc.DeepestDone fc' := by
  induction fuel generalizing fc a c with
  | zero => exact absurd hfuel (Nat.not_lt_zero _)
  | succ fuel ih =>
    obtain ⟨b, heq, hb⟩ := hs.exists_isDeepestChild_eq h.child
    rw [propagateDeepest, heq]
    cases b with
    | false =>
      refine ⟨fc, rfl, SameWeights.refl fc, rfl, fun n => ?_⟩
      by_cases hna : n = a
      · obtain ⟨d, hd, hlt⟩ : ∃ d, fc.parent d = some a ∧ fc.deepestRank c < fc.deepestRank d := by
          by_contra hnone
          push Not at hnone
          exact absurd (hb.mpr hnone) Bool.false_ne_true
        rw [hna]
        exact h.stay d hd hlt
      · exact h.others n hna
    | true =>
      have hgreatest := hb.mp rfl
      obtain ⟨info, hget⟩ := hs.present_parent h.child
      have hnew : fc.modifyInfo a (fun info =>
          { info with deepestSlot := leaf, height := fc.heightOf c + 1 }) =
          fc.setInfo a (repoint info info.bestSlot leaf (fc.heightOf c + 1)) :=
        modifyInfo_eq_of_get_some hget _
      rw [hget]
      dsimp only
      rw [hnew, ← parent_eq_of_get hget]
      have hw := sameWeights_repoint hget info.bestSlot leaf (fc.heightOf c + 1)
      have hbest : (fc.setInfo a
          (repoint info info.bestSlot leaf (fc.heightOf c + 1))).bestOf = fc.bestOf := by
        funext n
        exact congrArg (Option.getD · n) (map_get_repoint hget _ leaf _ rfl n)
      cases hp : fc.parent a with
      | none =>
        refine ⟨fc.setInfo a (repoint info info.bestSlot leaf (fc.heightOf c + 1)), ?_, hw, hbest,
          fun n => h.fill hs hget hgreatest n (by rw [hp]; simp)⟩
        cases fuel <;> rfl
      | some p =>
        have hlt := hs.slot_lt hp
        have hheight := heightOf_repoint hget info.bestSlot leaf (fc.heightOf c + 1) a
        rw [if_pos rfl] at hheight
        obtain ⟨fc', heq', hdone⟩ := ih (hw.sameTree.shaped hs) (h.move hs hget hgreatest hp)
          (by omega)
        rw [hheight] at heq'
        exact ⟨fc', heq', hw.trans hdone.weights, hdone.bestOf.trans hbest, hdone.deepest⟩

end DeepestHole
end FlowraValidator.Consensus.HeaviestSubtreeForkChoice
