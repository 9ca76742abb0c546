import FlowraValidator.Consensus.ForkPropagation

/-!
# A new leaf

A new leaf has no stake, so it changes no stake of another node, and it takes its marks from its
parent. With the leaf in the tree, only its parent may not fit to its children, so the parent is
the hole from which both loops start.

* `NewLeaf`: what is needed of a leaf.
* `LeafAdded`: what it does.
* `NewLeaf.exists_addNewLeafSlot_eq`: a leaf is added, and all nodes fit.
-/

namespace FlowraValidator.Consensus.HeaviestSubtreeForkChoice
open List Option OrdMap Forest Relation ReflTransGen

variable {fc fc' : HeaviestSubtreeForkChoice} {a c d k n p leaf : SlotHashKey}
  {children : List SlotHashKey}

/-! ## The tree with a leaf -/

/-- The tree with one more leaf, before the propagation. -/
def withLeaf (fc : HeaviestSubtreeForkChoice) (k p : SlotHashKey) : HeaviestSubtreeForkChoice :=
  ({ fc with forkInfos := fc.forkInfos.insert k (fc.newLeaf k (some p)) } :
    HeaviestSubtreeForkChoice).modifyInfo p fun info =>
      { info with children := insertChild k info.children }

theorem mem_insertChild_iff : c ∈ insertChild k children ↔ c = k ∨ c ∈ children := by
  unfold insertChild
  split_ifs with hmem
  · exact ⟨.inr, fun h => h.elim (fun heq => heq ▸ hmem) id⟩
  · exact mem_orderedInsert _

theorem nodup_insertChild (h : children.Nodup) : (insertChild k children).Nodup := by
  unfold insertChild
  split_ifs with hmem
  · exact h
  · exact ((perm_orderedInsert _ k children).nodup_iff).mpr (nodup_cons.mpr ⟨hmem, h⟩)

/-- What is needed of a new leaf: it is not in the tree yet, its parent is, and its slot is
later. -/
structure NewLeaf (fc : HeaviestSubtreeForkChoice) (k p : SlotHashKey) : Prop where
  fresh : ¬fc.Present k
  parent : fc.Present p
  slot_lt : p.slot < k.slot

namespace NewLeaf
variable (h : fc.NewLeaf k p) {β : Type} {f : ForkInfo → β}
include h
theorem ne : k ≠ p := by
  rintro rfl
  exact h.fresh h.parent

theorem get_eq_none : fc.get k = none := by
  cases hget : fc.get k with
  | none => rfl
  | some info => exact absurd ⟨info, hget⟩ h.fresh

theorem get_withLeaf (n : SlotHashKey) :
    (fc.withLeaf k p).get n = if k = n then some (fc.newLeaf k (some p))
      else if p = n then (fc.get n).map fun info =>
        { info with children := insertChild k info.children }
      else fc.get n := by
  have hget : ∀ m, ({ fc with forkInfos := fc.forkInfos.insert k (fc.newLeaf k (some p)) } :
      HeaviestSubtreeForkChoice).get m =
      if k = m then some (fc.newLeaf k (some p)) else fc.get m :=
    fun m => get_insert fc.forkInfos k m _
  show (HeaviestSubtreeForkChoice.modifyInfo _ p _).get n = _
  rw [get_modifyInfo, hget, hget, if_neg h.ne]
  by_cases hpn : p = n
  · subst hpn
    rw [if_pos rfl, if_neg h.ne, if_pos rfl]
  · rw [if_neg hpn, if_neg hpn]

/-- A value of the nodes that is not about children. -/
theorem map_get_withLeaf (hf : ∀ info children, f { info with children := children } = f info)
    (n : SlotHashKey) :
    ((fc.withLeaf k p).get n).map f =
      if k = n then some (f (fc.newLeaf k (some p))) else (fc.get n).map f := by
  rw [h.get_withLeaf]
  by_cases hkn : k = n
  · rw [if_pos hkn, if_pos hkn]
    rfl
  · rw [if_neg hkn, if_neg hkn]
    split_ifs with hpn
    · cases fc.get n with
      | none => rfl
      | some info => exact congrArg some (hf info _)
    · rfl

theorem bind_get_withLeaf {f : ForkInfo → Option β}
    (hf : ∀ info children, f { info with children := children } = f info) (n : SlotHashKey) :
    ((fc.withLeaf k p).get n).bind f =
      if k = n then f (fc.newLeaf k (some p)) else (fc.get n).bind f := by
  have hjoin : ∀ x : Option ForkInfo, x.bind f = (x.map f).join := by
    intro x
    cases x <;> rfl
  rw [hjoin, h.map_get_withLeaf hf, hjoin]
  split_ifs <;> rfl

theorem parent_withLeaf (n : SlotHashKey) :
    (fc.withLeaf k p).parent n = if k = n then some p else fc.parent n :=
  h.bind_get_withLeaf (f := ForkInfo.parent) (fun _ _ => rfl) n

theorem stakeVotedAt_withLeaf (n : SlotHashKey) :
    (fc.withLeaf k p).stakeVotedAt n = if k = n then some 0 else fc.stakeVotedAt n :=
  h.map_get_withLeaf (f := ForkInfo.stakeVotedAt) (fun _ _ => rfl) n

theorem heightOf_withLeaf (n : SlotHashKey) :
    (fc.withLeaf k p).heightOf n = if k = n then 1 else fc.heightOf n := by
  have hmap := h.map_get_withLeaf (f := ForkInfo.height) (fun _ _ => rfl) n
  show (((fc.withLeaf k p).get n).map ForkInfo.height).getD 0 = _
  rw [hmap]
  split_ifs <;> rfl

/-- A value that the leaf has like a node that is not there. -/
theorem getD_get_withLeaf {d : β}
    (hf : ∀ info children, f { info with children := children } = f info)
    (hleaf : k = n → f (fc.newLeaf k (some p)) = d) :
    (((fc.withLeaf k p).get n).map f).getD d = ((fc.get n).map f).getD d := by
  rw [h.map_get_withLeaf hf]
  split_ifs with heq
  · rw [← heq, h.get_eq_none]
    exact hleaf heq
  · rfl

/-- The leaf has no stake. -/
theorem stakeOf_withLeaf : (fc.withLeaf k p).stakeOf = fc.stakeOf :=
  funext fun _ =>
    h.getD_get_withLeaf (f := ForkInfo.stakeVotedSubtree) (fun _ _ => rfl) fun _ => rfl

theorem bestOf_withLeaf : (fc.withLeaf k p).bestOf = fc.bestOf :=
  funext fun _ => h.getD_get_withLeaf (f := ForkInfo.bestSlot) (fun _ _ => rfl) id

theorem deepestOf_withLeaf : (fc.withLeaf k p).deepestOf = fc.deepestOf :=
  funext fun _ => h.getD_get_withLeaf (f := ForkInfo.deepestSlot) (fun _ _ => rfl) id

/-- The leaf is a candidate if its parent is. -/
theorem candidate_withLeaf (n : SlotHashKey) :
    (fc.withLeaf k p).Candidate n ↔ fc.Candidate (if k = n then p else n) := by
  have hmap := h.map_get_withLeaf (f := ForkInfo.isCandidate) (fun _ _ => rfl) n
  show ((fc.withLeaf k p).get n).map ForkInfo.isCandidate = some true ↔ _
  rw [hmap]
  split_ifs with heq
  · obtain ⟨info, hget⟩ := h.parent
    rw [candidate_iff hget, some_inj]
    show (fc.latestInvalidAncestor p).isNone = true ↔ info.latestInvalidAncestor.isNone = true
    rw [latestInvalidAncestor_eq hget]
  · rfl

theorem confirmed_withLeaf (n : SlotHashKey) : (fc.withLeaf k p).Confirmed n ↔ fc.Confirmed n := by
  have hmap := h.map_get_withLeaf (f := ForkInfo.isDuplicateConfirmed) (fun _ _ => rfl) n
  show ((fc.withLeaf k p).get n).map ForkInfo.isDuplicateConfirmed = some true ↔ _
  rw [hmap]
  split_ifs with heq
  · refine iff_of_false (by simp [newLeaf]) fun hconf => h.fresh ?_
    rw [heq]
    exact present_of_confirmed hconf
  · rfl

theorem present_withLeaf (n : SlotHashKey) :
    (fc.withLeaf k p).Present n ↔ n = k ∨ fc.Present n := by
  have hmap := h.map_get_withLeaf (f := fun _ => ()) (fun _ _ => rfl) n
  have hpresent : ∀ fc' : HeaviestSubtreeForkChoice,
      fc'.Present n ↔ ((fc'.get n).map fun _ => ()) = some () := by
    intro fc'
    unfold Present
    cases fc'.get n <;> simp
  rw [hpresent, hmap, hpresent]
  split_ifs with heq
  · exact iff_of_true rfl (.inl heq.symm)
  · exact (or_iff_right fun heq' => heq heq'.symm).symm

theorem children_withLeaf (n : SlotHashKey) :
    (fc.withLeaf k p).children n = if k = n then some []
      else if p = n then (fc.children n).map (insertChild k) else fc.children n := by
  show ((fc.withLeaf k p).get n).map ForkInfo.children = _
  rw [h.get_withLeaf]
  split_ifs with hkn hpn
  · rfl
  · show _ = ((fc.get n).map ForkInfo.children).map (insertChild k)
    rw [Option.map_map, Option.map_map]
    rfl
  · rfl

variable (hs : fc.Shaped) (hfit : ∀ n, fc.BestAt n)
include hs in
/-- The tree with the leaf is a tree. -/
theorem shaped_withLeaf : (fc.withLeaf k p).Shaped := by
  have hparent := h.parent_withLeaf
  have hchildren := h.children_withLeaf
  have hroot : k ≠ fc.treeRoot := by
    rintro rfl
    exact h.fresh hs.root_present
  have htree : (fc.withLeaf k p).treeRoot = fc.treeRoot := rfl
  refine ⟨?_, ?_, ?_, ?_, ?_, ?_, ?_, ?_⟩
  · rw [htree]
    exact exists_children_iff.mpr ((h.present_withLeaf _).mpr (.inr hs.root_present))
  · rw [htree, hparent, if_neg hroot]
    exact hs.root_top
  · intro n below hn hne
    rw [hparent]
    split_ifs with heq
    · exact ⟨p, rfl⟩
    · have hpresent := (h.present_withLeaf n).mp (exists_children_iff.mp ⟨below, hn⟩)
      obtain ⟨below', hbelow'⟩ := exists_children_iff.mpr
        (hpresent.resolve_left fun heq' => heq heq'.symm)
      exact hs.up hbelow' hne
  · intro n q hq
    exact exists_children_iff.mpr (present_of_parent hq)
  · intro n q hq
    rw [hparent] at hq
    split_ifs at hq with heq
    · cases hq
      obtain ⟨below, hbelow⟩ := exists_children_iff.mpr h.parent
      refine ⟨insertChild k below, ?_, mem_insertChild_iff.mpr (.inl heq.symm)⟩
      rw [hchildren, if_neg h.ne, if_pos rfl, hbelow]
      rfl
    · obtain ⟨below, hbelow, hmem⟩ := hs.link hq
      have hkq : k ≠ q := by
        rintro rfl
        exact h.fresh (exists_children_iff.mp ⟨below, hbelow⟩)
      rw [hchildren, if_neg hkq, hbelow]
      split_ifs with hpq
      · exact ⟨insertChild k below, rfl, mem_insertChild_iff.mpr (.inr hmem)⟩
      · exact ⟨below, rfl, hmem⟩
  · intro q below hbelow c hc
    rw [hchildren] at hbelow
    rw [hparent]
    split_ifs at hbelow with hkq hpq
    · cases hbelow
      cases hc
    · obtain ⟨below', hbelow', rfl⟩ := map_eq_some_iff.mp hbelow
      rcases mem_insertChild_iff.mp hc with rfl | hc
      · rw [if_pos rfl, hpq]
      · have hp := hs.down hbelow' c hc
        rw [if_neg, hp]
        rintro rfl
        exact h.fresh (present_of_parent hp)
    · have hp := hs.down hbelow c hc
      rw [if_neg, hp]
      rintro rfl
      exact h.fresh (present_of_parent hp)
  · intro q below hbelow
    rw [hchildren] at hbelow
    split_ifs at hbelow with hkq hpq
    · cases hbelow
      exact nodup_nil
    · obtain ⟨below', hbelow', rfl⟩ := map_eq_some_iff.mp hbelow
      exact nodup_insertChild (hs.nodup hbelow')
    · exact hs.nodup hbelow
  · intro n q hq
    rw [hparent] at hq
    split_ifs at hq with heq
    · cases hq
      rw [← heq]
      exact h.slot_lt
    · exact hs.slot_lt hq

theorem below_withLeaf (hbelow : fc.Below a c) : (fc.withLeaf k p).Below a c := by
  refine mono (fun b n hb => ?_) a c hbelow
  rw [h.parent_withLeaf, if_neg]
  · exact hb
  · rintro rfl
    exact h.fresh (present_of_parent hb)

/-! ## Adding the leaf -/

theorem isChild_of_ne (hne : d ≠ k) (hd : (fc.withLeaf k p).parent d = some a) :
    fc.parent d = some a := by
  rw [h.parent_withLeaf, if_neg fun heq => hne heq.symm] at hd
  exact hd

theorem bestOf_self : fc.bestOf k = k := by
  rw [bestOf, bestSlot, h.get_eq_none]
  rfl

include hs hfit in
/-- All nodes but the parent of the leaf keep their best slot. -/
theorem bestAt_withLeaf (hne : n ≠ p) : (fc.withLeaf k p).BestAt n := by
  by_cases hkn : k = n
  · subst hkn
    intro _ children hchildren
    rw [h.children_withLeaf, if_pos rfl] at hchildren
    cases hchildren
    refine .inl ⟨nofun, ?_⟩
    rw [h.bestOf_withLeaf, h.bestOf_self]
  · refine (hfit n).congr ?_ ?_ ?_ ?_
    · rw [h.children_withLeaf, if_neg hkn, if_neg fun heq => hne heq.symm]
    · intro hcand
      rw [h.candidate_withLeaf, if_neg hkn] at hcand
      exact hcand
    · rw [h.bestOf_withLeaf]
    · intro children hchildren c hc
      have hkc : k ≠ c := by
        rintro rfl
        exact h.fresh (present_of_parent (hs.down hchildren k hc))
      refine ⟨?_, ?_, by rw [h.bestOf_withLeaf]⟩
      · rw [h.candidate_withLeaf, if_neg hkc]
      · show toLex (_, _) = toLex (_, _)
        rw [h.stakeOf_withLeaf]

include hs hfit in
/-- The parent keeps its best slot if another child comes before the leaf. -/
theorem bestAt_parent (hd : (fc.withLeaf k p).parent d = some p)
    (hcandd : (fc.withLeaf k p).Candidate d)
    (hlt : (fc.withLeaf k p).bestRank k < (fc.withLeaf k p).bestRank d) :
    (fc.withLeaf k p).BestAt p := by
  have hrank : ∀ m, (fc.withLeaf k p).bestRank m = fc.bestRank m := by
    intro m
    show toLex (_, _) = toLex (_, _)
    rw [h.stakeOf_withLeaf]
  have hdk : d ≠ k := by
    rintro rfl
    exact lt_irrefl _ hlt
  have hdp := h.isChild_of_ne hdk hd
  rw [h.candidate_withLeaf, if_neg hdk.symm] at hcandd
  rw [hrank, hrank] at hlt
  intro hcand children hchildren
  rw [h.candidate_withLeaf, if_neg h.ne] at hcand
  rw [h.children_withLeaf, if_neg h.ne, if_pos rfl] at hchildren
  obtain ⟨old, hold, rfl⟩ := map_eq_some_iff.mp hchildren
  obtain ⟨below, hbelow, hmem⟩ := hs.link hdp
  rw [hold] at hbelow
  cases hbelow
  rcases hfit p hcand old hold with ⟨hnone, -⟩ | ⟨c, hc, hslot⟩
  · exact absurd hcandd (hnone d hmem)
  · have hck : k ≠ c := by
      rintro rfl
      exact h.fresh (present_of_parent (hs.down hold k hc.mem))
    refine .inr ⟨c, ⟨mem_insertChild_iff.mpr (.inr hc.mem), ?_, fun e he hcande => ?_⟩, ?_⟩
    · rw [h.candidate_withLeaf, if_neg hck]
      exact hc.candidate
    · rw [hrank, hrank]
      rcases mem_insertChild_iff.mp he with rfl | he
      · exact hlt.le.trans (hc.greatest d hmem hcandd)
      · have hek : k ≠ e := by
          rintro rfl
          exact h.fresh (present_of_parent (hs.down hold k he))
        rw [h.candidate_withLeaf, if_neg hek] at hcande
        exact hc.greatest e he hcande
    · rw [h.bestOf_withLeaf]
      exact hslot

theorem best_below_withLeaf (hbelow : ∀ n, fc.Present n → fc.Below n (fc.bestOf n))
    (n : SlotHashKey) (hn : (fc.withLeaf k p).Present n) :
    (fc.withLeaf k p).Below n ((fc.withLeaf k p).bestOf n) := by
  rw [h.bestOf_withLeaf]
  rcases (h.present_withLeaf n).mp hn with rfl | hn
  · rw [h.bestOf_self]
    exact refl
  · exact h.below_withLeaf (hbelow n hn)

include hs hfit in
/-- The first loop starts with the parent of the leaf in the hole. -/
theorem bestHole (hbelow : ∀ n, fc.Present n → fc.Below n (fc.bestOf n))
    (hfirst : ∀ d, (fc.withLeaf k p).parent d = some p → (fc.withLeaf k p).Candidate d →
      (fc.withLeaf k p).bestRank d ≤ (fc.withLeaf k p).bestRank k) :
    (fc.withLeaf k p).BestHole k (fc.bestOf p) p := by
  refine ⟨fun n hn => h.bestAt_withLeaf hs hfit hn, h.best_below_withLeaf hbelow, ?_, ?_, ?_, ?_⟩
  · intro hcand _ children hchildren
    have hdown := (h.shaped_withLeaf hs).down hchildren
    rw [h.children_withLeaf, if_neg h.ne, if_pos rfl] at hchildren
    obtain ⟨old, -, rfl⟩ := map_eq_some_iff.mp hchildren
    refine ⟨k, ⟨mem_insertChild_iff.mpr (.inl rfl), ?_, fun d hd hcandd => ?_⟩, ?_⟩
    · rw [h.candidate_withLeaf, if_neg h.ne] at hcand
      rw [h.candidate_withLeaf, if_pos rfl]
      exact hcand
    · exact hfirst d (hdown d hd) hcandd
    · rw [h.bestOf_withLeaf, h.bestOf_self]
  · intro hne
    rw [h.bestOf_withLeaf] at hne
    exact absurd rfl hne
  · exact h.below_withLeaf (hbelow p h.parent)
  · refine single ?_
    rw [h.parent_withLeaf, if_pos rfl]

include hs in
/-- The second loop starts with the parent of the leaf in the hole. -/
theorem deepestHole (hfit : ∀ n, fc.DeepestAt n) : (fc.withLeaf k p).DeepestHole k p k := by
  have hself : fc.deepestOf k = k := by
    rw [deepestOf, deepestSlot, h.get_eq_none]
    rfl
  have hrank : ∀ m, k ≠ m → (fc.withLeaf k p).deepestRank m = fc.deepestRank m := by
    intro m hm
    show toLex (_, toLex (_, _)) = toLex (_, toLex (_, _))
    rw [h.heightOf_withLeaf, if_neg hm, h.stakeOf_withLeaf]
  have hold : ∀ {q children}, fc.children q = some children → ∀ c ∈ children, k ≠ c := by
    rintro q children hchildren c hc rfl
    exact h.fresh (present_of_parent (hs.down hchildren k hc))
  obtain ⟨old, hchildren⟩ := exists_children_iff.mpr h.parent
  have hkp : (fc.withLeaf k p).parent k = some p := by rw [h.parent_withLeaf, if_pos rfl]
  refine ⟨fun n hn => ?_, hkp, ?_, ?_, ?_⟩
  · by_cases hkn : k = n
    · subst hkn
      intro children hchildren
      rw [h.children_withLeaf, if_pos rfl] at hchildren
      cases hchildren
      refine .inl ⟨rfl, ?_, ?_⟩
      · rw [h.heightOf_withLeaf, if_pos rfl]
      · rw [h.deepestOf_withLeaf, hself]
    · refine (hfit n).congr ?_ ?_ ?_ fun children hchildren c hc => ⟨?_, ?_, ?_⟩
      · rw [h.children_withLeaf, if_neg hkn, if_neg fun heq => hn heq.symm]
      · rw [h.heightOf_withLeaf, if_neg hkn]
      · rw [h.deepestOf_withLeaf]
      · rw [h.heightOf_withLeaf, if_neg (hold hchildren c hc)]
      · exact hrank c (hold hchildren c hc)
      · rw [h.deepestOf_withLeaf]
  · rw [h.deepestOf_withLeaf, hself]
  · rcases hfit p old hchildren with ⟨-, hheight, -⟩ | ⟨c, hc, hheight, -⟩
    · refine ⟨k, hkp, ?_⟩
      rw [h.heightOf_withLeaf, if_neg h.ne, hheight]
      exact Nat.le_add_left _ _
    · have hkc := hold hchildren c hc.mem
      refine ⟨c, ?_, ?_⟩
      · rw [h.parent_withLeaf, if_neg hkc]
        exact hs.down hchildren c hc.mem
      · rw [h.heightOf_withLeaf, if_neg h.ne, h.heightOf_withLeaf, if_neg hkc, hheight]
  · intro d hd hlt children hchildren'
    have hdk : k ≠ d := by
      rintro rfl
      exact lt_irrefl _ hlt
    have hdp := h.isChild_of_ne hdk.symm hd
    obtain ⟨below, hbelow, hmem⟩ := hs.link hdp
    rw [hchildren] at hbelow
    cases hbelow
    rw [h.children_withLeaf, if_neg h.ne, if_pos rfl, hchildren] at hchildren'
    cases hchildren'
    rcases hfit p old hchildren with ⟨hnil, -⟩ | ⟨c, hc, hheight, hslot⟩
    · rw [hnil] at hmem
      cases hmem
    · have hkc := hold hchildren c hc.mem
      refine .inr ⟨c, ⟨mem_insertChild_iff.mpr (.inr hc.mem), fun e he => ?_⟩, ?_, ?_⟩
      · rw [hrank c hkc]
        rcases mem_insertChild_iff.mp he with rfl | he
        · rw [hrank d hdk] at hlt
          exact hlt.le.trans (hc.greatest d hmem)
        · rw [hrank e (hold hchildren e he)]
          exact hc.greatest e he
      · rw [h.heightOf_withLeaf, if_neg h.ne, h.heightOf_withLeaf, if_neg hkc, hheight]
      · rw [h.deepestOf_withLeaf, hslot]

include hs in
/-- The leaf adds no stake. -/
theorem stakeAt_withLeaf (hfit : ∀ n, fc.StakeAt n) (n : SlotHashKey) :
    (fc.withLeaf k p).StakeAt n := by
  have hzero : fc.stakeOf k = 0 := by
    rw [stakeOf, stakeVotedSubtree, h.get_eq_none]
    rfl
  intro children hchildren
  rw [h.children_withLeaf] at hchildren
  rw [h.stakeOf_withLeaf, h.stakeVotedAt_withLeaf]
  split_ifs at hchildren with hkn hpn
  · cases hchildren
    rw [if_pos hkn, ← hkn, hzero]
    rfl
  · obtain ⟨old, hold, rfl⟩ := map_eq_some_iff.mp hchildren
    have hmem : k ∉ old := fun hmem => h.fresh (present_of_parent (hs.down hold k hmem))
    have hsum : ((insertChild k old).map fc.stakeOf).sum = (old.map fc.stakeOf).sum := by
      rw [insertChild, if_neg hmem, ((perm_orderedInsert _ k old).map fc.stakeOf).sum_nat,
        map_cons, sum_cons, hzero, Nat.zero_add]
    rw [if_neg hkn, hsum]
    exact hfit n old hold
  · rw [if_neg hkn]
    exact hfit n children hchildren

theorem addNewLeafSlot_eq :
    fc.addNewLeafSlot k (some p) = (fc.withLeaf k p).propagateNewLeaf k p := by
  have hk : ¬fc.containsBlock k = true := mt containsBlock_iff.mp h.fresh
  have hp : ({ fc with forkInfos := fc.forkInfos.insert k (fc.newLeaf k (some p)) } :
      HeaviestSubtreeForkChoice).containsBlock p = true := by
    have hget : ({ fc with forkInfos := fc.forkInfos.insert k (fc.newLeaf k (some p)) } :
        HeaviestSubtreeForkChoice).get p = fc.get p :=
      (get_insert fc.forkInfos k p _).trans (if_neg h.ne)
    rw [containsBlock, hget]
    exact containsBlock_iff.mpr h.parent
  rw [addNewLeafSlot, if_neg hk]
  dsimp only
  rw [if_pos hp]
  rfl

end NewLeaf

/-- The hole of the second loop, after the first one. -/
theorem DeepestHole.of_bestDone (h : fc.DeepestHole leaf a c) (hdone : fc.BestDone fc') :
    fc'.DeepestHole leaf a c := by
  have hw := hdone.weights
  have hrank : fc'.deepestRank = fc.deepestRank := by
    funext m
    show toLex (_, _) = toLex (_, _)
    rw [hdone.heightOf, hw.bestRank]
  have hfit : ∀ n, fc.DeepestAt n → fc'.DeepestAt n := by
    intro n hn
    refine hn.congr (by rw [hw.sameTree.children]) (by rw [hdone.heightOf])
      (by rw [hdone.deepestOf]) fun _ _ c _ => ⟨?_, ?_, ?_⟩
    · rw [hdone.heightOf]
    · rw [hrank]
    · rw [hdone.deepestOf]
  refine ⟨fun n hn => hfit n (h.others n hn), ?_, ?_, ?_, fun d hd hlt => hfit a (h.stay d ?_ ?_)⟩
  · rw [hw.sameTree.parent]
    exact h.child
  · rw [hdone.deepestOf]
    exact h.leads
  · rw [hw.sameTree.parent, hdone.heightOf]
    exact h.low
  · rw [hw.sameTree.parent] at hd
    exact hd
  · rw [hrank] at hlt
    exact hlt

theorem SameWeights.stakeAt (hw : fc.SameWeights fc') (h : fc.StakeAt n) : fc'.StakeAt n := by
  intro children hchildren
  rw [hw.sameTree.children] at hchildren
  rw [hw.stakeOf, hw.stakeVotedAt]
  exact h children hchildren

theorem SameWeights.bestAt (hw : fc.SameWeights fc') (hbest : fc'.bestOf = fc.bestOf)
    (h : fc.BestAt n) : fc'.BestAt n := by
  refine h.congr (by rw [hw.sameTree.children]) (hw.candidate n).mp (by rw [hbest])
    fun _ _ c _ => ⟨hw.candidate c, ?_, ?_⟩
  · rw [hw.bestRank]
  · rw [hbest]

/-- If all nodes fit to their children, what is cached is right. -/
theorem cached_of_fits (hfit : ∀ n, fc.StakeAt n ∧ fc.DeepestAt n ∧ fc.BestAt n)
    (hbelow : ∀ n, fc.Present n → fc.Below n (fc.bestOf n)) : fc.Cached [] := by
  have hsettled : ∀ n, fc.SettledAt n := fun n => settledAt_iff.mpr (hfit n)
  refine ⟨fun n => .inl (hsettled n), ?_, ?_⟩
  · intro n info hget
    have h := hbelow n ⟨info, hget⟩
    rw [bestOf_eq hget] at h
    exact h
  · intro n info hget
    rw [(hsettled n info hget).subtree]
    exact Nat.le_add_right _ _

/-- What a new leaf does. -/
structure LeafAdded (fc : HeaviestSubtreeForkChoice) (k p : SlotHashKey)
    (fc' : HeaviestSubtreeForkChoice) : Prop where
  shaped : fc'.Shaped
  cached : fc'.Cached []
  treeRoot : fc'.treeRoot = fc.treeRoot
  latestVotes : fc'.latestVotes = fc.latestVotes
  parent : ∀ n, fc'.parent n = if k = n then some p else fc.parent n
  present : ∀ n, fc'.Present n ↔ n = k ∨ fc.Present n
  stakeVotedAt : ∀ n, fc'.stakeVotedAt n = if k = n then some 0 else fc.stakeVotedAt n
  confirmed : ∀ n, fc'.Confirmed n ↔ fc.Confirmed n
  latestInvalidAncestor : ∀ n, fc'.latestInvalidAncestor n =
    if k = n then fc.latestInvalidAncestor p else fc.latestInvalidAncestor n

/-- **A new leaf is added, and all nodes fit.** -/
theorem NewLeaf.exists_addNewLeafSlot_eq (h : fc.NewLeaf k p) (hs : fc.Shaped)
    (hcached : fc.Cached []) :
    ∃ fc', fc.addNewLeafSlot k (some p) = some fc' ∧ fc.LeafAdded k p fc' := by
  have hfit : ∀ n, fc.StakeAt n ∧ fc.DeepestAt n ∧ fc.BestAt n :=
    fun n => settledAt_iff.mp ((hcached.covered n).resolve_right not_mem_nil)
  have hbelow : ∀ n, fc.Present n → fc.Below n (fc.bestOf n) := by
    rintro n ⟨info, hget⟩
    rw [bestOf_eq hget]
    exact hcached.best_below hget
  have hs1 := h.shaped_withLeaf hs
  have hkp : (fc.withLeaf k p).parent k = some p := by rw [h.parent_withLeaf, if_pos rfl]
  -- the first loop, if the leaf is the best child
  have hfirst : ∃ b fc1, (fc.withLeaf k p).isBestChild k = some b ∧
      (if b = true then propagateBest k (fc.bestOf p) (p.slot + 1) (some p) (fc.withLeaf k p)
        else some (fc.withLeaf k p)) = some fc1 ∧ (fc.withLeaf k p).BestDone fc1 := by
    obtain ⟨b, heq, hb⟩ := hs1.exists_isBestChild_eq hkp
    cases b with
    | true =>
      have hhole := h.bestHole hs (fun n => (hfit n).2.2) hbelow (hb.mp rfl)
      obtain ⟨fc1, heq1, hdone⟩ := hhole.exists_propagateBest_eq hs1
        ((h.present_withLeaf p).mpr (.inr h.parent)) (Nat.lt_succ_self _)
      exact ⟨true, fc1, heq, heq1, hdone⟩
    | false =>
      refine ⟨false, fc.withLeaf k p, heq, rfl, SameWeights.refl _, rfl, rfl, fun n => ?_, ?_⟩
      · by_cases hn : n = p
        · obtain ⟨d, hd, hcandd, hlt⟩ : ∃ d, (fc.withLeaf k p).parent d = some p ∧
              (fc.withLeaf k p).Candidate d ∧
              (fc.withLeaf k p).bestRank k < (fc.withLeaf k p).bestRank d := by
            by_contra hnone
            push Not at hnone
            exact absurd (hb.mpr hnone) Bool.false_ne_true
          rw [hn]
          exact h.bestAt_parent hs (fun n => (hfit n).2.2) hd hcandd hlt
        · exact h.bestAt_withLeaf hs (fun n => (hfit n).2.2) hn
      · intro n hn
        exact h.best_below_withLeaf hbelow n hn
  obtain ⟨b, fc1, hbest, heq1, hdone⟩ := hfirst
  have hw1 := hdone.weights
  -- the second loop
  have hhole := (h.deepestHole hs fun n => (hfit n).2.1).of_bestDone hdone
  have hheight : fc1.heightOf k = 1 := by rw [hdone.heightOf, h.heightOf_withLeaf, if_pos rfl]
  obtain ⟨fc', heq', hdone'⟩ := hhole.exists_propagateDeepest_eq (hw1.sameTree.shaped hs1)
    (Nat.lt_succ_self _)
  rw [hheight] at heq'
  have hw := hw1.trans hdone'.weights
  refine ⟨fc', ?_, hw.sameTree.shaped hs1, ?_, hw.sameTree.treeRoot, hw.sameTree.latestVotes,
    ?_, ?_, ?_, ?_, ?_⟩
  · have hold : (fc.withLeaf k p).bestSlot p = some (fc.bestOf p) := by
      rw [Present.bestSlot_eq ((h.present_withLeaf p).mpr (.inr h.parent)), h.bestOf_withLeaf]
    rw [h.addNewLeafSlot_eq, propagateNewLeaf, hold, hbest]
    dsimp only [bind_eq_bind, bind_some]
    split_ifs at heq1 ⊢ with hb
    · rw [heq1]
      exact heq'
    · cases heq1
      exact heq'
  · refine cached_of_fits (fun n => ⟨?_, hdone'.deepest n, ?_⟩) fun n hn => ?_
    · exact hw.stakeAt (h.stakeAt_withLeaf hs (fun m => (hfit m).1) n)
    · exact hdone'.weights.bestAt hdone'.bestOf (hdone.best n)
    · rw [hdone'.bestOf, hdone'.weights.sameTree.below_iff]
      exact hdone.best_below n (hdone'.weights.sameTree.present_iff.mp hn)
  · intro n
    rw [hw.sameTree.parent]
    exact h.parent_withLeaf n
  · intro n
    rw [hw.sameTree.present_iff]
    exact h.present_withLeaf n
  · intro n
    rw [hw.stakeVotedAt]
    exact h.stakeVotedAt_withLeaf n
  · intro n
    rw [hw.confirmed]
    exact h.confirmed_withLeaf n
  · intro n
    rw [hw.latestInvalidAncestor]
    exact h.bind_get_withLeaf (f := ForkInfo.latestInvalidAncestor) (fun _ _ => rfl) n

/-- The leaf takes its marks from its parent. -/
theorem LeafAdded.marked (h : fc.LeafAdded k p fc') (hleaf : fc.NewLeaf k p) (hm : fc.Marked) :
    fc'.Marked := by
  refine ⟨fun {c q} hq hc => ?_, fun {n} hc => ?_, fun {n a} hn => ?_⟩
  · rw [h.confirmed] at hc ⊢
    rw [h.parent] at hq
    split_ifs at hq with hkc
    · exact absurd (present_of_confirmed (hkc ▸ hc)) hleaf.fresh
    · exact hm.up hq hc
  · rw [h.confirmed] at hc
    rw [h.latestInvalidAncestor, if_neg]
    · exact hm.valid hc
    · rintro rfl
      exact hleaf.fresh (present_of_confirmed hc)
  · rw [h.latestInvalidAncestor] at hn
    split_ifs at hn with hkn
    · rw [← hkn]
      exact (hm.latest_le hn).trans hleaf.slot_lt.le
    · exact hm.latest_le hn

/-! ## A single root -/

/-- The node of the first root. -/
def rootInfo (root : SlotHashKey) : ForkInfo := ⟨0, 0, 1, root, root, none, [], none, true⟩

theorem exists_new_eq (root : SlotHashKey) :
    ∃ fc, new root = some fc ∧ fc.treeRoot = root ∧ fc.latestVotes = ∅ ∧
      ∀ n, fc.get n = if root = n then some (rootInfo root) else none := by
  set fc0 : HeaviestSubtreeForkChoice := ⟨∅, ∅, root⟩ with hfc0
  have hempty : ∀ n, fc0.get n = none := fun n => Std.ExtTreeMap.getElem?_empty
  refine ⟨{ fc0 with forkInfos := fc0.forkInfos.insert root (fc0.newLeaf root none) }, ?_, rfl,
    rfl, fun n => ?_⟩
  · rw [new, addNewLeafSlot, containsBlock, hempty]
    rfl
  · show (fc0.forkInfos.insert root (fc0.newLeaf root none))[n]? = _
    rw [get_insert]
    split_ifs
    · rfl
    · exact hempty n

section New
variable {root : SlotHashKey} (h : new root = some fc)
include h
theorem get_new : fc.treeRoot = root ∧ fc.latestVotes = ∅ ∧
    ∀ n, fc.get n = if root = n then some (rootInfo root) else none := by
  obtain ⟨fc1, heq, hnew⟩ := exists_new_eq root
  rw [heq] at h
  cases h
  exact hnew

theorem eq_of_get_new {info : ForkInfo} (hn : fc.get n = some info) :
    n = root ∧ info = rootInfo root := by
  rw [(get_new h).2.2] at hn
  split_ifs at hn with heq
  exact ⟨heq.symm, (some_inj.mp hn).symm⟩

theorem parent_new (n : SlotHashKey) : fc.parent n = none := by
  show (fc.get n).bind ForkInfo.parent = none
  rw [(get_new h).2.2]
  split_ifs <;> rfl

theorem shaped_new : fc.Shaped := by
  obtain ⟨hroot, -, hget⟩ := get_new h
  have hchildren : ∀ {n below}, fc.children n = some below → below = [] := by
    intro n below hn
    obtain ⟨info, hgetn, rfl⟩ := map_eq_some_iff.mp hn
    rw [(eq_of_get_new h hgetn).2]
    rfl
  have hno : ∀ {n q}, ¬fc.parent n = some q := by
    intro n q hq
    rw [parent_new h] at hq
    cases hq
  refine ⟨?_, parent_new h _, ?_, fun hq => absurd hq hno, fun hq => absurd hq hno, ?_, ?_,
    fun hq => absurd hq hno⟩
  · refine exists_children_iff.mpr ⟨rootInfo root, ?_⟩
    rw [hroot, hget, if_pos rfl]
  · intro n below hn hne
    obtain ⟨info, hgetn⟩ := exists_children_iff.mp ⟨below, hn⟩
    rw [hroot] at hne
    exact absurd (eq_of_get_new h hgetn).1 hne
  · intro q below hbelow c hc
    rw [hchildren hbelow] at hc
    cases hc
  · intro q below hbelow
    rw [hchildren hbelow]
    exact nodup_nil

theorem cached_new : fc.Cached [] := by
  refine ⟨fun n => .inl fun info hget => ?_, fun {n info} hget => ?_, fun {n info} hget => ?_⟩
  · obtain ⟨rfl, rfl⟩ := eq_of_get_new h hget
    exact ⟨rfl, .inl ⟨rfl, rfl, rfl⟩, fun _ => .inl ⟨nofun, rfl⟩⟩
  · obtain ⟨rfl, rfl⟩ := eq_of_get_new h hget
    exact refl
  · obtain ⟨rfl, rfl⟩ := eq_of_get_new h hget
    exact le_rfl

theorem latestInvalidAncestor_new (n : SlotHashKey) : fc.latestInvalidAncestor n = none := by
  show (fc.get n).bind ForkInfo.latestInvalidAncestor = none
  rw [(get_new h).2.2]
  split_ifs <;> rfl

theorem marked_new : fc.Marked := by
  refine ⟨fun {c p} hp _ => ?_, fun _ => latestInvalidAncestor_new h _, fun {n a} hn => ?_⟩
  · rw [parent_new h] at hp
    cases hp
  · rw [latestInvalidAncestor_new h] at hn
    cases hn

theorem confirmed_new : fc.Confirmed fc.treeRoot := by
  obtain ⟨hroot, -, hget⟩ := get_new h
  show (fc.get fc.treeRoot).map ForkInfo.isDuplicateConfirmed = some true
  rw [hroot, hget, if_pos rfl]
  rfl

end New
end FlowraValidator.Consensus.HeaviestSubtreeForkChoice
