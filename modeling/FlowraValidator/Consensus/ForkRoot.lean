import FlowraValidator.Consensus.ForkVotes

/-!
# A new root

The tree is cut down to the nodes below its new root. A node that stays keeps all its children, so
what is cached in it stays right; only the new root loses its parent.

* `RootSet`: the tree that is left.
* `Shaped.exists_setTreeRoot_eq`: a node below the root becomes the root.
* `RootSet.shaped`, `RootSet.cached`, `RootSet.marked`: what stays.
-/

namespace FlowraValidator.Consensus.HeaviestSubtreeForkChoice
open List Option OrdMap Forest Relation ReflTransGen

variable {fc fc' : HeaviestSubtreeForkChoice} {a b c k n p newRoot : SlotHashKey} {info : ForkInfo}

/-! ## Removing nodes -/

/-- All keys are removed if they are different and in the tree. -/
theorem exists_removeAll_eq {keys : List SlotHashKey} (hnodup : keys.Nodup)
    (hpresent : ∀ a ∈ keys, fc.Present a) :
    ∃ fc', fc.removeAll keys = some fc' ∧ fc'.treeRoot = fc.treeRoot ∧
      fc'.latestVotes = fc.latestVotes ∧
      ∀ n, fc'.get n = if n ∈ keys then none else fc.get n := by
  induction keys generalizing fc with
  | nil => exact ⟨fc, rfl, rfl, rfl, fun n => (if_neg not_mem_nil).symm⟩
  | cons a rest ih =>
    obtain ⟨hfirst, hnodup'⟩ := nodup_cons.mp hnodup
    set fc1 : HeaviestSubtreeForkChoice := { fc with forkInfos := fc.forkInfos.erase a } with hfc1
    have hget : ∀ n, fc1.get n = if a = n then none else fc.get n :=
      fun n => get_erase fc.forkInfos a n
    have hpresent1 : ∀ b ∈ rest, fc1.Present b := by
      intro b hb
      obtain ⟨info, hinfo⟩ := hpresent b (mem_cons_of_mem _ hb)
      refine ⟨info, ?_⟩
      rw [hget, if_neg]
      · exact hinfo
      · rintro rfl
        exact hfirst hb
    obtain ⟨fc', heq, hroot, hvotes, hget'⟩ := ih hnodup' hpresent1
    refine ⟨fc', ?_, hroot, hvotes, fun n => ?_⟩
    · rwa [removeAll, if_pos (containsBlock_iff.mpr (hpresent a mem_cons_self))]
    · rw [hget', hget]
      by_cases hmem : n ∈ rest
      · rw [if_pos hmem, if_pos (mem_cons_of_mem _ hmem)]
      · by_cases han : a = n
        · rw [if_neg hmem, if_pos han, if_pos (han ▸ mem_cons_self)]
        · rw [if_neg hmem, if_neg han, if_neg fun hmem' => ?_]
          rcases mem_cons.mp hmem' with heq' | hmem'
          · exact han heq'.symm
          · exact hmem hmem'

/-- The new root has no parent. -/
def detach (newRoot n : SlotHashKey) (info : ForkInfo) : ForkInfo :=
  if newRoot = n then { info with parent := none } else info

/-- What a new root leaves. -/
structure RootSet (fc : HeaviestSubtreeForkChoice) (newRoot : SlotHashKey)
    (fc' : HeaviestSubtreeForkChoice) : Prop where
  treeRoot : fc'.treeRoot = newRoot
  latestVotes : fc'.latestVotes = fc.latestVotes
  below : ∀ n, fc.Below newRoot n → fc'.get n = (fc.get n).map (detach newRoot n)
  other : ∀ n, ¬fc.Below newRoot n → fc'.get n = none

/-- **A node below the root becomes the root.** -/
theorem Shaped.exists_setTreeRoot_eq (hs : fc.Shaped)
    (hnew : IsAncestor fc.parent fc.treeRoot newRoot) :
    ∃ fc', fc.setTreeRoot newRoot = some fc' ∧ fc.RootSet newRoot fc' := by
  obtain ⟨removed, hdiff, hnodup, hremoved⟩ := hs.exists_subtreeDiff_eq hs.root_present newRoot
  have hmem : ∀ n, fc.Present n → (n ∈ removed ↔ ¬fc.Below newRoot n) := by
    intro n hn
    rw [hremoved]
    exact ⟨fun h hbelow => h.2 ⟨hnew.orSelf, hbelow⟩,
      fun h => ⟨hs.below_root hn, fun hboth => h hboth.2⟩⟩
  have hpresent : fc.Present newRoot := present_of_below hs.root_present hnew.orSelf
  obtain ⟨fc1, heq, -, hvotes, hget⟩ := exists_removeAll_eq hnodup fun n hn =>
    present_of_below hs.root_present ((hremoved n).mp hn).1
  have hkeep : fc1.get newRoot = fc.get newRoot := by
    rw [hget, if_neg]
    exact fun h => (hmem newRoot hpresent).mp h refl
  have hpresent1 : fc1.Present newRoot := by
    obtain ⟨info, hinfo⟩ := hpresent
    exact ⟨info, hkeep.trans hinfo⟩
  refine ⟨{ fc1.modifyInfo newRoot fun info => { info with parent := none } with
    treeRoot := newRoot }, ?_, rfl, hvotes, fun n hn => ?_, fun n hn => ?_⟩
  · rw [setTreeRoot, hdiff]
    dsimp only [bind_eq_bind, bind_some]
    rw [heq]
    dsimp only [bind_some]
    rw [if_pos (containsBlock_iff.mpr hpresent1)]
  · show (fc1.modifyInfo newRoot _).get n = _
    rw [get_modifyInfo]
    by_cases hnr : newRoot = n
    · subst hnr
      rw [if_pos rfl, hkeep]
      refine congrArg (Option.map · _) ?_
      funext info
      exact (if_pos rfl).symm
    · have hn' : n ∉ removed := fun h => (hmem n (present_of_below hpresent hn)).mp h hn
      have hid : detach newRoot n = id := by
        funext info
        exact if_neg hnr
      rw [if_neg hnr, hget, if_neg hn', hid, Option.map_id_fun]
      rfl
  · show (fc1.modifyInfo newRoot _).get n = _
    have hnr : newRoot ≠ n := by
      rintro rfl
      exact hn refl
    rw [get_modifyInfo, if_neg hnr, hget]
    split_ifs with h
    · rfl
    · cases hget' : fc.get n with
      | none => rfl
      | some info => exact absurd ((hmem n ⟨info, hget'⟩).mpr hn) h

namespace RootSet
variable (h : fc.RootSet newRoot fc')
include h
theorem exists_of_get (hget : fc'.get n = some info) :
    fc.Below newRoot n ∧ ∃ info0, fc.get n = some info0 ∧ info = detach newRoot n info0 := by
  by_cases hn : fc.Below newRoot n
  · rw [h.below n hn] at hget
    obtain ⟨info0, hget0, rfl⟩ := map_eq_some_iff.mp hget
    exact ⟨hn, info0, hget0, rfl⟩
  · rw [h.other n hn] at hget
    cases hget

theorem get_of_ne (hn : fc.Below newRoot n) (hne : newRoot ≠ n) : fc'.get n = fc.get n := by
  have hid : detach newRoot n = id := by
    funext info
    exact if_neg hne
  rw [h.below n hn, hid, Option.map_id_fun]
  rfl

variable (hs : fc.Shaped) (hnew : IsAncestor fc.parent fc.treeRoot newRoot)
include hs in
theorem parent_iff : fc'.parent n = some p ↔ fc.Below newRoot p ∧ fc.parent n = some p := by
  constructor
  · intro hp
    obtain ⟨info, hget⟩ := present_of_parent hp
    obtain ⟨hn, info0, hget0, rfl⟩ := h.exists_of_get hget
    have hne : newRoot ≠ n := by
      rintro rfl
      rw [parent_eq_of_get hget, detach, if_pos rfl] at hp
      cases hp
    rw [parent_eq_of_get hget, detach, if_neg hne, ← parent_eq_of_get hget0] at hp
    rcases isAncestorOrSelf_iff.mp hn with heq | hanc
    · exact absurd heq hne
    · obtain ⟨q, hq, hbelow⟩ := isAncestor_iff.mp hanc
      rw [hp] at hq
      cases hq
      exact ⟨hbelow, hp⟩
  · rintro ⟨hbelow, hp⟩
    have hne : newRoot ≠ n := by
      rintro rfl
      exact hs.not_below_child hp hbelow
    obtain ⟨info, hget⟩ := present_of_parent hp
    rw [← hp, parent_eq_of_get hget]
    refine parent_eq_of_get ?_
    rwa [h.get_of_ne (hbelow.tail hp) hne]

include hs hnew in
theorem present_iff : fc'.Present n ↔ fc.Below newRoot n := by
  constructor
  · rintro ⟨info, hget⟩
    exact (h.exists_of_get hget).1
  · intro hn
    obtain ⟨info, hget⟩ := present_of_below hs.root_present
      (IsAncestor.orSelf (TransGen.trans_left hnew hn))
    refine ⟨detach newRoot n info, ?_⟩
    rw [h.below n hn, hget]
    rfl

include hs in
/-- Nodes below a node that stays are below it. -/
theorem below_of_below (ha : fc.Below newRoot a) (hab : fc.Below a b) : fc'.Below a b := by
  induction hab with
  | refl => exact refl
  | tail hac hp ih => exact ih.tail ((h.parent_iff hs).mpr ⟨ha.trans hac, hp⟩)

/-- A node that stays keeps its children. -/
theorem children_of_below (hn : fc.Below newRoot n) : fc'.children n = fc.children n := by
  show (fc'.get n).map ForkInfo.children = (fc.get n).map ForkInfo.children
  rw [h.below n hn, Option.map_map]
  refine congrArg (Option.map · _) ?_
  funext info
  unfold detach
  split_ifs <;> rfl

include hs hnew in
theorem shaped : fc'.Shaped := by
  have hpresent : ∀ n, (∃ below, fc'.children n = some below) ↔ fc.Below newRoot n :=
    fun n => exists_children_iff.trans (h.present_iff hs hnew)
  refine ⟨?_, ?_, ?_, ?_, ?_, ?_, ?_, ?_⟩
  · rw [h.treeRoot]
    exact (hpresent newRoot).mpr refl
  · rw [h.treeRoot]
    cases hp : fc'.parent newRoot with
    | none => rfl
    | some p =>
      obtain ⟨hbelow, hp0⟩ := (h.parent_iff hs).mp hp
      exact absurd hbelow (hs.not_below_child hp0)
  · intro n below hn hne
    rw [h.treeRoot] at hne
    rcases isAncestorOrSelf_iff.mp ((hpresent n).mp ⟨below, hn⟩) with heq | hanc
    · exact absurd heq.symm hne
    · obtain ⟨p, hp, hbelow⟩ := isAncestor_iff.mp hanc
      exact ⟨p, (h.parent_iff hs).mpr ⟨hbelow, hp⟩⟩
  · intro n p hp
    exact exists_children_iff.mpr (present_of_parent hp)
  · intro n p hp
    obtain ⟨hbelow, hp0⟩ := (h.parent_iff hs).mp hp
    rw [h.children_of_below hbelow]
    exact hs.link hp0
  · intro p below hbelow c hc
    have hp := (hpresent p).mp ⟨below, hbelow⟩
    rw [h.children_of_below hp] at hbelow
    exact (h.parent_iff hs).mpr ⟨hp, hs.down hbelow c hc⟩
  · intro p below hbelow
    rw [h.children_of_below ((hpresent p).mp ⟨below, hbelow⟩)] at hbelow
    exact hs.nodup hbelow
  · intro n p hp
    exact hs.slot_lt ((h.parent_iff hs).mp hp).2

include hs in
/-- What a node that stays has apart from its parent. -/
theorem settled (hn : fc.Below newRoot n) (hget : fc.get n = some info) (hset : fc.Settled n info)
    : fc'.Settled n (detach newRoot n info) := by
  have hdetach : fc.Settled n (detach newRoot n info) := by
    unfold detach
    split_ifs
    · exact ⟨hset.subtree, hset.deepest, hset.best⟩
    · exact hset
  refine hdetach.congr fun c hc => ?_
  have hmem : c ∈ info.children := by
    revert hc
    unfold detach
    split_ifs <;> exact id
  have hp := (hs.mem_children_iff hget).mp hmem
  refine h.get_of_ne (hn.tail hp) ?_
  rintro rfl
  exact hs.not_below_child hp hn

include hs in
theorem cached (hcached : fc.Cached []) : fc'.Cached [] := by
  refine ⟨fun n => .inl fun info hget => ?_, fun {n info} hget => ?_, fun {n info} hget => ?_⟩
  · obtain ⟨hn, info0, hget0, rfl⟩ := h.exists_of_get hget
    exact h.settled hs hn hget0 (hcached.settled hget0)
  · obtain ⟨hn, info0, hget0, rfl⟩ := h.exists_of_get hget
    have hbest : (detach newRoot n info0).bestSlot = info0.bestSlot := by
      unfold detach
      split_ifs <;> rfl
    rw [hbest]
    exact h.below_of_below hs hn (hcached.best_below hget0)
  · obtain ⟨hn, info0, hget0, rfl⟩ := h.exists_of_get hget
    have hle := hcached.own_le hget0
    unfold detach
    split_ifs <;> exact hle

theorem confirmed (hn : fc.Below newRoot n) : fc'.Confirmed n ↔ fc.Confirmed n := by
  show (fc'.get n).map ForkInfo.isDuplicateConfirmed = some true ↔
    (fc.get n).map ForkInfo.isDuplicateConfirmed = some true
  rw [h.below n hn, Option.map_map]
  have hsame : ForkInfo.isDuplicateConfirmed ∘ detach newRoot n =
      ForkInfo.isDuplicateConfirmed := by
    funext info
    unfold detach
    split_ifs <;> rfl
  rw [hsame]

theorem latestInvalidAncestor (hn : fc.Below newRoot n) :
    fc'.latestInvalidAncestor n = fc.latestInvalidAncestor n := by
  show (fc'.get n).bind ForkInfo.latestInvalidAncestor =
    (fc.get n).bind ForkInfo.latestInvalidAncestor
  rw [h.below n hn]
  cases fc.get n with
  | none => rfl
  | some info =>
    unfold detach
    split_ifs <;> rfl

include hs in
theorem marked (hm : fc.Marked) : fc'.Marked := by
  have hbelow : ∀ {n}, fc'.Present n → fc.Below newRoot n := by
    rintro n ⟨info, hget⟩
    exact (h.exists_of_get hget).1
  refine ⟨fun {c p} hp hc => ?_, fun {n} hc => ?_, fun {n a} hn => ?_⟩
  · obtain ⟨hpb, hp0⟩ := (h.parent_iff hs).mp hp
    rw [h.confirmed (hpb.tail hp0)] at hc
    rw [h.confirmed hpb]
    exact hm.up hp0 hc
  · have hn := hbelow (present_of_confirmed hc)
    rw [h.confirmed hn] at hc
    rw [h.latestInvalidAncestor hn]
    exact hm.valid hc
  · rw [h.latestInvalidAncestor (hbelow (present_of_latestInvalidAncestor hn))] at hn
    exact hm.latest_le hn

theorem counted {es : EpochStakes} (hcounted : Counted es fc) : Counted es fc' := by
  intro n info hget
  obtain ⟨-, info0, hget0, rfl⟩ := h.exists_of_get hget
  have hat : (detach newRoot n info0).stakeVotedAt = info0.stakeVotedAt := by
    unfold detach
    split_ifs <;> rfl
  rw [hat, h.latestVotes]
  exact hcounted hget0

end RootSet
end FlowraValidator.Consensus.HeaviestSubtreeForkChoice
