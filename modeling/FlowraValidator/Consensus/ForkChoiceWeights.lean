import FlowraValidator.Consensus.ForkLeaf
import FlowraValidator.Consensus.ForkRoot

/-!
# Fork choice weights and best slots are exact

The operations of the fork choice, in any order, from a single root on. A block has one parent with
an earlier slot, because its hash depends on that of its parent; `parentOf` is this relation. So a
block that was removed with a new root is not below that root, and does not come back. This is why
a new leaf has no votes yet: the latest vote of a validator is for a block in the tree, or for one
that is not below the root.

* `Operation`, `apply`, `Allowed`: the operations, and when they may be used.
* `Exact`: what is cached is what the definitions say.
* `Sound`: the invariant.
* `Reachable.weights_exact`: operations that may be used return, and every tree is exact.
-/

namespace FlowraValidator.Consensus.HeaviestSubtreeForkChoice
open List Option OrdMap Forest Relation Prod

/-! ## Operations -/

inductive Operation where
  | addNewLeafSlot (k p : SlotHashKey)
  | addVotes (votes : List (Pubkey × SlotHashKey))
  | markForkInvalidCandidate (k : SlotHashKey)
  | markForkValidCandidate (k : SlotHashKey)
  | setTreeRoot (newRoot : SlotHashKey)

def apply (es : EpochStakes) (fc : HeaviestSubtreeForkChoice) :
    Operation → Option HeaviestSubtreeForkChoice
  | .addNewLeafSlot k p => fc.addNewLeafSlot k (some p)
  | .addVotes votes => (fc.addVotes es votes).map fst
  | .markForkInvalidCandidate k => fc.markForkInvalidCandidate k
  | .markForkValidCandidate k => (fc.markForkValidCandidate k).map snd
  | .setTreeRoot newRoot => fc.setTreeRoot newRoot

/-- A leaf is added below its parent. The voters of a batch are different, and vote for nodes of
the tree or for slots before the root. A duplicate confirmed node is not marked invalid, only nodes
are marked valid, and the new root is below the old one. -/
def Allowed (parentOf : SlotHashKey → Option SlotHashKey) (fc : HeaviestSubtreeForkChoice) :
    Operation → Prop
  | .addNewLeafSlot k p => parentOf k = some p ∧ fc.Present p
  | .addVotes votes => (votes.map fst).Nodup ∧
      ∀ v ∈ votes, fc.Present v.2 ∨ v.2.slot < fc.treeRoot.slot
  | .markForkInvalidCandidate k => ¬fc.Confirmed k
  | .markForkValidCandidate k => fc.Present k
  | .setTreeRoot newRoot => IsAncestor fc.parent fc.treeRoot newRoot

/-- The trees that are reached from a single root. -/
inductive Reachable (es : EpochStakes) (parentOf : SlotHashKey → Option SlotHashKey)
    (root : SlotHashKey) : HeaviestSubtreeForkChoice → Prop where
  | new {fc : HeaviestSubtreeForkChoice} (h : new root = some fc) : Reachable es parentOf root fc
  | step {fc fc' : HeaviestSubtreeForkChoice} {operation : Operation}
      (h : Reachable es parentOf root fc) (hallowed : fc.Allowed parentOf operation)
      (happly : fc.apply es operation = some fc') : Reachable es parentOf root fc'

/-! ## Exact trees -/

/-- The descent to the deepest child. -/
inductive DeepestPath (fc : HeaviestSubtreeForkChoice) : SlotHashKey → SlotHashKey → Prop where
  | stop {n : SlotHashKey} (h : fc.children n = some []) : DeepestPath fc n n
  | move {n c d : SlotHashKey} {children : List SlotHashKey} (h : fc.children n = some children)
      (hc : fc.DeepestChild children c) (hd : DeepestPath fc c d) : DeepestPath fc n d

/-- The descent to the best candidate, until there is none. -/
inductive BestPath (fc : HeaviestSubtreeForkChoice) : SlotHashKey → SlotHashKey → Prop where
  | stop {n : SlotHashKey} {children : List SlotHashKey} (h : fc.children n = some children)
      (hnone : ∀ c ∈ children, ¬fc.Candidate c) : BestPath fc n n
  | move {n c d : SlotHashKey} {children : List SlotHashKey} (h : fc.children n = some children)
      (hc : fc.BestChild children c) (hd : BestPath fc c d) : BestPath fc n d

/-- What is cached in the node is what the definitions say. -/
structure ExactAt (es : EpochStakes) (fc : HeaviestSubtreeForkChoice) (n : SlotHashKey)
    (info : ForkInfo) : Prop where
  children : ∀ c ∈ info.children, fc.Present c
  stakeVotedAt : info.stakeVotedAt = tally es fc.latestVotes n
  stakeVotedSubtree :
    info.stakeVotedSubtree = info.stakeVotedAt + (info.children.map fc.stakeOf).sum
  height : info.height = 1 + (info.children.map fc.heightOf).foldr max 0
  deepest : fc.DeepestPath n info.deepestSlot
  best : fc.Candidate n → fc.BestPath n info.bestSlot

def Exact (es : EpochStakes) (fc : HeaviestSubtreeForkChoice) : Prop :=
  ∀ n info, fc.get n = some info → ExactAt es fc n info

variable {fc fc' : HeaviestSubtreeForkChoice} {es : EpochStakes}
  {parentOf : SlotHashKey → Option SlotHashKey} {root k n p : SlotHashKey} {info : ForkInfo}
  {votes : List (Pubkey × SlotHashKey)}

/-- A child is less high. -/
theorem Settled.heightOf_lt (h : fc.Settled n info) {c : SlotHashKey} (hc : c ∈ info.children) :
    fc.heightOf c < info.height := by
  rcases h.deepest with ⟨hnil, -⟩ | ⟨d, hd, hheight, -⟩
  · rw [hnil] at hc
    cases hc
  · have hle : fc.heightOf c ≤ fc.heightOf d := by
      by_contra hlt
      exact absurd (hd.greatest c hc)
        (not_le.mpr (deepestRank_lt_iff.mpr (.inl (not_le.mp hlt))))
    omega

/-- **A node whose subtree is settled leads to its deepest and its best slot.** -/
theorem Cached.paths (hs : fc.Shaped) (hcached : fc.Cached []) (hget : fc.get n = some info) :
    fc.DeepestPath n info.deepestSlot ∧ (fc.Candidate n → fc.BestPath n info.bestSlot) := by
  induction hh : info.height using Nat.strong_induction_on generalizing n info with
  | _ h ih =>
    have hset := hcached.settled hget
    have hchildren := children_eq_of_get hget
    have hchild : ∀ c ∈ info.children, ∃ infoc, fc.get c = some infoc ∧
        fc.DeepestPath c infoc.deepestSlot ∧ (fc.Candidate c → fc.BestPath c infoc.bestSlot) := by
      intro c hc
      obtain ⟨infoc, hgetc⟩ := present_of_parent ((hs.mem_children_iff hget).mp hc)
      have hlt := hset.heightOf_lt hc
      rw [heightOf_eq hgetc] at hlt
      exact ⟨infoc, hgetc, ih _ (hh ▸ hlt) hgetc rfl⟩
    constructor
    · rcases hset.deepest with ⟨hnil, -, hslot⟩ | ⟨c, hc, -, hslot⟩
      · rw [hslot]
        rw [hnil] at hchildren
        exact DeepestPath.stop hchildren
      · obtain ⟨infoc, hgetc, hdeep, -⟩ := hchild c hc.mem
        rw [hslot, deepestOf_eq hgetc]
        exact DeepestPath.move hchildren hc hdeep
    · intro hcand
      rcases hset.best ((candidate_iff hget).mp hcand) with ⟨hnone, hslot⟩ | ⟨c, hc, hslot⟩
      · rw [hslot]
        exact BestPath.stop hchildren hnone
      · obtain ⟨infoc, hgetc, -, hbest⟩ := hchild c hc.mem
        rw [hslot, bestOf_eq hgetc]
        exact BestPath.move hchildren hc (hbest hc.candidate)

/-! ## The invariant -/

/-- What is true of every tree. -/
structure Sound (es : EpochStakes) (parentOf : SlotHashKey → Option SlotHashKey)
    (fc : HeaviestSubtreeForkChoice) : Prop where
  shaped : fc.Shaped
  cached : fc.Cached []
  marked : fc.Marked
  counted : Counted es fc
  known : ∀ {k p}, fc.parent k = some p → parentOf k = some p
  voted : ∀ {pubkey : Pubkey} {k : SlotHashKey}, fc.latestVotes[pubkey]? = some k →
    fc.Present k ∨ ¬IsAncestorOrSelf parentOf fc.treeRoot k

variable (h : Sound es parentOf fc) (hslot : ∀ k p, parentOf k = some p → p.slot < k.slot)
include h in
theorem Sound.exact : Exact es fc := by
  intro n info hget
  have hset := h.cached.settled hget
  obtain ⟨hdeepest, hbest⟩ := h.cached.paths h.shaped hget
  refine ⟨fun c hc => present_of_parent ((h.shaped.mem_children_iff hget).mp hc),
    h.counted hget, hset.subtree, ?_, hdeepest, hbest⟩
  rcases hset.deepest with ⟨hnil, hheight, -⟩ | ⟨c, hc, hheight, -⟩
  · rw [hnil, hheight]
    rfl
  · have hmax : (info.children.map fc.heightOf).foldr max 0 = fc.heightOf c := by
      refine le_antisymm (max_le_of_forall_le _ _ fun a ha => ?_)
        (le_max_of_le (mem_map_of_mem hc.mem) le_rfl)
      obtain ⟨d, hd, rfl⟩ := mem_map.mp ha
      have hlt := hset.heightOf_lt hd
      omega
    rw [hmax, hheight, Nat.add_comm]

include h in
/-- Nodes of the tree are below each other iff the blocks are. -/
theorem Sound.isAncestorOrSelf_of_below {a b : SlotHashKey} (hab : fc.Below a b)
    : IsAncestorOrSelf parentOf a b :=
  ReflTransGen.mono (fun _ _ hp => h.known hp) a b hab

include h in
/-- Only caches and marks are different. -/
theorem Sound.of_kept (hkept : fc.Kept fc') : Sound es parentOf fc' := by
  have hsame := hkept.sameTree
  refine ⟨hsame.shaped h.shaped, hkept.cached, hkept.marked, fun {n info} hget => ?_,
    fun {k p} hp => ?_, fun {pubkey k} hvote => ?_⟩
  · obtain ⟨info0, hget0⟩ := hsame.present_iff.mp ⟨info, hget⟩
    have hat := congrFun hkept.stakeVotedAt n
    rw [stakeVotedAt_eq hget, stakeVotedAt_eq hget0, some_inj] at hat
    rw [hat, hsame.latestVotes]
    exact h.counted hget0
  · rw [hsame.parent] at hp
    exact h.known hp
  · rw [hsame.latestVotes] at hvote
    rw [hsame.present_iff, hsame.treeRoot]
    exact h.voted hvote

theorem sound_new (h : new root = some fc) : Sound es parentOf fc := by
  obtain ⟨-, hvotes, -⟩ := get_new h
  refine ⟨shaped_new h, cached_new h, marked_new h, ?_, ?_, ?_⟩
  · intro n info hget
    rw [(eq_of_get_new h hget).2, hvotes]
    rfl
  · intro k p hp
    rw [parent_new h] at hp
    cases hp
  · intro pubkey k hvote
    rw [hvotes] at hvote
    cases Std.ExtTreeMap.getElem?_empty.symm.trans hvote

include h hslot in
/-- A new leaf. -/
theorem Sound.exists_addNewLeafSlot (hp : parentOf k = some p) (hpresent : fc.Present p) :
    ∃ fc', fc.addNewLeafSlot k (some p) = some fc' ∧ Sound es parentOf fc' := by
  by_cases hk : fc.Present k
  · refine ⟨fc, ?_, h⟩
    rw [addNewLeafSlot, if_pos (containsBlock_iff.mpr hk)]
  · have hleaf : fc.NewLeaf k p := ⟨hk, hpresent, hslot k p hp⟩
    obtain ⟨fc', heq, hadded⟩ := hleaf.exists_addNewLeafSlot_eq h.shaped h.cached
    have hbelow : IsAncestorOrSelf parentOf fc.treeRoot k :=
      (h.isAncestorOrSelf_of_below (h.shaped.below_root hpresent)).tail hp
    refine ⟨fc', heq, hadded.shaped, hadded.cached, hadded.marked hleaf h.marked, ?_, ?_, ?_⟩
    · intro n info hget
      have hat := hadded.stakeVotedAt n
      rw [stakeVotedAt_eq hget] at hat
      rw [hadded.latestVotes]
      split_ifs at hat with hkn
      · -- nobody has voted for a block that was not in the tree
        rw [some_inj.mp hat, ← hkn]
        refine (total_eq_zero fc.latestVotes fun pubkey vote hvote => if_neg ?_).symm
        rintro rfl
        rcases h.voted hvote with hpresent' | hnot
        · exact hk hpresent'
        · exact hnot hbelow
      · obtain ⟨info0, hget0⟩ :=
          ((hadded.present n).mp ⟨info, hget⟩).resolve_left fun heq' => hkn heq'.symm
        rw [stakeVotedAt_eq hget0, some_inj] at hat
        rw [hat]
        exact h.counted hget0
    · intro c q hq
      rw [hadded.parent] at hq
      split_ifs at hq with hkc
      · cases hq
        rwa [← hkc]
      · exact h.known hq
    · intro pubkey x hvote
      rw [hadded.latestVotes] at hvote
      rw [hadded.present, hadded.treeRoot]
      exact (h.voted hvote).imp_left .inr

/-- The latest votes are old ones or new ones. -/
theorem get_foldl_recordVote {treeRoot x : SlotHashKey} {latestVotes : OrdMap Pubkey SlotHashKey}
    {pubkey : Pubkey} (h : (votes.foldl (recordVote treeRoot) latestVotes)[pubkey]? = some x) :
    latestVotes[pubkey]? = some x ∨ ((pubkey, x) ∈ votes ∧ ¬x.slot < treeRoot.slot) := by
  induction votes generalizing latestVotes with
  | nil => exact .inl h
  | cons v rest ih =>
    rcases ih h with hold | ⟨hmem, hle⟩
    · unfold recordVote at hold
      split_ifs at hold with hskip
      · exact .inl hold
      · rw [get_insert] at hold
        split_ifs at hold with heq
        · cases hold
          subst heq
          exact .inr ⟨mem_cons_self, fun hlt => hskip (.inl hlt)⟩
        · exact .inl hold
    · exact .inr ⟨mem_cons_of_mem _ hmem, hle⟩

include h in
/-- New votes. -/
theorem Sound.exists_addVotes (hnodup : (votes.map fst).Nodup)
    (hvotes : ∀ v ∈ votes, fc.Present v.2 ∨ v.2.slot < fc.treeRoot.slot) :
    ∃ fc' best, fc.addVotes es votes = some (fc', best) ∧ Sound es parentOf fc' ∧
      VotesAdded es fc votes fc' := by
  obtain ⟨fc', best, heq, hadded⟩ := h.marked.exists_addVotes_eq h.shaped h.cached h.counted hnodup
  have hsame := hadded.sameTree
  have hparent : fc'.parent = fc.parent := hsame.parent
  have hroot : fc'.treeRoot = fc.treeRoot := hsame.treeRoot
  have hpresent : ∀ {n}, fc'.Present n ↔ fc.Present n := hsame.present_iff
  refine ⟨fc', best, heq, ⟨hsame.shaped h.shaped, hadded.cached, ⟨?_, ?_, ?_⟩, hadded.counted, ?_,
    ?_⟩, hadded⟩
  · intro c p hp hc
    rw [hparent] at hp
    rw [hadded.confirmed] at hc ⊢
    exact h.marked.up hp hc
  · intro n hc
    rw [hadded.confirmed] at hc
    rw [hadded.latest]
    exact h.marked.valid hc
  · intro n a hn
    rw [hadded.latest] at hn
    exact h.marked.latest_le hn
  · intro k p hp
    rw [hparent] at hp
    exact h.known hp
  · intro pubkey k hvote
    rw [hsame.latestVotes] at hvote
    rw [hpresent, hroot]
    rcases get_foldl_recordVote hvote with hold | ⟨hmem, hle⟩
    · exact h.voted hold
    · exact .inl ((hvotes _ hmem).resolve_right hle)

include h hslot in
/-- A new root. -/
theorem Sound.exists_setTreeRoot {newRoot : SlotHashKey}
    (hnew : IsAncestor fc.parent fc.treeRoot newRoot) :
    ∃ fc', fc.setTreeRoot newRoot = some fc' ∧ Sound es parentOf fc' := by
  obtain ⟨fc', heq, hset⟩ := h.shaped.exists_setTreeRoot_eq hnew
  have hs := h.shaped
  have hpresent : fc.Present newRoot := present_of_below hs.root_present hnew.orSelf
  -- a block below the new root that is in the tree is below it in the tree
  have hback : ∀ {x}, IsAncestorOrSelf parentOf newRoot x → fc.Present x →
      fc.Below newRoot x := by
    intro x hx
    induction hx with
    | refl => exact fun _ => ReflTransGen.refl
    | @tail b c hb hp ih =>
      intro hc
      have hlt := hs.slot_lt_of_isAncestor hnew
      have hle := IsAncestorOrSelf.rank_le SlotHashKey.slot (fun a b hab => hslot b a hab) hb
      have hne : c ≠ fc.treeRoot := by
        rintro rfl
        exact absurd (hlt.trans_le hle) (not_lt.mpr (hslot _ _ hp).le)
      obtain ⟨below, hbelow⟩ := exists_children_iff.mpr hc
      obtain ⟨q, hq⟩ := hs.up hbelow hne
      have hqb : q = b := some_inj.mp ((h.known hq).symm.trans hp)
      subst hqb
      exact (ih (hs.present_parent hq)).tail hq
  refine ⟨fc', heq, hset.shaped hs hnew, hset.cached hs h.cached, hset.marked hs h.marked,
    hset.counted h.counted, fun hp => h.known ((hset.parent_iff hs).mp hp).2, ?_⟩
  intro pubkey k hvote
  rw [hset.latestVotes] at hvote
  rw [hset.present_iff hs hnew, hset.treeRoot]
  by_cases hk : IsAncestorOrSelf parentOf newRoot k
  · refine .inl (hback hk ((h.voted hvote).resolve_right fun hnot => hnot ?_))
    exact (h.isAncestorOrSelf_of_below hnew.orSelf).trans hk
  · exact .inr hk

include h hslot in
/-- **One operation.**  It returns if it may be used, and the tree stays sound. -/
theorem Sound.exists_apply_eq {operation : Operation} (hallowed : fc.Allowed parentOf operation) :
    ∃ fc', fc.apply es operation = some fc' ∧ Sound es parentOf fc' := by
  cases operation with
  | addNewLeafSlot k p => exact h.exists_addNewLeafSlot hslot hallowed.1 hallowed.2
  | addVotes votes =>
    obtain ⟨fc', best, heq, hsound, -⟩ := h.exists_addVotes hallowed.1 hallowed.2
    exact ⟨fc', congrArg (Option.map fst) heq, hsound⟩
  | markForkInvalidCandidate k =>
    obtain ⟨fc', heq, hkept⟩ := h.marked.exists_invalid_kept h.shaped h.cached hallowed
    exact ⟨fc', heq, h.of_kept hkept⟩
  | markForkValidCandidate k =>
    obtain ⟨confirmed, fc', heq, hkept⟩ := h.marked.exists_valid_kept h.shaped h.cached hallowed
    exact ⟨fc', congrArg (Option.map snd) heq, h.of_kept hkept⟩
  | setTreeRoot newRoot => exact h.exists_setTreeRoot hslot hallowed

/-- Every tree is sound. -/
theorem Reachable.sound (h : Reachable es parentOf root fc)
    (hslot : ∀ k p, parentOf k = some p → p.slot < k.slot) : Sound es parentOf fc := by
  induction h with
  | new hnew => exact sound_new hnew
  | step _ hallowed happly ih =>
    obtain ⟨fc'', heq, hsound⟩ := ih.exists_apply_eq hslot hallowed
    rw [happly] at heq
    cases heq
    exact hsound

/-- **Weights and best slots are exact.**  From a single root on, every operation that may be used
returns, and in every tree that is reached each node caches what the definitions say. -/
theorem Reachable.weights_exact (hslot : ∀ k p, parentOf k = some p → p.slot < k.slot)
    (h : Reachable es parentOf root fc) :
    Exact es fc ∧ ∀ operation, fc.Allowed parentOf operation →
      ∃ fc', fc.apply es operation = some fc' := by
  have hsound := h.sound hslot
  refine ⟨hsound.exact, fun operation hallowed => ?_⟩
  obtain ⟨fc', heq, -⟩ := hsound.exists_apply_eq hslot hallowed
  exact ⟨fc', heq⟩

/-- A leaf and a vote for it. -/
theorem weights_exact_one_vote :
    ∃ fc, ((new ⟨0, 1⟩).bind fun fc =>
        (fc.apply ⟨fun _ => 0, fun _ => some fun _ => 5⟩ (.addNewLeafSlot ⟨1, 1⟩ ⟨0, 1⟩)).bind
          fun fc => fc.apply ⟨fun _ => 0, fun _ => some fun _ => 5⟩ (.addVotes [(7, ⟨1, 1⟩)])) =
        some fc ∧
      fc.stakeVotedSubtree ⟨0, 1⟩ = some 5 ∧
      Exact ⟨fun _ => 0, fun _ => some fun _ => 5⟩ fc := by
  set es : EpochStakes := ⟨fun _ => 0, fun _ => some fun _ => 5⟩
  set parentOf : SlotHashKey → Option SlotHashKey :=
    fun k => (some ⟨0, 1⟩ : Option SlotHashKey).filter (·.slot < k.slot)
  have hslot : ∀ k p, parentOf k = some p → p.slot < k.slot :=
    fun k p hp => of_decide_eq_true (Option.filter_eq_some_iff.mp hp).2
  have hrun : ((new ⟨0, 1⟩).bind fun fc0 =>
      (fc0.apply es (.addNewLeafSlot ⟨1, 1⟩ ⟨0, 1⟩)).bind fun fc1 =>
        (fc1.apply es (.addVotes [(7, ⟨1, 1⟩)])).map fun fc2 =>
          (fc0.containsBlock ⟨0, 1⟩, fc1.containsBlock ⟨1, 1⟩, fc2.stakeVotedSubtree ⟨0, 1⟩)) =
      some (true, true, some 5) := by
    decide +kernel
  obtain ⟨fc0, h0, hrun⟩ := bind_eq_some_iff.mp hrun
  obtain ⟨fc1, h1, hrun⟩ := bind_eq_some_iff.mp hrun
  obtain ⟨fc2, h2, hrun⟩ := map_eq_some_iff.mp hrun
  obtain ⟨hroot, hleaf, hstake⟩ : _ ∧ _ ∧ _ := by simpa only [Prod.mk.injEq] using hrun
  have hpresent0 : fc0.Present ⟨0, 1⟩ := containsBlock_iff.mp hroot
  have hpresent1 : fc1.Present ⟨1, 1⟩ := containsBlock_iff.mp hleaf
  have hvotes : fc1.Allowed parentOf (.addVotes [(7, ⟨1, 1⟩)]) := by
    refine ⟨nodup_singleton 7, fun v hv => ?_⟩
    rw [mem_singleton.mp hv]
    exact .inl hpresent1
  have hadd : fc0.Allowed parentOf (.addNewLeafSlot ⟨1, 1⟩ ⟨0, 1⟩) := ⟨rfl, hpresent0⟩
  have hreach : Reachable es parentOf ⟨0, 1⟩ fc2 := ((Reachable.new h0).step hadd h1).step hvotes h2
  refine ⟨fc2, ?_, hstake, (Reachable.weights_exact hslot hreach).1⟩
  rwa [h0, bind_some, h1]

end FlowraValidator.Consensus.HeaviestSubtreeForkChoice
