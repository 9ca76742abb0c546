import FlowraValidator.Consensus.ForkCandidates

/-!
# The fork choice does not depend on the history of the votes

A batch of votes takes the stake of a validator from its latest vote and adds it to the new one, and
a vote that is older, or has a larger hash at the same slot, is dropped. The latest vote of a
validator is then the best one of all its votes, in whatever order and batches they came.
All that a node caches follows from the latest votes and the tree, from the leaves up.

* `get_foldl_recordVote_eq`: the latest votes are the best ones of a history.
* `Settled.unique`: what a node caches is fixed by what its children cache.
* `eq_of_votesAdded`: the tree and the latest votes fix the fork choice.
* `Reachable.addVoteBatches_eq_of_best`: histories with the same best votes have the same result.
-/

namespace FlowraValidator.Consensus.HeaviestSubtreeForkChoice
open List Option OrdMap Forest Std.ExtTreeMap

variable {es : EpochStakes} {parentOf : SlotHashKey → Option SlotHashKey} {root : SlotHashKey}
  {fc fc' fc'' : HeaviestSubtreeForkChoice} {votes more : List (Pubkey × SlotHashKey)}

/-! ## Best votes -/

/-- Later votes come first, then votes with a smaller hash. -/
def voteRank (vote : SlotHashKey) : ℕ ×ₗ ℕᵒᵈ := toLex (vote.slot, OrderDual.toDual vote.hash)

/-- A vote is dropped if it is not better than the latest one. -/
theorem isOutdated_some_iff {latest vote : SlotHashKey} :
    isOutdated (some latest) vote = true ↔ ¬voteRank latest < voteRank vote := by
  unfold isOutdated voteRank
  rw [decide_eq_true_iff, not_lt, Prod.Lex.toLex_le_toLex]
  rfl

/-- The best vote of a validator in a history. -/
def bestVote (votes : List (Pubkey × SlotHashKey)) (pubkey : Pubkey) : Option SlotHashKey :=
  ((votes.filter (·.1 = pubkey)).map Prod.snd).argmax voteRank

/-- **The latest votes are the best ones.** -/
theorem get_foldl_recordVote_eq {treeRoot : SlotHashKey}
    (hroot : ∀ v ∈ votes, ¬v.2.slot < treeRoot.slot) (pubkey : Pubkey) :
    (votes.foldl (recordVote treeRoot) ∅)[pubkey]? = bestVote votes pubkey := by
  induction votes using reverseRecOn with
  | nil => exact getElem?_empty
  | append_singleton votes v ih =>
    have hold := ih fun w hw => hroot w (mem_append_left _ hw)
    have hlater := hroot v (mem_append_right _ (mem_singleton_self v))
    rw [foldl_append, foldl_cons, foldl_nil]
    generalize votes.foldl (recordVote treeRoot) ∅ = latestVotes at hold ⊢
    unfold bestVote at hold ⊢
    by_cases hv : v.1 = pubkey
    · subst hv
      rw [filter_append, filter_singleton, decide_eq_true rfl, cond_true, map_append, map_singleton,
        argmax_concat, ← hold]
      unfold recordVote
      cases hget : latestVotes[v.1]? with
      | none =>
        have hfresh : ¬isOutdated none v.2 = true := Bool.false_ne_true
        rw [if_neg (not_or_intro hlater hfresh), get_insert, if_pos rfl]
      | some latest =>
        by_cases hlt : voteRank latest < voteRank v.2
        · rw [if_neg (not_or_intro hlater fun hout => isOutdated_some_iff.mp hout hlt), get_insert,
            if_pos rfl]
          exact (if_pos hlt).symm
        · rw [if_pos (.inr (isOutdated_some_iff.mpr hlt)), hget]
          exact (if_neg hlt).symm
    · rw [filter_append, filter_singleton, decide_eq_false hv, cond_false, append_nil, ← hold]
      unfold recordVote
      split_ifs
      · rfl
      · rw [get_insert, if_neg hv]

/-! ## What a node caches -/

section
variable {n c d : SlotHashKey} {children : List SlotHashKey} {info info' : ForkInfo}

theorem DeepestChild.unique (h : fc.DeepestChild children c) (h' : fc.DeepestChild children d) :
    c = d := by
  have heq : fc.deepestRank c = fc.deepestRank d :=
    le_antisymm (h'.greatest c h.mem) (h.greatest d h'.mem)
  exact (Prod.mk.inj (Prod.mk.inj heq).2).2

theorem BestChild.unique (h : fc.BestChild children c) (h' : fc.BestChild children d) : c = d := by
  have heq : fc.bestRank c = fc.bestRank d :=
    le_antisymm (h'.greatest c h.mem h.candidate) (h.greatest d h'.mem h'.candidate)
  exact (Prod.mk.inj heq).2

/-- **A node caches only one thing**, given its place in the tree, its marks, its own stake and
what its children cache. -/
theorem Settled.unique (h : fc.Settled n info) (h' : fc.Settled n info')
    (hstake : info'.stakeVotedAt = info.stakeVotedAt) (hparent : info'.parent = info.parent)
    (hchildren : info'.children = info.children)
    (hlatest : info'.latestInvalidAncestor = info.latestInvalidAncestor)
    (hconfirmed : info'.isDuplicateConfirmed = info.isDuplicateConfirmed)
    (hcand : info.isCandidate = true) : info' = info := by
  have hsubtree : info'.stakeVotedSubtree = info.stakeVotedSubtree := by
    rw [h.subtree, h'.subtree, hstake, hchildren]
  have hdeepest : info'.height = info.height ∧ info'.deepestSlot = info.deepestSlot := by
    have hd' := h'.deepest
    rw [hchildren] at hd'
    rcases h.deepest with ⟨hnil, hheight, hslot⟩ | ⟨c, hc, hheight, hslot⟩ <;>
      rcases hd' with ⟨hnil', hheight', hslot'⟩ | ⟨d, hd, hheight', hslot'⟩
    · rw [hheight, hheight', hslot, hslot']
      exact ⟨rfl, rfl⟩
    · rw [hnil] at hd
      cases hd.mem
    · rw [hnil'] at hc
      cases hc.mem
    · rw [hheight, hheight', hslot, hslot', hc.unique hd]
      exact ⟨rfl, rfl⟩
  have hbest : info'.bestSlot = info.bestSlot := by
    have hcand' : info'.isCandidate = true := by
      unfold ForkInfo.isCandidate at hcand ⊢
      rwa [hlatest]
    have hb' := h'.best hcand'
    rw [hchildren] at hb'
    rcases h.best hcand with ⟨hnone, hslot⟩ | ⟨c, hc, hslot⟩ <;>
      rcases hb' with ⟨hnone', hslot'⟩ | ⟨d, hd, hslot'⟩
    · rw [hslot, hslot']
    · exact absurd hd.candidate (hnone d hd.mem)
    · exact absurd hc.candidate (hnone' c hc.mem)
    · rw [hslot, hslot', hc.unique hd]
  cases info
  cases info'
  cases hdeepest.1
  cases hdeepest.2
  simp_all only

end

/-! ## Batches of votes -/

/-- `add_votes`, for one batch after the other. -/
def addVoteBatches (es : EpochStakes) (fc : HeaviestSubtreeForkChoice)
    (batches : List (List (Pubkey × SlotHashKey))) : Option HeaviestSubtreeForkChoice :=
  batches.foldlM (fun fc votes => fc.apply es (.addVotes votes)) fc

/-- Every batch has votes of different validators, for nodes of the tree. -/
def IsHistory (fc : HeaviestSubtreeForkChoice) (batches : List (List (Pubkey × SlotHashKey))) :
    Prop :=
  ∀ votes ∈ batches, (votes.map Prod.fst).Nodup ∧ ∀ v ∈ votes, fc.Present v.2

theorem VotesAdded.trans (h : VotesAdded es fc votes fc') (h' : VotesAdded es fc' more fc'') :
    VotesAdded es fc (votes ++ more) fc'' := by
  refine ⟨⟨h'.sameTree.parent.trans h.sameTree.parent, h'.sameTree.children.trans
    h.sameTree.children, h'.sameTree.treeRoot.trans h.sameTree.treeRoot, ?_⟩, h'.cached, h'.counted,
    fun n => (h'.confirmed n).trans (h.confirmed n), h'.latest.trans h.latest⟩
  calc fc''.latestVotes = more.foldl (recordVote fc'.treeRoot) fc'.latestVotes :=
        h'.sameTree.latestVotes
    _ = more.foldl (recordVote fc.treeRoot) (votes.foldl (recordVote fc.treeRoot) fc.latestVotes) :=
        by rw [h.sameTree.latestVotes, h.sameTree.treeRoot]; rfl
    _ = (votes ++ more).foldl (recordVote fc.treeRoot) fc.latestVotes := foldl_append.symm

/-- **The batches are added, and what they do is what the votes of all of them do.** -/
theorem Sound.exists_addVoteBatches (h : Sound es parentOf fc)
    {batches : List (List (Pubkey × SlotHashKey))} (hhistory : fc.IsHistory batches) :
    ∃ fc', fc.addVoteBatches es batches = some fc' ∧ VotesAdded es fc batches.flatten fc' := by
  induction batches generalizing fc with
  | nil => exact ⟨fc, rfl, .refl fc, h.cached, h.counted, fun _ => Iff.rfl, rfl⟩
  | cons votes rest ih =>
    obtain ⟨hnodup, hpresent⟩ := hhistory votes mem_cons_self
    obtain ⟨fc1, best, heq, hsound, hadded⟩ :=
      h.exists_addVotes hnodup fun v hv => .inl (hpresent v hv)
    obtain ⟨fc', hrest, hadded'⟩ := ih hsound fun later hlater =>
      ⟨(hhistory later (mem_cons_of_mem _ hlater)).1, fun v hv =>
        hadded.sameTree.present_iff.mpr ((hhistory later (mem_cons_of_mem _ hlater)).2 v hv)⟩
    refine ⟨fc', ?_, hadded.trans hadded'⟩
    unfold addVoteBatches at hrest ⊢
    have hfirst : fc.apply es (.addVotes votes) = some fc1 := congrArg (Option.map Prod.fst) heq
    rwa [foldlM_cons, hfirst]

/-! ## The result -/

/-- **Of two ways to add votes that leave the same latest votes, the results are the same.** -/
theorem eq_of_votesAdded (hs : fc.Shaped)
    (hvalid : ∀ n, fc.Present n → fc.latestInvalidAncestor n = none)
    (h : VotesAdded es fc votes fc') (h' : VotesAdded es fc more fc'')
    (hvotes : fc'.latestVotes = fc''.latestVotes) : fc' = fc'' := by
  have hsame := h.sameTree
  have hsame' := h'.sameTree
  have hs' : fc'.Shaped := hsame.shaped hs
  -- from the leaves up: a child is less high than its parent
  have hnode : ∀ {n info}, fc'.get n = some info → fc''.get n = some info := by
    intro n info hget
    induction hh : info.height using Nat.strong_induction_on generalizing n info with
    | _ height ih =>
      subst hh
      have hpresent : fc.Present n := hsame.present_iff.mp ⟨info, hget⟩
      obtain ⟨info', hget'⟩ : fc''.Present n := hsame'.present_iff.mpr hpresent
      have hset := h.cached.settled hget
      have hchildren : ∀ c ∈ info.children, fc''.get c = fc'.get c := by
        intro c hc
        obtain ⟨infoc, hgetc⟩ := present_of_parent ((hs'.mem_children_iff hget).mp hc)
        have hlt := hset.heightOf_lt hc
        rw [heightOf_eq hgetc] at hlt
        rw [hgetc, ih _ hlt hgetc rfl]
      rw [hget', (hset.congr hchildren).unique (h'.cached.settled hget')]
      · rw [h.counted hget, h'.counted hget', hvotes]
      · rw [← parent_eq_of_get hget, ← parent_eq_of_get hget', hsame'.parent, hsame.parent]
        rfl
      · refine some_inj.mp ?_
        rw [← children_eq_of_get hget, ← children_eq_of_get hget', hsame'.children, hsame.children]
        rfl
      · rw [← latestInvalidAncestor_eq hget, ← latestInvalidAncestor_eq hget', h.latest, h'.latest]
      · have hiff : fc''.Confirmed n ↔ fc'.Confirmed n := by
          rw [h.confirmed, h'.confirmed]
        unfold Confirmed isDuplicateConfirmed at hiff
        rw [hget, hget'] at hiff
        exact Bool.eq_iff_iff.mpr ⟨fun hc => some_inj.mp (hiff.mp (congrArg some hc)),
          fun hc => some_inj.mp (hiff.mpr (congrArg some hc))⟩
      · refine (candidate_iff hget).mp ((candidate_iff_latest ⟨info, hget⟩).mpr ?_)
        rw [h.latest]
        exact hvalid n hpresent
  have hinfos : fc'.forkInfos = fc''.forkInfos := by
    refine ext_getElem? fun n => ?_
    cases hget : fc'.forkInfos[n]? with
    | some info => exact (hnode hget).symm
    | none =>
      cases hget' : fc''.forkInfos[n]? with
      | none => rfl
      | some info =>
        obtain ⟨info', hpresent⟩ : fc'.Present n :=
          hsame.present_iff.mpr (hsame'.present_iff.mp ⟨info, hget'⟩)
        cases hget.symm.trans hpresent
  have hroot : fc'.treeRoot = fc''.treeRoot := hsame.treeRoot.trans hsame'.treeRoot.symm
  cases fc'
  cases fc''
  cases hinfos
  cases hvotes
  cases hroot
  rfl

/-- **The fork choice depends only on the best vote of every validator.**  A tree without votes and
without invalid nodes is given. Any two histories of votes for its nodes, with the same best votes,
are added and end in the same fork choice. -/
theorem Reachable.addVoteBatches_eq_of_best (hslot : ∀ k p, parentOf k = some p → p.slot < k.slot)
    (h : Reachable es parentOf root fc) (hnew : fc.latestVotes = ∅)
    (hvalid : ∀ n, fc.Present n → fc.latestInvalidAncestor n = none)
    {batches batches' : List (List (Pubkey × SlotHashKey))} (hhistory : fc.IsHistory batches)
    (hhistory' : fc.IsHistory batches')
    (hbest : ∀ pubkey, bestVote batches.flatten pubkey = bestVote batches'.flatten pubkey) :
    ∃ fc', fc.addVoteBatches es batches = some fc' ∧
      fc.addVoteBatches es batches' = some fc' := by
  have hsound := h.sound hslot
  -- no vote is for a slot before the root
  have hvoted : ∀ {batches fc'}, fc.IsHistory batches → VotesAdded es fc batches.flatten fc' →
      ∀ pubkey : Pubkey, fc'.latestVotes[pubkey]? = bestVote batches.flatten pubkey := by
    intro batches fc' hhistory hadded
    have hlatest : fc'.latestVotes =
        batches.flatten.foldl (recordVote fc.treeRoot) fc.latestVotes :=
      hadded.sameTree.latestVotes
    rw [hlatest, hnew]
    refine get_foldl_recordVote_eq fun v hv => not_lt.mpr ?_
    obtain ⟨votes, hvotes, hmem⟩ := mem_flatten.mp hv
    exact hsound.shaped.slot_le (hsound.shaped.below_root ((hhistory votes hvotes).2 v hmem))
  obtain ⟨fc1, heq1, hadded1⟩ := hsound.exists_addVoteBatches hhistory
  obtain ⟨fc2, heq2, hadded2⟩ := hsound.exists_addVoteBatches hhistory'
  have hvotes : fc1.latestVotes = fc2.latestVotes := by
    refine ext_getElem? fun pubkey => ?_
    rw [hvoted hhistory hadded1, hvoted hhistory' hadded2, hbest]
  have hsame := eq_of_votesAdded hsound.shaped hvalid hadded1 hadded2 hvotes
  rw [← hsame] at heq2
  exact ⟨fc1, heq1, heq2⟩

/-- A vote, and the same vote twice. -/
theorem addVoteBatches_eq_repeated :
    ∃ fc fc', new ⟨0, 1⟩ = some fc ∧
      fc.addVoteBatches ⟨fun _ => 0, fun _ => some fun _ => 5⟩ [[(7, ⟨0, 1⟩)]] = some fc' ∧
      fc.addVoteBatches ⟨fun _ => 0, fun _ => some fun _ => 5⟩ [[(7, ⟨0, 1⟩)], [(7, ⟨0, 1⟩)]] =
        some fc' := by
  obtain ⟨fc, h, -, hvotes, hget⟩ := exists_new_eq ⟨0, 1⟩
  have hvalid : ∀ n, fc.Present n → fc.latestInvalidAncestor n = none := by
    intro n _
    unfold latestInvalidAncestor
    rw [hget]
    split_ifs <;> rfl
  have hhistory : ∀ count, fc.IsHistory (replicate count [(7, ⟨0, 1⟩)]) := by
    intro count votes hmem
    rw [eq_of_mem_replicate hmem]
    refine ⟨nodup_singleton 7, fun v hv => ⟨rootInfo ⟨0, 1⟩, ?_⟩⟩
    rw [mem_singleton.mp hv, hget, if_pos rfl]
  have hbest : ∀ pubkey : Pubkey, bestVote [(7, ⟨0, 1⟩)] pubkey =
      bestVote [(7, ⟨0, 1⟩), (7, ⟨0, 1⟩)] pubkey := by
    intro pubkey
    by_cases hp : (7 : Pubkey) = pubkey
    · subst hp
      decide
    · simp [bestVote, hp]
  have hslot : ∀ k p : SlotHashKey, none = some p → p.slot < k.slot := nofun
  obtain ⟨fc', hfirst, hsecond⟩ := Reachable.addVoteBatches_eq_of_best hslot (.new h) hvotes hvalid
    (hhistory 1) (hhistory 2) hbest
  exact ⟨fc, fc', h, hfirst, hsecond⟩

end FlowraValidator.Consensus.HeaviestSubtreeForkChoice
