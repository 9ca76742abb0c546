import FlowraValidator.Lib.Forest
import FlowraValidator.VoteProgram.TowerVoteState

/-!
# The local tower

`Tower` of `core/src/consensus.rs`, as far as lockouts go: a validator asks whether a slot is locked
out, and records its vote if it is not. A run fixes the tree of slots; the slots that do not
descend from the root of the tower are pruned, so no vote is for one of them.

The check simulates the vote, and looks at the votes that are left. It does not look at the vote
that the simulation roots. That the new root is an ancestor of the slot, as an assertion says,
follows from the shape of the tower: its votes are a chain, and the rooted one is below the others.

A failed assertion and the panic of a vote that is too old are `none`.

* `Tower.isLockedOut`, `Tower.recordBankVote`: the code.
* `VotingRun.Invariant`: the votes of the tower are a chain from the root, and every vote ever
  recorded is below the root, in the tower or expired.
* `VotingRun.Reaches.tower_safe`: the result for every run.
-/

namespace FlowraValidator.Consensus
open List Option VoteProgram Forest Relation TowerVoteState Lockout ReflTransGen

/-! ## The code -/

/-- `Tower`: what it votes with. -/
structure Tower where
  voteState : TowerVoteState
  deriving DecidableEq

namespace Tower

/-- `root`, which is `none` where the source unwraps `None`. -/
def root (t : Tower) : Option ℕ := t.voteState.rootSlot

def isRecent (t : Tower) (slot : ℕ) : Bool :=
  match t.voteState.lastVotedSlot, t.voteState.rootSlot with
  | some lastVotedSlot, _ => !decide (slot ≤ lastVotedSlot)
  | none, some root => !decide (slot ≤ root)
  | none, none => true

def isLockedOut (t : Tower) (slot : ℕ) (ancestors : List ℕ) : Option Bool :=
  if !t.isRecent slot then some true
  else
    let voteState := t.voteState.processNextVoteSlot slot
    if voteState.votes.any fun vote => decide (slot ≠ vote.slot ∧ vote.slot ∉ ancestors) then
      some true
    else
      match voteState.rootSlot with
      | some rootSlot => if slot ≠ rootSlot ∧ rootSlot ∉ ancestors then none else some false
      | none => some false

/-- `record_bank_vote_and_update_lockouts`: the new root, if it changed, and the tower. -/
def recordBankVote (t : Tower) (voteSlot : ℕ) : Option (Option ℕ × Tower) :=
  if t.voteState.lastVotedSlot.any fun lastVotedSlot => decide (voteSlot ≤ lastVotedSlot) then none
  else do
    let oldRoot ← t.root
    let t : Tower := ⟨t.voteState.processNextVoteSlot voteSlot⟩
    let newRoot ← t.root
    return (if oldRoot ≠ newRoot then some newRoot else none, t)

end Tower

/-! ## Runs -/

/-- A finite tree of slots, each parent smaller than its child. -/
structure SlotTree where
  root : ℕ
  slots : Finset ℕ
  parent : ℕ → Option ℕ
  root_mem : root ∈ slots
  parent_root : parent root = none
  exists_parent : ∀ s ∈ slots, s ≠ root → ∃ p ∈ slots, parent s = some p
  parent_lt : ∀ p s, parent s = some p → p < s
  le_max : ∀ s ∈ slots, s ≤ u64Max

namespace SlotTree

/-- All proper ancestors of a slot. -/
def ancestors (tree : SlotTree) (s : ℕ) : List ℕ := Forest.ancestors tree.parent s s

variable {tree : SlotTree}

theorem mem_ancestors {a s : ℕ} : a ∈ tree.ancestors s ↔ IsAncestor tree.parent a s :=
  mem_ancestors_iff id tree.parent_lt (le_refl s)

end SlotTree

/-- A tower with what happened to it: the slots recorded, the roots set (the first one at the
start), and the votes popped because they had expired, as they were then. -/
structure VotingRun where
  tower : Tower
  recorded : List ℕ
  roots : List ℕ
  popped : List Lockout

namespace VotingRun
variable {tree : SlotTree}

/-- A tower without votes at the root of the tree. -/
def start (tree : SlotTree) : VotingRun := ⟨⟨⟨[], some tree.root⟩⟩, [], [tree.root], []⟩

/-- The slot descends from the root of the tower. -/
def Descends (tree : SlotTree) (w : VotingRun) (s : ℕ) : Prop :=
  s ∈ tree.slots ∧ ∃ r ∈ w.tower.root, IsAncestorOrSelf tree.parent r s

/-- A slot that is not locked out is recorded. -/
inductive Step (tree : SlotTree) : VotingRun → VotingRun → Prop where
  | vote {w : VotingRun} {s : ℕ} {newRoot : Option ℕ} {t : Tower} (descends : w.Descends tree s)
      (free : w.tower.isLockedOut s (tree.ancestors s) = some false)
      (records : w.tower.recordBankVote s = some (newRoot, t)) :
      Step tree w ⟨t, w.recorded ++ [s], w.roots ++ newRoot.toList,
        w.popped ++ w.tower.voteState.expired s⟩

abbrev Reaches (tree : SlotTree) : VotingRun → VotingRun → Prop := ReflTransGen (Step tree)

/-- What is to be shown of every state of a run. -/
structure Safe (tree : SlotTree) (w : VotingRun) : Prop where
  no_panic : ∀ s, w.Descends tree s → ∃ locked,
    w.tower.isLockedOut s (tree.ancestors s) = some locked ∧
      (locked = false → ∃ r, w.tower.recordBankVote s = some r)
  path : ∃ r, w.tower.root = some r ∧ ∃ leaf ∈ tree.slots,
    (∀ s ∈ tree.slots, tree.parent s ≠ some leaf) ∧ IsAncestorOrSelf tree.parent r leaf ∧
      ∀ v ∈ w.tower.voteState.votes, IsAncestorOrSelf tree.parent v.slot leaf
  roots : w.roots.IsChain (IsAncestor tree.parent)
  lockouts : ∀ s₁ ∈ w.recorded, ∀ s₂ ∈ w.recorded, s₁ < s₂ →
    IsAncestor tree.parent s₁ s₂ ∨ ∃ v ∈ w.popped, v.slot = s₁ ∧ s₁ + 2 ^ v.confirmationCount < s₂

/-! ## The invariant -/

/-- The tower of a run with root `r`. -/
structure Invariant (tree : SlotTree) (w : VotingRun) (r : ℕ) : Prop where
  stacked : w.tower.voteState.Stacked
  root : w.tower.voteState.rootSlot = some r
  root_mem : r ∈ tree.slots
  vote_mem : ∀ v ∈ w.tower.voteState.votes, v.slot ∈ tree.slots
  -- the root and the votes, from the bottom to the top
  chain : (r :: w.tower.voteState.votes.map slot).Pairwise (IsAncestor tree.parent)
  roots : w.roots.IsChain (IsAncestor tree.parent) ∧ w.roots.getLast? = some r
  recorded_le : ∀ s ∈ w.recorded, ∃ v ∈ w.tower.voteState.votes, s ≤ v.slot
  recorded : ∀ s ∈ w.recorded, IsAncestorOrSelf tree.parent s r ∨
    (∃ v ∈ w.tower.voteState.votes, v.slot = s) ∨
    ∃ v ∈ w.popped, v.slot = s ∧ ∃ u ∈ w.tower.voteState.votes, s + 2 ^ v.confirmationCount < u.slot
  lockouts : ∀ s₁ ∈ w.recorded, ∀ s₂ ∈ w.recorded, s₁ < s₂ →
    IsAncestor tree.parent s₁ s₂ ∨ ∃ v ∈ w.popped, v.slot = s₁ ∧ s₁ + 2 ^ v.confirmationCount < s₂

theorem invariant_start (tree : SlotTree) : (start tree).Invariant tree tree.root where
  stacked := stacked_nil _
  root := rfl
  root_mem := tree.root_mem
  vote_mem := nofun
  chain := pairwise_singleton _ _
  roots := ⟨isChain_singleton _, rfl⟩
  recorded_le := nofun
  recorded := nofun
  lockouts := nofun

section Invariant
variable {w : VotingRun} {r s : ℕ}

section
variable (h : w.Invariant tree r)
include h
/-- A slot is recent if it is above the root and all votes. -/
theorem Invariant.isRecent_iff :
    w.tower.isRecent s = true ↔ r < s ∧ ∀ v ∈ w.tower.voteState.votes, v.slot < s := by
  have hlast := h.stacked.lastVotedSlot_lt_iff s
  unfold Tower.isRecent
  rw [h.root]
  cases hvotes : w.tower.voteState.lastVotedSlot with
  | none =>
    rw [hvotes, any_none] at hlast
    rw [Bool.not_eq_true', decide_eq_false_iff_not, not_le]
    exact ⟨fun hr => ⟨hr, hlast.mp rfl⟩, fun hall => hall.1⟩
  | some last =>
    rw [hvotes, any_some, decide_eq_false_iff_not] at hlast
    rw [Bool.not_eq_true', decide_eq_false_iff_not, hlast]
    refine ⟨fun hall => ⟨?_, hall⟩, fun hall => hall.2⟩
    obtain ⟨v, hv, -⟩ := map_eq_some_iff.mp hvotes
    have hmem := mem_of_getLast? hv
    exact (h.stacked.above r h.root v hmem).trans (hall v hmem)

/-- The root and the votes below a new one. -/
theorem Invariant.chain_survivors (s : ℕ) :
    ∃ r', (w.tower.voteState.survivors s).rootSlot = some r' ∧ r' ∈ tree.slots ∧
      (r' :: (w.tower.voteState.survivors s).votes.map slot).Pairwise
        (IsAncestor tree.parent) ∧
      (r' = r ∨ IsAncestor tree.parent r r' ∧ (w.tower.voteState.survivors s).votes ≠ []) := by
  have happend := w.tower.voteState.votes_eq_append s
  have hchain : (r :: (w.tower.voteState.popExpiredVotes s).votes.map slot).Pairwise
      (IsAncestor tree.parent) := by
    have hchain := h.chain
    rw [← happend, map_append, ← cons_append] at hchain
    exact (pairwise_append.mp hchain).1
  unfold survivors
  rcases (w.tower.voteState.popExpiredVotes s).popRooted_cases with
    ⟨v, rest, hvotes, hfull, heq⟩ | ⟨-, heq⟩
  · rw [hvotes, map_cons] at hchain
    obtain ⟨hroot, hchain'⟩ := pairwise_cons.mp hchain
    rw [heq]
    have hv : v ∈ (w.tower.voteState.popExpiredVotes s).votes := by
      rw [hvotes]
      exact mem_cons_self
    refine ⟨v.slot, rfl, h.vote_mem v (mem_of_mem_popExpiredVotes hv), hchain',
      .inr ⟨hroot _ mem_cons_self, ?_⟩⟩
    -- a full tower has other votes
    intro hnil
    have hlen := congrArg List.length hnil
    rw [hvotes, length_cons, hlen] at hfull
    exact absurd hfull (by decide)
  · rw [heq]
    exact ⟨r, h.root, h.root_mem, hchain, .inl rfl⟩

/-- The root after a vote for `s` is an ancestor of `s`, if the other votes are. -/
theorem Invariant.exists_root (hrs : IsAncestor tree.parent r s)
    (hanc : ∀ u ∈ (w.tower.voteState.survivors s).votes, IsAncestor tree.parent u.slot s) :
    ∃ r', (w.tower.voteState.survivors s).rootSlot = some r' ∧ r' ∈ tree.slots ∧
      (r' :: (w.tower.voteState.survivors s).votes.map slot ++ [s]).Pairwise
        (IsAncestor tree.parent) ∧
      (r' = r ∨ IsAncestor tree.parent r r') := by
  obtain ⟨r', hroot, hmem, hchain, hr⟩ := h.chain_survivors s
  refine ⟨r', hroot, hmem, ?_, hr.imp_right And.left⟩
  have hr's : IsAncestor tree.parent r' s := by
    rcases hr with rfl | ⟨-, hne⟩
    · exact hrs
    · obtain ⟨u, hu⟩ := exists_mem_of_ne_nil _ hne
      have hr'u := (pairwise_cons.mp hchain).1 _ (mem_map_of_mem hu)
      exact hr'u.trans (hanc u hu)
  refine pairwise_append.mpr ⟨hchain, pairwise_singleton _ _, ?_⟩
  intro a ha b hb
  rw [mem_singleton.mp hb]
  rcases mem_cons.mp ha with rfl | ha
  · exact hr's
  · obtain ⟨u, hu, rfl⟩ := mem_map.mp ha
    exact hanc u hu

variable (hlt : ∀ v ∈ w.tower.voteState.votes, v.slot < s)
include hlt in
/-- The slots of the tower after a vote. -/
theorem Invariant.slots_processNextVoteSlot :
    (w.tower.voteState.processNextVoteSlot s).votes.map slot =
      (w.tower.voteState.survivors s).votes.map slot ++ [s] := by
  rw [processNextVoteSlot_of_lt h.stacked hlt, map_slot_double, map_append]
  rfl

include hlt in
/-- What the check looks for: a vote below the new one that is on another fork. -/
theorem Invariant.any_iff :
    ((w.tower.voteState.processNextVoteSlot s).votes.any fun vote =>
        decide (s ≠ vote.slot ∧ vote.slot ∉ tree.ancestors s)) = true ↔
      ¬∀ u ∈ (w.tower.voteState.survivors s).votes, IsAncestor tree.parent u.slot s := by
  have hslot : (fun vote : Lockout => decide (s ≠ vote.slot ∧ vote.slot ∉ tree.ancestors s)) =
    (fun a => decide (s ≠ a ∧ a ∉ tree.ancestors s)) ∘ slot := rfl
  rw [hslot, ← List.any_map, h.slots_processNextVoteSlot hlt, List.any_eq_true, not_forall]
  constructor
  · rintro ⟨a, ha, hbad⟩
    obtain ⟨hne, hanc⟩ := of_decide_eq_true hbad
    rcases mem_append.mp ha with ha | ha
    · obtain ⟨u, hu, rfl⟩ := mem_map.mp ha
      exact ⟨u, fun hall => hanc (SlotTree.mem_ancestors.mpr (hall hu))⟩
    · exact absurd (mem_singleton.mp ha).symm hne
  · rintro ⟨u, hu⟩
    obtain ⟨hmem, hanc⟩ := Classical.not_imp.mp hu
    have hus := hlt u (mem_votes_iff.mpr (.inl hmem))
    refine ⟨u.slot, mem_append_left _ (mem_map_of_mem hmem), decide_eq_true ⟨?_, ?_⟩⟩
    · omega
    · exact fun hin => hanc (SlotTree.mem_ancestors.mp hin)

/-- **The assertion on the root holds.**  A slot is free exactly if the votes below a vote for it
are its ancestors. -/
theorem Invariant.isLockedOut_spec (hs : w.Descends tree s) :
    ∃ locked, w.tower.isLockedOut s (tree.ancestors s) = some locked ∧
      (locked = false → IsAncestor tree.parent r s ∧ (∀ v ∈ w.tower.voteState.votes, v.slot < s) ∧
        ∀ u ∈ (w.tower.voteState.survivors s).votes, IsAncestor tree.parent u.slot s) := by
  unfold Tower.isLockedOut
  by_cases hrecent : w.tower.isRecent s = true
  · obtain ⟨hlt, hvotes⟩ := h.isRecent_iff.mp hrecent
    obtain ⟨-, r0, hr0, hdesc⟩ := hs
    have hrs : IsAncestor tree.parent r s := by
      have heq : r0 = r := some_inj.mp ((mem_def.mp hr0).symm.trans h.root)
      rcases isAncestorOrSelf_iff.mp hdesc with hself | hanc
      · omega
      · exact heq ▸ hanc
    rw [hrecent, if_neg (by decide)]
    have hany : ((w.tower.voteState.processNextVoteSlot s).votes.any fun vote =>
        decide (s ≠ vote.slot ∧ vote.slot ∉ tree.ancestors s)) = true ↔
          ¬∀ u ∈ (w.tower.voteState.survivors s).votes, IsAncestor tree.parent u.slot s :=
      h.any_iff hvotes
    by_cases hanc : ∀ u ∈ (w.tower.voteState.survivors s).votes, IsAncestor tree.parent u.slot s
    · rw [if_neg (by rw [hany]; exact not_not.mpr hanc),
        processNextVoteSlot_of_lt h.stacked hvotes]
      obtain ⟨r', hroot, -, hchain, -⟩ := h.exists_root hrs hanc
      rw [hroot]
      dsimp only
      have hr's : r' ∈ tree.ancestors s := SlotTree.mem_ancestors.mpr
        ((pairwise_cons.mp hchain).1 s (mem_append_right _ (mem_singleton_self s)))
      rw [if_neg fun hno => hno.2 hr's]
      exact ⟨false, rfl, fun _ => ⟨hrs, hvotes, hanc⟩⟩
    · rw [if_pos (hany.mpr hanc)]
      exact ⟨true, rfl, fun hno => absurd hno (by decide)⟩
  · rw [if_pos (by rw [Bool.not_eq_true', ← Bool.not_eq_true]; exact hrecent)]
    exact ⟨true, rfl, fun hno => absurd hno (by decide)⟩

include hlt in
/-- A free slot can be recorded. -/
theorem Invariant.recordBankVote_eq {r' : ℕ}
    (hroot : (w.tower.voteState.survivors s).rootSlot = some r') :
    w.tower.recordBankVote s = some (if r ≠ r' then some r' else none,
      ⟨w.tower.voteState.processNextVoteSlot s⟩) := by
  have hlast := (h.stacked.lastVotedSlot_lt_iff s).mpr hlt
  unfold Tower.recordBankVote
  rw [if_neg (by rw [hlast]; exact Bool.false_ne_true)]
  unfold Tower.root
  rw [h.root, processNextVoteSlot_of_lt h.stacked hlt, hroot]
  rfl

/-- A vote expires before the slot that pops it. -/
theorem Invariant.expired_lt (hs : s ∈ tree.slots) {v : Lockout}
    (hv : v ∈ w.tower.voteState.expired s) : v.slot + 2 ^ v.confirmationCount < s := by
  have hlt := lastLockedOutSlot_lt_of_mem_expired hv
  have hcount := h.stacked.count_le v (mem_votes_iff.mpr (.inr (.inl hv)))
  have hle := tree.le_max s hs
  unfold lastLockedOutSlot lockout at hlt
  rw [Nat.min_eq_left hcount] at hlt
  unfold initialLockout at hlt
  omega

/-- What became of an earlier vote when `s` is recorded. -/
theorem Invariant.fate (hs : s ∈ tree.slots) (hlt : ∀ v ∈ w.tower.voteState.votes, v.slot < s)
    {r' : ℕ} (hroot : (w.tower.voteState.survivors s).rootSlot = some r')
    (hrr' : IsAncestorOrSelf tree.parent r r') {s₁ : ℕ} (hs1 : s₁ ∈ w.recorded) :
    IsAncestorOrSelf tree.parent s₁ r' ∨
      (∃ u ∈ (w.tower.voteState.survivors s).votes, u.slot = s₁) ∨
      ∃ v ∈ w.popped ++ w.tower.voteState.expired s, v.slot = s₁ ∧
        s₁ + 2 ^ v.confirmationCount < s := by
  rcases h.recorded s₁ hs1 with hr | ⟨v, hv, rfl⟩ | ⟨v, hv, hslot, u, hu, hlock⟩
  · exact .inl (trans hr hrr')
  · rcases mem_votes_iff.mp hv with hv | hv | ⟨hfull, hhead⟩
    · exact .inr (.inl ⟨v, hv, rfl⟩)
    · exact .inr (.inr ⟨v, mem_append_right _ hv, rfl, h.expired_lt hs hv⟩)
    · -- it is the new root
      left
      rcases w.tower.voteState.rootSlot_survivors s with ⟨-, hroom⟩ | ⟨v', heq, -, hhead'⟩
      · exact absurd hfull hroom
      · rw [hhead] at hhead'
        cases hhead'
        rw [hroot] at heq
        cases heq
        exact refl
  · have hus := hlt u hu
    exact .inr (.inr ⟨v, mem_append_left _ hv, hslot, by omega⟩)

end

/-- **One vote keeps the invariant.** -/
theorem Step.invariant {w' : VotingRun} (hstep : Step tree w w') (h : w.Invariant tree r) :
    ∃ r', w'.Invariant tree r' := by
  obtain ⟨hdesc, hfree, hrecords⟩ := hstep
  rename_i s newRoot t
  obtain ⟨locked, hlocked, hspec⟩ := h.isLockedOut_spec hdesc
  rw [hfree] at hlocked
  obtain ⟨hrs, hlt, hanc⟩ := hspec (some_inj.mp hlocked).symm
  obtain ⟨r', hroot, hmem, hchain, hr⟩ := h.exists_root hrs hanc
  have hs := hdesc.1
  have hrr' : IsAncestorOrSelf tree.parent r r' := isAncestorOrSelf_iff.mpr (hr.imp_left Eq.symm)
  rw [h.recordBankVote_eq hlt hroot] at hrecords
  cases hrecords
  have hfate := fun {s₁ : ℕ} => @Invariant.fate tree w r s h hs hlt r' hroot hrr' s₁
  have hr's : IsAncestor tree.parent r' s :=
    (pairwise_cons.mp hchain).1 s (mem_append_right _ (mem_singleton_self s))
  have hslots := h.slots_processNextVoteSlot hlt
  -- votes of the new tower, by their slots
  have hmem_slot : ∀ a, a ∈ (w.tower.voteState.survivors s).votes.map slot ++ [s] →
      ∃ v ∈ (w.tower.voteState.processNextVoteSlot s).votes, v.slot = a := by
    intro a ha
    rw [← hslots] at ha
    exact mem_map.mp ha
  obtain ⟨top, htop, htop_slot⟩ := hmem_slot s (mem_append_right _ (mem_singleton_self s))
  have hle : ∀ s₁ ∈ w.recorded, s₁ < s := by
    intro s₁ hs1
    obtain ⟨v, hv, hle⟩ := h.recorded_le s₁ hs1
    exact hle.trans_lt (hlt v hv)
  refine ⟨r', ?_, ?_, hmem, ?_, ?_, ?_, ?_, ?_, ?_⟩
  · refine h.stacked.processNextVoteSlot fun a ha => ?_
    rw [h.root] at ha
    cases mem_some_iff.mp ha
    exact hrs.rank_lt id tree.parent_lt
  · rwa [processNextVoteSlot_of_lt h.stacked hlt]
  · intro v hv
    have hv := mem_map_of_mem (f := slot) hv
    rw [hslots] at hv
    rcases mem_append.mp hv with hv | hv
    · obtain ⟨u, hu, heq⟩ := mem_map.mp hv
      exact heq ▸ h.vote_mem u (mem_votes_iff.mpr (.inl hu))
    · exact mem_singleton.mp hv ▸ hs
  · dsimp only
    rwa [hslots, ← cons_append]
  · obtain ⟨hroots, hlast⟩ := h.roots
    by_cases heq : r = r'
    · rw [if_neg (not_not.mpr heq), toList_none, append_nil]
      exact ⟨hroots, heq ▸ hlast⟩
    · rw [if_pos heq, toList_some]
      refine ⟨isChain_append.mpr ⟨hroots, isChain_singleton _, ?_⟩, getLast?_concat⟩
      intro a ha b hb
      rw [hlast] at ha
      cases mem_some_iff.mp ha
      cases mem_some_iff.mp hb
      exact hr.resolve_left fun hrr => heq hrr.symm
  · intro s₁ hs1
    refine ⟨top, htop, ?_⟩
    rw [htop_slot]
    rcases mem_append.mp hs1 with hs1 | hs1
    · exact (hle s₁ hs1).le
    · exact (mem_singleton.mp hs1).le
  · intro s₁ hs1
    rcases mem_append.mp hs1 with hs1 | hs1
    · rcases hfate hs1 with hanc1 | ⟨u, hu, rfl⟩ | ⟨v, hv, hslot, hlock⟩
      · exact .inl hanc1
      · exact .inr (.inl (hmem_slot _ (mem_append_left _ (mem_map_of_mem hu))))
      · exact .inr (.inr ⟨v, hv, hslot, top, htop, by rw [htop_slot]; exact hlock⟩)
    · rw [mem_singleton.mp hs1]
      exact .inr (.inl ⟨top, htop, htop_slot⟩)
  · intro s₁ hs1 s₂ hs2 hlt₁₂
    rcases mem_append.mp hs1 with hs1 | hs1 <;> rcases mem_append.mp hs2 with hs2 | hs2
    · rcases h.lockouts s₁ hs1 s₂ hs2 hlt₁₂ with hanc1 | ⟨v, hv, hlock⟩
      · exact .inl hanc1
      · exact .inr ⟨v, mem_append_left _ hv, hlock⟩
    · rw [mem_singleton.mp hs2]
      rcases hfate hs1 with hanc1 | ⟨u, hu, rfl⟩ | ⟨v, hv, hslot, hlock⟩
      · exact .inl (TransGen.trans_right hanc1 hr's)
      · exact .inl (hanc u hu)
      · exact .inr ⟨v, hv, hslot, hlock⟩
    · rw [mem_singleton.mp hs1] at hlt₁₂
      exact absurd (hle s₂ hs2) (by omega)
    · rw [mem_singleton.mp hs1, mem_singleton.mp hs2] at hlt₁₂
      exact absurd hlt₁₂ (lt_irrefl s)

/-- **The invariant is what was to be shown.** -/
theorem Invariant.safe (h : w.Invariant tree r) : w.Safe tree where
  no_panic := by
    intro s hs
    obtain ⟨locked, hlocked, hspec⟩ := h.isLockedOut_spec hs
    refine ⟨locked, hlocked, fun hfree => ?_⟩
    obtain ⟨hrs, hlt, hanc⟩ := hspec hfree
    obtain ⟨r', hroot, -⟩ := h.exists_root hrs hanc
    exact ⟨_, h.recordBankVote_eq hlt hroot⟩
  path := by
    -- the top of the tower, or the root if there are no votes
    have htop : ∃ top ∈ tree.slots, IsAncestorOrSelf tree.parent r top ∧
        ∀ v ∈ w.tower.voteState.votes, IsAncestorOrSelf tree.parent v.slot top := by
      have hchain := h.chain
      rcases eq_nil_or_concat w.tower.voteState.votes with hnil | ⟨votes, last, hvotes⟩
      · refine ⟨r, h.root_mem, refl, fun v hv => ?_⟩
        rw [hnil] at hv
        cases hv
      · rw [concat_eq_append] at hvotes
        have hlast : last ∈ w.tower.voteState.votes := by
          rw [hvotes]
          exact mem_append_right _ (mem_singleton_self _)
        obtain ⟨hroot, hchain'⟩ := pairwise_cons.mp hchain
        refine ⟨last.slot, h.vote_mem last hlast, (hroot _ (mem_map_of_mem hlast)).orSelf, ?_⟩
        rw [hvotes, map_append, pairwise_append] at hchain'
        intro v hv
        rw [hvotes] at hv
        rcases mem_append.mp hv with hv | hv
        · exact (hchain'.2.2 _ (mem_map_of_mem hv) _ (mem_singleton_self _)).orSelf
        · rw [mem_singleton.mp hv]
          exact refl
    obtain ⟨top, hmem, hroot, hvotes⟩ := htop
    obtain ⟨leaf, hleaf, htl, hno⟩ := exists_leaf id tree.parent_lt hmem
    exact ⟨r, h.root, leaf, hleaf, hno, trans hroot htl,
      fun v hv => trans (hvotes v hv) htl⟩
  roots := h.roots.1
  lockouts := h.lockouts

end Invariant

/-- **The local tower never violates a lockout.**  In every run, no assertion fails and no vote is
too old; the votes of the tower are on one path with its root; the roots are a chain; and a vote for
another fork comes after the lockout of the vote it gives up. -/
theorem Reaches.tower_safe {w : VotingRun} (h : Reaches tree (start tree) w) : w.Safe tree := by
  have hinv : ∃ r, w.Invariant tree r := by
    induction h with
    | refl => exact ⟨tree.root, invariant_start tree⟩
    | tail _ hstep ih =>
      obtain ⟨r, hr⟩ := ih
      exact hstep.invariant hr
  obtain ⟨r, hr⟩ := hinv
  exact hr.safe

/-- A fork: the slots 1 and 5 on top of slot 0. -/
def forkTree : SlotTree where
  root := 0
  slots := {0, 1, 5}
  parent := fun s => if s = 1 ∨ s = 5 then some 0 else none
  root_mem := by decide
  parent_root := by decide
  exists_parent := by decide
  parent_lt := by
    intro p s h
    by_cases hs : s = 1 ∨ s = 5
    · rw [if_pos hs] at h
      cases h
      omega
    · rw [if_neg hs] at h
      cases h
  le_max := by decide

/-- A vote for slot 1, and a vote for slot 5 after the first one expired. -/
theorem safe_forkTree :
    ∃ w, Reaches forkTree (start forkTree) w ∧ w.recorded = [1, 5] ∧ w.popped = [⟨1, 1⟩] ∧
      w.Safe forkTree := by
  let w1 : VotingRun := ⟨⟨⟨[⟨1, 1⟩], some 0⟩⟩, [1], [0], []⟩
  let w2 : VotingRun := ⟨⟨⟨[⟨5, 1⟩], some 0⟩⟩, [1, 5], [0], [⟨1, 1⟩]⟩
  have hdesc : ∀ s ∈ ({1, 5} : Finset ℕ), IsAncestorOrSelf forkTree.parent 0 s := by
    intro s hs
    refine single (if_pos ?_)
    simpa using hs
  have hfree1 : (start forkTree).tower.isLockedOut 1 (forkTree.ancestors 1) = some false := by
    decide
  have hrecords1 : (start forkTree).tower.recordBankVote 1 = some (none, w1.tower) := by decide
  have hfree2 : w1.tower.isLockedOut 5 (forkTree.ancestors 5) = some false := by decide
  have hrecords2 : w1.tower.recordBankVote 5 = some (none, w2.tower) := by decide
  have h1 : Step forkTree (start forkTree) w1 :=
    .vote ⟨by decide, 0, rfl, hdesc 1 (by decide)⟩ hfree1 hrecords1
  have h2 : Step forkTree w1 w2 :=
    .vote ⟨by decide, 0, rfl, hdesc 5 (by decide)⟩ hfree2 hrecords2
  have hreach : Reaches forkTree (start forkTree) w2 := .tail (.single h1) h2
  exact ⟨w2, hreach, rfl, rfl, hreach.tower_safe⟩

end VotingRun
end FlowraValidator.Consensus
