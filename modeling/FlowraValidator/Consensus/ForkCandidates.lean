import FlowraValidator.Consensus.ForkChoiceWeights

/-!
# Candidates and invalid marks

A node should be a candidate iff no node on its path from the root is marked invalid and has not
been duplicate confirmed since. To say so, the marks are kept beside the tree: an invalid mark adds
its node to the pending ones, and a valid mark takes out its node and all nodes above it, which it
duplicate confirms.

A valid mark clears the nodes below it and the nodes above it, and no others. So a node beside it,
below a node above it that was marked invalid, stays excluded from fork choice although the node
above is confirmed now (`not_reflects_side_branch`). This is the only way in which the marks and
the candidates come apart: a valid mark is right iff no node beside it has its latest invalid
ancestor above it (`Clears`).

* `Marking`, `step`: the tree with the pending marks.
* `Reflects`: candidates and latest invalid ancestors are what the pending marks say.
* `Runs.reflects_iff_clears`: when they are.
-/

namespace FlowraValidator.Consensus.HeaviestSubtreeForkChoice
open List Option Forest Relation ReflTransGen

/-! ## Marks beside the tree -/

inductive MarkEvent where
  | addNewLeafSlot (k p : SlotHashKey)
  | markForkInvalidCandidate (k : SlotHashKey)
  | markForkValidCandidate (k : SlotHashKey)

/-- The tree, and the nodes that are marked invalid and have not been confirmed since. -/
structure Marking where
  fc : HeaviestSubtreeForkChoice
  pending : List SlotHashKey

def Marking.step (m : Marking) : MarkEvent → Option Marking
  | .addNewLeafSlot k p => (m.fc.addNewLeafSlot k (some p)).map fun fc => ⟨fc, m.pending⟩
  | .markForkInvalidCandidate k => (m.fc.markForkInvalidCandidate k).map fun fc =>
      ⟨fc, if m.fc.containsBlock k then k :: m.pending else m.pending⟩
  | .markForkValidCandidate k => (m.fc.markForkValidCandidate k).map fun r =>
      ⟨r.2, m.pending.filter fun a => decide (a ∉ k :: m.fc.ancestorIterator k)⟩

/-- Leaves are added below nodes with an earlier slot, duplicate confirmed nodes are not marked
invalid, and only nodes are marked valid. -/
def MarkAllowed (fc : HeaviestSubtreeForkChoice) : MarkEvent → Prop
  | .addNewLeafSlot k p => fc.Present p ∧ p.slot < k.slot
  | .markForkInvalidCandidate k => ¬fc.Confirmed k
  | .markForkValidCandidate k => fc.Present k

instance (fc : HeaviestSubtreeForkChoice) (k : SlotHashKey) : Decidable (fc.Present k) :=
  decidable_of_iff _ containsBlock_iff

instance (fc : HeaviestSubtreeForkChoice) (k : SlotHashKey) : Decidable (fc.Confirmed k) :=
  inferInstanceAs (Decidable (fc.isDuplicateConfirmed k = some true))

instance (fc : HeaviestSubtreeForkChoice) : DecidablePred fc.MarkAllowed
  | .addNewLeafSlot k p => inferInstanceAs (Decidable (fc.Present p ∧ p.slot < k.slot))
  | .markForkInvalidCandidate k => inferInstanceAs (Decidable (¬fc.Confirmed k))
  | .markForkValidCandidate k => inferInstanceAs (Decidable (fc.Present k))

/-- The events, as long as they are allowed. -/
def Marking.exec (m : Marking) (events : List MarkEvent) : Option Marking :=
  events.foldlM (fun m event => if m.fc.MarkAllowed event then m.step event else none) m

/-- The runs from a single root, all of whose steps meet a condition. -/
inductive Runs (ok : HeaviestSubtreeForkChoice → MarkEvent → Prop) (root : SlotHashKey) :
    Marking → Prop where
  | new {fc : HeaviestSubtreeForkChoice} (h : new root = some fc) : Runs ok root ⟨fc, []⟩
  | step {m m' : Marking} {event : MarkEvent} (h : Runs ok root m) (hok : ok m.fc event)
      (hstep : m.step event = some m') : Runs ok root m'

/-- The slots of the pending marks on the path to a node. -/
def pendingSlots (fc : HeaviestSubtreeForkChoice) (pending : List SlotHashKey) (n : SlotHashKey) :
    Set ℕ :=
  {s | ∃ a ∈ pending, fc.Below a n ∧ a.slot = s}

/-- A node is a candidate iff there is no pending mark on its path, and otherwise its latest invalid
ancestor is the greatest slot of one. -/
def Reflects (m : Marking) : Prop :=
  ∀ n, m.fc.Present n →
    (m.fc.Candidate n ↔ ∀ a ∈ m.pending, ¬m.fc.Below a n) ∧
      (¬m.fc.Candidate n → ∃ s, m.fc.latestInvalidAncestor n = some s ∧
        IsGreatest (pendingSlots m.fc m.pending n) s)

/-- No node beside the given one has its latest invalid ancestor above both. -/
def Clears (fc : HeaviestSubtreeForkChoice) (k : SlotHashKey) : Prop :=
  ∀ n a, fc.Below a k → fc.Below a n → fc.latestInvalidAncestor n = some a.slot →
    fc.Below k n ∨ fc.Below n k

/-- The condition on a step. -/
def ClearsAll (fc : HeaviestSubtreeForkChoice) : MarkEvent → Prop
  | .markForkValidCandidate k => fc.Clears k
  | _ => True

/-! ## Latest invalid ancestors -/

variable {fc fc' : HeaviestSubtreeForkChoice} {pending : List SlotHashKey} {m m' : Marking}
  {a k n p root : SlotHashKey}

/-- The latest invalid ancestor of the node is what the pending marks say. -/
def LatestAt (fc : HeaviestSubtreeForkChoice) (pending : List SlotHashKey) (n : SlotHashKey) :
    Prop :=
  (fc.latestInvalidAncestor n = none → ∀ a ∈ pending, ¬fc.Below a n) ∧
    ∀ s, fc.latestInvalidAncestor n = some s → IsGreatest (pendingSlots fc pending n) s

theorem candidate_iff_latest (hn : fc.Present n) :
    fc.Candidate n ↔ fc.latestInvalidAncestor n = none := by
  obtain ⟨info, hget⟩ := hn
  rw [candidate_iff hget, latestInvalidAncestor_eq hget]
  exact isNone_iff_eq_none

theorem reflects_iff : Reflects ⟨fc, pending⟩ ↔ ∀ n, fc.Present n → fc.LatestAt pending n := by
  refine forall_congr' fun n => forall_congr' fun hn => ?_
  have hcand := candidate_iff_latest hn
  constructor
  · rintro ⟨hiff, hgreatest⟩
    refine ⟨fun hnone => hiff.mp (hcand.mpr hnone), fun s hs => ?_⟩
    have hnot : ¬fc.Candidate n := by
      rw [hcand, hs]
      simp
    obtain ⟨s', hs', hgreat⟩ := hgreatest hnot
    rw [hs] at hs'
    cases hs'
    exact hgreat
  · rintro ⟨hnone, hsome⟩
    refine ⟨⟨fun hc => hnone (hcand.mp hc), fun hfree => hcand.mpr ?_⟩, fun hnot => ?_⟩
    · cases hlatest : fc.latestInvalidAncestor n with
      | none => rfl
      | some s =>
        obtain ⟨⟨a, ha, hbelow, -⟩, -⟩ := hsome s hlatest
        exact absurd hbelow (hfree a ha)
    · cases hlatest : fc.latestInvalidAncestor n with
      | none => exact absurd (hcand.mpr hlatest) hnot
      | some s => exact ⟨s, rfl, hsome s hlatest⟩

/-- Only the marks on the path matter. -/
theorem LatestAt.congr {pending' : List SlotHashKey} {n' : SlotHashKey}
    (h : fc.LatestAt pending n)
    (hlatest : fc'.latestInvalidAncestor n' = fc.latestInvalidAncestor n)
    (hpending : ∀ a, (a ∈ pending' ∧ fc'.Below a n') ↔ (a ∈ pending ∧ fc.Below a n)) :
    fc'.LatestAt pending' n' := by
  have hslots : fc'.pendingSlots pending' n' = fc.pendingSlots pending n := by
    ext s
    constructor
    · rintro ⟨a, ha, hbelow, rfl⟩
      obtain ⟨ha', hbelow'⟩ := (hpending a).mp ⟨ha, hbelow⟩
      exact ⟨a, ha', hbelow', rfl⟩
    · rintro ⟨a, ha, hbelow, rfl⟩
      obtain ⟨ha', hbelow'⟩ := (hpending a).mpr ⟨ha, hbelow⟩
      exact ⟨a, ha', hbelow', rfl⟩
  refine ⟨fun hnone a ha hbelow => ?_, fun s hs => ?_⟩
  · rw [hlatest] at hnone
    obtain ⟨ha', hbelow'⟩ := (hpending a).mp ⟨ha, hbelow⟩
    exact h.1 hnone a ha' hbelow'
  · rw [hslots]
    rw [hlatest] at hs
    exact h.2 s hs

/-- A mark on the path. -/
theorem LatestAt.mark (h : fc.LatestAt pending n) (hsame : fc.SameTree fc')
    (hbelow : fc.Below k n)
    (hlatest : fc'.latestInvalidAncestor n = remember k.slot (fc.latestInvalidAncestor n)) :
    fc'.LatestAt (k :: pending) n := by
  refine ⟨fun hnone => ?_, fun s hs => ?_⟩
  · rw [hlatest] at hnone
    exact absurd hnone (by simp [remember])
  · have hmem : ∀ t, t ∈ fc'.pendingSlots (k :: pending) n ↔
        t = k.slot ∨ t ∈ fc.pendingSlots pending n := by
      intro t
      constructor
      · rintro ⟨a, ha, han, rfl⟩
        rcases mem_cons.mp ha with rfl | ha
        · exact .inl rfl
        · exact .inr ⟨a, ha, hsame.below_iff.mp han, rfl⟩
      · rintro (rfl | ⟨a, ha, han, rfl⟩)
        · exact ⟨k, mem_cons_self, hsame.below_iff.mpr hbelow, rfl⟩
        · exact ⟨a, mem_cons_of_mem _ ha, hsame.below_iff.mpr han, rfl⟩
    rw [hlatest, remember, some_inj] at hs
    subst hs
    cases hold : fc.latestInvalidAncestor n with
    | none =>
      refine ⟨(hmem _).mpr (.inl rfl), fun t ht => ?_⟩
      rcases (hmem t).mp ht with rfl | ⟨a, ha, han, -⟩
      · exact le_rfl
      · exact absurd han (h.1 hold a ha)
    | some b =>
      have hgreatest := h.2 b hold
      show IsGreatest _ (max k.slot b)
      refine ⟨(hmem _).mpr ?_, fun t ht => ?_⟩
      · rcases max_choice k.slot b with heq | heq
        · exact .inl heq
        · rw [heq]
          exact .inr hgreatest.1
      · rcases (hmem t).mp ht with rfl | ht
        · exact le_max_left _ _
        · exact (hgreatest.2 ht).trans (le_max_right _ _)

/-! ## Steps -/

/-- What is true of every tree with its pending marks. -/
structure Tracked (m : Marking) : Prop where
  shaped : m.fc.Shaped
  cached : m.fc.Cached []
  marked : m.fc.Marked
  root_confirmed : m.fc.Confirmed m.fc.treeRoot
  pending : ∀ a ∈ m.pending, m.fc.Present a ∧ ¬m.fc.Confirmed a

theorem LeafAdded.below_iff (h : fc.LeafAdded k p fc') (hleaf : fc.NewLeaf k p) (hs : fc.Shaped)
    (hn : n ≠ k) : fc'.Below a n ↔ fc.Below a n := by
  constructor
  · intro hbelow
    induction hbelow with
    | refl => exact refl
    | @tail b c _ hp ih =>
      have hpc : fc'.parent c = some b := hp
      rw [h.parent, if_neg hn.symm] at hpc
      refine (ih ?_).tail hpc
      rintro rfl
      exact hleaf.fresh (hs.present_parent hpc)
  · refine mono (fun b c hp => ?_) a n
    rw [h.parent, if_neg]
    · exact hp
    · rintro rfl
      exact hleaf.fresh (present_of_parent hp)

open Marking

/-- A new leaf. -/
theorem Tracked.exists_leaf_step (h : Tracked m) (hp : m.fc.Present p) (hslot : p.slot < k.slot) :
    ∃ m', m.step (.addNewLeafSlot k p) = some m' ∧ Tracked m' ∧ (Reflects m → Reflects m') := by
  obtain ⟨fc, pending⟩ := m
  by_cases hk : fc.Present k
  · refine ⟨⟨fc, pending⟩, ?_, h, id⟩
    have heq : fc.addNewLeafSlot k (some p) = some fc := by
      rw [addNewLeafSlot, if_pos (containsBlock_iff.mpr hk)]
    rw [step, heq]
    rfl
  · have hleaf : fc.NewLeaf k p := ⟨hk, hp, hslot⟩
    obtain ⟨fc', heq, hadded⟩ := hleaf.exists_addNewLeafSlot_eq h.shaped h.cached
    refine ⟨⟨fc', pending⟩, ?_, ⟨hadded.shaped, hadded.cached, hadded.marked hleaf h.marked, ?_,
      fun a ha => ?_⟩, fun hreflects => ?_⟩
    · rw [step, heq]
      rfl
    · dsimp only
      rw [hadded.treeRoot, hadded.confirmed]
      exact h.root_confirmed
    · dsimp only
      rw [hadded.present, hadded.confirmed]
      exact ⟨.inr (h.pending a ha).1, (h.pending a ha).2⟩
    · rw [reflects_iff] at hreflects ⊢
      intro n hn
      by_cases hnk : n = k
      · subst hnk
        refine (hreflects p hp).congr ?_ fun a => ?_
        · rw [hadded.latestInvalidAncestor, if_pos rfl]
        · -- a mark above the leaf is above its parent
          have hparent : fc'.parent n = some p := by rw [hadded.parent, if_pos rfl]
          have hpn : p ≠ n := by
            rintro rfl
            exact hk hp
          refine and_congr_right fun ha => ⟨fun hbelow => ?_, fun hbelow => ?_⟩
          · rcases isAncestorOrSelf_iff.mp hbelow with rfl | hanc
            · exact absurd (h.pending a ha).1 hk
            · obtain ⟨q, hq, haq⟩ := isAncestor_iff.mp hanc
              rw [hparent] at hq
              cases hq
              exact (hadded.below_iff hleaf h.shaped hpn).mp haq
          · exact ((hadded.below_iff hleaf h.shaped hpn).mpr hbelow).tail hparent
      · have hn0 : fc.Present n := ((hadded.present n).mp hn).resolve_left hnk
        refine (hreflects n hn0).congr ?_ fun a => ?_
        · rw [hadded.latestInvalidAncestor, if_neg fun heq' => hnk heq'.symm]
        · rw [hadded.below_iff hleaf h.shaped hnk]

/-- The default key can only be the root. -/
theorem Shaped.eq_root_of_default (hs : fc.Shaped) (hk : fc.Present .default) :
    SlotHashKey.default = fc.treeRoot := by
  by_contra hne
  obtain ⟨below, hbelow⟩ := exists_children_iff.mpr hk
  obtain ⟨p, hp⟩ := hs.up hbelow hne
  exact absurd (hs.slot_lt hp) (Nat.not_lt_zero _)

/-- An invalid mark. -/
theorem Tracked.exists_invalid_step (h : Tracked m) (hk : ¬m.fc.Confirmed k) :
    ∃ m', m.step (.markForkInvalidCandidate k) = some m' ∧ Tracked m' ∧
      (Reflects m → Reflects m') := by
  obtain ⟨fc, pending⟩ := m
  by_cases hpresent : fc.Present k
  · have hne : k ≠ .default := by
      rintro rfl
      refine hk ?_
      rw [h.shaped.eq_root_of_default hpresent]
      exact h.root_confirmed
    obtain ⟨fc', heq, hmark⟩ :=
      h.marked.exists_markForkInvalidCandidate_eq h.shaped h.cached hpresent hne hk
    have hsame := hmark.sameTree
    refine ⟨⟨fc', k :: pending⟩, ?_, ⟨hsame.shaped h.shaped, hmark.cached,
      (hmark.kept h.marked h.shaped hk).marked, ?_, fun a ha => ?_⟩, fun hreflects => ?_⟩
    · rw [step, heq, if_pos (containsBlock_iff.mpr hpresent)]
      rfl
    · dsimp only
      rw [hsame.treeRoot, hmark.confirmed]
      exact h.root_confirmed
    · dsimp only
      rw [hsame.present_iff, hmark.confirmed]
      rcases mem_cons.mp ha with rfl | ha
      · exact ⟨hpresent, hk⟩
      · exact h.pending a ha
    · rw [reflects_iff] at hreflects ⊢
      intro n hn
      have hn0 := hreflects n (hsame.present_iff.mp hn)
      by_cases hbelow : fc.Below k n
      · exact hn0.mark hsame hbelow (hmark.below n hbelow)
      · refine hn0.congr (hmark.other n hbelow) fun a => ?_
        rw [hsame.below_iff, mem_cons]
        constructor
        · rintro ⟨rfl | ha, han⟩
          · exact absurd han hbelow
          · exact ⟨ha, han⟩
        · exact fun hboth => ⟨.inr hboth.1, hboth.2⟩
  · refine ⟨⟨fc, pending⟩, ?_, h, id⟩
    have hnone : fc.get k = none := by
      cases hget : fc.get k with
      | none => rfl
      | some info => exact absurd ⟨info, hget⟩ hpresent
    have heq : fc.markForkInvalidCandidate k = some fc := by rw [markForkInvalidCandidate, hnone]
    rw [step, heq, if_neg (mt containsBlock_iff.mp hpresent)]
    rfl

theorem Shaped.mem_cons_ancestorIterator_iff (hs : fc.Shaped) :
    a ∈ k :: fc.ancestorIterator k ↔ fc.Below a k := by
  rw [mem_cons, hs.mem_ancestorIterator_iff]
  exact isAncestorOrSelf_iff.symm

/-- On one path, the nodes above a node are those with slots up to its slot. -/
theorem Shaped.below_of_slot_le (hs : fc.Shaped) (hk : fc.Below k n) (ha : fc.Below a n)
    (hle : a.slot ≤ k.slot) : fc.Below a k := by
  rcases hk.total_of_common ha with hka | hak
  · rcases isAncestorOrSelf_iff.mp hka with rfl | hanc
    · exact refl
    · exact absurd (hs.slot_lt_of_isAncestor hanc) (not_lt.mpr hle)
  · exact hak

/-- The marks that are left after a valid mark. -/
def unconfirmed (fc : HeaviestSubtreeForkChoice) (pending : List SlotHashKey) (k : SlotHashKey) :
    List SlotHashKey :=
  pending.filter fun a => decide (a ∉ k :: fc.ancestorIterator k)

theorem Shaped.mem_unconfirmed_iff (hs : fc.Shaped) :
    a ∈ fc.unconfirmed pending k ↔ a ∈ pending ∧ ¬fc.Below a k := by
  rw [unconfirmed, mem_filter, decide_eq_true_iff, hs.mem_cons_ancestorIterator_iff]

section Valid
variable (hs : fc.Shaped) (hmark : fc.ValidMark k fc')
include hs hmark
/-- A node below the valid one. -/
theorem LatestAt.valid_below (h : fc.LatestAt pending n) (hn : fc.Below k n) :
    fc'.LatestAt (fc.unconfirmed pending k) n := by
  have hsame := hmark.sameTree
  have hlatest := hmark.below n hn
  cases hold : fc.latestInvalidAncestor n with
  | none =>
    rw [hold] at hlatest
    refine ⟨fun _ a ha han => ?_, fun s hs' => ?_⟩
    · exact h.1 hold a (hs.mem_unconfirmed_iff.mp ha).1 (hsame.below_iff.mp han)
    · rw [hlatest] at hs'
      exact absurd hs' (by simp [forget])
  | some b =>
    obtain ⟨⟨c, hc, hcn, rfl⟩, hupper⟩ := h.2 b hold
    rw [hold] at hlatest
    by_cases hle : c.slot ≤ k.slot
    · have hnone : fc'.latestInvalidAncestor n = none := by
        rw [hlatest]
        simp [forget, Option.filter, hle]
      refine ⟨fun _ a ha han => ?_, fun s hs' => ?_⟩
      · obtain ⟨hmem, hak⟩ := hs.mem_unconfirmed_iff.mp ha
        have han' := hsame.below_iff.mp han
        refine hak (hs.below_of_slot_le hn han' ((hupper ?_).trans hle))
        exact ⟨a, hmem, han', rfl⟩
      · rw [hnone] at hs'
        cases hs'
    · have hsome : fc'.latestInvalidAncestor n = some c.slot := by
        rw [hlatest]
        simp [forget, Option.filter, not_le.mp hle]
      refine ⟨fun hnone => ?_, fun s hs' => ?_⟩
      · rw [hsome] at hnone
        cases hnone
      · rw [hsome] at hs'
        cases hs'
        refine ⟨⟨c, hs.mem_unconfirmed_iff.mpr ⟨hc, fun hck => hle (hs.slot_le hck)⟩,
          hsame.below_iff.mpr hcn, rfl⟩, ?_⟩
        rintro t ⟨a, ha, han, rfl⟩
        exact hupper ⟨a, (hs.mem_unconfirmed_iff.mp ha).1, hsame.below_iff.mp han, rfl⟩

/-- A node above the valid one. -/
theorem latestAt_valid_above (pending : List SlotHashKey) (hn : IsAncestor fc.parent n k) :
    fc'.LatestAt (fc.unconfirmed pending k) n := by
  refine ⟨fun _ a ha han => ?_, fun s hs' => ?_⟩
  · exact (hs.mem_unconfirmed_iff.mp ha).2 ((hmark.sameTree.below_iff.mp han).trans hn.orSelf)
  · rw [hmark.above n hn] at hs'
    cases hs'

/-- A node beside the valid one keeps its latest invalid ancestor, which may not be above both. -/
theorem LatestAt.valid_beside (h : fc.LatestAt pending n) (hkn : ¬fc.Below k n)
    (hnk : ¬fc.Below n k)
    (hclear : ∀ a, fc.Below a k → fc.Below a n → fc.latestInvalidAncestor n ≠ some a.slot) :
    fc'.LatestAt (fc.unconfirmed pending k) n := by
  have hsame := hmark.sameTree
  have hlatest := hmark.other n hkn fun hanc => hnk hanc.orSelf
  refine ⟨fun hnone a ha han => ?_, fun s hs' => ?_⟩
  · rw [hlatest] at hnone
    exact h.1 hnone a (hs.mem_unconfirmed_iff.mp ha).1 (hsame.below_iff.mp han)
  · rw [hlatest] at hs'
    obtain ⟨⟨c, hc, hcn, rfl⟩, hupper⟩ := h.2 s hs'
    refine ⟨⟨c, hs.mem_unconfirmed_iff.mpr ⟨hc, fun hck => hclear c hck hcn hs'⟩,
      hsame.below_iff.mpr hcn, rfl⟩, ?_⟩
    rintro t ⟨a, ha, han, rfl⟩
    exact hupper ⟨a, (hs.mem_unconfirmed_iff.mp ha).1, hsame.below_iff.mp han, rfl⟩

/-- If the marks are right after a valid mark, no node beside it has its latest invalid ancestor
above both. -/
theorem clears_of_latestAt
    (h : ∀ n, fc'.Present n → fc'.LatestAt (fc.unconfirmed pending k) n) : fc.Clears k := by
  have hsame := hmark.sameTree
  intro n a hak han hlatest
  by_contra hside
  obtain ⟨hkn, hnk⟩ := not_or.mp hside
  have hsame' := hmark.other n hkn fun hanc => hnk hanc.orSelf
  have hn : fc.Present n := present_of_latestInvalidAncestor hlatest
  obtain ⟨⟨b, hb, hbn, hslot⟩, -⟩ :=
    (h n (hsame.present_iff.mpr hn)).2 a.slot (hsame'.trans hlatest)
  -- the two nodes are on one path and have one slot
  have hba : fc.Below b a := hs.below_of_slot_le han (hsame.below_iff.mp hbn) hslot.le
  exact (hs.mem_unconfirmed_iff.mp hb).2 (hba.trans hak)

end Valid

/-- **A valid mark** keeps the marks right iff no node beside it has its latest invalid ancestor
above both. -/
theorem Tracked.exists_valid_step (h : Tracked m) (hk : m.fc.Present k) :
    ∃ m', m.step (.markForkValidCandidate k) = some m' ∧ Tracked m' ∧
      (Reflects m → (Reflects m' ↔ m.fc.Clears k)) := by
  obtain ⟨fc, pending⟩ := m
  have hs := h.shaped
  by_cases hne : k = .default
  · -- the default key is the root, and nothing is beside it
    subst hne
    have hroot : SlotHashKey.default = fc.treeRoot := hs.eq_root_of_default hk
    obtain ⟨confirmed, heq⟩ := hs.exists_markForkValidCandidate_default hk
    have hsame : fc.unconfirmed pending .default = pending := by
      refine filter_eq_self.mpr fun a ha => decide_eq_true fun hmem => ?_
      have hbelow := hs.mem_cons_ancestorIterator_iff.mp hmem
      rw [hroot] at hbelow
      exact (h.pending a ha).2 (h.marked.of_below hbelow h.root_confirmed)
    refine ⟨⟨fc, pending⟩, ?_, h, fun hreflects => ?_⟩
    · rw [step, heq]
      exact congrArg (fun pending => some (Marking.mk fc pending)) hsame
    · refine iff_of_true hreflects fun n a _ _ hlatest => .inl ?_
      rw [hroot]
      exact hs.below_root (present_of_latestInvalidAncestor hlatest)
  · obtain ⟨confirmed, fc', heq, hmark⟩ :=
      h.marked.exists_markForkValidCandidate_eq hs h.cached hk hne
    have hsame := hmark.sameTree
    refine ⟨⟨fc', fc.unconfirmed pending k⟩, ?_, ⟨hsame.shaped hs, hmark.cached,
      (hmark.kept h.marked).marked, ?_, fun a ha => ?_⟩, fun hreflects => ?_⟩
    · rw [step, heq]
      rfl
    · dsimp only
      rw [hsame.treeRoot, hmark.confirmed]
      exact .inl h.root_confirmed
    · obtain ⟨hmem, hak⟩ := hs.mem_unconfirmed_iff.mp ha
      rw [hsame.present_iff, hmark.confirmed]
      exact ⟨(h.pending a hmem).1, not_or.mpr ⟨(h.pending a hmem).2, hak⟩⟩
    · rw [reflects_iff] at hreflects ⊢
      refine ⟨fun hreflects' => clears_of_latestAt hs hmark hreflects', fun hclears n hn => ?_⟩
      have hn0 := hreflects n (hsame.present_iff.mp hn)
      by_cases hkn : fc.Below k n
      · exact hn0.valid_below hs hmark hkn
      · by_cases hnk : fc.Below n k
        · rcases isAncestorOrSelf_iff.mp hnk with rfl | hanc
          · exact absurd refl hkn
          · exact latestAt_valid_above hs hmark pending hanc
        · refine hn0.valid_beside hs hmark hkn hnk fun a hak han hlatest => ?_
          rcases hclears n a hak han hlatest with hkn' | hnk'
          · exact hkn hkn'
          · exact hnk hnk'

/-! ## Runs -/

theorem tracked_new (h : new root = some fc) : Tracked ⟨fc, []⟩ :=
  ⟨shaped_new h, cached_new h, marked_new h, confirmed_new h, nofun⟩

theorem reflects_new (h : new root = some fc) : Reflects ⟨fc, []⟩ := by
  refine reflects_iff.mpr fun n _ => ⟨fun _ a ha => absurd ha not_mem_nil, fun s hs => ?_⟩
  rw [latestInvalidAncestor_new h] at hs
  cases hs

/-- Along a run whose valid marks clear all, the marks are right. -/
theorem Runs.tracked_reflects
    (h : Runs (fun fc event => fc.MarkAllowed event ∧ fc.ClearsAll event) root m) :
    Tracked m ∧ Reflects m := by
  induction h with
  | new hnew => exact ⟨tracked_new hnew, reflects_new hnew⟩
  | @step m m' event _ hok hstep ih =>
    obtain ⟨htracked, hreflects⟩ := ih
    obtain ⟨hallowed, hclears⟩ := hok
    obtain ⟨m1, heq, htracked1, hreflects1⟩ : ∃ m1, m.step event = some m1 ∧ Tracked m1 ∧
        Reflects m1 := by
      cases event with
      | addNewLeafSlot k p =>
        obtain ⟨m1, heq, htracked1, himp⟩ := htracked.exists_leaf_step hallowed.1 hallowed.2
        exact ⟨m1, heq, htracked1, himp hreflects⟩
      | markForkInvalidCandidate k =>
        obtain ⟨m1, heq, htracked1, himp⟩ := htracked.exists_invalid_step hallowed
        exact ⟨m1, heq, htracked1, himp hreflects⟩
      | markForkValidCandidate k =>
        obtain ⟨m1, heq, htracked1, hiff⟩ := htracked.exists_valid_step hallowed
        exact ⟨m1, heq, htracked1, (hiff hreflects).mpr hclears⟩
    rw [hstep] at heq
    cases heq
    exact ⟨htracked1, hreflects1⟩

/-- **Candidates reflect the pending marks** in every tree of a run in which each valid mark finds
no node beside it with its latest invalid ancestor above both; and after one more valid mark they do
iff this is so again. -/
theorem Runs.reflects_iff_clears
    (h : Runs (fun fc event => fc.MarkAllowed event ∧ fc.ClearsAll event) root m) :
    Reflects m ∧ ∀ k, m.fc.Present k → ∃ m', m.step (.markForkValidCandidate k) = some m' ∧
      (Reflects m' ↔ m.fc.Clears k) := by
  obtain ⟨htracked, hreflects⟩ := h.tracked_reflects
  refine ⟨hreflects, fun k hk => ?_⟩
  obtain ⟨m', heq, -, hiff⟩ := htracked.exists_valid_step hk
  exact ⟨m', heq, hiff hreflects⟩

/-- Events that are executed make a run. -/
theorem Runs.exec {ok : HeaviestSubtreeForkChoice → MarkEvent → Prop} {events : List MarkEvent}
    (h : Runs ok root m) (hok : ∀ fc, ∀ event ∈ events, MarkAllowed fc event → ok fc event)
    (heq : m.exec events = some m') : Runs ok root m' := by
  induction events generalizing m with
  | nil =>
    cases heq
    exact h
  | cons event rest ih =>
    rw [exec, foldlM_cons] at heq
    obtain ⟨m1, hstep, hrest⟩ := bind_eq_some_iff.mp heq
    split_ifs at hstep with hallowed
    exact ih (h.step (hok m.fc event mem_cons_self hallowed) hstep)
      (fun fc event' hevent => hok fc event' (mem_cons_of_mem _ hevent)) hrest

/-- One of two leaves is marked invalid, and then valid. -/
theorem reflects_one_mark :
    ∃ m m', (new ⟨0, 1⟩).bind (fun fc => exec ⟨fc, []⟩ [.addNewLeafSlot ⟨1, 1⟩ ⟨0, 1⟩,
        .addNewLeafSlot ⟨2, 1⟩ ⟨0, 1⟩, .markForkInvalidCandidate ⟨1, 1⟩]) = some m ∧
      m.fc.latestInvalidAncestor ⟨1, 1⟩ = some 1 ∧ Reflects m ∧
      m.step (.markForkValidCandidate ⟨1, 1⟩) = some m' ∧ Reflects m' := by
  set events : List MarkEvent := [.addNewLeafSlot ⟨1, 1⟩ ⟨0, 1⟩, .addNewLeafSlot ⟨2, 1⟩ ⟨0, 1⟩,
    .markForkInvalidCandidate ⟨1, 1⟩]
  have hstate : ((new ⟨0, 1⟩).bind (fun fc => exec ⟨fc, []⟩ events)).map (fun m =>
      (m.pending, m.fc.latestInvalidAncestor ⟨1, 1⟩)) = some ([⟨1, 1⟩], some 1) := by
    decide +kernel
  obtain ⟨m, hm, hstate⟩ := map_eq_some_iff.mp hstate
  obtain ⟨hpending, hlatest⟩ := Prod.mk.inj hstate
  obtain ⟨fc, hfc, hexec⟩ := bind_eq_some_iff.mp hm
  have hevents : ∀ fc, ∀ event ∈ events, MarkAllowed fc event →
      MarkAllowed fc event ∧ ClearsAll fc event := by
    intro fc event hevent hallowed
    simp only [events, mem_cons, not_mem_nil, or_false] at hevent
    rcases hevent with rfl | rfl | rfl <;> exact ⟨hallowed, trivial⟩
  obtain ⟨hreflects, hvalid⟩ := Runs.reflects_iff_clears ((Runs.new hfc).exec hevents hexec)
  obtain ⟨m', hstep, hiff⟩ := hvalid ⟨1, 1⟩ (present_of_latestInvalidAncestor hlatest)
  refine ⟨m, m', hm, hlatest, hreflects, hstep, hiff.mpr fun n a _ _ hn => .inl ?_⟩
  -- the one pending mark is the one that is cleared
  obtain ⟨⟨c, hc, hcn, -⟩, -⟩ :=
    (reflects_iff.mp hreflects n (present_of_latestInvalidAncestor hn)).2 _ hn
  rw [hpending] at hc
  rwa [mem_singleton.mp hc] at hcn

/-- The node `⟨1, 1⟩` is marked invalid and has the children `⟨2, 1⟩` and `⟨3, 1⟩`. A valid mark
for the first child confirms it, but the other child is still no candidate. -/
theorem not_reflects_side_branch :
    ∃ m, Runs (fun fc event => fc.MarkAllowed event) ⟨0, 1⟩ m ∧
      m.pending = [] ∧ m.fc.isCandidate ⟨3, 1⟩ = some false ∧ ¬Reflects m := by
  set events : List MarkEvent := [.addNewLeafSlot ⟨1, 1⟩ ⟨0, 1⟩, .addNewLeafSlot ⟨2, 1⟩ ⟨1, 1⟩,
    .addNewLeafSlot ⟨3, 1⟩ ⟨1, 1⟩, .markForkInvalidCandidate ⟨1, 1⟩,
    .markForkValidCandidate ⟨2, 1⟩]
  have hstate : ((new ⟨0, 1⟩).bind (fun fc => exec ⟨fc, []⟩ events)).map (fun m =>
      (m.pending, m.fc.isCandidate ⟨3, 1⟩)) = some ([], some false) := by
    decide +kernel
  obtain ⟨m, hm, hstate⟩ := map_eq_some_iff.mp hstate
  obtain ⟨hpending, hcand⟩ := Prod.mk.inj hstate
  obtain ⟨fc, hfc, hexec⟩ := bind_eq_some_iff.mp hm
  refine ⟨m, (Runs.new hfc).exec (fun _ _ _ hallowed => hallowed) hexec, hpending, hcand,
    fun hreflects => ?_⟩
  obtain ⟨info, hget, -⟩ := map_eq_some_iff.mp hcand
  have hfree : ∀ a ∈ m.pending, ¬m.fc.Below a ⟨3, 1⟩ := by
    intro a ha
    rw [hpending] at ha
    cases ha
  have hcand' : m.fc.isCandidate ⟨3, 1⟩ = some true := (hreflects ⟨3, 1⟩ ⟨info, hget⟩).1.mpr hfree
  rw [hcand] at hcand'
  cases hcand'

end FlowraValidator.Consensus.HeaviestSubtreeForkChoice
