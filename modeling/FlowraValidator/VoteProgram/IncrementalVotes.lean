import FlowraValidator.VoteProgram.TowerSync

/-!
# Votes one by one and a whole tower

An account can get its votes one by one, by `process_next_vote_slot`, or as a tower that was built
elsewhere in the same way, by `process_new_vote_state`. The first one is a stack machine, which
pops expired votes, roots the oldest one and doubles lockouts. The second one only compares two
towers. They agree: a tower that is built from the votes of the account is accepted, and the
account has the same votes, latencies and root as if it had got the votes one by one.

The argument is about what the stack machine does to an old vote. It is rooted; or it is still
there, with at least as many confirmations; or it was popped, and then everything that is above it
in the tower now came after its lockout.

* `VoteState.tower_processNextVoteSlot`: an account without its latencies is a tower.
* `TowerVoteState.Follows`: what becomes of old votes.
* `VoteState.Reachable.processNewVoteState_eq`: the agreement.
-/

namespace FlowraValidator.VoteProgram
open TowerVoteState List Option Lockout

/-! ## Old votes -/

namespace TowerVoteState

/-- What can become of a vote. -/
inductive Fate (t : TowerVoteState) (v : Lockout) : Prop where
  | rooted (root : ℕ) (hroot : t.rootSlot = some root) (hle : v.slot ≤ root)
  | kept (w : Lockout) (hmem : w ∈ t.votes) (hslot : w.slot = v.slot)
      (hcount : v.confirmationCount ≤ w.confirmationCount)
  | expired (hall : ∀ w ∈ t.votes, w.slot < v.slot ∨ v.slot < w.slot ∧ v.lastLockedOutSlot < w.slot)
      (hlater : ∃ w ∈ t.votes, v.slot < w.slot)

/-- The tower `t` comes from `t₀`. -/
structure Follows (t₀ t : TowerVoteState) : Prop where
  fate : ∀ v ∈ t₀.votes, t.Fate v
  root_le : ∀ r ∈ t₀.rootSlot, ∃ r' ∈ t.rootSlot, r ≤ r'

variable {t₀ t : TowerVoteState} {nextVoteSlot : ℕ}

/-- Survivors are below the votes that are popped. -/
theorem Stacked.slot_lt_of_expired (h : t.Stacked) {u w : Lockout}
    (hu : u ∈ (t.survivors nextVoteSlot).votes) (hw : w ∈ t.expired nextVoteSlot) :
    u.slot < w.slot := by
  have hslots := Lockout.pairwise_slot_of_isChain h.linked
  rw [← t.votes_eq_append nextVoteSlot, pairwise_append] at hslots
  refine hslots.2.2 u ?_ w hw
  unfold survivors at hu
  rcases (t.popExpiredVotes nextVoteSlot).popRooted_cases with
    ⟨v, rest, hvotes, -, heq⟩ | ⟨-, heq⟩
  · rw [heq] at hu
    rw [hvotes]
    exact mem_cons_of_mem _ hu
  · rwa [heq] at hu

section Push
variable (h : t.Stacked) (hlt : ∀ v ∈ t.votes, v.slot < nextVoteSlot)
include h hlt
/-- The votes then are survivors with at least as many confirmations, and the new one. -/
theorem Stacked.mem_processNextVoteSlot {w : Lockout}
    (hw : w ∈ (t.processNextVoteSlot nextVoteSlot).votes) :
    w.slot = nextVoteSlot ∨ ∃ u ∈ (t.survivors nextVoteSlot).votes, w.slot = u.slot := by
  rw [processNextVoteSlot_of_lt h hlt] at hw
  have hslot : w.slot ∈
      ((t.survivors nextVoteSlot).votes ++ [new nextVoteSlot]).map slot := by
    rw [← map_slot_double]
    exact mem_map_of_mem hw
  rw [map_append, mem_append] at hslot
  rcases hslot with hslot | hslot
  · obtain ⟨u, hu, heq⟩ := mem_map.mp hslot
    exact .inr ⟨u, hu, heq.symm⟩
  · exact .inl (mem_singleton.mp hslot)

/-- A vote for the slot is there. -/
theorem Stacked.exists_new : ∃ w ∈ (t.processNextVoteSlot nextVoteSlot).votes,
    w.slot = nextVoteSlot := by
  have hmem : nextVoteSlot ∈ ((t.processNextVoteSlot nextVoteSlot).votes).map slot := by
    rw [processNextVoteSlot_of_lt h hlt, map_slot_double, map_append]
    exact mem_append_right _ (mem_singleton_self _)
  exact mem_map.mp hmem

/-- The root goes on. -/
theorem Stacked.root_le_processNextVoteSlot :
    ∀ r ∈ t.rootSlot, ∃ r' ∈ (t.processNextVoteSlot nextVoteSlot).rootSlot, r ≤ r' := by
  intro r hr
  rw [processNextVoteSlot_of_lt h hlt]
  rcases t.rootSlot_survivors nextVoteSlot with ⟨heq, -⟩ | ⟨v, heq, hfull, hhead⟩
  · exact ⟨r, heq.trans hr, le_rfl⟩
  · exact ⟨v.slot, heq, (h.above r hr v (mem_votes_iff.mpr (.inr (.inr ⟨hfull, hhead⟩)))).le⟩

/-- **One vote on, every old vote is rooted, or kept, or has expired.** -/
theorem Follows.processNextVoteSlot (hfollows : t₀.Follows t) :
    t₀.Follows (t.processNextVoteSlot nextVoteSlot) := by
  have hroots := h.root_le_processNextVoteSlot hlt
  obtain ⟨new, hnew, hnewslot⟩ := h.exists_new hlt
  refine ⟨fun v hv => ?_, fun r hr => ?_⟩
  · cases hfollows.fate v hv with
    | rooted root hroot hle =>
      obtain ⟨root', hroot', hle'⟩ := hroots root hroot
      exact .rooted root' hroot' (hle.trans hle')
    | kept w hmem hslot hcount =>
      rcases mem_votes_iff.mp hmem with hsurvivor | hexpired | ⟨hfull, hhead⟩
      · obtain ⟨w', hw', hslot', hcount'⟩ :=
          exists_mem_double (mem_append_left _ hsurvivor) (h.count_le w hmem)
        refine .kept w' ?_ (hslot'.trans hslot) (hcount.trans hcount')
        rw [processNextVoteSlot_of_lt h hlt]
        exact hw'
      · -- popped: everything above it is the new vote
        have hlast : v.lastLockedOutSlot < nextVoteSlot :=
          lt_of_le_of_lt (lastLockedOutSlot_mono hslot.symm hcount)
            (lastLockedOutSlot_lt_of_mem_expired hexpired)
        have hvlt : v.slot < nextVoteSlot := hslot ▸ hlt w hmem
        refine .expired (fun w' hw' => ?_) ⟨new, hnew, by omega⟩
        rcases h.mem_processNextVoteSlot hlt hw' with heq | ⟨u, hu, heq⟩
        · omega
        · have hult := h.slot_lt_of_expired hu hexpired
          omega
      · rcases t.rootSlot_survivors nextVoteSlot with ⟨-, hroom⟩ | ⟨u, hroot, -, hhead'⟩
        · exact absurd hfull hroom
        · have hueq : u = w := some_inj.mp (hhead'.symm.trans hhead)
          refine .rooted u.slot ?_ (by rw [hueq, hslot])
          rwa [processNextVoteSlot_of_lt h hlt]
    | expired hall hlater =>
      obtain ⟨later, hlater, hvlt⟩ := hlater
      have hlt' := hlt later hlater
      refine .expired (fun w' hw' => ?_) ⟨new, hnew, by omega⟩
      rcases h.mem_processNextVoteSlot hlt hw' with heq | ⟨u, hu, heq⟩
      · have hlast := hall later hlater
        omega
      · rw [heq]
        exact hall u (mem_votes_iff.mpr (.inl hu))
  · obtain ⟨r', hr', hle⟩ := hfollows.root_le r hr
    obtain ⟨r'', hr'', hle'⟩ := hroots r' hr'
    exact ⟨r'', hr'', hle.trans hle'⟩

end Push
end TowerVoteState

/-! ## An account is a tower with latencies -/

namespace VoteState
open LandedVote

/-- The account without latencies and credits. -/
def tower (vs : VoteState) : TowerVoteState := ⟨vs.votes.map LandedVote.lockout, vs.rootSlot⟩

variable {vs : VoteState} {nextVoteSlot epoch currentSlot : ℕ}

theorem lastVotedSlot_tower (vs : VoteState) : vs.tower.lastVotedSlot = vs.lastVotedSlot := by
  unfold TowerVoteState.lastVotedSlot lastVotedSlot tower
  rw [getLast?_map, Option.map_map]
  rfl

theorem tower_popExpiredVotes (vs : VoteState) (nextVoteSlot : ℕ) :
    (vs.popExpiredVotes nextVoteSlot).tower = vs.tower.popExpiredVotes nextVoteSlot := by
  unfold popExpiredVotes TowerVoteState.popExpiredVotes tower rdropWhile
  rw [← map_reverse, dropWhile_map, map_reverse]
  rfl

@[simp] theorem rootSlot_incrementCredits (vs : VoteState) (epoch credits : ℕ) :
    (vs.incrementCredits epoch credits).rootSlot = vs.rootSlot := rfl

/-- Either the tower is full and its oldest vote becomes the root, or nothing happens. -/
theorem popRooted_cases (vs : VoteState) (epoch : ℕ) :
    (∃ v rest, vs.votes = v :: rest ∧ vs.votes.length = maxLockoutHistory ∧
        vs.popRooted epoch = { vs with votes := rest, rootSlot := some v.slot }.incrementCredits
          epoch (vs.creditsForVoteAtIndex 0)) ∨
      vs.votes.length ≠ maxLockoutHistory ∧ vs.popRooted epoch = vs := by
  obtain ⟨votes, rootSlot, epochCredits, lastTimestamp⟩ := vs
  cases votes with
  | nil => exact .inr ⟨Nat.zero_ne_add_one 30, rfl⟩
  | cons v rest =>
    by_cases hfull : (v :: rest).length = maxLockoutHistory
    · exact .inl ⟨v, rest, rfl, hfull, if_pos hfull⟩
    · exact .inr ⟨hfull, if_neg hfull⟩

theorem tower_popRooted (vs : VoteState) (epoch : ℕ) :
    (vs.popRooted epoch).tower = vs.tower.popRooted := by
  have hlen : vs.tower.votes.length = vs.votes.length := length_map _
  rcases vs.popRooted_cases epoch with ⟨v, rest, hvotes, hfull, heq⟩ | ⟨hroom, heq⟩
  · rcases vs.tower.popRooted_cases with ⟨w, rest', hvotes', -, heq'⟩ | ⟨hroom, -⟩
    · have hcons : w :: rest' = v.lockout :: rest.map LandedVote.lockout := by
        rw [← hvotes', ← map_cons, ← hvotes]
        rfl
      obtain ⟨rfl, rfl⟩ := cons.inj hcons
      rw [heq, heq']
      rfl
    · exact absurd (hlen.trans hfull) hroom
  · rcases vs.tower.popRooted_cases with ⟨w, rest', -, hfull, -⟩ | ⟨-, heq'⟩
    · exact absurd (hlen.symm.trans hfull) hroom
    · rw [heq, heq']

theorem tower_doubleLockouts (vs : VoteState) :
    vs.doubleLockouts.tower = vs.tower.doubleLockouts := by
  unfold doubleLockouts TowerVoteState.doubleLockouts tower
  refine congrArg (fun votes => TowerVoteState.mk votes vs.rootSlot) ?_
  refine ext_getElem (by simp) fun i h1 h2 => ?_
  simp only [getElem_map, getElem_mapIdx, length_map]
  unfold LandedVote.confirmationCount
  split_ifs <;> rfl

/-- **A vote does to an account what it does to a tower.** -/
theorem tower_processNextVoteSlot (vs : VoteState) (nextVoteSlot epoch currentSlot : ℕ) :
    (vs.processNextVoteSlot nextVoteSlot epoch currentSlot).tower =
      vs.tower.processNextVoteSlot nextVoteSlot := by
  unfold processNextVoteSlot TowerVoteState.processNextVoteSlot
  rw [lastVotedSlot_tower]
  split_ifs
  · rfl
  · dsimp only
    rw [tower_doubleLockouts, ← tower_popExpiredVotes, ← tower_popRooted _ epoch]
    refine congrArg TowerVoteState.doubleLockouts ?_
    unfold tower
    rw [map_append]
    rfl

/-- After a vote there are votes. -/
theorem votes_processNextVoteSlot_ne_nil (vs : VoteState) (nextVoteSlot epoch currentSlot : ℕ) :
    (vs.processNextVoteSlot nextVoteSlot epoch currentSlot).votes ≠ [] := by
  unfold processNextVoteSlot
  split_ifs with hold
  · rintro hnil
    unfold lastVotedSlot at hold
    rw [hnil] at hold
    exact absurd hold Bool.false_ne_true
  · unfold doubleLockouts
    simp

/-! ## Latencies -/

/-- A vote then is the new one, or one of the account with the same latency. -/
theorem mem_processNextVoteSlot {w : LandedVote}
    (h : w ∈ (vs.processNextVoteSlot nextVoteSlot epoch currentSlot).votes) :
    (w.slot = nextVoteSlot ∧ w.latency = computeVoteLatency nextVoteSlot currentSlot) ∨
      ∃ v ∈ vs.votes, v.slot = w.slot ∧ v.latency = w.latency := by
  unfold processNextVoteSlot at h
  split_ifs at h with hold
  · exact .inr ⟨w, h, rfl, rfl⟩
  · have hsub : ∀ v ∈ ((vs.popExpiredVotes nextVoteSlot).popRooted epoch).votes,
        v ∈ vs.votes := by
      intro v hv
      have hprefix : (vs.popExpiredVotes nextVoteSlot).votes <+: vs.votes := rdropWhile_prefix _ _
      refine hprefix.subset ?_
      rcases (vs.popExpiredVotes nextVoteSlot).popRooted_cases epoch with
        ⟨u, rest, hvotes, -, heq⟩ | ⟨-, heq⟩
      · rw [heq] at hv
        rw [hvotes]
        exact mem_cons_of_mem _ hv
      · rwa [heq] at hv
    obtain ⟨i, hi, hw⟩ := mem_mapIdx.mp h
    have hmem := getElem_mem hi
    set u := (((vs.popExpiredVotes nextVoteSlot).popRooted epoch).votes ++
      [⟨computeVoteLatency nextVoteSlot currentSlot, new nextVoteSlot⟩])[i]
    -- doubling changes only confirmation counts
    have hsame : u.slot = w.slot ∧ u.latency = w.latency := by
      rw [← hw]
      split_ifs <;> exact ⟨rfl, rfl⟩
    rcases mem_append.mp hmem with hold | hnew
    · exact .inr ⟨u, hsub u hold, hsame⟩
    · rw [mem_singleton] at hnew
      rw [← hsame.1, ← hsame.2, hnew]
      exact .inl ⟨rfl, rfl⟩

/-! ## Runs -/

/-- The account after votes for the slots, one by one. -/
def processVotes (vs : VoteState) (epoch currentSlot : ℕ) (slots : List ℕ) : VoteState :=
  slots.foldl (fun vs slot => vs.processNextVoteSlot slot epoch currentSlot) vs

theorem votes_processVotes_ne_nil (h : vs.votes ≠ []) (epoch currentSlot : ℕ) (slots : List ℕ) :
    (vs.processVotes epoch currentSlot slots).votes ≠ [] := by
  induction slots generalizing vs with
  | nil => exact h
  | cons slot slots ih => exact ih (vs.votes_processNextVoteSlot_ne_nil slot epoch currentSlot)

/-- An account without votes. -/
def empty : VoteState := ⟨[], none, [], ⟨0, 0⟩⟩

/-- Accounts that got all their votes one by one. -/
inductive Reachable : VoteState → Prop where
  | empty : Reachable empty
  | vote {vs : VoteState} (h : Reachable vs) (nextVoteSlot epoch currentSlot : ℕ) :
      Reachable (vs.processNextVoteSlot nextVoteSlot epoch currentSlot)

/-- What is true of all such accounts: they are towers, and there is no root without votes. -/
structure Built (vs : VoteState) : Prop where
  stacked : vs.tower.Stacked
  rootless : vs.votes = [] → vs.rootSlot = none

variable (h : vs.Built) (hlt : ∀ v ∈ vs.votes, v.slot < nextVoteSlot)
include h in
theorem Built.linked : vs.votes.IsChain Linked := isChain_linked_iff.mpr h.stacked.linked

include h in
theorem Built.length_le : vs.votes.length ≤ maxLockoutHistory := by
  have hlen := h.stacked.length_le
  unfold tower at hlen
  rwa [length_map] at hlen

include h hlt in
theorem Built.root_lt : ∀ r ∈ vs.rootSlot, r < nextVoteSlot := by
  intro r hr
  rcases eq_nil_or_concat vs.votes with hnil | ⟨rest, last, hvotes⟩
  · rw [h.rootless hnil] at hr
    exact absurd hr (not_mem_none r)
  · have hmem : last ∈ vs.votes := by
      rw [hvotes, concat_eq_append]
      exact mem_append_right _ (mem_singleton_self _)
    exact (h.stacked.above r hr last.lockout (mem_map_of_mem hmem)).trans (hlt last hmem)

include h hlt in
/-- A vote that is newer than all others is pushed. -/
theorem Built.processNextVoteSlot_of_lt (epoch currentSlot : ℕ) :
    (vs.processNextVoteSlot nextVoteSlot epoch currentSlot).Built := by
  refine ⟨?_, fun hnil => absurd hnil (vs.votes_processNextVoteSlot_ne_nil _ _ _)⟩
  rw [tower_processNextVoteSlot]
  exact h.stacked.processNextVoteSlot (h.root_lt hlt)

include h in
theorem Built.processNextVoteSlot (nextVoteSlot epoch currentSlot : ℕ) :
    (vs.processNextVoteSlot nextVoteSlot epoch currentSlot).Built := by
  by_cases hlt : ∀ v ∈ vs.votes, v.slot < nextVoteSlot
  · exact h.processNextVoteSlot_of_lt hlt epoch currentSlot
  · have hslots := pairwise_slot_of_isChain h.linked
    have hold : (vs.lastVotedSlot.any fun last => decide (nextVoteSlot ≤ last)) = true := by
      rw [← Bool.not_eq_false]
      exact fun hfalse => hlt ((any_getLast?_eq_false_iff hslots nextVoteSlot).mp hfalse)
    unfold VoteState.processNextVoteSlot
    rw [if_pos hold]
    exact h

theorem Reachable.built (h : Reachable vs) : vs.Built := by
  induction h with
  | empty => exact ⟨stacked_nil none, fun _ => rfl⟩
  | vote _ nextVoteSlot epoch currentSlot ih =>
    exact ih.processNextVoteSlot nextVoteSlot epoch currentSlot

/-- The account `vs` comes from `vs₀` by votes in the current slot. -/
structure Continues (vs₀ : VoteState) (currentSlot : ℕ) (vs : VoteState) : Prop where
  built : vs.Built
  follows : vs₀.tower.Follows vs.tower
  latency : ∀ w ∈ vs.votes, (∃ v ∈ vs₀.votes, v.slot = w.slot ∧ v.latency = w.latency) ∨
    (∀ v ∈ vs₀.votes, v.slot < w.slot) ∧ w.latency = computeVoteLatency w.slot currentSlot

variable {vs₀ : VoteState}
include h in
theorem Built.continues (currentSlot : ℕ) : vs.Continues currentSlot vs :=
  ⟨h, ⟨fun v hv => .kept v hv rfl le_rfl, fun r hr => ⟨r, hr, le_rfl⟩⟩,
    fun w hw => .inl ⟨w, hw, rfl, rfl⟩⟩

/-- One more vote. -/
theorem Continues.processNextVoteSlot (h : vs₀.Continues currentSlot vs)
    (hlt0 : ∀ v ∈ vs₀.votes, v.slot < nextVoteSlot) (hlt : ∀ v ∈ vs.votes, v.slot < nextVoteSlot)
    (epoch : ℕ) :
    vs₀.Continues currentSlot (vs.processNextVoteSlot nextVoteSlot epoch currentSlot) := by
  refine ⟨h.built.processNextVoteSlot_of_lt hlt epoch currentSlot, ?_, fun w hw => ?_⟩
  · rw [tower_processNextVoteSlot]
    exact h.follows.processNextVoteSlot h.built.stacked (forall_mem_map.mpr hlt)
  · rcases mem_processNextVoteSlot hw with ⟨hslot, hlatency⟩ | ⟨v, hv, hslot, hlatency⟩
    · rw [hslot]
      exact .inr ⟨hlt0, hlatency⟩
    · rw [← hslot, ← hlatency]
      exact h.latency v hv

/-- Votes for increasing slots. -/
theorem Continues.processVotes (h : vs₀.Continues currentSlot vs) {slots : List ℕ}
    (hslots : slots.Pairwise (· < ·)) (hlt0 : ∀ v ∈ vs₀.votes, ∀ slot ∈ slots, v.slot < slot)
    (hlt : ∀ v ∈ vs.votes, ∀ slot ∈ slots, v.slot < slot) (epoch : ℕ) :
    vs₀.Continues currentSlot (vs.processVotes epoch currentSlot slots) := by
  induction slots generalizing vs with
  | nil => exact h
  | cons slot slots ih =>
    obtain ⟨hfirst, hrest⟩ := pairwise_cons.mp hslots
    refine ih (h.processNextVoteSlot (fun v hv => hlt0 v hv slot mem_cons_self)
      (fun v hv => hlt v hv slot mem_cons_self) epoch) hrest
      (fun v hv n hn => hlt0 v hv n (mem_cons_of_mem _ hn)) fun w hw n hn => ?_
    rcases mem_processNextVoteSlot hw with ⟨hslot, -⟩ | ⟨v, hv, hslot, -⟩
    · rw [hslot]
      exact hfirst n hn
    · rw [← hslot]
      exact hlt v hv n (mem_cons_of_mem _ hn)

/-! ## The agreement -/

/-- The votes as they are sent. -/
def sent (vs : VoteState) : List LandedVote := vs.votes.map fun v => ofLockout v.lockout

theorem map_lockout_sent (vs : VoteState) : vs.sent.map LandedVote.lockout = vs.tower.votes := by
  unfold sent tower
  rw [List.map_map]
  rfl

theorem lockout_mem_tower {n : LandedVote} (h : n ∈ vs.sent) : n.lockout ∈ vs.tower.votes := by
  rw [← map_lockout_sent]
  exact mem_map_of_mem h

/-- Votes that are left are above the root. -/
theorem lt_of_mem_unrooted (hlinked : vs.votes.IsChain Linked) {newRoot : Option ℕ}
    {v : LandedVote} (h : v ∈ vs.unrooted newRoot) : ∀ r ∈ newRoot, r < v.slot := by
  rintro r hr
  cases mem_def.mp hr
  have hsorted := (pairwise_slot_of_isChain hlinked).sublist (vs.unrooted_suffix (some r)).sublist
  cases hdrop : vs.unrooted (some r) with
  | nil =>
    rw [hdrop] at h
    cases h
  | cons first rest =>
    have hfirst : r < first.slot := by
      have hnot := head?_dropWhile_not (fun v : LandedVote => decide (v.slot ≤ r)) vs.votes
      have hcons : vs.votes.dropWhile (fun v => decide (v.slot ≤ r)) = first :: rest := hdrop
      rw [hcons] at hnot
      simpa using hnot
    rw [hdrop] at h hsorted
    rcases mem_cons.mp h with rfl | h
    · exact hfirst
    · exact hfirst.trans ((pairwise_cons.mp hsorted).1 v h)

/-- **The tower is accepted.** -/
theorem Continues.accepts (h0 : vs₀.Built) (h : vs₀.Continues currentSlot vs) :
    vs₀.Accepts vs.sent vs.rootSlot := by
  have hlinked : vs.sent.IsChain Linked := by
    rw [isChain_linked_iff, map_lockout_sent]
    exact h.built.stacked.linked
  refine ⟨?_, ?_, fun n hn => ⟨?_, ?_, fun r hr _ => ?_⟩, hlinked, ?_, ?_⟩
  · unfold sent
    rw [length_map]
    exact h.built.length_le
  · unfold rootRollsBack
    cases hroot : vs₀.rootSlot with
    | none => cases vs.rootSlot <;> rfl
    | some r =>
      obtain ⟨r', hr', hle⟩ := h.follows.root_le r hroot
      have hroot' : vs.rootSlot = some r' := hr'
      rw [hroot']
      exact decide_eq_false (not_lt.mpr hle)
  · exact h.built.stacked.deep.one_le _ (lockout_mem_tower hn)
  · exact h.built.stacked.count_le _ (lockout_mem_tower hn)
  · exact h.built.stacked.above r hr _ (lockout_mem_tower hn)
  · intro v hv n hn heq
    have hmem := (vs₀.unrooted_suffix vs.rootSlot).subset hv
    cases h.follows.fate v.lockout (mem_map_of_mem hmem) with
    | rooted root hroot hle =>
      exact absurd (lt_of_mem_unrooted h0.linked hv root hroot) (not_lt.mpr hle)
    | kept w hw hslot hcount =>
      have hsame := eq_of_pairwise_lt (Lockout.pairwise_slot_of_isChain h.built.stacked.linked) hw
        (lockout_mem_tower hn) (hslot.trans heq)
      exact hcount.trans (congrArg Lockout.confirmationCount hsame).le
    | expired hall _ =>
      have hn' := hall n.lockout (lockout_mem_tower hn)
      have heq' : v.lockout.slot = n.lockout.slot := heq
      omega
  · intro v hv hne n hn hlt
    have hmem := (vs₀.unrooted_suffix vs.rootSlot).subset hv
    cases h.follows.fate v.lockout (mem_map_of_mem hmem) with
    | rooted root hroot hle =>
      exact absurd (lt_of_mem_unrooted h0.linked hv root hroot) (not_lt.mpr hle)
    | kept w hw hslot _ =>
      rw [← map_lockout_sent] at hw
      obtain ⟨m, hm, rfl⟩ := mem_map.mp hw
      exact absurd hslot (hne m hm)
    | expired hall _ =>
      have hn' := hall n.lockout (lockout_mem_tower hn)
      have hlt' : v.lockout.slot < n.lockout.slot := hlt
      show v.lockout.lastLockedOutSlot < n.lockout.slot
      omega

theorem inherit_eq_of_mem {currents : List LandedVote}
    (h : currents.Pairwise fun a b => a.slot < b.slot) {v new : LandedVote} (hv : v ∈ currents)
    (hslot : v.slot = new.slot) : inherit currents new = ⟨v.latency, new.lockout⟩ := by
  unfold inherit
  cases hfind : currents.find? fun current => decide (current.slot = new.slot) with
  | none => exact absurd (decide_eq_true hslot) (find?_eq_none.mp hfind v hv)
  | some u =>
    have hu : u.slot = new.slot := by
      have hdecide := find?_some hfind
      exact of_decide_eq_true hdecide
    rw [eq_of_pairwise_lt h (mem_of_find?_eq_some hfind) hv (hu.trans hslot.symm)]

/-- **The latencies are the same.** -/
theorem Continues.landed_eq (h0 : vs₀.Built) (h : vs₀.Continues currentSlot vs)
    (hlatency : ∀ v ∈ vs₀.votes, v.latency ≠ 0) :
    vs₀.landed vs.sent vs.rootSlot currentSlot = vs.votes := by
  unfold landed sent
  rw [List.map_map]
  conv_rhs => rw [← map_id vs.votes]
  refine map_congr_left fun w hw => ?_
  show setLatency currentSlot (inherit (vs₀.unrooted vs.rootSlot) ⟨0, w.lockout⟩) = w
  rcases h.latency w hw with ⟨v, hv, hslot, hsame⟩ | ⟨hnew, hcompute⟩
  · -- an old vote that is above the root
    have hmem : v ∈ vs₀.unrooted vs.rootSlot := by
      rcases mem_unrooted_or hv vs.rootSlot with hmem | ⟨r, hr, hle⟩
      · exact hmem
      · have habove := h.built.stacked.above r hr w.lockout (mem_map_of_mem hw)
        have hle' : w.slot ≤ r := hslot ▸ hle
        exact absurd hle' (not_le.mpr habove)
    have hsorted := (pairwise_slot_of_isChain h0.linked).sublist
      (vs₀.unrooted_suffix vs.rootSlot).sublist
    have hslot' : v.slot = slot ⟨0, w.lockout⟩ := hslot
    rw [inherit_eq_of_mem hsorted hmem hslot', hsame]
    exact if_neg (hsame ▸ hlatency v hv)
  · have hne : ∀ v ∈ vs₀.unrooted vs.rootSlot, v.slot ≠ slot ⟨0, w.lockout⟩ :=
      fun v hv => (hnew v ((vs₀.unrooted_suffix vs.rootSlot).subset hv)).ne
    rw [inherit_of_forall_ne hne]
    refine Eq.trans (if_pos rfl) ?_
    show (⟨computeVoteLatency w.slot currentSlot, w.lockout⟩ : LandedVote) = w
    rw [← hcompute]

/-! ## Credits of one vote -/

include h hlt in
/-- A vote that roots no vote earns nothing; else the oldest vote earns its credits. -/
theorem Built.epochCredits_processNextVoteSlot (epoch currentSlot : ℕ) :
    (vs.processNextVoteSlot nextVoteSlot epoch currentSlot).epochCredits =
      (if vs.rootSlot ≠ (vs.processNextVoteSlot nextVoteSlot epoch currentSlot).rootSlot then
        vs.incrementCredits epoch
          (vs.earned (vs.processNextVoteSlot nextVoteSlot epoch currentSlot).rootSlot)
      else vs).epochCredits := by
  have hslots := pairwise_slot_of_isChain h.linked
  have hnew : ¬(vs.lastVotedSlot.any fun last => decide (nextVoteSlot ≤ last)) = true := by
    rw [Bool.not_eq_true]
    exact (any_getLast?_eq_false_iff hslots nextVoteSlot).mpr hlt
  unfold VoteState.processNextVoteSlot
  rw [if_neg hnew]
  show ((vs.popExpiredVotes nextVoteSlot).popRooted epoch).epochCredits =
    (if vs.rootSlot ≠ ((vs.popExpiredVotes nextVoteSlot).popRooted epoch).rootSlot then
      vs.incrementCredits epoch
        (vs.earned ((vs.popExpiredVotes nextVoteSlot).popRooted epoch).rootSlot)
    else vs).epochCredits
  rcases (vs.popExpiredVotes nextVoteSlot).popRooted_cases epoch with
    ⟨v, rest, hvotes, -, heq⟩ | ⟨-, heq⟩
  · -- the oldest vote of the account is rooted
    obtain ⟨expired, hexpired⟩ : (vs.popExpiredVotes nextVoteSlot).votes <+: vs.votes :=
      rdropWhile_prefix _ _
    rw [hvotes, cons_append] at hexpired
    have hne : vs.rootSlot ≠ some v.slot := by
      intro hroot
      have habove := h.stacked.above v.slot hroot v.lockout
        (mem_map_of_mem (hexpired ▸ mem_cons_self))
      exact absurd habove (lt_irrefl _)
    have hcount : rootedCount v.slot vs.votes = 1 := by
      rw [← hexpired] at hslots ⊢
      unfold rootedCount
      rw [takeWhile_cons, if_pos (decide_eq_true le_rfl)]
      cases hrest : rest ++ expired with
      | nil => rfl
      | cons w rest' =>
        rw [hrest] at hslots
        have hw := (pairwise_cons.mp hslots).1 w mem_cons_self
        rw [takeWhile_cons, if_neg]
        · rfl
        · rw [decide_eq_true_eq]
          exact not_le.mpr hw
    have hcredits : (vs.popExpiredVotes nextVoteSlot).creditsForVoteAtIndex 0 =
        vs.earned (some v.slot) := by
      show _ = vs.creditsFrom 0 (rootedCount v.slot vs.votes)
      rw [hcount]
      show _ = vs.creditsForVoteAtIndex 0
      unfold creditsForVoteAtIndex
      rw [hvotes, ← hexpired]
      rfl
    rw [heq, rootSlot_incrementCredits, if_pos hne, hcredits]
    rfl
  · have hsame : ¬vs.rootSlot ≠ (vs.popExpiredVotes nextVoteSlot).rootSlot := fun hne => hne rfl
    rw [heq, if_neg hsame]
    rfl

/-- **Votes one by one and the tower that they build lead to the same account.** -/
theorem Reachable.processNewVoteState_eq (h : Reachable vs)
    (hlatency : ∀ v ∈ vs.votes, v.latency ≠ 0) {slot : ℕ} {slots : List ℕ}
    (hslots : (slot :: slots).Pairwise (· < ·)) (hlast : ∀ last ∈ vs.lastVotedSlot, last < slot)
    (epoch currentSlot : ℕ) :
    ∃ vs', vs.processNewVoteState
        ((vs.processVotes epoch currentSlot (slot :: slots)).votes.map fun v =>
          ofLockout v.lockout)
        (vs.processVotes epoch currentSlot (slot :: slots)).rootSlot none epoch currentSlot =
          some (.ok vs') ∧
      vs'.votes = (vs.processVotes epoch currentSlot (slot :: slots)).votes ∧
      vs'.rootSlot = (vs.processVotes epoch currentSlot (slot :: slots)).rootSlot ∧
      (slots = [] →
        vs'.epochCredits = (vs.processVotes epoch currentSlot (slot :: slots)).epochCredits) := by
  have hbuilt := h.built
  have hfirst : ∀ v ∈ vs.votes, v.slot < slot := by
    refine (any_getLast?_eq_false_iff (pairwise_slot_of_isChain hbuilt.linked) slot).mp ?_
    show (vs.lastVotedSlot.any fun last => decide (slot ≤ last)) = false
    cases hvoted : vs.lastVotedSlot with
    | none => rfl
    | some last => exact decide_eq_false (not_le.mpr (hlast last hvoted))
  have hlt : ∀ v ∈ vs.votes, ∀ n ∈ slot :: slots, v.slot < n := by
    intro v hv n hn
    rcases mem_cons.mp hn with rfl | hn
    · exact hfirst v hv
    · exact (hfirst v hv).trans ((pairwise_cons.mp hslots).1 n hn)
  have hcontinues := (hbuilt.continues currentSlot).processVotes hslots hlt hlt epoch
  have hne : (vs.processVotes epoch currentSlot (slot :: slots)).sent ≠ [] := by
    intro hnil
    exact votes_processVotes_ne_nil (vs.votes_processNextVoteSlot_ne_nil slot epoch currentSlot)
      epoch currentSlot slots (map_eq_nil_iff.mp hnil)
  have hrun := processNewVoteState_of_accepts hbuilt.length_le hbuilt.linked
    (getLast?_eq_some_getLast hne) (hcontinues.accepts hbuilt) none epoch currentSlot
  refine ⟨_, hrun, hcontinues.landed_eq hbuilt hlatency, rfl, ?_⟩
  rintro rfl
  exact (hbuilt.epochCredits_processNextVoteSlot hfirst epoch currentSlot).symm

/-- Votes for the slots 2 and 4 after a vote for the slot 1. -/
theorem processNewVoteState_eq_two_votes :
    ∃ vs', (empty.processNextVoteSlot 1 0 2).processNewVoteState
        [⟨0, ⟨1, 3⟩⟩, ⟨0, ⟨2, 2⟩⟩, ⟨0, ⟨4, 1⟩⟩] none none 0 5 = some (.ok vs') ∧
      vs'.votes = [⟨1, ⟨1, 3⟩⟩, ⟨3, ⟨2, 2⟩⟩, ⟨1, ⟨4, 1⟩⟩] := by
  have hrun : (empty.processNextVoteSlot 1 0 2).processVotes 0 5 [2, 4] =
      ⟨[⟨1, ⟨1, 3⟩⟩, ⟨3, ⟨2, 2⟩⟩, ⟨1, ⟨4, 1⟩⟩], none, [], ⟨0, 0⟩⟩ := by decide
  obtain ⟨vs', heq, hvotes, -⟩ := Reachable.processNewVoteState_eq
    (Reachable.empty.vote 1 0 2) (by decide) (by decide : [2, 4].Pairwise (· < ·)) (by decide) 0 5
  rw [hrun] at heq hvotes
  exact ⟨vs', heq, hvotes⟩

end VoteState
end FlowraValidator.VoteProgram
