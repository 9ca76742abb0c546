import FlowraValidator.VoteProgram.VoteState

/-!
# A tower from outside

`do_process_tower_sync` puts a tower that a validator sends in the place of the one in its account.
The validator may send anything: lockouts in any order, any root and any hash. The checks are made
by two walks, one along the slot hashes and one along the old votes, and the first one may also drop
lockouts and replace the root, so the tower that is checked by the second one is not the one that
was sent.

Whatever is sent, no assertion of the two functions fails. If the tower is taken, the account is
as well formed as before, the new votes and the root are on the fork of the slot hashes or were in
the account already, and no old vote is taken back: a vote above the root stays with at least as
many confirmations, or its lockout was over before the next vote.

* `VoteState.WellFormed`: towers that an account may have.
* `VoteState.processNewVoteState_returns`: the second walk.
* `VoteState.checkAndFilterProposedVoteState_returns`: the first walk.
* `VoteState.doProcessTowerSync_safe`: both together.
-/

namespace FlowraValidator.VoteProgram.VoteState
open VoteError LandedVote List Option Prod

/-- Towers that an account may have. -/
structure WellFormed (vs : VoteState) : Prop where
  length_le : vs.votes.length ≤ maxLockoutHistory
  linked : vs.votes.IsChain Linked
  proper : ∀ v ∈ vs.votes, Proper vs.rootSlot v

variable {vs : VoteState} {newState : List LandedVote} {newRoot : Option ℕ} {v w : LandedVote}
  {e : VoteError} {currentSlot : ℕ}

/-! ## The second walk -/

/-- The votes above the new root. -/
def unrooted (vs : VoteState) (newRoot : Option ℕ) : List LandedVote :=
  newRoot.elim vs.votes fun root => vs.votes.dropWhile fun v => decide (v.slot ≤ root)

/-- The credits for the votes that the new root confirms. -/
def earned (vs : VoteState) (newRoot : Option ℕ) : ℕ :=
  newRoot.elim 0 fun root => vs.creditsFrom 0 (rootedCount root vs.votes)

theorem unrooted_suffix (vs : VoteState) (newRoot : Option ℕ) :
    vs.unrooted newRoot <:+ vs.votes := by
  cases newRoot with
  | none => exact suffix_rfl
  | some root => exact dropWhile_suffix _

/-- A vote is above the new root or not. -/
theorem mem_unrooted_or (h : v ∈ vs.votes) (newRoot : Option ℕ) :
    v ∈ vs.unrooted newRoot ∨ ∃ root ∈ newRoot, v.slot ≤ root := by
  cases newRoot with
  | none => exact .inl h
  | some root =>
    rw [← takeWhile_append_dropWhile (p := fun v => decide (v.slot ≤ root)) (l := vs.votes)]
      at h
    rcases mem_append.mp h with h | h
    · have hle := mem_takeWhile_imp h
      exact .inr ⟨root, rfl, of_decide_eq_true hle⟩
    · exact .inl h

/-- What the second walk asks for. -/
structure Accepts (vs : VoteState) (newState : List LandedVote) (newRoot : Option ℕ) : Prop where
  length_le : newState.length ≤ maxLockoutHistory
  root : vs.rootRollsBack newRoot = false
  proper : ∀ v ∈ newState, Proper newRoot v
  linked : newState.IsChain Linked
  mergeable : Mergeable (vs.unrooted newRoot) newState

/-- The votes that the account has then. -/
def landed (vs : VoteState) (newState : List LandedVote) (newRoot : Option ℕ) (currentSlot : ℕ) :
    List LandedVote :=
  newState.map fun v => setLatency currentSlot (inherit (vs.unrooted newRoot) v)

@[simp] theorem lockout_setLatency (currentSlot : ℕ) (v : LandedVote) :
    (setLatency currentSlot v).lockout = v.lockout := by
  unfold setLatency
  split_ifs <;> rfl

@[simp] theorem map_lockout_landed (currentSlot : ℕ) :
    (vs.landed newState newRoot currentSlot).map lockout = newState.map lockout := by
  unfold landed
  rw [List.map_map]
  exact map_congr_left fun v _ => by simp

theorem earnCredits_eq_of_length_le (h : vs.votes.length ≤ maxLockoutHistory)
    (newRoot : Option ℕ) :
    ∃ index, (newRoot.elim (some (0, 0)) fun root => vs.earnCredits root vs.votes 0 0) =
        some (index, vs.earned newRoot) ∧ vs.votes.drop index = vs.unrooted newRoot := by
  cases newRoot with
  | none => exact ⟨0, rfl, rfl⟩
  | some root =>
    have hbound : 0 + voteCreditsMaximumPerSlot * vs.votes.length ≤ u64Max := by
      unfold maxLockoutHistory at h
      unfold voteCreditsMaximumPerSlot u64Max
      omega
    refine ⟨rootedCount root vs.votes, ?_, drop_rootedCount root vs.votes⟩
    have heq : vs.earnCredits root vs.votes 0 0 = _ := vs.earnCredits_eq vs.votes 0 0 hbound
    rwa [Nat.zero_add, Nat.zero_add] at heq

theorem checkVotes_error {previous : Option LandedVote} {votes : List LandedVote}
    (h : checkVotes newRoot previous votes = .error e) : e ≠ .assertionFailed := by
  rintro rfl
  fun_induction checkVotes newRoot previous votes <;> simp_all

theorem mergeVotes_error {currents news : List LandedVote} (h : mergeVotes currents news = .error e)
    : e ≠ .assertionFailed := by
  rintro rfl
  fun_induction mergeVotes currents news <;> simp_all [Except.map]
  all_goals grind

/-- The credits, the timestamp, the root and the votes of an accepted tower. -/
def settle (vs : VoteState) (newState : List LandedVote) (newRoot : Option ℕ)
    (timestamp : Option ℤ) (epoch currentSlot lastSlot : ℕ) : Except VoteError VoteState :=
  let credited :=
    if vs.rootSlot ≠ newRoot then vs.incrementCredits epoch (vs.earned newRoot) else vs
  let stamped : Except VoteError VoteState :=
    match timestamp with
    | none => .ok credited
    | some timestamp => credited.processTimestamp lastSlot timestamp
  stamped.map fun credited =>
    { credited with votes := vs.landed newState newRoot currentSlot, rootSlot := newRoot }

variable (hlen : vs.votes.length ≤ maxLockoutHistory) (hlinked : vs.votes.IsChain Linked)
  (hne : newState ≠ [])
include hlen hlinked in
/-- **An accepted tower is put in place.** -/
theorem processNewVoteState_of_accepts {last : LandedVote} (hlast : newState.getLast? = some last)
    (h : vs.Accepts newState newRoot) (timestamp : Option ℤ) (epoch currentSlot : ℕ) :
    vs.processNewVoteState newState newRoot timestamp epoch currentSlot =
      some (vs.settle newState newRoot timestamp epoch currentSlot last.slot) := by
  obtain ⟨index, hearned, hdrop⟩ := earnCredits_eq_of_length_le hlen newRoot
  have hcheck : checkVotes newRoot none newState = .ok () :=
    (checkVotes_eq_ok_iff none newState).mpr ⟨h.proper, h.linked⟩
  have hsorted := (pairwise_slot_of_isChain hlinked).sublist (vs.unrooted_suffix newRoot).sublist
  have hmerge := (mergeVotes_eq_ok_iff _ _ hsorted (pairwise_slot_of_isChain h.linked) _).mpr
    ⟨h.mergeable, rfl⟩
  unfold processNewVoteState settle
  simp only [hlast, not_lt.mpr h.length_le, h.root, hcheck, hearned, hdrop, hmerge, if_false,
    Bool.false_eq_true, List.map_map]
  rfl

include hlen hlinked hne in
/-- A tower that is not acceptable is refused, without a failed assertion. -/
theorem processNewVoteState_of_not_accepts (h : ¬vs.Accepts newState newRoot) (timestamp : Option ℤ)
    (epoch currentSlot : ℕ) :
    ∃ e, vs.processNewVoteState newState newRoot timestamp epoch currentSlot =
      some (.error e) ∧ e ≠ .assertionFailed := by
  obtain ⟨index, hearned, hdrop⟩ := earnCredits_eq_of_length_le hlen newRoot
  have hlast := getLast?_eq_some_getLast hne
  unfold processNewVoteState
  simp only [hlast]
  by_cases hlength : newState.length > maxLockoutHistory
  · exact ⟨.tooManyVotes, if_pos hlength, noConfusion⟩
  rw [if_neg hlength]
  by_cases hroot : vs.rootRollsBack newRoot = true
  · exact ⟨.rootRollBack, if_pos hroot, noConfusion⟩
  rw [if_neg hroot]
  cases hcheck : checkVotes newRoot none newState with
  | error e => exact ⟨e, rfl, checkVotes_error hcheck⟩
  | ok =>
    obtain ⟨hproper, hchain⟩ := (checkVotes_eq_ok_iff none newState).mp hcheck
    simp only [hearned, hdrop]
    cases hmerge : mergeVotes (vs.unrooted newRoot) newState with
    | error e => exact ⟨e, rfl, mergeVotes_error hmerge⟩
    | ok merged =>
      have hsorted :=
        (pairwise_slot_of_isChain hlinked).sublist (vs.unrooted_suffix newRoot).sublist
      have hmergeable := (mergeVotes_eq_ok_iff _ _ hsorted (pairwise_slot_of_isChain hchain) _).mp
        hmerge
      exact absurd ⟨not_lt.mp hlength, Bool.eq_false_iff.mpr hroot, hproper, hchain, hmergeable.1⟩ h

theorem returns_settle (timestamp : Option ℤ) (epoch currentSlot lastSlot : ℕ) :
    Returns (fun vs' => vs'.votes = vs.landed newState newRoot currentSlot ∧ vs'.rootSlot = newRoot)
      (some (vs.settle newState newRoot timestamp epoch currentSlot lastSlot)) := by
  unfold settle
  cases timestamp with
  | none => exact ⟨rfl, rfl⟩
  | some timestamp =>
    unfold processTimestamp
    dsimp only
    split_ifs
    · exact noConfusion
    · exact ⟨rfl, rfl⟩
    · exact noConfusion
    · exact ⟨rfl, rfl⟩

include hlen hlinked hne in
/-- **A tower is accepted or refused, without a failed assertion.** -/
theorem processNewVoteState_returns (timestamp : Option ℤ) (epoch currentSlot : ℕ) :
    Returns (fun vs' => vs.Accepts newState newRoot ∧
        vs'.votes = vs.landed newState newRoot currentSlot ∧ vs'.rootSlot = newRoot)
      (vs.processNewVoteState newState newRoot timestamp epoch currentSlot) := by
  by_cases haccepts : vs.Accepts newState newRoot
  · rw [processNewVoteState_of_accepts hlen hlinked (getLast?_eq_some_getLast hne) haccepts]
    exact (returns_settle timestamp epoch currentSlot _).mono fun vs' h => ⟨haccepts, h⟩
  · obtain ⟨e, heq, he⟩ := processNewVoteState_of_not_accepts hlen hlinked hne haccepts timestamp
      epoch currentSlot
    rwa [heq]

/-! ## The first walk -/

/-- The root that is checked is the one that was sent, or one of the account. -/
theorem mem_overwriteRoot {earliest root : ℕ} {proposedRoot : Option ℕ}
    (h : root ∈ vs.overwriteRoot earliest proposedRoot) :
    earliest ≤ root ∨ vs.rootSlot = some root ∨ ∃ v ∈ vs.votes, v.slot = root := by
  unfold overwriteRoot at h
  cases proposedRoot with
  | none => exact absurd h (not_mem_none root)
  | some proposed =>
    dsimp only at h
    split_ifs at h with hlt
    · cases hfind : vs.votes.reverse.find? fun vote => decide (vote.slot ≤ proposed) with
      | none =>
        rw [hfind] at h
        exact .inr (.inl h)
      | some vote =>
        rw [hfind] at h
        exact .inr (.inr ⟨vote, mem_reverse.mp (mem_of_find?_eq_some hfind), mem_some_iff.mp h⟩)
    · cases mem_some_iff.mp h
      exact .inl (not_lt.mp hlt)

/-- What is known of a tower that the first walk lets through. -/
structure Filtered (vs : VoteState) (slotHashes : List (ℕ × Hash)) (hash : Hash)
    (lockouts : List Lockout) (root : Option ℕ) : Prop where
  last : ∃ last, lockouts.getLast? = some last ∧ (∀ v ∈ vs.votes, v.slot < last.slot) ∧
    (last.slot, hash) ∈ slotHashes
  known : ∀ lockout ∈ lockouts, lockout.slot ∈ slotHashes.map fst ∨
    ∃ v ∈ vs.votes, v.slot = lockout.slot
  root : ∀ r ∈ root, r ∈ slotHashes.map fst ∨ vs.rootSlot = some r ∨ ∃ v ∈ vs.votes, v.slot = r

/-- **Only towers on the fork pass, and no assertion fails.** -/
theorem checkAndFilterProposedVoteState_returns (hlinked : vs.votes.IsChain Linked)
    (proposedLockouts : List Lockout) (proposedRoot : Option ℕ) (proposedHash : Hash)
    (slotHashes : List (ℕ × Hash)) :
    Returns (fun r => vs.Filtered slotHashes proposedHash r.1 r.2)
      (vs.checkAndFilterProposedVoteState proposedLockouts proposedRoot proposedHash
        slotHashes) := by
  unfold checkAndFilterProposedVoteState
  cases hlast : proposedLockouts.getLast? with
  | none => exact noConfusion
  | some last =>
    dsimp only
    by_cases hold : vs.lastVotedSlot.any fun lastVoteSlot => decide (last.slot ≤ lastVoteSlot)
    · rw [if_pos hold]
      exact noConfusion
    rw [if_neg hold]
    have hnewer : ∀ v ∈ vs.votes, v.slot < last.slot :=
      (any_getLast?_eq_false_iff (pairwise_slot_of_isChain hlinked) last.slot).mp
        (Bool.eq_false_iff.mpr hold)
    cases hearliest : slotHashes.getLast? with
    | none => exact noConfusion
    | some oldest =>
      dsimp only
      by_cases hlt : last.slot < oldest.1
      · rw [if_pos hlt]
        exact noConfusion
      rw [if_neg hlt]
      have hhead : ∀ h ∈ slotHashes.reverse.head?, h.1 = oldest.1 := by
        intro h hmem
        rw [head?_reverse, hearliest] at hmem
        rw [mem_some_iff.mp hmem]
      have hwalk : Returns _ (vs.checkSlots oldest.1 (vs.overwriteRoot oldest.1 proposedRoot) none
          proposedLockouts none slotHashes.reverse []) :=
        vs.checkSlots_returns (fun _ => hhead) hlast (not_lt.mp hlt)
      revert hwalk
      rcases vs.checkSlots oldest.1 (vs.overwriteRoot oldest.1 proposedRoot) none proposedLockouts
        none slotHashes.reverse [] with _ | e | ⟨kept, passed⟩
      · exact False.elim
      · exact id
      · rintro ⟨filtered, hkept, hwalked⟩
        obtain ⟨slotHash, hmem, hpassed, hslot⟩ := hwalked.passed
        have hreverse : ∀ {slot : ℕ}, slot ∈ slotHashes.reverse.map fst →
            slot ∈ slotHashes.map fst := by
          intro slot hslot
          rw [map_reverse] at hslot
          exact mem_reverse.mp hslot
        dsimp only at hkept hpassed
        rw [nil_append] at hkept
        subst hkept hpassed
        dsimp only
        rw [if_neg (not_not.mpr hslot.symm)]
        by_cases hhash : slotHash.2 ≠ proposedHash
        · rw [if_pos hhash]
          exact noConfusion
        rw [if_neg hhash]
        refine ⟨⟨last, hwalked.last, hnewer, ?_⟩, fun l hl => ?_, fun r hr => ?_⟩
        · rw [← hslot, ← not_not.mp hhash]
          exact mem_reverse.mp hmem
        · exact (hwalked.known l hl).imp hreverse fun hown => by simpa [containsSlot] using hown
        · rcases mem_overwriteRoot hr with hge | hown
          · rcases hwalked.root r hr with hlt' | hfound
            · exact absurd hge (not_le.mpr hlt')
            · exact .inl (hreverse hfound)
          · exact .inr hown

/-! ## Both walks -/

/-- What an accepted tower does to an account. -/
structure Advances (vs : VoteState) (slotHashes : List (ℕ × Hash)) (hash : Hash)
    (vs' : VoteState) : Prop where
  wellFormed : vs'.WellFormed
  last : ∃ last, vs'.lastVotedSlot = some last ∧ (∀ v ∈ vs.votes, v.slot < last) ∧
    (last, hash) ∈ slotHashes
  root_le : ∀ r ∈ vs.rootSlot, ∃ r' ∈ vs'.rootSlot, r ≤ r'
  root_known : ∀ r ∈ vs'.rootSlot, r ∈ slotHashes.map fst ∨ vs.rootSlot = some r ∨
    ∃ v ∈ vs.votes, v.slot = r
  known : ∀ w ∈ vs'.votes, w.slot ∈ slotHashes.map fst ∨ ∃ v ∈ vs.votes, v.slot = w.slot
  -- an old vote is rooted, or stays, or has expired before the next vote
  kept : ∀ v ∈ vs.votes, (∃ r ∈ vs'.rootSlot, v.slot ≤ r) ∨
    (∃ w ∈ vs'.votes, w.slot = v.slot ∧ v.confirmationCount ≤ w.confirmationCount) ∨
    ∀ w ∈ vs'.votes, v.slot < w.slot → v.lockout.lastLockedOutSlot < w.slot

theorem exists_le_of_rootRollsBack_eq_false (h : vs.rootRollsBack newRoot = false) :
    ∀ r ∈ vs.rootSlot, ∃ r' ∈ newRoot, r ≤ r' := by
  intro r hr
  have hroot : vs.rootSlot = some r := hr
  unfold rootRollsBack at h
  rw [hroot] at h
  cases newRoot with
  | none => cases h
  | some root => exact ⟨root, rfl, not_lt.mp (of_decide_eq_false h)⟩

/-- The lockouts of an accepted tower are those of the votes of the account then. -/
theorem exists_of_mem_landed (h : w ∈ vs.landed newState newRoot currentSlot) :
    ∃ n ∈ newState, w.lockout = n.lockout := by
  obtain ⟨n, hn, rfl⟩ := mem_map.mp h
  exact ⟨n, hn, by rw [lockout_setLatency, lockout_inherit]⟩

theorem proper_congr (h : v.lockout = w.lockout) (hv : Proper newRoot v) : Proper newRoot w := by
  obtain ⟨hpos, hle, habove⟩ := hv
  unfold slot at habove
  unfold confirmationCount at hpos hle
  rw [h] at hpos hle habove
  exact ⟨hpos, hle, habove⟩

/-- The account with an accepted tower is well formed. -/
theorem Accepts.wellFormed (h : vs.Accepts newState newRoot) {vs' : VoteState}
    (hvotes : vs'.votes = vs.landed newState newRoot currentSlot) (hroot : vs'.rootSlot = newRoot) :
    vs'.WellFormed := by
  refine ⟨?_, ?_, fun w hw => ?_⟩
  · rw [hvotes]
    unfold landed
    rw [length_map]
    exact h.length_le
  · rw [hvotes, isChain_linked_iff, map_lockout_landed, ← isChain_linked_iff]
    exact h.linked
  · rw [hvotes] at hw
    obtain ⟨n, hn, hlockout⟩ := exists_of_mem_landed hw
    rw [hroot]
    exact proper_congr hlockout.symm (h.proper n hn)

/-- No old vote is taken back. -/
theorem Accepts.kept (h : vs.Accepts newState newRoot) (currentSlot : ℕ) (hv : v ∈ vs.votes)
    : (∃ r ∈ newRoot, v.slot ≤ r) ∨
      (∃ w ∈ vs.landed newState newRoot currentSlot, w.slot = v.slot ∧
        v.confirmationCount ≤ w.confirmationCount) ∨
      ∀ w ∈ vs.landed newState newRoot currentSlot, v.slot < w.slot →
        v.lockout.lastLockedOutSlot < w.slot := by
  rcases mem_unrooted_or hv newRoot with hmem | hrooted
  · refine .inr ?_
    by_cases hnew : ∃ n ∈ newState, n.slot = v.slot
    · obtain ⟨n, hn, hslot⟩ := hnew
      have hcount := h.mergeable.count_le v hmem n hn hslot.symm
      obtain ⟨w, hw, hlockout⟩ : ∃ w ∈ vs.landed newState newRoot currentSlot,
          w.lockout = n.lockout :=
        ⟨_, mem_map_of_mem hn, by rw [lockout_setLatency, lockout_inherit]⟩
      refine .inl ⟨w, hw, ?_, ?_⟩
      · rw [← hslot]
        exact congrArg Lockout.slot hlockout
      · exact hcount.trans (congrArg Lockout.confirmationCount hlockout).ge
    · refine .inr fun w hw hlt => ?_
      obtain ⟨n, hn, hlockout⟩ := exists_of_mem_landed hw
      have hslot : w.slot = n.slot := congrArg Lockout.slot hlockout
      rw [hslot] at hlt ⊢
      exact h.mergeable.expired v hmem (fun m hm heq => hnew ⟨m, hm, heq⟩) n hn hlt
  · exact .inl hrooted

theorem doProcessTowerSync_returns (h : vs.WellFormed) (slotHashes : List (ℕ × Hash))
    (epoch slot : ℕ) (towerSync : TowerSync) :
    Returns (vs.Advances slotHashes towerSync.hash)
      (vs.doProcessTowerSync slotHashes epoch slot towerSync) := by
  have hfilter := checkAndFilterProposedVoteState_returns h.linked towerSync.lockouts
    towerSync.root towerSync.hash slotHashes
  unfold doProcessTowerSync
  revert hfilter
  rcases vs.checkAndFilterProposedVoteState towerSync.lockouts towerSync.root towerSync.hash
    slotHashes with _ | e | ⟨lockouts, root⟩
  · exact False.elim
  · exact id
  intro hfiltered
  obtain ⟨last, hlast, hnewer, hhash⟩ := hfiltered.last
  have hne : lockouts.map ofLockout ≠ [] := by
    intro hnil
    rw [map_eq_nil_iff.mp hnil] at hlast
    cases hlast
  refine (processNewVoteState_returns h.length_le h.linked hne _ epoch slot).mono ?_
  rintro vs' ⟨haccepts, hvotes, hroot⟩
  have hlockouts : vs'.votes.map lockout = lockouts := by
    rw [hvotes, map_lockout_landed, List.map_map]
    exact map_id lockouts
  refine ⟨haccepts.wellFormed hvotes hroot, ⟨last.slot, ?_, hnewer, hhash⟩, ?_, ?_, ?_, ?_⟩
  · rw [← hlockouts, getLast?_map] at hlast
    rw [← Option.map_some, ← hlast, Option.map_map]
    rfl
  · rw [hroot]
    exact exists_le_of_rootRollsBack_eq_false haccepts.root
  · rw [hroot]
    exact hfiltered.root
  · intro w hw
    have hmem : w.lockout ∈ lockouts := by
      rw [← hlockouts]
      exact mem_map_of_mem hw
    exact hfiltered.known w.lockout hmem
  · intro v hv
    rw [hroot, hvotes]
    exact haccepts.kept slot hv

/-- **A tower from outside never breaks an account.**  Whatever is sent, both instructions return
without a failed assertion; if they succeed, the account advances. -/
theorem doProcessTowerSync_safe (h : vs.WellFormed) (slotHashes : List (ℕ × Hash))
    (epoch slot : ℕ) (towerSync : TowerSync) :
    Returns (vs.Advances slotHashes towerSync.hash)
        (vs.doProcessTowerSync slotHashes epoch slot towerSync) ∧
      Returns (vs.Advances slotHashes towerSync.hash)
        (vs.doProcessVoteStateUpdate slotHashes epoch slot towerSync) :=
  ⟨doProcessTowerSync_returns h slotHashes epoch slot towerSync,
    doProcessTowerSync_returns h slotHashes epoch slot towerSync⟩

/-- Two votes are in the account, and the tower that is sent has another one on top of them. -/
theorem doProcessTowerSync_safe_third_vote :
    ∃ vs', VoteState.doProcessTowerSync
        ⟨[⟨1, ⟨3, 2⟩⟩, ⟨1, ⟨4, 1⟩⟩], none, [], ⟨0, 0⟩⟩ [(6, 60), (5, 50), (4, 40)] 0 7
        ⟨[⟨3, 3⟩, ⟨4, 2⟩, ⟨6, 1⟩], none, 60, none⟩ = some (.ok vs') ∧
      VoteState.Advances ⟨[⟨1, ⟨3, 2⟩⟩, ⟨1, ⟨4, 1⟩⟩], none, [], ⟨0, 0⟩⟩
        [(6, 60), (5, 50), (4, 40)] 60 vs' := by
  have hwf : VoteState.WellFormed ⟨[⟨1, ⟨3, 2⟩⟩, ⟨1, ⟨4, 1⟩⟩], none, [], ⟨0, 0⟩⟩ := by
    refine ⟨by decide, by decide, fun v hv => ?_⟩
    rw [proper_iff]
    revert v
    decide
  have hsafe := (doProcessTowerSync_safe hwf [(6, 60), (5, 50), (4, 40)] 0 7
    ⟨[⟨3, 3⟩, ⟨4, 2⟩, ⟨6, 1⟩], none, 60, none⟩).1
  have hrun : VoteState.doProcessTowerSync
      ⟨[⟨1, ⟨3, 2⟩⟩, ⟨1, ⟨4, 1⟩⟩], none, [], ⟨0, 0⟩⟩ [(6, 60), (5, 50), (4, 40)] 0 7
      ⟨[⟨3, 3⟩, ⟨4, 2⟩, ⟨6, 1⟩], none, 60, none⟩ =
        some (.ok ⟨[⟨1, ⟨3, 3⟩⟩, ⟨1, ⟨4, 2⟩⟩, ⟨1, ⟨6, 1⟩⟩], none, [], ⟨0, 0⟩⟩) := by
    decide +kernel
  rw [hrun] at hsafe
  exact ⟨_, hrun, hsafe⟩

end FlowraValidator.VoteProgram.VoteState
