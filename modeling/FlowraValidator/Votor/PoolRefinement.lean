import FlowraValidator.Votor.Ledger

/-!
# The vote pools represent the ledger

The vote pools of a consensus pool hold exactly what can be computed from the ledger of accepted
votes: which votes there are, how much stake they have, and who has voted. Storing one more vote is
appending it to the ledger, and the checks of the pool are `Ledger.Accepts`.

* `Ledger.pools`: the vote pools of a ledger.
* `updateVotePool_of_accepts`, `updateVotePool_of_not_accepts`: storing a vote.
* `hasConflictingVote_eq_none_iff`: the check for conflicts.
* `accumulatedStake_eq`, `certificateVotes_eq`: what is counted for a certificate.
-/

namespace FlowraValidator.Votor
open DuplicateBlockVotePool Ledger Function List Option Vote Prod

variable {Sig : Type}

namespace Ledger
variable (cl : Cluster)

/-- The votes for a block among some votes. -/
def forBlock (msgs : List (VoteMessage Sig)) (b : Hash) : List (VoteMessage Sig) :=
  msgs.filter fun m => decide (m.vote.blockId = some b)

/-- The votes of a vote account among some votes of `slot`. -/
def ofKey (slot : ℕ) (msgs : List (VoteMessage Sig)) (key : Pubkey) : List (VoteMessage Sig) :=
  msgs.filter fun m => decide ((cl.stakesAt slot).keyOf m.rank = key)

def simplePool (slot : ℕ) (msgs : List (VoteMessage Sig)) : SimpleVotePool Sig where
  votes := msgs
  totalStake := stake cl slot msgs
  prevVotedValidators := msgs.map fun m => (cl.stakesAt slot).keyOf m.rank

def blockPool (slot maxEntries : ℕ) (msgs : List (VoteMessage Sig)) :
    DuplicateBlockVotePool Sig where
  maxEntriesPerPubkey := maxEntries
  voteEntries := fun b =>
    if (forBlock msgs b).isEmpty then none
    else some ⟨forBlock msgs b, stake cl slot (forBlock msgs b)⟩
  prevVotedBlockIds := fun key =>
    if (ofKey cl slot msgs key).isEmpty then none
    else some ((ofKey cl slot msgs key).filterMap fun m => m.vote.blockId)

/-- The bound of votes by block id for each validator. -/
def maxEntries : VoteType → ℕ
  | .notarizeFallback => maxEntriesPerPubkeyForNotarizeLite
  | _ => maxEntriesPerPubkeyForOtherTypes

/-- The pool for some votes of one slot and type. -/
def pool (slot : ℕ) (ty : VoteType) (msgs : List (VoteMessage Sig)) : VotePool Sig :=
  if ty.isByBlock then .duplicateBlock (blockPool cl slot (maxEntries ty) msgs)
  else .simple (simplePool cl slot msgs)

/-- The vote pools of a ledger. -/
def pools (led : Ledger Sig) (id : ℕ × VoteType) : Option (VotePool Sig) :=
  if (led.ofType id.1 id.2).isEmpty then none
  else some (pool cl id.1 id.2 (led.ofType id.1 id.2))

variable {cl}

theorem pools_getD (led : Ledger Sig) (slot : ℕ) (ty : VoteType) :
    (pools cl led (slot, ty)).getD (ConsensusPool.newVotePool ty) =
      pool cl slot ty (led.ofType slot ty) := by
  unfold pools
  split_ifs with h
  · rw [List.isEmpty_iff] at h
    rw [h]
    cases ty <;> rfl
  · rfl

theorem ofType_append_self (led : Ledger Sig) (m : VoteMessage Sig) :
    (led ++ [m]).ofType m.vote.slot m.vote.getType =
      led.ofType m.vote.slot m.vote.getType ++ [m] := by
  unfold ofType
  rw [filter_append, filter_cons_of_pos (by simp), filter_nil]

variable {ty : VoteType} {v : Vote}

theorem ofType_append_of_ne (led : Ledger Sig) {m : VoteMessage Sig} {slot : ℕ}
    (h : (slot, ty) ≠ (m.vote.slot, m.vote.getType)) :
    (led ++ [m]).ofType slot ty = led.ofType slot ty := by
  unfold ofType
  rw [filter_append, filter_cons_of_neg, filter_nil, append_nil]
  rw [decide_eq_true_iff]
  rintro ⟨rfl, rfl⟩
  exact h rfl

theorem pools_append (led : Ledger Sig) (m : VoteMessage Sig) :
    pools cl (led ++ [m]) = update (pools cl led) (m.vote.slot, m.vote.getType)
      (some (pool cl m.vote.slot m.vote.getType
        (led.ofType m.vote.slot m.vote.getType ++ [m]))) := by
  funext ⟨slot, ty⟩
  by_cases h : (slot, ty) = (m.vote.slot, m.vote.getType)
  · rw [h, update_self]
    unfold pools
    rw [ofType_append_self, if_neg (by simp)]
  · rw [update_of_ne h]
    unfold pools
    rw [ofType_append_of_ne led h]

/-! ## Storing a vote -/

section
variable {slot : ℕ} {msgs : List (VoteMessage Sig)} {m : VoteMessage Sig}

theorem simplePool_addVote_of_new
    (h : ∀ m' ∈ msgs, (cl.stakesAt slot).keyOf m'.rank ≠ (cl.stakesAt slot).keyOf m.rank)
    (hsum : stake cl slot (msgs ++ [m]) ≤ u64Max) :
    (simplePool cl slot msgs).addVote ((cl.stakesAt slot).keyOf m.rank)
      ((cl.stakesAt slot).stakeOf m.rank) m =
        (some (stake cl slot (msgs ++ [m])), simplePool cl slot (msgs ++ [m])) := by
  have hnot : (cl.stakesAt slot).keyOf m.rank ∉ (simplePool cl slot msgs).prevVotedValidators := by
    intro hmem
    obtain ⟨m', hm', hkey⟩ := mem_map.mp hmem
    exact h m' hm' hkey
  have htotal : saturatingAdd (stake cl slot msgs) ((cl.stakesAt slot).stakeOf m.rank) =
      stake cl slot (msgs ++ [m]) := by
    rw [stake_append, stake_singleton] at hsum ⊢
    exact Nat.min_eq_left hsum
  unfold SimpleVotePool.addVote
  rw [if_neg hnot]
  dsimp only [simplePool]
  rw [htotal, map_append, map_singleton]

variable {b : Hash} {key : Pubkey} (maxEntries : ℕ)

theorem forBlock_append_self (hb : m.vote.blockId = some b) :
    forBlock (msgs ++ [m]) b = forBlock msgs b ++ [m] := by
  unfold forBlock
  rw [filter_append, filter_cons_of_pos (by simpa using hb), filter_nil]

theorem mem_ofKey {m' : VoteMessage Sig} :
    m' ∈ ofKey cl slot msgs key ↔ m' ∈ msgs ∧ (cl.stakesAt slot).keyOf m'.rank = key := by
  unfold ofKey
  rw [mem_filter, decide_eq_true_iff]

/-- The block ids that a vote account has voted for. -/
theorem prevVotedBlockIds_getD (key : Pubkey) :
    ((blockPool cl slot maxEntries msgs).prevVotedBlockIds key).getD [] =
      (ofKey cl slot msgs key).filterMap fun m => m.vote.blockId := by
  unfold blockPool
  dsimp only
  split_ifs with h
  · rw [isEmpty_iff.mp h]
    rfl
  · rfl

theorem voteEntries_getD (b : Hash) :
    ((blockPool cl slot maxEntries msgs).voteEntries b).getD ⟨[], 0⟩ =
      ⟨forBlock msgs b, stake cl slot (forBlock msgs b)⟩ := by
  unfold blockPool
  dsimp only
  split_ifs with h
  · rw [isEmpty_iff.mp h]
    rfl
  · rfl

theorem mem_prevVotedBlockIds :
    b ∈ ((ofKey cl slot msgs key).filterMap fun m => m.vote.blockId) ↔
      ∃ m' ∈ msgs, (cl.stakesAt slot).keyOf m'.rank = key ∧ m'.vote.blockId = some b := by
  simp only [mem_filterMap, mem_ofKey, and_assoc]

theorem length_blockIds (hids : ∀ m' ∈ msgs, m'.vote.blockId.isSome) (key : Pubkey) :
    ((ofKey cl slot msgs key).filterMap fun m => m.vote.blockId).length =
      (ofKey cl slot msgs key).length :=
  filterMap_length_eq_length.mpr fun m' hm' => hids m' (mem_of_mem_filter hm')

theorem blockPool_addVote_of_refused {maxEntries : ℕ} (hmax : 0 < maxEntries)
    (hb : m.vote.blockId = some b) (hids : ∀ m' ∈ msgs, m'.vote.blockId.isSome)
    (h : (∃ m' ∈ msgs, (cl.stakesAt slot).keyOf m'.rank = (cl.stakesAt slot).keyOf m.rank ∧
        m'.vote.blockId = some b) ∨
      maxEntries ≤ (ofKey cl slot msgs ((cl.stakesAt slot).keyOf m.rank)).length) :
    (blockPool cl slot maxEntries msgs).addVote ((cl.stakesAt slot).keyOf m.rank)
      ((cl.stakesAt slot).stakeOf m.rank) m = some (none, blockPool cl slot maxEntries msgs) := by
  generalize hkey : (cl.stakesAt slot).keyOf m.rank = key at h ⊢
  have hne : (ofKey cl slot msgs key).isEmpty = false := by
    rw [Bool.eq_false_iff, ne_eq, List.isEmpty_iff]
    intro hnil
    rcases h with ⟨m', hm', hk, -⟩ | h
    · have hmem := mem_ofKey.mpr ⟨hm', hk⟩
      rw [hnil] at hmem
      cases hmem
    · rw [hnil, length_nil] at h
      omega
  unfold addVote
  rw [hb, map_some, prevVotedBlockIds_getD]
  have hcond : b ∈ ((ofKey cl slot msgs key).filterMap fun m => m.vote.blockId) ∨
      (blockPool cl slot maxEntries msgs).maxEntriesPerPubkey ≤
        ((ofKey cl slot msgs key).filterMap fun m => m.vote.blockId).length := by
    rwa [mem_prevVotedBlockIds, length_blockIds hids]
  have hsame : update (blockPool cl slot maxEntries msgs).prevVotedBlockIds key
      (some ((ofKey cl slot msgs key).filterMap fun m => m.vote.blockId)) =
        (blockPool cl slot maxEntries msgs).prevVotedBlockIds := by
    refine update_eq_self_iff.mpr ?_
    unfold blockPool
    dsimp only
    rw [hne]
    rfl
  rw [if_pos hcond, hsame]

theorem blockPool_addVote_of_new {maxEntries : ℕ} (hb : m.vote.blockId = some b)
    (hids : ∀ m' ∈ msgs, m'.vote.blockId.isSome)
    (hnew : ∀ m' ∈ msgs, (cl.stakesAt slot).keyOf m'.rank = (cl.stakesAt slot).keyOf m.rank →
      m'.vote.blockId ≠ some b)
    (hlt : (ofKey cl slot msgs ((cl.stakesAt slot).keyOf m.rank)).length < maxEntries)
    (hsum : stake cl slot (forBlock (msgs ++ [m]) b) ≤ u64Max) :
    (blockPool cl slot maxEntries msgs).addVote ((cl.stakesAt slot).keyOf m.rank)
      ((cl.stakesAt slot).stakeOf m.rank) m =
        some (some (stake cl slot (forBlock (msgs ++ [m]) b)),
          blockPool cl slot maxEntries (msgs ++ [m])) := by
  have hcond : ¬(b ∈ ((ofKey cl slot msgs ((cl.stakesAt slot).keyOf m.rank)).filterMap
        fun m => m.vote.blockId) ∨
      (blockPool cl slot maxEntries msgs).maxEntriesPerPubkey ≤
        ((ofKey cl slot msgs ((cl.stakesAt slot).keyOf m.rank)).filterMap
          fun m => m.vote.blockId).length) := by
    rw [mem_prevVotedBlockIds, length_blockIds hids]
    rintro (⟨m', hm', hkey, hblock⟩ | hle)
    · exact hnew m' hm' hkey hblock
    · exact absurd hle (not_le.mpr hlt)
  have htotal : saturatingAdd (stake cl slot (forBlock msgs b))
      ((cl.stakesAt slot).stakeOf m.rank) = stake cl slot (forBlock (msgs ++ [m]) b) := by
    rw [forBlock_append_self hb, stake_append, stake_singleton] at hsum ⊢
    exact Nat.min_eq_left hsum
  unfold addVote
  rw [hb, map_some, prevVotedBlockIds_getD, voteEntries_getD]
  dsimp only
  rw [if_neg hcond, htotal, ← forBlock_append_self hb]
  refine congrArg some (Prod.ext rfl ?_)
  dsimp only [blockPool]
  congr 1
  · funext b'
    by_cases h : b' = b
    · rw [h, update_self, if_neg]
      rw [forBlock_append_self hb]
      simp
    · have hother : forBlock (msgs ++ [m]) b' = forBlock msgs b' := by
        simp [forBlock, hb, Ne.symm h]
      rw [update_of_ne h, hother]
  · funext key
    by_cases h : key = (cl.stakesAt slot).keyOf m.rank
    · rw [h, update_self]
      simp [ofKey, filter_append, hb]
    · have hother : ofKey cl slot (msgs ++ [m]) key = ofKey cl slot msgs key := by
        simp [ofKey, Ne.symm h]
      rw [update_of_ne h, hother]

end

variable {led : Ledger Sig}

theorem mem_ofType {slot : ℕ} {m : VoteMessage Sig} :
    m ∈ led.ofType slot ty ↔ m ∈ led ∧ m.vote.slot = slot ∧ m.vote.getType = ty := by
  unfold ofType
  rw [mem_filter, decide_eq_true_iff]

theorem blockId_isSome (h : v.getType.isByBlock = true) : v.blockId.isSome = true := by
  cases v <;> simp_all [getType, VoteType.isByBlock, blockId]

theorem blockId_isSome_of_mem {slot : ℕ} (h : ty.isByBlock = true) :
    ∀ m ∈ led.ofType slot ty, m.vote.blockId.isSome := fun _ hm =>
  blockId_isSome ((mem_ofType.mp hm).2.2 ▸ h)

/-- In a well-formed ledger a vote account of a slot is a rank. -/
theorem WellFormed.keyOf_eq_iff (h : WellFormed cl led) {slot rank : ℕ}
    (hrank : rank < (cl.stakesAt slot).entries.length) {m : VoteMessage Sig} (hm : m ∈ led)
    (hslot : m.vote.slot = slot) :
    (cl.stakesAt slot).keyOf m.rank = (cl.stakesAt slot).keyOf rank ↔ m.rank = rank := by
  constructor
  · exact (cl.stakesAt slot).rank_eq_of_keyOf (hslot ▸ h.rank_lt m hm) hrank
  · rintro rfl
    rfl

/-- The votes that the pool keeps together with `v`: those equal to it, and for a genesis vote those
for any block. -/
def entry (led : Ledger Sig) (v : Vote) : List (VoteMessage Sig) :=
  led.filter fun m => decide (m.vote.slot = v.slot ∧ m.vote.getType = v.getType ∧
    (v.getType.isByBlock = true → m.vote.blockId = v.blockId))

theorem entry_eq_votesFor (h : v.getType ≠ .genesis) : led.entry v = led.votesFor v := by
  refine filter_congr fun m _ => ?_
  rw [decide_eq_decide]
  constructor
  · intro hm
    cases hv : v <;> cases hv' : m.vote <;>
      simp_all [slot, getType, VoteType.isByBlock, blockId]
  · intro hm
    rw [hm]
    exact ⟨rfl, rfl, fun _ => rfl⟩

theorem entry_of_simple (h : v.getType.isByBlock = false) :
    led.entry v = led.ofType v.slot v.getType := by
  refine filter_congr fun m _ => ?_
  rw [decide_eq_decide, h]
  simp

theorem entry_of_block {b : Hash} (h : v.getType.isByBlock = true) (hb : v.blockId = some b) :
    led.entry v = forBlock (led.ofType v.slot v.getType) b := by
  unfold entry forBlock ofType
  rw [List.filter_filter]
  refine filter_congr fun m _ => ?_
  rw [← Bool.decide_and, decide_eq_decide, h, hb]
  tauto

theorem WellFormed.entry_nodup (h : WellFormed cl led) (v : Vote) :
    ((led.entry v).map VoteMessage.rank).Nodup := by
  by_cases hv : v.getType = .genesis
  · rw [entry_of_simple (by rw [hv]; rfl)]
    exact h.ofType_nodup v.slot (by rw [hv]; decide)
  · rw [entry_eq_votesFor hv]
    exact h.votesFor_nodup v

end Ledger

/-! ## The checks of the pool -/

namespace ConsensusPool
variable {cl : Cluster} {p : ConsensusPool Sig} {led : Ledger Sig}

variable (hp : p.votePools = pools cl led) (hwf : led.WellFormed cl) {m : VoteMessage Sig}
  (hrank : m.rank < (cl.stakesAt m.vote.slot).entries.length)
include hp in
theorem isConflicting_iff {slot : ℕ} {conflicting : VoteType} {key : Pubkey} {blockId : Option Hash}
    :
    p.isConflicting slot conflicting key blockId = true ↔
      ∃ m ∈ led, m.vote.slot = slot ∧ m.vote.getType = conflicting ∧
        (cl.stakesAt slot).keyOf m.rank = key ∧
        (conflicting.isByBlock = true → blockId = none ∨ m.vote.blockId = blockId) := by
  refine Iff.trans ?_ (show (∃ m ∈ led.ofType slot conflicting,
      (cl.stakesAt slot).keyOf m.rank = key ∧
        (conflicting.isByBlock = true → blockId = none ∨ m.vote.blockId = blockId)) ↔ _ by
    simp only [mem_ofType, and_assoc])
  unfold isConflicting
  rw [hp]
  unfold pools
  generalize led.ofType slot conflicting = msgs
  by_cases hempty : msgs.isEmpty = true
  · rw [if_pos hempty, isEmpty_iff.mp hempty]
    simp
  · rw [if_neg hempty]
    unfold pool
    cases hty : conflicting.isByBlock with
    | false =>
      rw [if_neg Bool.false_ne_true]
      simp [SimpleVotePool.hasPrevValidatorVote, simplePool]
    | true =>
      rw [if_pos rfl]
      cases blockId with
      | none =>
        simp only [hasPrevValidatorVote, blockPool]
        split_ifs with hkey
        · rw [List.isEmpty_iff, List.eq_nil_iff_forall_not_mem] at hkey
          simpa [mem_ofKey] using hkey
        · rw [List.isEmpty_iff, List.eq_nil_iff_forall_not_mem] at hkey
          push Not at hkey
          simpa [mem_ofKey] using hkey
      | some b =>
        have hget : ∀ blocks : Option (List Hash),
            blocks.elim false (fun ids => decide (b ∈ ids)) = decide (b ∈ blocks.getD []) := by
          rintro (_ | _) <;> simp
        simp only [hasPrevValidatorVoteForBlock]
        rw [hget, prevVotedBlockIds_getD, decide_eq_true_iff, mem_prevVotedBlockIds]
        simp

include hp hwf hrank in
/-- **The pool finds a conflict exactly where the ledger has one.** -/
theorem hasConflictingVote_eq_none_iff :
    p.hasConflictingVote m.vote.slot m.vote.getType ((cl.stakesAt m.vote.slot).keyOf m.rank)
        m.vote.blockId = none ↔
      ∀ m' ∈ led, m'.rank = m.rank → m'.vote.slot = m.vote.slot →
        ¬m.vote.ConflictsWith m'.vote := by
  unfold hasConflictingVote
  rw [find?_eq_none]
  constructor
  · intro h m' hm' hrank' hslot hconf
    refine h m'.vote.getType hconf.1 ((isConflicting_iff hp).mpr ⟨m', hm', hslot, rfl, ?_, ?_⟩)
    · exact (hwf.keyOf_eq_iff hrank hm' hslot).mpr hrank'
    · exact hconf.2
  · intro h ty hty hconf
    obtain ⟨m', hm', hslot, rfl, hkey, hblock⟩ := (isConflicting_iff hp).mp hconf
    exact h m' hm' ((hwf.keyOf_eq_iff hrank hm' hslot).mp hkey) hslot ⟨hty, hblock⟩

/-! ## Storing a vote -/

/-- The fallback votes of a validator are the votes of its account in the pool. -/
theorem ofKey_eq_fallbacks (hwf : led.WellFormed cl) {slot rank : ℕ}
    (hrank : rank < (cl.stakesAt slot).entries.length) :
    ofKey cl slot (led.ofType slot .notarizeFallback) ((cl.stakesAt slot).keyOf rank) =
      led.fallbacks slot rank := by
  unfold ofKey ofType fallbacks
  rw [List.filter_filter]
  refine filter_congr fun m hm => ?_
  rw [← Bool.decide_and, decide_eq_decide]
  constructor
  · rintro ⟨hkey, hslot, hty⟩
    exact ⟨hslot, hty, (hwf.keyOf_eq_iff hrank hm hslot).mp hkey⟩
  · rintro ⟨hslot, hty, hr⟩
    exact ⟨(hwf.keyOf_eq_iff hrank hm hslot).mpr hr, hslot, hty⟩

include hwf hrank in
/-- A vote of a type with one vote for each validator leaves none of its account behind. -/
theorem ofKey_eq_nil (hm : led.Accepts m) (hty : m.vote.getType ≠ .notarizeFallback) :
    ofKey cl m.vote.slot (led.ofType m.vote.slot m.vote.getType)
      ((cl.stakesAt m.vote.slot).keyOf m.rank) = [] := by
  refine eq_nil_iff_forall_not_mem.mpr fun m' hmem => ?_
  obtain ⟨hm', hkey⟩ := mem_ofKey.mp hmem
  obtain ⟨hled, hslot, htype⟩ := mem_ofType.mp hm'
  have hr := (hwf.keyOf_eq_iff hrank hled hslot).mp hkey
  exact hty ((hm.compatible m' hled hr hslot).fallback htype)

include hp hwf hrank in
/-- **An accepted vote is appended to the ledger.** -/
theorem updateVotePool_of_accepts (hm : led.Accepts m) :
    p.updateVotePool m ((cl.stakesAt m.vote.slot).keyOf m.rank)
        ((cl.stakesAt m.vote.slot).stakeOf m.rank) =
      some (some (stake cl m.vote.slot ((led ++ [m]).entry m.vote)),
        { p with votePools := pools cl (led ++ [m]) }) := by
  have hwf' := hwf.append hrank hm
  have hsum : stake cl m.vote.slot ((led ++ [m]).entry m.vote) ≤ u64Max :=
    (stake_le_total (hwf'.entry_nodup m.vote)).trans (cl.stakesAt m.vote.slot).total_le
  unfold updateVotePool
  dsimp only
  rw [hp, pools_getD, pools_append]
  unfold pool
  cases hty : m.vote.getType.isByBlock with
  | false =>
    have hnf : m.vote.getType ≠ .notarizeFallback := by
      intro h
      rw [h] at hty
      exact absurd hty (by decide)
    rw [entry_of_simple hty, ofType_append_self] at hsum ⊢
    simp only [Bool.false_eq_true, if_false]
    have hnew : ∀ m' ∈ led.ofType m.vote.slot m.vote.getType,
        (cl.stakesAt m.vote.slot).keyOf m'.rank ≠ (cl.stakesAt m.vote.slot).keyOf m.rank := by
      intro m' hm' hkey
      have hmem := mem_ofKey.mpr ⟨hm', hkey⟩
      rw [ofKey_eq_nil hwf hrank hm hnf] at hmem
      cases hmem
    rw [simplePool_addVote_of_new hnew hsum]
  | true =>
    obtain ⟨b, hb⟩ := isSome_iff_exists.mp (blockId_isSome hty)
    rw [entry_of_block hty hb, ofType_append_self] at hsum ⊢
    simp only [if_true]
    have hnew : ∀ m' ∈ led.ofType m.vote.slot m.vote.getType,
        (cl.stakesAt m.vote.slot).keyOf m'.rank = (cl.stakesAt m.vote.slot).keyOf m.rank →
          m'.vote.blockId ≠ some b := by
      intro m' hm' hkey hblock
      obtain ⟨hled, hslot, htype⟩ := mem_ofType.mp hm'
      have hr := (hwf.keyOf_eq_iff hrank hled hslot).mp hkey
      have hentry : m' ∈ led.entry m.vote := by
        unfold entry
        rw [mem_filter, decide_eq_true_iff]
        exact ⟨hled, hslot, htype, fun _ => hblock.trans hb.symm⟩
      rw [entry_eq_votesFor (by intro h; rw [h] at hty; exact absurd hty (by decide)),
        votesFor, mem_filter, decide_eq_true_iff] at hentry
      exact (hm.compatible m' hled hr hslot).ne hentry.2
    have hlt : (ofKey cl m.vote.slot (led.ofType m.vote.slot m.vote.getType)
        ((cl.stakesAt m.vote.slot).keyOf m.rank)).length < maxEntries m.vote.getType := by
      by_cases hnf : m.vote.getType = .notarizeFallback
      · rw [hnf, ofKey_eq_fallbacks hwf hrank]
        exact hm.within hnf
      · rw [ofKey_eq_nil hwf hrank hm hnf]
        cases htype : m.vote.getType <;> simp [maxEntries, maxEntriesPerPubkeyForOtherTypes,
          maxEntriesPerPubkeyForNotarizeLite]
    rw [blockPool_addVote_of_new hb (blockId_isSome_of_mem hty) hnew hlt hsum, map_some]

include hp hwf hrank in
/-- **A vote that is neither in conflict nor accepted changes nothing.** -/
theorem updateVotePool_of_not_accepts
    (hconf : ∀ m' ∈ led, m'.rank = m.rank → m'.vote.slot = m.vote.slot →
      ¬m.vote.ConflictsWith m'.vote) (hm : ¬led.Accepts m) :
    p.updateVotePool m ((cl.stakesAt m.vote.slot).keyOf m.rank)
      ((cl.stakesAt m.vote.slot).stakeOf m.rank) = some (none, p) := by
  -- an earlier vote of the same type stands in the way
  have hblocked : (∃ m' ∈ led, m'.rank = m.rank ∧ m'.vote.slot = m.vote.slot ∧
        m'.vote.getType = m.vote.getType ∧
        (m.vote.getType = .notarizeFallback → m'.vote = m.vote)) ∨
      m.vote.getType = .notarizeFallback ∧
        maxEntriesPerPubkeyForNotarizeLite ≤ (led.fallbacks m.vote.slot m.rank).length := by
    by_contra hno
    push Not at hno
    refine hm ⟨fun m' hm' hr hs => ⟨?_, hconf m' hm' hr hs, ?_⟩, hno.2⟩
    · intro heq
      exact (hno.1 m' hm' hr hs (congrArg getType heq)).2 heq
    · intro hty
      exact (hno.1 m' hm' hr hs hty).1
  have hne : ¬(led.ofType m.vote.slot m.vote.getType).isEmpty = true := by
    rw [List.isEmpty_iff]
    intro hnil
    rcases hblocked with ⟨m', hm', -, hs, hty, -⟩ | ⟨hty, hlen⟩
    · have := mem_ofType.mpr ⟨hm', hs, hty⟩
      rw [hnil] at this
      cases this
    · rw [hty] at hnil
      rw [← ofKey_eq_fallbacks hwf hrank, hnil] at hlen
      exact absurd hlen (by simp [ofKey, maxEntriesPerPubkeyForNotarizeLite])
  have hsame : update p.votePools (m.vote.slot, m.vote.getType)
      (some (pool cl m.vote.slot m.vote.getType
        (led.ofType m.vote.slot m.vote.getType))) = p.votePools := by
    refine update_eq_self_iff.mpr ?_
    rw [hp]
    unfold pools
    rw [if_neg hne]
  unfold updateVotePool
  dsimp only
  rw [hp, pools_getD, ← hp]
  unfold pool at hsame ⊢
  cases hty : m.vote.getType.isByBlock with
  | false =>
    rw [hty] at hsame
    simp only [Bool.false_eq_true, if_false] at hsame ⊢
    have hvoted : ∃ m' ∈ led.ofType m.vote.slot m.vote.getType,
        (cl.stakesAt m.vote.slot).keyOf m'.rank = (cl.stakesAt m.vote.slot).keyOf m.rank := by
      rcases hblocked with ⟨m', hm', hr, hs, hty', -⟩ | ⟨hnf, -⟩
      · exact ⟨m', mem_ofType.mpr ⟨hm', hs, hty'⟩, by rw [hr]⟩
      · rw [hnf] at hty
        exact absurd hty (by decide)
    rw [show (simplePool _ _ _).addVote _ _ m = _ from if_pos (mem_map.mpr hvoted), hsame]
  | true =>
    rw [hty] at hsame
    simp only [if_true] at hsame ⊢
    obtain ⟨b, hb⟩ := isSome_iff_exists.mp (blockId_isSome hty)
    have hrefused : (∃ m' ∈ led.ofType m.vote.slot m.vote.getType,
          (cl.stakesAt m.vote.slot).keyOf m'.rank = (cl.stakesAt m.vote.slot).keyOf m.rank ∧
            m'.vote.blockId = some b) ∨
        maxEntries m.vote.getType ≤
          (ofKey cl m.vote.slot (led.ofType m.vote.slot m.vote.getType)
            ((cl.stakesAt m.vote.slot).keyOf m.rank)).length := by
      rcases hblocked with ⟨m', hm', hr, hs, hty', heq⟩ | ⟨hnf, hlen⟩
      · by_cases hnf : m.vote.getType = .notarizeFallback
        · exact .inl ⟨m', mem_ofType.mpr ⟨hm', hs, hty'⟩, by rw [hr],
            by rw [heq hnf, hb]⟩
        · right
          have hmem : m' ∈ ofKey cl m.vote.slot (led.ofType m.vote.slot m.vote.getType)
              ((cl.stakesAt m.vote.slot).keyOf m.rank) :=
            mem_ofKey.mpr ⟨mem_ofType.mpr ⟨hm', hs, hty'⟩, by rw [hr]⟩
          have hone : maxEntries m.vote.getType = 1 := by
            cases htype : m.vote.getType <;> simp_all [maxEntries, maxEntriesPerPubkeyForOtherTypes]
          rw [hone]
          exact length_pos_of_mem hmem
      · right
        rwa [hnf, ofKey_eq_fallbacks hwf hrank]
    have hmax : 0 < maxEntries m.vote.getType := by cases m.vote.getType <;> decide
    rw [blockPool_addVote_of_refused hmax hb (blockId_isSome_of_mem hty) hrefused, map_some, hsame]

/-! ## Counting the votes for a certificate -/

variable {certType : CertificateType}

/-- The votes of one type that count for a certificate. -/
theorem countedOfType_eq {ty : VoteType} (hty : ty ∈ certType.limitsAndVoteTypes.2) :
    led.countedOfType certType ty =
      if ty.isByBlock then
        (led.ofType certType.slot ty).filter fun m =>
          decide (m.vote.blockId = certType.toBlock.map snd)
      else led.ofType certType.slot ty := by
  unfold countedOfType counted ofType
  rw [List.filter_filter]
  cases hby : ty.isByBlock with
  | false =>
    rw [if_neg Bool.false_ne_true]
    refine filter_congr fun m _ => ?_
    rw [← Bool.decide_and, decide_eq_decide]
    constructor
    · rintro ⟨htype, hslot, -, -⟩
      exact ⟨hslot, htype⟩
    · rintro ⟨hslot, rfl⟩
      exact ⟨rfl, hslot, hty, fun h => absurd h (by rw [hby]; decide)⟩
  | true =>
    rw [if_pos rfl, List.filter_filter]
    refine filter_congr fun m _ => ?_
    rw [← Bool.decide_and, ← Bool.decide_and, decide_eq_decide]
    constructor
    · rintro ⟨rfl, hslot, -, hblock⟩
      exact ⟨hblock hby, hslot, rfl⟩
    · rintro ⟨hblock, hslot, rfl⟩
      exact ⟨rfl, hslot, hty, fun _ => hblock⟩

section
variable (hp : p.votePools = pools cl led)
include hp
/-- What one vote type contributes to a certificate, as the pool looks it up. -/
theorem stakeOfType_eq {ty : VoteType} (hty : ty ∈ certType.limitsAndVoteTypes.2) :
    p.stakeOfType certType.slot (certType.toBlock.map snd) ty =
      some (stake cl certType.slot (led.countedOfType certType ty)) := by
  unfold stakeOfType
  rw [countedOfType_eq hty, hp]
  unfold pools
  generalize led.ofType certType.slot ty = msgs
  by_cases hempty : msgs.isEmpty = true
  · rw [if_pos hempty, isEmpty_iff.mp hempty]
    simp
  · rw [if_neg hempty]
    unfold pool
    cases hby : ty.isByBlock with
    | false => rfl
    | true =>
      obtain ⟨b, hb⟩ := certType.toBlock_of_isByBlock hty hby
      rw [hb]
      simp only [if_true, map_some, totalStakeByBlockId, blockPool]
      refine congrArg some ?_
      change _ = stake cl certType.slot (forBlock msgs b)
      split_ifs with h
      · rw [isEmpty_iff.mp h]
        rfl
      · rfl

/-- The sum over some of the vote types that count for a certificate. -/
theorem accumulatedStake_of_subset {types : List VoteType}
    (htypes : ∀ ty ∈ types, ty ∈ certType.limitsAndVoteTypes.2) (hsum : (types.map fun ty =>
      stake cl certType.slot (led.countedOfType certType ty)).sum ≤ u64Max) :
    p.accumulatedStake certType.slot (certType.toBlock.map snd) types =
      some (types.map fun ty =>
        stake cl certType.slot (led.countedOfType certType ty)).sum := by
  induction types with
  | nil => rfl
  | cons ty types ih =>
    rw [map_cons, sum_cons] at hsum ⊢
    have hrest := ih (fun ty' hty' => htypes ty' (mem_cons_of_mem _ hty'))
      ((Nat.le_add_left _ _).trans hsum)
    unfold accumulatedStake
    rw [stakeOfType_eq hp (htypes ty mem_cons_self), hrest]
    exact if_pos hsum

/-- **The accumulated stake is the stake of the votes that count.** -/
theorem accumulatedStake_eq (hwf : led.WellFormed cl) (certType : CertificateType) :
    p.accumulatedStake certType.slot (certType.toBlock.map snd)
        certType.limitsAndVoteTypes.2 =
      some (stake cl certType.slot (led.counted certType)) := by
  have hsum : (certType.limitsAndVoteTypes.2.map fun ty =>
      stake cl certType.slot (led.countedOfType certType ty)).sum =
        stake cl certType.slot (led.counted certType) := by
    rw [← stake_perm (led.flatMap_countedOfType_perm certType), stake_flatMap]
  rw [accumulatedStake_of_subset hp (fun _ h => h), hsum]
  rw [hsum]
  exact (stake_le_total (hwf.counted_nodup certType)).trans
    (cl.stakesAt certType.slot).total_le

/-- The slices handed to the builder are the votes that count, type by type. -/
theorem certificateVotes_eq (certType : CertificateType) :
    p.certificateVotes certType.slot (certType.toBlock.map snd)
        certType.limitsAndVoteTypes.2 =
      certType.limitsAndVoteTypes.2.filterMap fun ty =>
        if (led.countedOfType certType ty).isEmpty then none
        else some (led.countedOfType certType ty) := by
  refine filterMap_congr fun ty hty => ?_
  rw [countedOfType_eq hty, hp]
  unfold pools
  generalize led.ofType certType.slot ty = msgs
  by_cases hempty : msgs.isEmpty = true
  · rw [if_pos hempty, isEmpty_iff.mp hempty]
    simp
  · rw [if_neg hempty]
    unfold pool
    cases hby : ty.isByBlock with
    | false =>
      simp only [Bool.false_eq_true, if_false, simplePool]
      rw [if_neg hempty]
    | true =>
      obtain ⟨b, hb⟩ := certType.toBlock_of_isByBlock hty hby
      rw [hb]
      simp only [if_true, bind_some, votes, blockPool]
      change _ = if (forBlock msgs b).isEmpty = true then none
        else some (forBlock msgs b)
      split_ifs <;> rfl

end
end ConsensusPool
end FlowraValidator.Votor
