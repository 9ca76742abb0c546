import FlowraValidator.Votor.RewardEntry

/-!
# Votes for rewards

`votor/src/consensus_rewards.rs`: the leader of a slot collects the skip and notarization votes of
the slot `NUM_SLOTS_FOR_REWARD` before, and builds reward certificates from them. The map from
slots to entries is a partial function here.

A new entry has one bit for each BLS key of the rank map, which can be fewer than there are ranks:
validators may share a key. A vote of a rank beyond them is wanted, and is not counted.

Adding a vote first prunes the container, and the bound it prunes at is above the bound of the
votes it accepts: an entry survives only if its slot is more than `NUM_SLOTS_FOR_REWARD` *after* the
root, while votes are accepted from `NUM_SLOTS_FOR_REWARD` slots *before* the root on.

* `ConsensusRewards.Valid.perform`: every call succeeds and keeps the container valid, and which
  votes are counted afterwards.
* `ConsensusRewards.counted_iff`: which of the accepted votes are still counted after a run.
* `ConsensusRewards.skipVote_lost`: two votes for one slot, of which the second discards the first.
-/

namespace FlowraValidator.Votor
open Function List Option

/-- `NUM_SLOTS_FOR_REWARD`. -/
def numSlotsForReward : ℕ := 8

/-! ## Which votes are of interest -/

/-- What the container reads from its surroundings: the identity of this node, the leader schedule,
and the ranks of the validators in the epoch of a slot. The length of a rank map is the number of
its different BLS keys. -/
structure RewardsContext where
  id : Pubkey
  slotLeaderAt : ℕ → Option Pubkey
  rankMap : ℕ → EpochStakes
  rankMapLen : ℕ → ℕ
  rankMapLen_le : ∀ slot, rankMapLen slot ≤ (rankMap slot).entries.length

/-- The root bank: its slot, and for which slots it knows the ranks of the validators. -/
structure RootBank where
  slot : ℕ
  knows : ℕ → Bool

/-- The public function `wants_vote`. -/
def wantsVote {Sig : Type} (ctx : RewardsContext) (rootSlot : ℕ) (m : VoteMessage Sig) : Bool :=
  match m.vote with
  | .notarize _ _ | .skip _ =>
    if saturatingAdd m.vote.slot numSlotsForReward ≤ rootSlot then false
    else
      match ctx.slotLeaderAt (saturatingAdd m.vote.slot numSlotsForReward) with
      | none => false
      | some leader => leader = ctx.id
  | _ => false

namespace Entry
variable {Sig : Type} [AddCommMonoid Sig]

/-- A new entry wants every vote that the container may want. -/
theorem wantsVote_new {ctx : RewardsContext} {rootSlot n : ℕ} {m : VoteMessage Sig}
    (h : Votor.wantsVote ctx rootSlot m = true) (hrank : m.rank < n) :
    (new n : Entry Sig).wantsVote m = true := by
  unfold Votor.wantsVote at h
  unfold wantsVote
  split at h
  · rename_i hm
    simp [hm, new, NotarEntry.wantsVote, NotarEntry.new]
  · rename_i hm
    simp [hm, new, PartialCert.wantsVote, PartialCert.new, hrank]
  · exact absurd h (by decide)

end Entry

/-! ## The container -/

structure ConsensusRewards (Sig : Type) where
  votes : ℕ → Option (Entry Sig)

/-- The first slot that survives the pruning in `add_vote`. -/
def firstKept (rootSlot : ℕ) : ℕ := saturatingAdd (saturatingAdd rootSlot numSlotsForReward) 1

namespace ConsensusRewards
variable {Sig : Type}

def new : ConsensusRewards Sig := { votes := fun _ => none }

/-- `self.votes = self.votes.split_off(&slot)`. -/
def splitOff (r : ConsensusRewards Sig) (slot : ℕ) : ConsensusRewards Sig :=
  { votes := fun s => if slot ≤ s then r.votes s else none }

/-- `self.votes.insert(slot, entry)`, or `self.votes.remove(&slot)`. -/
def setEntry (r : ConsensusRewards Sig) (slot : ℕ) (entry : Option (Entry Sig)) :
    ConsensusRewards Sig :=
  { votes := update r.votes slot entry }

@[simp] theorem votes_setEntry_self (r : ConsensusRewards Sig) (slot : ℕ)
    (entry : Option (Entry Sig)) : (r.setEntry slot entry).votes slot = entry :=
  update_self ..

theorem votes_setEntry_of_ne (r : ConsensusRewards Sig) {slot s : ℕ} (h : s ≠ slot)
    (entry : Option (Entry Sig)) : (r.setEntry slot entry).votes s = r.votes s :=
  update_of_ne h ..

/-- The method `wants_vote`. -/
def wantsVote (r : ConsensusRewards Sig) (ctx : RewardsContext) (rootSlot : ℕ)
    (m : VoteMessage Sig) : Bool :=
  if Votor.wantsVote ctx rootSlot m then
    match r.votes m.vote.slot with
    | none => true
    | some entry => entry.wantsVote m
  else false

section
variable (store : SignerStore)
  (order : List (Hash × PartialCert Sig) → List (Hash × PartialCert Sig))

def buildCerts (r : ConsensusRewards Sig) (bankSlot : ℕ) :
    Except BuildRewardCertsRespError (BuildRewardCertsRespSucc Sig) × ConsensusRewards Sig :=
  if bankSlot < numSlotsForReward then (.ok BuildRewardCertsRespSucc.default, r)
  else
    let rewardSlot := bankSlot - numSlotsForReward
    let r := r.splitOff rewardSlot
    (match r.votes rewardSlot with
      | none => .ok BuildRewardCertsRespSucc.default
      | some entry => entry.buildCerts store order rewardSlot,
      r.setEntry rewardSlot none)

variable [AddCommMonoid Sig]

def addVote (r : ConsensusRewards Sig) (ctx : RewardsContext) (rootBank : RootBank)
    (m : VoteMessage Sig) : Option (ConsensusRewards Sig) :=
  if rootBank.knows m.vote.slot then
    let rankMap := ctx.rankMap m.vote.slot
    let r := r.splitOff (firstKept rootBank.slot)
    if r.wantsVote ctx rootBank.slot m then
      let entry := (r.votes m.vote.slot).getD (Entry.new (ctx.rankMapLen m.vote.slot))
      (entry.addVote rankMap m).map fun x => r.setEntry m.vote.slot (some x.2)
    else some r
  else some r

end
end ConsensusRewards

/-- The messages of the two channels. -/
inductive RewardsCall (Sig : Type) where
  | addVote (rootBank : RootBank) (m : VoteMessage Sig)
  | buildCerts (bankSlot : ℕ)

namespace ConsensusRewards
variable {Sig : Type} [AddCommMonoid Sig] (ctx : RewardsContext) (store : SignerStore)
  (order : List (Hash × PartialCert Sig) → List (Hash × PartialCert Sig))

def perform (r : ConsensusRewards Sig) : RewardsCall Sig → Option (ConsensusRewards Sig)
  | .addVote rootBank m => r.addVote ctx rootBank m
  | .buildCerts bankSlot => some (r.buildCerts store order bankSlot).2

def run (r : ConsensusRewards Sig) : List (RewardsCall Sig) → Option (ConsensusRewards Sig)
  | [] => some r
  | c :: cs => (r.perform ctx store order c).bind fun r => r.run cs

/-- Every entry fits the rank map of its slot. -/
def Valid (r : ConsensusRewards Sig) : Prop :=
  ∀ slot entry, r.votes slot = some entry → entry.Valid (ctx.rankMapLen slot)

/-- The vote is counted in the entry of its slot. -/
def Counted (r : ConsensusRewards Sig) (m : VoteMessage Sig) : Prop :=
  ∃ entry, r.votes m.vote.slot = some entry ∧ entry.Counts m

/-- The call submits the vote `m`. -/
def Submits (m : VoteMessage Sig) : RewardsCall Sig → Prop
  | .addVote _ m' => m'.vote = m.vote ∧ m'.rank = m.rank
  | .buildCerts _ => False

/-- The call keeps the entry of a slot. -/
def Keeps (slot : ℕ) : RewardsCall Sig → Prop
  | .addVote rootBank m => rootBank.knows m.vote.slot = true → firstKept rootBank.slot ≤ slot
  | .buildCerts bankSlot => bankSlot < slot + numSlotsForReward

variable {ctx}

omit [AddCommMonoid Sig] in
theorem valid_new (ctx : RewardsContext) : (new : ConsensusRewards Sig).Valid ctx := fun _ _ h =>
  absurd h (by simp [new])

variable {r : ConsensusRewards Sig}

open ConsensusRewards

omit [AddCommMonoid Sig] in
theorem Valid.splitOff (h : r.Valid ctx) (slot : ℕ) : (r.splitOff slot).Valid ctx := by
  intro s entry he
  rw [ConsensusRewards.splitOff] at he
  dsimp only at he
  split_ifs at he
  exact h s entry he

omit [AddCommMonoid Sig] in
theorem votes_splitOff_of_le {slot s : ℕ} (h : slot ≤ s) : (r.splitOff slot).votes s = r.votes s :=
  if_pos h

omit [AddCommMonoid Sig] in
theorem counted_splitOff {slot : ℕ} {m : VoteMessage Sig} :
    (r.splitOff slot).Counted m ↔ slot ≤ m.vote.slot ∧ r.Counted m := by
  by_cases h : slot ≤ m.vote.slot
  · rw [Counted, votes_splitOff_of_le h, and_iff_right h]
    exact Iff.rfl
  · rw [Counted, show (r.splitOff slot).votes _ = none from if_neg h]
    refine iff_of_false ?_ fun hc => h hc.1
    rintro ⟨entry, he, -⟩
    cases he

/-- What one accepted vote does after the pruning. -/
theorem Valid.accept (h : r.Valid ctx) (rootSlot : ℕ) (m : VoteMessage Sig) :
    ∃ res entry, ((r.votes m.vote.slot).getD (Entry.new (ctx.rankMapLen m.vote.slot))).addVote
        (ctx.rankMap m.vote.slot) m = some (res, entry) ∧
      (r.setEntry m.vote.slot (some entry)).Valid ctx ∧
      (∀ m', r.Counted m' → (r.setEntry m.vote.slot (some entry)).Counted m') ∧
      (∀ m', (r.setEntry m.vote.slot (some entry)).Counted m' →
        r.Counted m' ∨ m'.vote = m.vote ∧ m'.rank = m.rank) ∧
      (r.wantsVote ctx rootSlot m = true → m.rank < ctx.rankMapLen m.vote.slot →
        (r.setEntry m.vote.slot (some entry)).Counted m) := by
  set n := ctx.rankMapLen m.vote.slot
  set old := (r.votes m.vote.slot).getD (Entry.new n) with hold
  have hvalid : old.Valid n := by
    cases he : r.votes m.vote.slot with
    | none =>
      rw [hold, he]
      exact Entry.valid_new n
    | some entry =>
      rw [hold, he]
      exact h _ entry he
  have hcounts : ∀ m', m'.vote.slot = m.vote.slot → (old.Counts m' ↔ r.Counted m') := by
    intro m' hslot
    rw [Counted, hslot, hold]
    cases he : r.votes m.vote.slot with
    | none =>
      refine iff_of_false (Entry.not_counts_new n m') ?_
      rintro ⟨entry, hentry, -⟩
      cases hentry
    | some entry => simp
  obtain ⟨res, entry, hadd, hspec⟩ := Entry.addVote_spec hvalid (ctx.rankMapLen_le m.vote.slot) m
  refine ⟨res, entry, hadd, ?_, ?_, ?_, ?_⟩
  · intro s e he
    by_cases hs : s = m.vote.slot
    · subst hs
      rw [votes_setEntry_self, some_inj] at he
      rw [← he]
      exact hspec.valid
    · rw [votes_setEntry_of_ne r hs] at he
      exact h s e he
  · intro m' hc
    by_cases hs : m'.vote.slot = m.vote.slot
    · refine ⟨entry, ?_, hspec.mono m' ((hcounts m' hs).mpr hc)⟩
      rw [hs, votes_setEntry_self]
    · obtain ⟨e, he, hce⟩ := hc
      refine ⟨e, ?_, hce⟩
      rwa [votes_setEntry_of_ne r hs]
  · rintro m' ⟨e, he, hce⟩
    by_cases hs : m'.vote.slot = m.vote.slot
    · rw [hs, votes_setEntry_self, some_inj] at he
      rw [← he] at hce
      exact (hspec.of_counts m' hs hce).imp_left (hcounts m' hs).mp
    · rw [votes_setEntry_of_ne r hs] at he
      exact .inl ⟨e, he, hce⟩
  · intro hwants hrank
    refine ⟨entry, votes_setEntry_self .., ?_⟩
    cases he : r.votes m.vote.slot with
    | none =>
      rw [wantsVote] at hwants
      split_ifs at hwants with hw
      have hold' : old = Entry.new n := by rw [hold, he]; rfl
      exact hspec.counts_of_wantsVote (by rw [hold']; exact Entry.wantsVote_new hw hrank) hrank
    | some e =>
      have hold' : old = e := by rw [hold, he]; rfl
      refine hspec.counts_of_wantsVote ?_ hrank
      rw [wantsVote, he] at hwants
      split_ifs at hwants with hw
      rwa [hold']

/-- **One call**: it succeeds, keeps the container valid, keeps the counted votes of the slots it
keeps, and counts nothing but what was counted in a kept entry or is submitted. -/
theorem Valid.perform (h : r.Valid ctx) (c : RewardsCall Sig) :
    ∃ r', r.perform ctx store order c = some r' ∧ r'.Valid ctx ∧
      (∀ m, Keeps m.vote.slot c → r.Counted m → r'.Counted m) ∧
      ∀ m, r'.Counted m → r.Counted m ∧ Keeps m.vote.slot c ∨ Submits m c := by
  cases c with
  | addVote bank m =>
    cases hknows : bank.knows m.vote.slot with
    | false =>
      refine ⟨r, by simp [ConsensusRewards.perform, addVote, hknows], h, fun _ _ hc => hc,
        fun m' hc => .inl ⟨hc, ?_⟩⟩
      intro hk
      rw [hknows] at hk
      exact absurd hk (by decide)
    | true =>
      have hkeep : ∀ {slot}, Keeps slot (RewardsCall.addVote bank m) ↔
          firstKept bank.slot ≤ slot := fun {slot} => by simp [Keeps, hknows]
      set r1 := r.splitOff (firstKept bank.slot) with hr1
      have hvalid : r1.Valid ctx := h.splitOff _
      obtain ⟨res, entry, hadd, hv, hmono, hof, -⟩ := hvalid.accept bank.slot m
      cases hw : r1.wantsVote ctx bank.slot m with
      | false =>
        refine ⟨r1, by simp [ConsensusRewards.perform, addVote, hknows, ← hr1, hw], hvalid,
          fun m' hk hc => counted_splitOff.mpr ⟨hkeep.mp hk, hc⟩, fun m' hc => ?_⟩
        obtain ⟨hle, hc⟩ := counted_splitOff.mp hc
        exact .inl ⟨hc, hkeep.mpr hle⟩
      | true =>
        refine ⟨r1.setEntry m.vote.slot (some entry), ?_, hv, fun m' hk hc => ?_, fun m' hc => ?_⟩
        · simp [ConsensusRewards.perform, addVote, hknows, ← hr1, hw, hadd]
        · exact hmono m' (counted_splitOff.mpr ⟨hkeep.mp hk, hc⟩)
        · refine (hof m' hc).imp (fun hc => ?_) fun hm => ⟨hm.1.symm, hm.2.symm⟩
          obtain ⟨hle, hc⟩ := counted_splitOff.mp hc
          exact ⟨hc, hkeep.mpr hle⟩
  | buildCerts bankSlot =>
    refine ⟨_, rfl, ?_⟩
    unfold buildCerts
    split_ifs with hlt
    · refine ⟨h, fun _ _ hc => hc, fun m hc => .inl ⟨hc, ?_⟩⟩
      show bankSlot < m.vote.slot + numSlotsForReward
      omega
    · have hkeep : ∀ slot, Keeps slot (.buildCerts bankSlot : RewardsCall Sig) ↔
          bankSlot - numSlotsForReward < slot := by
        intro slot
        show bankSlot < slot + numSlotsForReward ↔ _
        omega
      refine ⟨?_, fun m hk hc => ?_, fun m hc => ?_⟩
      · intro s e he
        by_cases hs : s = bankSlot - numSlotsForReward
        · rw [hs, votes_setEntry_self] at he
          cases he
        · rw [votes_setEntry_of_ne _ hs] at he
          exact h.splitOff _ s e he
      · have hgt := (hkeep m.vote.slot).mp hk
        obtain ⟨e, he, hce⟩ := hc
        refine ⟨e, ?_, hce⟩
        rwa [votes_setEntry_of_ne _ hgt.ne', votes_splitOff_of_le hgt.le]
      · left
        obtain ⟨e, he, hce⟩ := hc
        have hne : m.vote.slot ≠ bankSlot - numSlotsForReward := by
          intro heq
          rw [heq, votes_setEntry_self] at he
          cases he
        rw [votes_setEntry_of_ne _ hne] at he
        obtain ⟨hle, hc⟩ := counted_splitOff.mp ⟨e, he, hce⟩
        exact ⟨hc, (hkeep _).mpr (lt_of_le_of_ne hle hne.symm)⟩

/-- A whole run: it succeeds; a counted vote stays counted if every call keeps its slot, and only
then unless the vote is submitted again. -/
theorem Valid.run (h : r.Valid ctx) (cs : List (RewardsCall Sig)) :
    ∃ r', r.run ctx store order cs = some r' ∧ r'.Valid ctx ∧
      (∀ m, (∀ c ∈ cs, Keeps m.vote.slot c) → r.Counted m → r'.Counted m) ∧
      ∀ m, (∀ c ∈ cs, ¬ Submits m c) → r'.Counted m →
        r.Counted m ∧ ∀ c ∈ cs, Keeps m.vote.slot c := by
  induction cs generalizing r with
  | nil => exact ⟨r, rfl, h, fun _ _ hc => hc, fun _ _ hc => ⟨hc, by simp⟩⟩
  | cons c cs ih =>
    obtain ⟨r1, hr1, hv1, hkeep1, hof1⟩ := h.perform store order c
    obtain ⟨r', hr', hv', hkeep', hof'⟩ := ih hv1
    refine ⟨r', ?_, hv', fun m hk hc => ?_, fun m hs hc => ?_⟩
    · rwa [run, hr1]
    · exact hkeep' m (fun d hd => hk d (mem_cons_of_mem c hd))
        (hkeep1 m (hk c mem_cons_self) hc)
    · obtain ⟨hc1, hk⟩ := hof' m (fun d hd => hs d (mem_cons_of_mem c hd)) hc
      rcases hof1 m hc1 with ⟨hc0, hk0⟩ | hsub
      · exact ⟨hc0, forall_mem_cons.mpr ⟨hk0, hk⟩⟩
      · exact absurd hsub (hs c mem_cons_self)

omit [AddCommMonoid Sig] in
/-- A vote that is counted has a rank within the length of the rank map. -/
theorem Valid.rank_lt (h : r.Valid ctx) {m : VoteMessage Sig} (hc : r.Counted m) :
    m.rank < ctx.rankMapLen m.vote.slot := by
  obtain ⟨entry, he, hcounts⟩ := hc
  exact (h _ entry he).rank_lt hcounts

/-- A wanted vote of a rank within the length of the rank map is counted once it is added. -/
theorem Valid.addVote_wanted (h : r.Valid ctx) {bank : RootBank} {m : VoteMessage Sig}
    (hknows : bank.knows m.vote.slot = true)
    (hwants : (r.splitOff (firstKept bank.slot)).wantsVote ctx bank.slot m = true) :
    ∃ r', r.addVote ctx bank m = some r' ∧ r'.Valid ctx ∧
      (m.rank < ctx.rankMapLen m.vote.slot → r'.Counted m) := by
  obtain ⟨res, entry, hadd, hv, -, -, hself⟩ :=
    (h.splitOff (firstKept bank.slot)).accept bank.slot m
  refine ⟨_, ?_, hv, hself hwants⟩
  simp [addVote, hknows, hwants, hadd]

/-- **Which accepted votes are counted in the end.**  A vote that was wanted when it was added is in
the entry from which the certificates of its slot are built, if its rank is less than the length of
the rank map and no later call to `add_vote` has a root bank with `root + NUM_SLOTS_FOR_REWARD` at
or above the slot, and only then unless the vote is submitted again. -/
theorem counted_iff {pre p : List (RewardsCall Sig)} {r : ConsensusRewards Sig}
    {bank : RootBank} {m : VoteMessage Sig} (hpre : new.run ctx store order pre = some r)
    (hknows : bank.knows m.vote.slot = true)
    (hwants : (r.splitOff (firstKept bank.slot)).wantsVote ctx bank.slot m = true)
    (hrequests : ∀ bankSlot, .buildCerts bankSlot ∈ p →
      bankSlot < m.vote.slot + numSlotsForReward) :
    ∃ r', r.run ctx store order (.addVote bank m :: p) = some r' ∧
      (m.rank < ctx.rankMapLen m.vote.slot →
        (∀ bank' m', .addVote bank' m' ∈ p → bank'.knows m'.vote.slot = true →
          firstKept bank'.slot ≤ m.vote.slot) →
        ∃ entry, r'.votes m.vote.slot = some entry ∧ entry.Counts m ∧
          (r'.buildCerts store order (m.vote.slot + numSlotsForReward)).1 =
            entry.buildCerts store order m.vote.slot) ∧
      ((∀ bank' m', .addVote bank' m' ∈ p → m'.vote = m.vote → m'.rank ≠ m.rank) →
        (∃ entry, r'.votes m.vote.slot = some entry ∧ entry.Counts m) →
        m.rank < ctx.rankMapLen m.vote.slot ∧
          ∀ bank' m', .addVote bank' m' ∈ p → bank'.knows m'.vote.slot = true →
            firstKept bank'.slot ≤ m.vote.slot) := by
  obtain ⟨r0, hr0, hv0, -⟩ := (valid_new ctx).run store order pre
  rw [hpre, some_inj] at hr0
  subst hr0
  obtain ⟨r1, hr1, hv1, hc1⟩ := hv0.addVote_wanted hknows hwants
  obtain ⟨r', hr', hv', hkeep, hof⟩ := hv1.run store order p
  refine ⟨r', ?_, fun hrank hk => ?_, fun hs hc => ⟨hv'.rank_lt hc, fun bank' m' hmem => ?_⟩⟩
  · rwa [run, ConsensusRewards.perform, hr1]
  · obtain ⟨entry, he, hce⟩ := hkeep m (fun c hc => by
      cases c with
      | addVote bank' m' => exact hk bank' m' hc
      | buildCerts bankSlot => exact hrequests bankSlot hc) (hc1 hrank)
    refine ⟨entry, he, hce, ?_⟩
    rw [buildCerts, if_neg (by omega)]
    dsimp only
    rw [Nat.add_sub_cancel, votes_splitOff_of_le le_rfl, he]
  · refine (hof m (fun c hc' => ?_) hc).2 _ hmem
    cases c with
    | addVote bank' m' => exact fun hsub => hs bank' m' hc' hsub.1 hsub.2
    | buildCerts bankSlot => exact id

end ConsensusRewards

/-! ## A vote that is lost -/

namespace ConsensusRewards

/-- A cluster of two validators in which this node is always the leader. -/
def pair : RewardsContext where
  id := 0
  slotLeaderAt := fun _ => some 0
  rankMap := fun _ =>
    { entries := [(0, 1), (1, 1)]
      totalStake := 2
      nodup := by decide
      stake_pos := by decide
      sum_le := by decide
      total_le := two_le_u64Max
      length_le := by decide }
  rankMapLen := fun _ => 2
  rankMapLen_le := fun _ => le_rfl

/-- The root bank of slot 0. -/
def rootZero : RootBank := { slot := 0, knows := fun _ => true }

/-- The skip vote of a validator for a slot. -/
def skipVote (slot rank : ℕ) : VoteMessage ℕ := { vote := .skip slot, signature := 1, rank }

theorem counted_skipVote :
    ∃ r', (new : ConsensusRewards ℕ).run pair digitStore id
        [.addVote rootZero (skipVote 20 0), .addVote rootZero (skipVote 20 1)] = some r' ∧
      ∃ entry, r'.votes 20 = some entry ∧ entry.Counts (skipVote 20 0) := by
  have hpre : (new : ConsensusRewards ℕ).run pair digitStore id [] = some new := rfl
  have hwants : (splitOff (new : ConsensusRewards ℕ) (firstKept rootZero.slot)).wantsVote pair
      rootZero.slot (skipVote 20 0) = true := rfl
  obtain ⟨r', hr', hkept, -⟩ := counted_iff digitStore id hpre rfl hwants
    (p := [.addVote rootZero (skipVote 20 1)]) (by simp)
  obtain ⟨entry, he, hce, -⟩ := hkept (by decide) (by
    intro bank m hmem _
    rw [mem_singleton, RewardsCall.addVote.injEq] at hmem
    rw [hmem.1]
    decide)
  exact ⟨r', hr', entry, he, hce⟩

/-- Two validators vote to skip slot 5 while the root is 0. Both votes are wanted, and the second
one discards the first. -/
theorem skipVote_lost :
    ∃ r r', (new : ConsensusRewards ℕ).run pair digitStore id
        [.addVote rootZero (skipVote 5 0)] = some r ∧
      wantsVote new pair rootZero.slot (skipVote 5 0) = true ∧ r.Counted (skipVote 5 0) ∧
      rootZero.slot < 5 + numSlotsForReward ∧
      r.run pair digitStore id [.addVote rootZero (skipVote 5 1)] = some r' ∧
      ¬ r'.Counted (skipVote 5 0) := by
  have hwants : (splitOff (new : ConsensusRewards ℕ) (firstKept rootZero.slot)).wantsVote pair
      rootZero.slot (skipVote 5 0) = true := rfl
  obtain ⟨r, hr, hv, hc⟩ := (valid_new pair).addVote_wanted rfl hwants
  obtain ⟨r', hr', -, -, hof⟩ := hv.run digitStore id [.addVote rootZero (skipVote 5 1)]
  refine ⟨r, r', ?_, rfl, hc (by decide), by decide, hr', fun hlost => ?_⟩
  · rw [run, perform, hr]
    rfl
  · obtain ⟨-, hkeeps⟩ := hof (skipVote 5 0) (by
      intro c hmem
      rw [mem_singleton.mp hmem]
      rintro ⟨-, hrank⟩
      exact absurd hrank (by decide)) hlost
    have hle : firstKept 0 ≤ 5 := hkeeps _ (mem_singleton.mpr rfl) rfl
    exact absurd hle (by decide)

end ConsensusRewards
end FlowraValidator.Votor
