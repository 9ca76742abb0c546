import FlowraValidator.VoteProgram.TowerVoteState

/-!
# Block commitment

`aggregate_commitment` adds the stake of each vote account to the ancestors that its tower votes
for: to the rooted stake up to the root, and above it at the confirmation count of the oldest vote
that is not below the ancestor. Stakes are naturals here and `u64` in the source; all lamports
together fit into a `u64`.

* `place`: where the stake belongs.
* `aggregateCommitment_iff`: it is added there and nowhere else, unless the root of a tower with
  votes is not below any ancestor; then the loop over the votes starts again at the first ancestor.
-/

namespace FlowraValidator.Consensus
open List Function VoteProgram Option

/-- The stakes of each slot by confirmation count, zero by default; the last of the
`maxLockoutHistory + 1` stakes is the rooted stake. -/
abbrev Commitments : Type := ℕ → ℕ → ℕ

variable {K : Type} [DecidableEq K] {m : Commitments} {lamports root b j : ℕ}
  {as ancestors : List ℕ} {f g k : ℕ → Option ℕ} {votes : List Lockout} {tower : TowerVoteState}
  {node : K × TowerVoteState} {accounts : List (K × ℕ × TowerVoteState)}

def increase (j stake a : ℕ) (m : Commitments) : Commitments :=
  update m a (update (m a) j (m a j + stake))

/-- `none` is a failed assertion. -/
def increaseConfirmationStake (confirmationCount stake a : ℕ) (m : Commitments) :
    Option Commitments :=
  if 0 < confirmationCount ∧ confirmationCount ≤ maxLockoutHistory then
    some (increase (confirmationCount - 1) stake a m)
  else none

def increaseRootedStake (stake a : ℕ) (m : Commitments) : Option Commitments :=
  some (increase maxLockoutHistory stake a m)

/-- The loops over the ancestors up to a slot, and the ancestors that are left. -/
def increaseUpTo (step : ℕ → Commitments → Option Commitments) (slot : ℕ) :
    List ℕ → Commitments → Option (Commitments × List ℕ)
  | [], m => some (m, [])
  | a :: as, m =>
    if a ≤ slot then (step a m).bind (increaseUpTo step slot as) else some (m, a :: as)

/-- The loop over the votes, at the ancestors from `ancestors_index` on: `none` if there is no such
ancestor. The function returns at the end of the ancestors. -/
def voteLoop (lamports : ℕ) : List Lockout → List ℕ → Commitments → Option Commitments
  | [], _, m => some m
  | vote :: votes, as, m =>
    if as = [] then none
    else do
      let r ← increaseUpTo (increaseConfirmationStake vote.confirmationCount lamports) vote.slot as
        m
      if r.2 = [] then return r.1 else voteLoop lamports votes r.2 r.1

def aggregateCommitmentForVoteAccount (m : Commitments) (rootedStake : List (ℕ × ℕ))
    (tower : TowerVoteState) (ancestors : List ℕ) (lamports : ℕ) :
    Option (Commitments × List (ℕ × ℕ)) :=
  if ancestors = [] then none
  else match tower.rootSlot with
    | none => do return (← voteLoop lamports tower.votes ancestors m, rootedStake)
    | some root => do
      let r ← increaseUpTo (increaseRootedStake lamports) root ancestors m
      -- Without a break `ancestors_index` is still zero.
      let as := if r.2 = [] then ancestors else r.2
      return (← voteLoop lamports tower.votes as r.1, rootedStake ++ [(root, lamports)])

/-- The tower of an account; the one of the node itself is newer than in the bank. -/
def towerOf (node : K × TowerVoteState) (account : K × ℕ × TowerVoteState) : TowerVoteState :=
  if account.1 = node.1 then node.2 else account.2.2

/-- The loop over the vote accounts of a bank, with their stakes and towers. -/
def accountLoop (ancestors : List ℕ) (node : K × TowerVoteState) :
    List (K × ℕ × TowerVoteState) → Commitments × List (ℕ × ℕ) → Option (Commitments × List (ℕ × ℕ))
  | [], r => some r
  | account :: accounts, r =>
    let lamports := account.2.1
    if lamports = 0 then accountLoop ancestors node accounts r
    else (aggregateCommitmentForVoteAccount r.1 r.2 (towerOf node account) ancestors lamports).bind
      (accountLoop ancestors node accounts)

def aggregateCommitment (ancestors : List ℕ) (accounts : List (K × ℕ × TowerVoteState))
    (node : K × TowerVoteState) : Option (Commitments × List (ℕ × ℕ)) :=
  if ancestors = [] ∨ ¬ancestors.IsChain (· < ·) then none
  else accountLoop ancestors node accounts (0, [])

/-! ## Where stake belongs -/

/-- The count of the oldest vote that is not below the slot. -/
def votePlace (votes : List Lockout) (a : ℕ) : Option ℕ :=
  (votes.find? fun vote => a ≤ vote.slot).map fun vote => vote.confirmationCount - 1

/-- The place of an ancestor in a tower. -/
def place (tower : TowerVoteState) (ancestors : List ℕ) (a : ℕ) : Option ℕ :=
  if a ∉ ancestors then none
  else if tower.rootSlot.any (a ≤ ·) then some maxLockoutHistory
  else votePlace tower.votes a

/-- Stake at one place for each slot, and nowhere else. -/
def stakeAt (lamports : ℕ) (f : ℕ → Option ℕ) : Commitments :=
  fun a i => if f a = some i then lamports else 0

/-- The towers of vote accounts. -/
structure IsTower (tower : TowerVoteState) : Prop where
  above : ∀ root ∈ tower.rootSlot, ∀ vote ∈ tower.votes, root < vote.slot
  count : ∀ vote ∈ tower.votes,
    0 < vote.confirmationCount ∧ vote.confirmationCount ≤ maxLockoutHistory

/-- The root is not below any ancestor, and there are votes above it. -/
abbrev Covers (tower : TowerVoteState) (ancestors : List ℕ) : Prop :=
  tower.votes ≠ [] ∧ ∃ root ∈ tower.rootSlot, ∀ a ∈ ancestors, a ≤ root

theorem add_stakeAt (h : ∀ a, f a = none ∧ k a = g a ∨ g a = none ∧ k a = f a) :
    m + stakeAt lamports f + stakeAt lamports g = m + stakeAt lamports k := by
  ext a i
  rcases h a with ⟨hnone, heq⟩ | ⟨hnone, heq⟩ <;> simp [stakeAt, hnone, heq]

theorem add_stakeAt_none (h : ∀ a, f a = none) : m + stakeAt lamports f = m := by
  ext a i
  simp [stakeAt, h]

/-- The stake of a slot at all places. -/
def total (m : Commitments) (a : ℕ) : ℕ := ∑ i ∈ Finset.range (maxLockoutHistory + 1), m a i

theorem total_add_stakeAt_le (a : ℕ) : total (m + stakeAt lamports f) a ≤ total m a + lamports := by
  simp only [total, stakeAt, Pi.add_apply, Finset.sum_add_distrib]
  cases f a with
  | none => simp
  | some j =>
    have hle : (if j ≤ maxLockoutHistory then lamports else 0) ≤ lamports := by split_ifs <;> simp
    simpa using hle

/-! ## The loops -/

/-- The place of the ancestors up to a slot. -/
def upTo (as : List ℕ) (root j a : ℕ) : Option ℕ := if a ∈ as ∧ a ≤ root then some j else none

theorem increase_eq : increase j lamports b m = m + stakeAt lamports (upTo [b] b j) := by
  ext a i
  by_cases ha : a = b
  · subst ha
    by_cases hi : i = j <;> simp [increase, stakeAt, upTo, hi, Ne.symm]
  · simp [increase, stakeAt, upTo, ha]

theorem increaseUpTo_eq (root : ℕ) (step : ℕ → Commitments → Option Commitments)
    (hstep : ∀ a m, step a m = some (increase j lamports a m)) (hs : as.Pairwise (· < ·)) :
    increaseUpTo step root as m =
      some (m + stakeAt lamports (upTo as root j), as.filter (root < ·)) := by
  induction as generalizing m with
  | nil => simp [increaseUpTo, upTo, add_stakeAt_none]
  | cons b as ih =>
    obtain ⟨hb, hs⟩ := pairwise_cons.mp hs
    rw [increaseUpTo]
    by_cases hle : b ≤ root
    · rw [if_pos hle, hstep, increase_eq, bind_some, ih hs,
        add_stakeAt (k := upTo (b :: as) root j)]
      · simp [hle]
      · have hnot : b ∉ as := fun hmem => (hb b hmem).false
        intro a
        by_cases ha : a = b <;> simp [upTo, ha, hnot, hle]
    · have hall : ∀ a ∈ b :: as, root < a :=
        forall_mem_cons.mpr ⟨not_le.mp hle, fun a ha => (not_le.mp hle).trans (hb a ha)⟩
      rw [if_neg hle, filter_eq_self.mpr (by simpa using hall), add_stakeAt_none]
      exact fun a => if_neg fun h => (hall a h.1).not_ge h.2

theorem voteLoop_eq (hs : as.Pairwise (· < ·)) (hne : as ≠ []) (ht : ∀ vote ∈ votes,
      0 < vote.confirmationCount ∧ vote.confirmationCount ≤ maxLockoutHistory) :
    voteLoop lamports votes as m =
      some (m + stakeAt lamports fun a => if a ∈ as then votePlace votes a else none) := by
  induction votes generalizing as m with
  | nil => simp [voteLoop, votePlace, add_stakeAt_none]
  | cons vote votes ih =>
    obtain ⟨hvote, ht⟩ := forall_mem_cons.mp ht
    have hadd : m + stakeAt lamports (upTo as vote.slot (vote.confirmationCount - 1)) +
        stakeAt lamports (fun a =>
          if a ∈ as.filter (vote.slot < ·) then votePlace votes a else none) =
        m + stakeAt lamports fun a => if a ∈ as then votePlace (vote :: votes) a else none :=
      add_stakeAt fun a => by
        by_cases ha : a ∈ as <;> by_cases hle : a ≤ vote.slot <;>
          simp [upTo, votePlace, ha, hle]
    rw [voteLoop, if_neg hne,
      increaseUpTo_eq _ (increaseConfirmationStake _ lamports) (fun _ _ => if_pos hvote) hs, ← hadd]
    by_cases hrest : as.filter (vote.slot < ·) = []
    · simp [hrest, add_stakeAt_none]
    · simp [hrest, ih (hs.filter _) hrest ht]

/-! ## Vote accounts -/

/-- The places that are counted again. -/
def again (tower : TowerVoteState) (ancestors : List ℕ) (a : ℕ) : Option ℕ :=
  if Covers tower ancestors ∧ a ∈ ancestors then votePlace tower.votes a else none

theorem again_eq_none (h : ¬Covers tower ancestors) (a : ℕ) : again tower ancestors a = none :=
  if_neg fun hand => h hand.1

section
variable (hs : ancestors.Pairwise (· < ·)) (hne : ancestors ≠ [])
include hs hne
theorem aggregateCommitmentForVoteAccount_eq (m : Commitments) (rooted : List (ℕ × ℕ))
    (lamports : ℕ) (ht : IsTower tower) :
    ∃ r, aggregateCommitmentForVoteAccount m rooted tower ancestors lamports =
      some (m + stakeAt lamports (place tower ancestors) +
        stakeAt lamports (again tower ancestors), r) := by
  rw [aggregateCommitmentForVoteAccount, if_neg hne]
  cases hroot : tower.rootSlot with
  | none =>
    have hplace : place tower ancestors = fun a =>
        if a ∈ ancestors then votePlace tower.votes a else none := by
      ext a
      simp [place, hroot]
    simp [voteLoop_eq hs hne ht.count, hplace, add_stakeAt_none, again_eq_none, Covers, hroot]
  | some root =>
    have hloop := increaseUpTo_eq (m := m) root (increaseRootedStake lamports) (fun _ _ => rfl) hs
    by_cases hall : ∀ a ∈ ancestors, a ≤ root
    · have hplace : place tower ancestors = upTo ancestors root maxLockoutHistory := by
        ext a
        by_cases ha : a ∈ ancestors <;> simp [place, upTo, hroot, ha, hall]
      have hagain : again tower ancestors =
          fun a => if a ∈ ancestors then votePlace tower.votes a else none := by
        ext a
        by_cases hvotes : tower.votes = [] <;> simp [again, Covers, hroot, hvotes, votePlace]
        exact fun _ _ _ _ => hall
      have hrest : ancestors.filter (root < ·) = [] := by simpa using hall
      simp [hloop, hrest, voteLoop_eq hs hne ht.count, hplace, hagain]
    · have hrest : ancestors.filter (root < ·) ≠ [] := by simpa using hall
      simp only [hloop, bind_eq_bind, bind_some, if_neg hrest,
        voteLoop_eq (hs.filter _) hrest ht.count]
      rw [add_stakeAt (k := place tower ancestors), add_stakeAt_none (f := again _ _)]
      · simp
      · exact again_eq_none fun h => hall (by simpa [hroot] using h.2)
      · intro a
        by_cases ha : a ∈ ancestors <;> by_cases hle : a ≤ root <;>
          simp [upTo, place, hroot, ha, hle]

omit hs in
theorem stakeAt_again_eq_zero_iff (ht : IsTower tower) :
    stakeAt lamports (again tower ancestors) = 0 ↔ ¬(Covers tower ancestors ∧ lamports ≠ 0) := by
  constructor
  · rintro hzero ⟨hcovers, hlamports⟩
    obtain ⟨a, ha⟩ := exists_mem_of_ne_nil _ hne
    obtain ⟨vote, hvote⟩ := exists_mem_of_ne_nil _ hcovers.1
    obtain ⟨root, hroot, hall⟩ := hcovers.2
    have hle : a ≤ vote.slot := (hall a ha).trans (ht.above root hroot vote hvote).le
    obtain ⟨oldest, hfind⟩ := isSome_iff_exists.mp
      (find?_isSome (p := fun vote => decide (a ≤ vote.slot)) |>.mpr ⟨vote, hvote, by simpa⟩)
    have hagain : again tower ancestors a = votePlace tower.votes a := if_pos ⟨hcovers, ha⟩
    have hat := congrFun (congrFun hzero a) (oldest.confirmationCount - 1)
    simp [stakeAt, hagain, votePlace, hfind, hlamports] at hat
  · intro h
    ext a i
    rcases not_and_or.mp h with hcovers | hzero
    · simp [stakeAt, again_eq_none hcovers]
    · simp [stakeAt, not_not.mp hzero]

theorem accountLoop_spec (r : Commitments × List (ℕ × ℕ))
    (ht : ∀ account ∈ accounts, IsTower (towerOf node account)) :
    ∃ s, accountLoop ancestors node accounts r = some s ∧
      ((∀ account ∈ accounts, account.2.1 ≠ 0 → ¬Covers (towerOf node account) ancestors) →
        ∀ a, total s.1 a ≤ total r.1 a + (accounts.map (·.2.1)).sum) := by
  induction accounts generalizing r with
  | nil => exact ⟨r, rfl, by simp⟩
  | cons account accounts ih =>
    obtain ⟨haccount, ht⟩ := forall_mem_cons.mp ht
    rw [accountLoop]
    by_cases hzero : account.2.1 = 0
    · obtain ⟨s, heq, hle⟩ := ih r ht
      refine ⟨s, by simpa [hzero] using heq, fun hcovers a => ?_⟩
      simpa [hzero] using hle (forall_mem_cons.mp hcovers).2 a
    · obtain ⟨rooted, hr⟩ :=
        aggregateCommitmentForVoteAccount_eq hs hne r.1 r.2 account.2.1 haccount
      obtain ⟨s, heq, hle⟩ := ih _ ht
      refine ⟨s, by simpa [hzero, hr] using heq, fun hcovers a => ?_⟩
      obtain ⟨hcover, hcovers⟩ := forall_mem_cons.mp hcovers
      have htotal := hle hcovers a
      rw [add_stakeAt_none (again_eq_none (hcover hzero))] at htotal
      rw [map_cons, sum_cons, ← add_assoc]
      exact htotal.trans (Nat.add_le_add_right (total_add_stakeAt_le a) _)

/-- **The stake of a vote account is added where it belongs exactly if its tower does not cover the
ancestors; without such towers no ancestor has more than the stake of all accounts.** -/
theorem aggregateCommitment_iff :
    (∀ tower, IsTower tower → ∀ m rooted lamports, ∃ r,
      aggregateCommitmentForVoteAccount m rooted tower ancestors lamports = some r ∧
        (r.1 = m + stakeAt lamports (place tower ancestors) ↔
          ¬(Covers tower ancestors ∧ lamports ≠ 0))) ∧
    ∀ (accounts : List (K × ℕ × TowerVoteState)) (node : K × TowerVoteState),
      (∀ account ∈ accounts, IsTower (towerOf node account)) →
      ∃ r, aggregateCommitment ancestors accounts node = some r ∧
        ((∀ account ∈ accounts, account.2.1 ≠ 0 → ¬Covers (towerOf node account) ancestors) →
          ∀ a, total r.1 a ≤ (accounts.map (·.2.1)).sum) := by
  constructor
  · intro tower ht m rooted lamports
    obtain ⟨r, heq⟩ := aggregateCommitmentForVoteAccount_eq hs hne m rooted lamports ht
    exact ⟨_, heq, by rw [add_eq_left, stakeAt_again_eq_zero_iff hne ht]⟩
  · intro accounts node ht
    obtain ⟨r, heq, hle⟩ := accountLoop_spec hs hne (0, []) ht
    refine ⟨r, ?_, fun hcovers a => by simpa [total] using hle hcovers a⟩
    rw [aggregateCommitment, if_neg, heq]
    simpa [hne] using isChain_iff_pairwise.mpr hs

end

/-- Two votes above the root, with ancestors at the root, below each vote and above both. -/
theorem aggregateCommitment_iff_two : ∃ r,
    aggregateCommitmentForVoteAccount 0 [] ⟨[⟨4, 2⟩, ⟨6, 1⟩], some 2⟩ [2, 3, 5, 8] 7 = some r ∧
      r.1 = 0 + stakeAt 7 (place ⟨[⟨4, 2⟩, ⟨6, 1⟩], some 2⟩ [2, 3, 5, 8]) := by
  obtain ⟨r, heq, hiff⟩ := (aggregateCommitment_iff (K := Unit)
    (show [2, 3, 5, 8].Pairwise (· < ·) by decide) (by simp)).1 ⟨[⟨4, 2⟩, ⟨6, 1⟩], some 2⟩
      ⟨by simp, by simp [maxLockoutHistory]⟩ 0 [] 7
  exact ⟨r, heq, hiff.mpr (by simp [Covers])⟩

/-- A root at the only ancestor and a vote above it count the stake twice. -/
theorem total_twice : IsTower ⟨[⟨4, 1⟩], some 3⟩ ∧ ∃ r,
    aggregateCommitmentForVoteAccount 0 [] ⟨[⟨4, 1⟩], some 3⟩ [3] 5 = some r ∧ total r.1 3 = 10 :=
  ⟨⟨by simp, by simp [maxLockoutHistory]⟩, _, rfl, by decide⟩

end FlowraValidator.Consensus
