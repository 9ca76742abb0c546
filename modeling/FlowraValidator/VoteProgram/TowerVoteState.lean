import Mathlib

/-!
# The tower of a validator

`Lockout` of the vote interface, and `core/src/consensus/tower_vote_state.rs`: a stack of votes, the
oldest one first. A vote for a slot first pops the votes on top whose lockouts have expired, then
roots the oldest vote if the stack is full, and then doubles the lockouts of the votes that now have
more votes on top of them than ever before.

A stack that is made in this way is never arbitrary: confirmation counts decrease from the bottom to
the top, a vote has at least as many confirmations as there are votes from it to the top, and every
vote is within the lockout of the one below it.

* `TowerVoteState.processNextVoteSlot`: the code.
* `TowerVoteState.Stacked`: what is true of all towers.
* `TowerVoteState.Stacked.processNextVoteSlot`: a vote keeps it.
-/

namespace FlowraValidator.VoteProgram
open List Option

/-- `u64::MAX`. -/
def u64Max : ℕ := 18446744073709551615

/-- `u32::MAX`. -/
def u32Max : ℕ := 4294967295

/-- `MAX_LOCKOUT_HISTORY`. -/
def maxLockoutHistory : ℕ := 31

/-- `INITIAL_LOCKOUT`. -/
def initialLockout : ℕ := 2

/-- The last entry of an increasing list is below a bound iff all entries are. -/
theorem any_getLast?_eq_false_iff {α : Type*} {f : α → ℕ} {l : List α}
    (h : l.Pairwise fun a b => f a < f b) (n : ℕ) :
    ((l.getLast?.map f).any fun last => decide (n ≤ last)) = false ↔ ∀ a ∈ l, f a < n := by
  rcases eq_nil_or_concat l with rfl | ⟨rest, last, rfl⟩
  · simp
  · rw [concat_eq_append, pairwise_append] at h
    rw [concat_eq_append, getLast?_concat]
    simp only [map_some, any_some, decide_eq_false_iff_not, not_le, mem_append, mem_singleton]
    constructor
    · rintro hlt a (ha | rfl)
      · exact (h.2.2 a ha last (mem_singleton_self _)).trans hlt
      · exact hlt
    · exact fun hall => hall last (.inr rfl)

/-- The entries of an increasing list are distinct. -/
theorem eq_of_pairwise_lt {α : Type*} {f : α → ℕ} {l : List α}
    (h : l.Pairwise fun a b => f a < f b) {a b : α} (ha : a ∈ l) (hb : b ∈ l)
    (heq : f a = f b) : a = b := by
  have hnodup : (l.map f).Nodup := pairwise_map.mpr (h.imp fun hlt => hlt.ne)
  exact inj_on_of_nodup_map hnodup ha hb heq

/-! ## Lockouts -/

structure Lockout where
  slot : ℕ
  confirmationCount : ℕ
  deriving DecidableEq

namespace Lockout

/-- `Lockout::new`. -/
def new (slot : ℕ) : Lockout := ⟨slot, 1⟩

/-- The number of slots for which the vote is locked out. -/
def lockout (v : Lockout) : ℕ := initialLockout ^ min v.confirmationCount maxLockoutHistory

def lastLockedOutSlot (v : Lockout) : ℕ := min (v.slot + v.lockout) u64Max

def isLockedOutAtSlot (v : Lockout) (slot : ℕ) : Bool := decide (slot ≤ v.lastLockedOutSlot)

def increaseConfirmationCount (v : Lockout) (n : ℕ) : Lockout :=
  { v with confirmationCount := min (v.confirmationCount + n) u32Max }

/-- More confirmations, longer lockout. -/
theorem lastLockedOutSlot_mono {v w : Lockout} (hslot : v.slot = w.slot)
    (hcount : v.confirmationCount ≤ w.confirmationCount) :
    v.lastLockedOutSlot ≤ w.lastLockedOutSlot := by
  have hpow : v.lockout ≤ w.lockout := Nat.pow_le_pow_right (by decide) (by omega)
  unfold lastLockedOutSlot
  omega

/-- `b` may be right on top of `a`. -/
structure Linked (a b : Lockout) : Prop where
  slot_lt : a.slot < b.slot
  count_lt : b.confirmationCount < a.confirmationCount
  locked : b.slot ≤ a.lastLockedOutSlot

instance (a b : Lockout) : Decidable (a.Linked b) :=
  decidable_of_iff (a.slot < b.slot ∧ b.confirmationCount < a.confirmationCount ∧
      b.slot ≤ a.lastLockedOutSlot)
    ⟨fun h => ⟨h.1, h.2.1, h.2.2⟩, fun h => ⟨h.slot_lt, h.count_lt, h.locked⟩⟩

/-- The slots of a stack increase. -/
theorem pairwise_slot_of_isChain {votes : List Lockout} (h : votes.IsChain Linked) :
    votes.Pairwise fun a b => a.slot < b.slot := by
  have hchain : votes.IsChain fun a b => a.slot < b.slot := h.imp fun _ _ hl => hl.slot_lt
  have : IsTrans Lockout fun a b => a.slot < b.slot := ⟨fun _ _ _ => Nat.lt_trans⟩
  exact isChain_iff_pairwise.mp hchain

end Lockout

/-! ## The code -/

structure TowerVoteState where
  votes : List Lockout
  rootSlot : Option ℕ
  deriving DecidableEq

namespace TowerVoteState

def lastVotedSlot (t : TowerVoteState) : Option ℕ := t.votes.getLast?.map Lockout.slot

/-- Votes are popped from the top while they are not locked out. -/
def popExpiredVotes (t : TowerVoteState) (nextVoteSlot : ℕ) : TowerVoteState :=
  { t with votes := t.votes.rdropWhile fun v => !v.isLockedOutAtSlot nextVoteSlot }

def doubleLockouts (t : TowerVoteState) : TowerVoteState :=
  let stackDepth := t.votes.length
  { t with votes := t.votes.mapIdx fun i v =>
      if stackDepth > i + v.confirmationCount then v.increaseConfirmationCount 1 else v }

/-- Once the stack is full, the oldest vote becomes the root. -/
def popRooted (t : TowerVoteState) : TowerVoteState :=
  match t.votes with
  | v :: rest => if t.votes.length = maxLockoutHistory then ⟨rest, some v.slot⟩ else t
  | [] => t

def processNextVoteSlot (t : TowerVoteState) (nextVoteSlot : ℕ) : TowerVoteState :=
  if t.lastVotedSlot.any fun lastVotedSlot => decide (nextVoteSlot ≤ lastVotedSlot) then t
  else
    let t := (t.popExpiredVotes nextVoteSlot).popRooted
    doubleLockouts { t with votes := t.votes ++ [Lockout.new nextVoteSlot] }

end TowerVoteState

/-! ## Doubling -/

namespace Lockout

/-- A vote with `n` votes from it to the top. -/
def raise (n : ℕ) (v : Lockout) : Lockout :=
  if n > v.confirmationCount then v.increaseConfirmationCount 1 else v

/-- `double_lockouts` from the bottom to the top. -/
def double : List Lockout → List Lockout
  | [] => []
  | v :: rest => v.raise (rest.length + 1) :: double rest

theorem mapIdx_eq_double (votes : List Lockout) :
    (votes.mapIdx fun i v => if votes.length > i + v.confirmationCount then
      v.increaseConfirmationCount 1 else v) = double votes := by
  induction votes with
  | nil => rfl
  | cons v rest ih =>
    rw [mapIdx_cons, double, ← ih, length_cons]
    refine congrArg₂ List.cons ?_ (congrArg (fun f => List.mapIdx f rest) ?_)
    · rw [Nat.zero_add]
      rfl
    · funext i w
      have hiff : rest.length + 1 > i + 1 + w.confirmationCount ↔
          rest.length > i + w.confirmationCount := by omega
      simp only [hiff]

@[simp] theorem slot_raise (n : ℕ) (v : Lockout) : (v.raise n).slot = v.slot := by
  unfold raise
  split_ifs <;> rfl

theorem count_raise (n : ℕ) {v : Lockout} (h : v.confirmationCount ≤ maxLockoutHistory) :
    (v.raise n).confirmationCount =
      if n > v.confirmationCount then v.confirmationCount + 1 else v.confirmationCount := by
  unfold raise
  split_ifs
  · refine min_eq_left ?_
    unfold maxLockoutHistory at h
    unfold u32Max
    omega
  · rfl

@[simp] theorem length_double (votes : List Lockout) : (double votes).length = votes.length := by
  induction votes with
  | nil => rfl
  | cons v rest ih => rw [double, length_cons, length_cons, ih]

@[simp] theorem map_slot_double (votes : List Lockout) :
    (double votes).map slot = votes.map slot := by
  induction votes with
  | nil => rfl
  | cons v rest ih => rw [double, map_cons, map_cons, ih, slot_raise]

/-- Every vote has at least as many confirmations as there are votes from it to the top. -/
def Deep : List Lockout → Prop
  | [] => True
  | v :: rest => rest.length + 1 ≤ v.confirmationCount ∧ Deep rest

variable {votes : List Lockout}

theorem Deep.of_append {rest : List Lockout} (h : Deep (votes ++ rest)) : Deep votes := by
  induction votes with
  | nil => trivial
  | cons v votes ih =>
    have hcount : (votes ++ rest).length + 1 ≤ v.confirmationCount := h.1
    rw [length_append] at hcount
    exact ⟨by omega, ih h.2⟩

theorem Deep.one_le (h : Deep votes) : ∀ v ∈ votes, 1 ≤ v.confirmationCount := by
  induction votes with
  | nil => exact nofun
  | cons v rest ih =>
    have hcount := h.1
    exact forall_mem_cons.mpr ⟨by omega, ih h.2⟩

/-- A doubled vote has as many confirmations as before, or at most one for each vote. -/
theorem exists_of_mem_double {w : Lockout} (h : w ∈ double votes)
    (hmax : ∀ v ∈ votes, v.confirmationCount ≤ maxLockoutHistory) :
    ∃ v ∈ votes, w.slot = v.slot ∧ v.confirmationCount ≤ w.confirmationCount ∧
      (w.confirmationCount ≤ v.confirmationCount ∨ w.confirmationCount ≤ votes.length) := by
  induction votes with
  | nil => cases h
  | cons v rest ih =>
    rw [double] at h
    rcases mem_cons.mp h with rfl | h
    · refine ⟨v, mem_cons_self, slot_raise _ v, ?_⟩
      rw [count_raise _ (hmax v mem_cons_self), length_cons]
      split_ifs <;> omega
    · obtain ⟨u, hu, hslot, hle, hcount⟩ := ih h fun u hu => hmax u (mem_cons_of_mem _ hu)
      refine ⟨u, mem_cons_of_mem _ hu, hslot, hle, ?_⟩
      rw [length_cons]
      omega

/-- Doubling takes no confirmation away. -/
theorem exists_mem_double {v : Lockout} (h : v ∈ votes)
    (hmax : v.confirmationCount ≤ maxLockoutHistory) :
    ∃ w ∈ double votes, w.slot = v.slot ∧ v.confirmationCount ≤ w.confirmationCount := by
  induction votes with
  | nil => cases h
  | cons u rest ih =>
    rw [double]
    rcases mem_cons.mp h with rfl | h
    · refine ⟨_, mem_cons_self, slot_raise _ v, ?_⟩
      rw [count_raise _ hmax]
      split_ifs <;> omega
    · obtain ⟨w, hw, hslot, hcount⟩ := ih h
      exact ⟨w, mem_cons_of_mem _ hw, hslot, hcount⟩

/-- **Pushing a vote keeps the shape of the stack.** -/
theorem isChain_double_push {slot : ℕ} (hlink : votes.IsChain Linked) (hdeep : Deep votes)
    (hmax : ∀ v ∈ votes, v.confirmationCount ≤ maxLockoutHistory) (hlt : ∀ v ∈ votes, v.slot < slot)
    (htop : ∀ v ∈ votes.getLast?, slot ≤ v.lastLockedOutSlot) :
    (double (votes ++ [new slot])).IsChain Linked ∧ Deep (double (votes ++ [new slot])) := by
  induction votes with
  | nil => exact ⟨isChain_singleton _, le_refl 1, trivial⟩
  | cons v rest ih =>
    have hraise := fun n => count_raise n (hmax v mem_cons_self)
    have hcount : rest.length + 1 ≤ v.confirmationCount := hdeep.1
    have hlast : ∀ n, v.lastLockedOutSlot ≤ (v.raise n).lastLockedOutSlot := by
      intro n
      refine lastLockedOutSlot_mono (slot_raise n v).symm ?_
      rw [hraise n]
      split_ifs <;> omega
    cases rest with
    | nil =>
      -- the new vote is right on top of `v`
      have hv : slot ≤ v.lastLockedOutSlot := htop v rfl
      have hslot : v.slot < slot := hlt v mem_cons_self
      have hlinked : (v.raise 2).Linked (new slot) := by
        refine ⟨by rw [slot_raise]; exact hslot, ?_, hv.trans (hlast 2)⟩
        rw [hraise 2]
        show 1 < _
        rw [length_nil] at hcount
        split_ifs <;> omega
      refine ⟨isChain_cons_cons.mpr ⟨hlinked, isChain_singleton _⟩, ?_, le_refl 1, trivial⟩
      show 2 ≤ (v.raise 2).confirmationCount
      rw [hraise 2]
      rw [length_nil] at hcount
      split_ifs <;> omega
    | cons w rest =>
      obtain ⟨hvw, hlink'⟩ := isChain_cons_cons.mp hlink
      obtain ⟨ihlink, ihdeep⟩ := ih hlink' hdeep.2
        (fun u hu => hmax u (mem_cons_of_mem _ hu))
        (fun u hu => hlt u (mem_cons_of_mem _ hu))
        (fun u hu => htop u (by rw [getLast?_cons_cons]; exact hu))
      have hw : (w :: rest).length ≤ w.confirmationCount := hdeep.2.1
      have hraise' := fun n => count_raise n (hmax w (mem_cons_of_mem _ mem_cons_self))
      have hcounts := hvw.count_lt
      rw [length_cons] at hcount hw
      have hdouble : ∀ (u : Lockout) (l : List Lockout), double (u :: l ++ [new slot]) =
          u.raise (l.length + 2) :: double (l ++ [new slot]) := by
        intro u l
        rw [cons_append, double, length_append, length_singleton]
      rw [hdouble v, length_cons]
      refine ⟨?_, ?_, ihdeep⟩
      · rw [hdouble w] at ihlink ⊢
        refine isChain_cons_cons.mpr ⟨⟨?_, ?_, ?_⟩, ihlink⟩
        · rw [slot_raise, slot_raise]
          exact hvw.slot_lt
        · rw [hraise', hraise]
          split_ifs <;> omega
        · rw [slot_raise]
          exact hvw.locked.trans (hlast _)
      · rw [hraise, length_double, length_append, length_singleton, length_cons]
        split_ifs <;> omega

end Lockout

/-! ## Towers -/

namespace TowerVoteState
variable {t : TowerVoteState} {nextVoteSlot : ℕ}

theorem doubleLockouts_eq (t : TowerVoteState) :
    t.doubleLockouts = ⟨Lockout.double t.votes, t.rootSlot⟩ := by
  unfold doubleLockouts
  dsimp only
  rw [Lockout.mapIdx_eq_double]

/-- What is true of all towers. -/
structure Stacked (t : TowerVoteState) : Prop where
  length_le : t.votes.length ≤ maxLockoutHistory
  linked : t.votes.IsChain Lockout.Linked
  deep : Lockout.Deep t.votes
  count_le : ∀ v ∈ t.votes, v.confirmationCount ≤ maxLockoutHistory
  above : ∀ r ∈ t.rootSlot, ∀ v ∈ t.votes, r < v.slot

/-- A tower without votes. -/
theorem stacked_nil (rootSlot : Option ℕ) : Stacked ⟨[], rootSlot⟩ :=
  ⟨Nat.zero_le _, isChain_nil, trivial, nofun, fun _ _ _ h => absurd h not_mem_nil⟩

/-- The votes that a vote for the slot pops. -/
def expired (t : TowerVoteState) (nextVoteSlot : ℕ) : List Lockout :=
  t.votes.rtakeWhile fun v => !v.isLockedOutAtSlot nextVoteSlot

/-- The votes that stay are at the bottom, the popped ones on top of them. -/
theorem votes_eq_append (t : TowerVoteState) (nextVoteSlot : ℕ) :
    (t.popExpiredVotes nextVoteSlot).votes ++ t.expired nextVoteSlot = t.votes :=
  rdropWhile_append_rtakeWhile

variable {v : Lockout}

theorem lastLockedOutSlot_lt_of_mem_expired (h : v ∈ t.expired nextVoteSlot) :
    v.lastLockedOutSlot < nextVoteSlot := by
  have hv := mem_rtakeWhile_imp h
  simpa [Lockout.isLockedOutAtSlot] using hv

/-- The vote that is on top then is locked out. -/
theorem le_lastLockedOutSlot_of_getLast (h : v ∈ (t.popExpiredVotes nextVoteSlot).votes.getLast?) :
    nextVoteSlot ≤ v.lastLockedOutSlot := by
  obtain ⟨hne, rfl⟩ := mem_getLast?_eq_getLast h
  have hv := rdropWhile_last_not _ _ hne
  rw [Bool.not_eq_true, Bool.not_eq_false'] at hv
  exact of_decide_eq_true hv

theorem Stacked.popExpiredVotes (h : t.Stacked) (nextVoteSlot : ℕ) :
    (t.popExpiredVotes nextVoteSlot).Stacked := by
  have happend := t.votes_eq_append nextVoteSlot
  have hsub : ∀ v ∈ (t.popExpiredVotes nextVoteSlot).votes, v ∈ t.votes := by
    intro v hv
    rw [← happend]
    exact mem_append_left _ hv
  refine ⟨?_, ?_, ?_, fun v hv => h.count_le v (hsub v hv),
    fun r hr v hv => h.above r hr v (hsub v hv)⟩
  · have hlen := h.length_le
    rw [← happend, length_append] at hlen
    omega
  · have hlink := h.linked
    rw [← happend] at hlink
    exact hlink.left_of_append
  · have hdeep := h.deep
    rw [← happend] at hdeep
    exact hdeep.of_append

/-- Either the tower is full and its oldest vote becomes the root, or nothing happens. -/
theorem popRooted_cases (t : TowerVoteState) :
    (∃ v rest, t.votes = v :: rest ∧ t.votes.length = maxLockoutHistory ∧
        t.popRooted = ⟨rest, some v.slot⟩) ∨
      t.votes.length ≠ maxLockoutHistory ∧ t.popRooted = t := by
  obtain ⟨votes, rootSlot⟩ := t
  cases votes with
  | nil => exact .inr ⟨Nat.zero_ne_add_one 30, rfl⟩
  | cons v rest =>
    by_cases hfull : (v :: rest).length = maxLockoutHistory
    · exact .inl ⟨v, rest, rfl, hfull, if_pos hfull⟩
    · exact .inr ⟨hfull, if_neg hfull⟩

/-- Rooting the oldest vote makes room. -/
theorem Stacked.popRooted (h : t.Stacked) :
    t.popRooted.Stacked ∧ t.popRooted.votes.length < maxLockoutHistory := by
  rcases t.popRooted_cases with ⟨v, rest, hvotes, hfull, heq⟩ | ⟨hroom, heq⟩
  · have hlink := h.linked
    have hdeep := h.deep
    have hslots := Lockout.pairwise_slot_of_isChain h.linked
    rw [hvotes] at hlink hdeep hslots hfull
    rw [length_cons] at hfull
    rw [heq]
    refine ⟨⟨by dsimp only; omega, hlink.tail, hdeep.2, ?_, ?_⟩, by dsimp only; omega⟩
    · intro w hw
      refine h.count_le w ?_
      rw [hvotes]
      exact mem_cons_of_mem _ hw
    · rintro r hr w hw
      cases mem_some_iff.mp hr
      exact (pairwise_cons.mp hslots).1 w hw
  · rw [heq]
    exact ⟨h, lt_of_le_of_ne h.length_le hroom⟩

/-- **Pushing a vote.** -/
theorem Stacked.push (h : t.Stacked) (hlen : t.votes.length < maxLockoutHistory)
    (hlt : ∀ v ∈ t.votes, v.slot < nextVoteSlot)
    (htop : ∀ v ∈ t.votes.getLast?, nextVoteSlot ≤ v.lastLockedOutSlot)
    (hroot : ∀ r ∈ t.rootSlot, r < nextVoteSlot) :
    (doubleLockouts { t with votes := t.votes ++ [Lockout.new nextVoteSlot] }).Stacked := by
  obtain ⟨hlink, hdeep⟩ := Lockout.isChain_double_push h.linked h.deep h.count_le hlt htop
  have hcount : ∀ v ∈ t.votes ++ [Lockout.new nextVoteSlot],
      v.confirmationCount ≤ maxLockoutHistory := by
    refine forall_mem_append.mpr ⟨h.count_le, forall_mem_singleton.mpr ?_⟩
    show 1 ≤ 31
    omega
  rw [doubleLockouts_eq]
  refine ⟨?_, hlink, hdeep, ?_, ?_⟩
  · rwa [Lockout.length_double, length_append, length_singleton]
  · intro w hw
    obtain ⟨v, hv, -, -, hle⟩ := Lockout.exists_of_mem_double hw hcount
    rw [length_append, length_singleton] at hle
    have hv := hcount v hv
    omega
  · intro r hr w hw
    obtain ⟨v, hv, hslot, -⟩ := Lockout.exists_of_mem_double hw hcount
    rw [hslot]
    rcases mem_append.mp hv with hv | hv
    · exact h.above r hr v hv
    · rw [mem_singleton.mp hv]
      exact hroot r hr

/-- A vote is newer than all others. -/
theorem Stacked.lastVotedSlot_lt_iff (h : t.Stacked) (nextVoteSlot : ℕ) :
    (t.lastVotedSlot.any fun last => decide (nextVoteSlot ≤ last)) = false ↔
      ∀ v ∈ t.votes, v.slot < nextVoteSlot :=
  any_getLast?_eq_false_iff (Lockout.pairwise_slot_of_isChain h.linked) nextVoteSlot

/-- The tower right before the new vote is pushed. -/
def survivors (t : TowerVoteState) (nextVoteSlot : ℕ) : TowerVoteState :=
  (t.popExpiredVotes nextVoteSlot).popRooted

theorem mem_of_mem_popExpiredVotes (h : v ∈ (t.popExpiredVotes nextVoteSlot).votes) :
    v ∈ t.votes := by
  rw [← t.votes_eq_append nextVoteSlot]
  exact mem_append_left _ h

/-- A vote of the tower survives, or is popped, or becomes the root. -/
theorem mem_votes_iff :
    v ∈ t.votes ↔ v ∈ (t.survivors nextVoteSlot).votes ∨ v ∈ t.expired nextVoteSlot ∨
      ((t.popExpiredVotes nextVoteSlot).votes.length = maxLockoutHistory ∧
        (t.popExpiredVotes nextVoteSlot).votes.head? = some v) := by
  have happend := t.votes_eq_append nextVoteSlot
  unfold survivors
  rcases (t.popExpiredVotes nextVoteSlot).popRooted_cases with
    ⟨w, rest, hvotes, hfull, heq⟩ | ⟨hroom, heq⟩
  · rw [heq, ← happend, hvotes]
    rw [hvotes] at hfull
    simp only [mem_append, mem_cons, head?_cons, some_inj, hfull, true_and, eq_comm]
    tauto
  · rw [heq, ← happend]
    simp only [mem_append, hroom, false_and, or_false]

theorem rootSlot_survivors (t : TowerVoteState) (nextVoteSlot : ℕ) :
    (t.survivors nextVoteSlot).rootSlot = t.rootSlot ∧
        (t.popExpiredVotes nextVoteSlot).votes.length ≠ maxLockoutHistory ∨
      ∃ v, (t.survivors nextVoteSlot).rootSlot = some v.slot ∧
        (t.popExpiredVotes nextVoteSlot).votes.length = maxLockoutHistory ∧
        (t.popExpiredVotes nextVoteSlot).votes.head? = some v := by
  unfold survivors
  rcases (t.popExpiredVotes nextVoteSlot).popRooted_cases with
    ⟨w, rest, hvotes, hfull, heq⟩ | ⟨hroom, heq⟩
  · rw [heq]
    exact .inr ⟨w, rfl, hfull, by rw [hvotes]; rfl⟩
  · rw [heq]
    exact .inl ⟨rfl, hroom⟩

/-- The vote on top of the survivors is locked out. -/
theorem le_lastLockedOutSlot_of_survivors (h : v ∈ (t.survivors nextVoteSlot).votes.getLast?) :
    nextVoteSlot ≤ v.lastLockedOutSlot := by
  refine le_lastLockedOutSlot_of_getLast (t := t) ?_
  unfold survivors at h
  rcases (t.popExpiredVotes nextVoteSlot).popRooted_cases with
    ⟨w, rest, hvotes, hfull, heq⟩ | ⟨hroom, heq⟩
  · rw [heq] at h
    rw [hvotes]
    cases rest with
    | nil => cases h
    | cons u rest => rwa [getLast?_cons_cons]
  · rwa [heq] at h

theorem processNextVoteSlot_of_lt (h : t.Stacked) (hlt : ∀ v ∈ t.votes, v.slot < nextVoteSlot) :
    t.processNextVoteSlot nextVoteSlot =
      ⟨Lockout.double ((t.survivors nextVoteSlot).votes ++ [Lockout.new nextVoteSlot]),
        (t.survivors nextVoteSlot).rootSlot⟩ := by
  unfold processNextVoteSlot
  rw [if_neg (by rw [(h.lastVotedSlot_lt_iff _).mpr hlt]; exact Bool.false_ne_true)]
  rw [doubleLockouts_eq]
  rfl

/-- **A vote keeps the shape of the tower.** -/
theorem Stacked.processNextVoteSlot (h : t.Stacked) (hroot : ∀ r ∈ t.rootSlot, r < nextVoteSlot) :
    (t.processNextVoteSlot nextVoteSlot).Stacked := by
  by_cases hlt : ∀ v ∈ t.votes, v.slot < nextVoteSlot
  · obtain ⟨hsurvive, hlen⟩ : (t.survivors nextVoteSlot).Stacked ∧ _ :=
      (h.popExpiredVotes nextVoteSlot).popRooted
    have hlt' : ∀ v ∈ (t.survivors nextVoteSlot).votes, v.slot < nextVoteSlot :=
      fun v hv => hlt v (mem_votes_iff.mpr (.inl hv))
    have hroot' : ∀ r ∈ (t.survivors nextVoteSlot).rootSlot, r < nextVoteSlot := by
      intro r hr
      rcases t.rootSlot_survivors nextVoteSlot with ⟨heq, -⟩ | ⟨v, heq, hfull, hhead⟩
      · exact hroot r (heq ▸ hr)
      · rw [heq] at hr
        cases mem_some_iff.mp hr
        exact hlt v (mem_votes_iff.mpr (.inr (.inr ⟨hfull, hhead⟩)))
    have hpush := hsurvive.push hlen hlt' (fun v hv => le_lastLockedOutSlot_of_survivors hv) hroot'
    rw [doubleLockouts_eq] at hpush
    rwa [processNextVoteSlot_of_lt h hlt]
  · -- a vote that is not newer than the others is ignored
    have hsame : t.processNextVoteSlot nextVoteSlot = t :=
      if_pos (by rwa [← Bool.not_eq_false, h.lastVotedSlot_lt_iff])
    rwa [hsame]

end TowerVoteState
end FlowraValidator.VoteProgram
