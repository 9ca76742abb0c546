import FlowraValidator.Lib.Binary64
import FlowraValidator.Votor.PoolSpec

/-!
# When the pool lets a node vote again

The stake counters of a slot are, like the vote pools, what can be computed from the ledger: the
stakes that voted to skip and to notarize each block, and the first vote of this node. With them
the events `SafeToNotar` and `SafeToSkip` become conditions on a ledger. The source checks the
conditions only when a vote to notarize or to skip arrives, and reports each event once; because
the conditions stay true when the ledger grows, and depend on these votes only, nothing is lost.

* `Ledger.SafeToNotar`, `Ledger.SafeToSkip`: the conditions.
* `SlotStakeCounters.Represents`: the counters of a slot are those of a ledger.
* `SlotStakeCounters.addVote_spec`: one more vote, and the events it makes the counters emit.
* `Ledger.SafeToNotar.mono`, `Ledger.SafeToSkip.mono`: growing ledgers, for a monotone rounding.
-/

namespace FlowraValidator.Votor
open SlotStakeCounters List Vote KeyedList Prod Nat

variable {Sig : Type} {v : Vote}

namespace Ledger

/-! ## Stakes of growing ledgers -/

variable {cl : Cluster} {led : Ledger Sig} {m : VoteMessage Sig} {s : ℕ}

theorem votesFor_append (v : Vote) :
    (led ++ [m]).votesFor v = led.votesFor v ++ if m.vote = v then [m] else [] := by
  unfold votesFor
  rw [filter_append]
  refine congrArg _ ?_
  split_ifs with h
  · rw [filter_cons_of_pos (by simpa using h), filter_nil]
  · rw [filter_cons_of_neg (by simpa using h), filter_nil]

theorem support_append (v : Vote) :
    support cl (led ++ [m]) v =
      support cl led v + if m.vote = v then (cl.stakesAt v.slot).stakeOf m.rank else 0 := by
  unfold support
  rw [votesFor_append, stake_append]
  split_ifs
  · rw [stake_singleton]
  · rw [stake_nil]

theorem support_append_of_ne (h : m.vote ≠ v) : support cl (led ++ [m]) v = support cl led v := by
  rw [support_append, if_neg h, add_zero]

theorem support_le_append (v : Vote) : support cl led v ≤ support cl (led ++ [m]) v := by
  rw [support_append]
  exact le_add_right _ _

/-- The stake that voted to notarize any block of a slot. -/
def notarized (cl : Cluster) (led : Ledger Sig) (s : ℕ) : ℕ := stake cl s (led.ofType s .notarize)

theorem notarized_append_of_ne (h : ∀ b, m.vote ≠ .notarize s b) :
    notarized cl (led ++ [m]) s = notarized cl led s := by
  unfold notarized
  rw [ofType_append_of_ne]
  intro heq
  rw [Prod.mk.injEq] at heq
  cases hv : m.vote with
  | notarize s' b =>
    rw [hv] at heq
    exact h b (by rw [hv, heq.1]; rfl)
  | _ => simp [hv, getType] at heq

theorem notarized_append {b : Hash} (h : m.vote = .notarize s b) :
    notarized cl (led ++ [m]) s = notarized cl led s + (cl.stakesAt s).stakeOf m.rank := by
  have hself := ofType_append_self led m
  rw [h] at hself
  unfold notarized
  change stake cl s ((led ++ [m]).ofType (notarize s b).slot (notarize s b).getType) = _
  rw [hself, stake_append, stake_singleton]
  rfl

/-- The votes for one block are some of the votes to notarize. -/
theorem support_le_notarized (s : ℕ) (b : Hash) :
    support cl led (.notarize s b) ≤ notarized cl led s := by
  unfold support notarized stake
  refine List.Sublist.sum_le_sum (List.Sublist.map _ ?_) fun _ _ => zero_le _
  unfold votesFor ofType
  refine monotone_filter_right led fun m' hm' => ?_
  rw [decide_eq_true_iff] at hm' ⊢
  rw [hm']
  exact ⟨rfl, rfl⟩

/-- The largest stake that voted to notarize one block. -/
def topNotarized (cl : Cluster) (led : Ledger Sig) (s : ℕ) : ℕ :=
  ((led.ofType s .notarize).map fun m => support cl led m.vote).foldr max 0

theorem foldr_max_mem (l : List ℕ) : l.foldr max 0 = 0 ∨ l.foldr max 0 ∈ l := by
  induction l with
  | nil => exact .inl rfl
  | cons a l ih =>
    rw [foldr_cons]
    rcases le_total a (l.foldr max 0) with hle | hle
    · rw [max_eq_right hle]
      exact ih.imp_right (mem_cons_of_mem _)
    · rw [max_eq_left hle]
      exact .inr mem_cons_self

theorem votesFor_eq_nil (h : ∀ m ∈ led, m.vote ≠ v) : led.votesFor v = [] := by
  unfold votesFor
  exact filter_eq_nil_iff.mpr fun m hm => by simpa using h m hm

theorem support_le_top (cl : Cluster) (led : Ledger Sig) (s : ℕ) (b : Hash) :
    support cl led (.notarize s b) ≤ topNotarized cl led s := by
  by_cases h : ∃ m ∈ led, m.vote = .notarize s b
  · obtain ⟨m, hm, hv⟩ := h
    refine le_max_of_le
      (mem_map.mpr ⟨m, mem_ofType.mpr ⟨hm, ?_, ?_⟩, congrArg _ hv⟩) le_rfl <;> rw [hv] <;> rfl
  · push Not at h
    unfold support
    rw [votesFor_eq_nil h]
    exact zero_le _

theorem exists_support_eq_top (cl : Cluster) (led : Ledger Sig) (s : ℕ) :
    ∃ b, topNotarized cl led s = support cl led (.notarize s b) := by
  rcases foldr_max_mem ((led.ofType s .notarize).map fun m => support cl led m.vote) with h | h
  · refine ⟨0, le_antisymm ?_ (support_le_top cl led s 0)⟩
    unfold topNotarized
    rw [h]
    exact zero_le _
  · obtain ⟨m, hm, heq⟩ := mem_map.mp h
    obtain ⟨-, hslot, hty⟩ := mem_ofType.mp hm
    cases hv : m.vote with
    | notarize s' b =>
      rw [hv] at hslot
      change s' = s at hslot
      subst hslot
      exact ⟨b, heq.symm.trans (by rw [hv])⟩
    | _ => simp [hv, getType] at hty

/-- The largest stake is the one that is reached and not exceeded. -/
theorem topNotarized_eq {top : ℕ} (hle : ∀ b, support cl led (.notarize s b) ≤ top)
    (hatt : top = 0 ∨ ∃ b, top ≤ support cl led (.notarize s b)) :
    topNotarized cl led s = top := by
  refine le_antisymm ?_ ?_
  · obtain ⟨b, hb⟩ := exists_support_eq_top cl led s
    rw [hb]
    exact hle b
  · rcases hatt with rfl | ⟨b, hb⟩
    · exact zero_le _
    · exact hb.trans (support_le_top cl led s b)

theorem topNotarized_append_of_ne (h : ∀ b, m.vote ≠ .notarize s b) :
    topNotarized cl (led ++ [m]) s = topNotarized cl led s := by
  refine topNotarized_eq (fun b => ?_) (.inr ?_)
  · rw [support_append_of_ne (h b)]
    exact support_le_top cl led s b
  · obtain ⟨b, hb⟩ := exists_support_eq_top cl led s
    exact ⟨b, by rw [support_append_of_ne (h b), hb]⟩

theorem topNotarized_append {b : Hash} (h : m.vote = .notarize s b) :
    topNotarized cl (led ++ [m]) s =
      max (topNotarized cl led s) (support cl (led ++ [m]) (.notarize s b)) := by
  refine topNotarized_eq (fun b' => ?_) (.inr ?_)
  · by_cases hb : b' = b
    · rw [hb]
      exact le_max_right _ _
    · rw [support_append_of_ne (by rw [h]; simpa using fun h => hb h.symm)]
      exact (support_le_top cl led s b').trans (le_max_left _ _)
  · rcases le_total (topNotarized cl led s) (support cl (led ++ [m]) (.notarize s b)) with hle | hle
    · exact ⟨b, by rw [max_eq_right hle]⟩
    · obtain ⟨b', hb'⟩ := exists_support_eq_top cl led s
      exact ⟨b', by rw [max_eq_left hle, hb']; exact support_le_append _⟩

/-- The stake that voted for other blocks than the one with the largest stake only grows. -/
theorem notarized_sub_top_le_append (s : ℕ) :
    notarized cl led s - topNotarized cl led s ≤
      notarized cl (led ++ [m]) s - topNotarized cl (led ++ [m]) s := by
  by_cases h : ∃ b, m.vote = .notarize s b
  · obtain ⟨b, hb⟩ := h
    have htop := support_le_top cl led s b
    rw [notarized_append hb, topNotarized_append hb, support_append, if_pos hb]
    simp only [slot]
    omega
  · push Not at h
    rw [notarized_append_of_ne h, topNotarized_append_of_ne h]

end Ledger

/-! ## The conditions -/

/-- A vote to notarize or to skip: those that the stake counters look at. -/
def Vote.isFirst (v : Vote) : Bool := decide (v.getType = .skip ∨ v.getType = .notarize)

theorem Vote.isFirst_iff : v.isFirst = true ↔ v = .skip v.slot ∨ ∃ b, v = .notarize v.slot b := by
  cases v <;> simp [isFirst, getType, slot]

namespace Ledger
variable {cl : Cluster} {me : Pubkey} {led : Ledger Sig} {m : VoteMessage Sig} {s : ℕ}

/-- A vote of the vote account `me` that the counters of `s` note as the first one. -/
def IsOwn (cl : Cluster) (me : Pubkey) (s : ℕ) (m : VoteMessage Sig) : Prop :=
  m.vote.slot = s ∧ m.vote.isFirst = true ∧ (cl.stakesAt s).keyOf m.rank = me

instance (cl : Cluster) (me : Pubkey) (s : ℕ) (m : VoteMessage Sig) : Decidable (IsOwn cl me s m) :=
  inferInstanceAs (Decidable (_ ∧ _ ∧ _))

/-- The first vote of this node to notarize a block of the slot or to skip it. -/
def firstVote (cl : Cluster) (me : Pubkey) (led : Ledger Sig) (s : ℕ) : Option Vote :=
  (led.find? fun m => decide (IsOwn cl me s m)).map VoteMessage.vote

theorem firstVote_append :
    firstVote cl me (led ++ [m]) s =
      (firstVote cl me led s).or (if IsOwn cl me s m then some m.vote else none) := by
  unfold firstVote
  rw [find?_append]
  cases led.find? fun m => decide (IsOwn cl me s m) with
  | some m' => rfl
  | none =>
    rw [Option.none_or, Option.map_none, Option.none_or]
    by_cases h : IsOwn cl me s m <;> simp [h]

theorem mem_of_firstVote (h : firstVote cl me led s = some v) :
    ∃ m ∈ led, IsOwn cl me s m ∧ m.vote = v := by
  obtain ⟨m, hm, rfl⟩ := Option.map_eq_some_iff.mp h
  have hown := find?_some hm
  rw [decide_eq_true_iff] at hown
  exact ⟨m, mem_of_find?_eq_some hm, hown, rfl⟩

theorem firstVote_append_of_some (h : firstVote cl me led s = some v) :
    firstVote cl me (led ++ [m]) s = some v := by
  rw [firstVote_append, h]
  rfl

end Ledger

/-- What the conditions need to know about the rounding of ratios. -/
structure Rounding (round : ℚ → ℚ) : Prop where
  mono : Monotone round
  zero : round 0 = 0

/-- The ratios of the machine. -/
theorem Rounding.binary64 : Rounding Binary64.round := ⟨Binary64.round_mono, Binary64.round_zero⟩

theorem Rounding.ratio_mono {round : ℚ → ℚ} (h : Rounding round) {a b : ℕ} (total : ℕ)
    (hab : a ≤ b) :
    ratio round a total ≤ ratio round b total := by
  have htotal : 0 ≤ round (total : ℚ) := by
    rw [← h.zero]
    exact h.mono (cast_nonneg total)
  unfold ratio
  exact h.mono (div_le_div_of_nonneg_right (h.mono (cast_le.mpr hab)) htotal)

/-- Enough stake to notarize: alone, or together with the stake to skip. -/
def NotarReached (round : ℚ → ℚ) (total stake skip : ℕ) : Prop :=
  fortyPercent round ≤ ratio round stake total ∨
    twentyPercent round ≤ ratio round stake total ∧
      sixtyPercent round ≤ round (ratio round stake total + ratio round skip total)

theorem NotarReached.mono {round : ℚ → ℚ} (hround : Rounding round)
    {total stake stake' skip skip' : ℕ} (h : NotarReached round total stake skip)
    (hstake : stake ≤ stake') (hskip : skip ≤ skip') : NotarReached round total stake' skip' := by
  have hnotar := hround.ratio_mono total hstake
  rcases h with h | ⟨h2, h6⟩
  · exact .inl (h.trans hnotar)
  · exact .inr ⟨h2.trans hnotar,
      h6.trans (hround.mono (add_le_add hnotar (hround.ratio_mono total hskip)))⟩

namespace Ledger
variable {round : ℚ → ℚ} {cl : Cluster} {me : Pubkey} {led : Ledger Sig} {m : VoteMessage Sig}
  {s : ℕ} {b : Hash}

/-- A block of `s` that the node may vote for in the second round. -/
@[mk_iff]
structure SafeToNotar (round : ℚ → ℚ) (cl : Cluster) (me : Pubkey) (led : Ledger Sig) (s : ℕ)
    (b : Hash) : Prop where
  voted : ∃ v, firstVote cl me led s = some v ∧ v ≠ .notarize s b
  exists_vote : ∃ m ∈ led, m.vote = .notarize s b
  reached : NotarReached round (cl.stakesAt s).totalStake (support cl led (.notarize s b))
    (support cl led (.skip s))

/-- The node may vote to skip `s` in the second round. -/
@[mk_iff]
structure SafeToSkip (round : ℚ → ℚ) (cl : Cluster) (me : Pubkey) (led : Ledger Sig) (s : ℕ) :
    Prop where
  voted : ∃ b, firstVote cl me led s = some (.notarize s b)
  reached : fortyPercent round ≤ ratio round
    (saturatingAdd (support cl led (.skip s)) (notarized cl led s - topNotarized cl led s))
    (cl.stakesAt s).totalStake

/-- **What is safe stays safe.** -/
theorem SafeToNotar.mono (hround : Rounding round) (h : SafeToNotar round cl me led s b) :
    SafeToNotar round cl me (led ++ [m]) s b := by
  obtain ⟨⟨v, hv, hne⟩, ⟨m', hm', hvote⟩, hreached⟩ := h
  exact ⟨⟨v, firstVote_append_of_some hv, hne⟩, ⟨m', mem_append_left _ hm', hvote⟩,
    hreached.mono hround (support_le_append _) (support_le_append _)⟩

theorem SafeToSkip.mono (hround : Rounding round) (h : SafeToSkip round cl me led s) :
    SafeToSkip round cl me (led ++ [m]) s := by
  obtain ⟨⟨b, hb⟩, hreached⟩ := h
  refine ⟨⟨b, firstVote_append_of_some hb⟩, hreached.trans (hround.ratio_mono _ ?_)⟩
  have hskip : support cl led (.skip s) ≤ support cl (led ++ [m]) (.skip s) := support_le_append _
  have hother : notarized cl led s - topNotarized cl led s ≤
      notarized cl (led ++ [m]) s - topNotarized cl (led ++ [m]) s :=
    notarized_sub_top_le_append s
  unfold saturatingAdd
  omega

variable (h : m.vote.slot = s → m.vote.isFirst = false)
include h in
/-- A vote that the counters of `s` do not look at. -/
theorem firstVote_append_of_other : firstVote cl me (led ++ [m]) s = firstVote cl me led s := by
  rw [firstVote_append, if_neg, Option.or_none]
  rintro ⟨hslot, hfirst, -⟩
  rw [h hslot] at hfirst
  exact Bool.false_ne_true hfirst

theorem ne_of_other (hv : v.isFirst = true)
    (h : m.vote.slot = v.slot → m.vote.isFirst = false) : m.vote ≠ v := by
  rintro rfl
  rw [h rfl] at hv
  exact Bool.false_ne_true hv

include h
theorem safeToNotar_append_of_other :
    SafeToNotar round cl me (led ++ [m]) s b ↔ SafeToNotar round cl me led s b := by
  have hb : m.vote ≠ .notarize s b := ne_of_other rfl h
  have hs : m.vote ≠ .skip s := ne_of_other rfl h
  rw [safeToNotar_iff, safeToNotar_iff, firstVote_append_of_other h, support_append_of_ne hb,
    support_append_of_ne hs]
  simp [or_and_right, exists_or, hb]

theorem safeToSkip_append_of_other :
    SafeToSkip round cl me (led ++ [m]) s ↔ SafeToSkip round cl me led s := by
  have hb : ∀ b, m.vote ≠ .notarize s b := fun b => ne_of_other rfl h
  have hs : m.vote ≠ .skip s := ne_of_other rfl h
  rw [safeToSkip_iff, safeToSkip_iff, firstVote_append_of_other h, support_append_of_ne hs,
    notarized_append_of_ne hb, topNotarized_append_of_ne hb]

end Ledger

/-! ## The counters of a ledger -/

namespace SlotStakeCounters
open Ledger

/-- The counters of the slot `s` hold what the ledger says. -/
structure Represents (cl : Cluster) (me : Pubkey) (led : Ledger Sig) (s : ℕ)
    (c : SlotStakeCounters) : Prop where
  totalStake : c.totalStake = (cl.stakesAt s).totalStake
  skipTotal : c.skipTotal = support cl led (.skip s)
  sorted : KeyedList.Sorted fst c.notarizeEntryTotal
  entries : ∀ b stake, (b, stake) ∈ c.notarizeEntryTotal ↔
    (∃ m ∈ led, m.vote = .notarize s b) ∧ stake = support cl led (.notarize s b)
  notarizeTotal : c.notarizeTotal = notarized cl led s
  top : c.topNotarizedStake = topNotarized cl led s
  first : c.myFirstVote = firstVote cl me led s

variable {cl : Cluster} {me : Pubkey} {led : Ledger Sig} {s : ℕ} {c : SlotStakeCounters}
  {m : VoteMessage Sig} {c' : SlotStakeCounters}

theorem represents_new (h : ∀ m ∈ led, m.vote.slot ≠ s) :
    (new (cl.stakesAt s).totalStake).Represents cl me led s := by
  have hvotes : ∀ v : Vote, v.slot = s → ∀ m ∈ led, m.vote ≠ v := by
    rintro v rfl m hm rfl
    exact h m hm rfl
  have htype : ∀ ty, led.ofType s ty = [] := fun ty =>
    filter_eq_nil_iff.mpr fun m hm => by simp [h m hm]
  refine ⟨rfl, ?_, sorted_nil, ?_, ?_, ?_, ?_⟩
  · unfold support
    rw [votesFor_eq_nil (hvotes _ rfl)]
    rfl
  · intro b stake
    constructor
    · intro hmem
      cases hmem
    · rintro ⟨⟨m, hm, hv⟩, -⟩
      exact absurd hv (hvotes _ rfl m hm)
  · unfold notarized
    rw [htype]
    rfl
  · unfold topNotarized
    rw [htype]
    rfl
  · unfold firstVote
    rw [find?_eq_none.mpr]
    · rfl
    · intro m hm
      simp [IsOwn, h m hm]

variable (hc : c.Represents cl me led s)
include hc in
/-- Only votes to notarize change the entries. -/
theorem Represents.append_of_ne (hb : ∀ b, m.vote ≠ .notarize s b) :
    ({ c with skipTotal := support cl (led ++ [m]) (.skip s)
              myFirstVote := firstVote cl me (led ++ [m]) s } : SlotStakeCounters).Represents
      cl me (led ++ [m]) s := by
  refine ⟨hc.totalStake, rfl, hc.sorted, ?_, ?_, ?_, rfl⟩
  · intro b stake
    rw [support_append_of_ne (hb b), hc.entries]
    simp [or_and_right, exists_or, hb b]
  · rw [notarized_append_of_ne hb, hc.notarizeTotal]
  · rw [topNotarized_append_of_ne hb, hc.top]

include hc in
/-- Votes of other slots and types are no matter of the counters. -/
theorem Represents.append_of_other (h : m.vote.slot = s → m.vote.isFirst = false)
    : c.Represents cl me (led ++ [m]) s := by
  have hs : m.vote ≠ .skip s := ne_of_other rfl h
  have happend := hc.append_of_ne fun b => ne_of_other (v := .notarize s b) rfl h
  rwa [support_append_of_ne hs, firstVote_append_of_other h, ← hc.skipTotal, ← hc.first]
    at happend

include hc in
/-- The counted stake of a block before the vote. -/
theorem Represents.find_entry (b : Hash) :
    (c.notarizeEntryTotal.find? fun e => e.1 = b).elim 0 snd =
      support cl led (.notarize s b) := by
  cases hfind : c.notarizeEntryTotal.find? fun e => e.1 = b with
  | some e =>
    have hkey := find?_some hfind
    rw [decide_eq_true_iff] at hkey
    have hmem := mem_of_find?_eq_some hfind
    obtain ⟨b', stake⟩ := e
    subst hkey
    exact ((hc.entries b' stake).mp hmem).2
  | none =>
    have hno : ∀ m ∈ led, m.vote ≠ .notarize s b := by
      intro m hm hv
      have hmem := (hc.entries b _).mpr ⟨⟨m, hm, hv⟩, rfl⟩
      exact absurd (find?_eq_none.mp hfind _ hmem) (by simp)
    unfold support
    rw [votesFor_eq_nil hno]
    rfl

/-- A first vote of this node is noted, unless there is one. -/
theorem noteFirstVote_first (hfirst : m.vote.isFirst = true)
    (hc : c.myFirstVote = firstVote cl me led m.vote.slot) :
    (c.noteFirstVote m.vote (decide (me = (cl.stakesAt m.vote.slot).keyOf m.rank))).myFirstVote =
      firstVote cl me (led ++ [m]) m.vote.slot := by
  rw [firstVote_append, ← hc]
  unfold noteFirstVote
  by_cases hown : me = (cl.stakesAt m.vote.slot).keyOf m.rank
  · have hisOwn : IsOwn cl me m.vote.slot m := ⟨rfl, hfirst, hown.symm⟩
    rw [if_pos hisOwn]
    cases hmy : c.myFirstVote with
    | none => simp [hown]
    | some v => simp [hmy]
  · have hisOwn : ¬IsOwn cl me m.vote.slot m := fun h => hown h.2.2.symm
    rw [if_neg hisOwn, Option.or_none]
    simp [hown]

theorem noteFirstVote_eq (c : SlotStakeCounters) (v : Vote) (own : Bool) :
    c.noteFirstVote v own = { c with myFirstVote := (c.noteFirstVote v own).myFirstVote } := by
  unfold noteFirstVote
  split_ifs <;> rfl

theorem Represents.noteFirstVote_of (hfirst : m.vote.isFirst = true)
    (hold : c'.myFirstVote = firstVote cl me led m.vote.slot)
    (h : ∀ first, first = firstVote cl me (led ++ [m]) m.vote.slot →
      ({ c' with myFirstVote := first } : SlotStakeCounters).Represents cl me (led ++ [m])
        m.vote.slot) :
    (c'.noteFirstVote m.vote (decide (me = (cl.stakesAt m.vote.slot).keyOf m.rank))).Represents
      cl me (led ++ [m]) m.vote.slot := by
  rw [noteFirstVote_eq]
  exact h _ (noteFirstVote_first hfirst hold)

/-- **Counting a vote to skip or to notarize.** -/
theorem Represents.count (hc : c.Represents cl me led m.vote.slot)
    (hwf : Ledger.WellFormed cl (led ++ [m])) (hfirst : m.vote.isFirst = true) :
    ∃ c', c.count m.vote (stake cl m.vote.slot ((led ++ [m]).entry m.vote)) = some c' ∧
      (c'.noteFirstVote m.vote
        (decide (me = (cl.stakesAt m.vote.slot).keyOf m.rank))).Represents cl me (led ++ [m])
          m.vote.slot ∧
      c'.safeToNotarSent = c.safeToNotarSent ∧ c'.safeToSkipSent = c.safeToSkipSent := by
  have hentry : stake cl m.vote.slot ((led ++ [m]).entry m.vote) =
      support cl (led ++ [m]) m.vote := by
    rw [entry_eq_votesFor (by
      intro h
      simp [isFirst, h] at hfirst)]
    rfl
  rcases isFirst_iff.mp hfirst with hv | ⟨b, hv⟩
  · -- to skip
    have hne : ∀ b, m.vote ≠ .notarize m.vote.slot b := by
      intro b h
      rw [hv] at h
      cases h
    refine ⟨{ c with skipTotal := support cl (led ++ [m]) m.vote }, ?_, ?_, rfl, rfl⟩
    · rw [hentry]
      unfold SlotStakeCounters.count
      rw [hv]
    · refine Represents.noteFirstVote_of hfirst hc.first ?_
      rintro first rfl
      have happend := hc.append_of_ne hne
      rwa [← hv] at happend
  · -- to notarize `b`
    have hskip : m.vote ≠ .skip m.vote.slot := by
      intro h
      rw [hv] at h
      cases h
    have hsup : support cl (led ++ [m]) m.vote = support cl led (.notarize m.vote.slot b) +
        (cl.stakesAt m.vote.slot).stakeOf m.rank := by
      rw [support_append, if_pos rfl, ← hv]
    have htotal : notarized cl (led ++ [m]) m.vote.slot ≤ u64Max :=
      (stake_le_total (hwf.ofType_nodup _ (by decide))).trans (cl.stakesAt m.vote.slot).total_le
    have hle : support cl led (.notarize m.vote.slot b) ≤ notarized cl led m.vote.slot :=
      support_le_notarized _ _
    refine ⟨{ c with
      notarizeEntryTotal := upsert fst (b, support cl (led ++ [m]) m.vote)
        c.notarizeEntryTotal
      notarizeTotal := notarized cl (led ++ [m]) m.vote.slot
      topNotarizedStake := topNotarized cl (led ++ [m]) m.vote.slot }, ?_, ?_, rfl, rfl⟩
    · rw [hentry]
      have hcount : c.count m.vote (support cl (led ++ [m]) m.vote) =
          c.count (.notarize m.vote.slot b) (support cl (led ++ [m]) m.vote) :=
        congrArg (fun v => c.count v (support cl (led ++ [m]) m.vote)) hv
      have hnotarized : saturatingAdd (c.notarizeTotal - support cl led (.notarize m.vote.slot b))
          (support cl (led ++ [m]) m.vote) = notarized cl (led ++ [m]) m.vote.slot := by
        rw [notarized_append hv] at htotal ⊢
        rw [hsup, hc.notarizeTotal]
        unfold saturatingAdd
        omega
      have htop : max c.topNotarizedStake (support cl (led ++ [m]) m.vote) =
          topNotarized cl (led ++ [m]) m.vote.slot := by
        rw [topNotarized_append hv, hc.top, ← hv]
      rw [hcount]
      unfold SlotStakeCounters.count
      dsimp only
      rw [hc.find_entry b, hnotarized, htop]
    · refine Represents.noteFirstVote_of hfirst hc.first ?_
      rintro first rfl
      refine ⟨hc.totalStake, ?_, sorted_upsert hc.sorted, ?_, rfl, rfl, rfl⟩
      · rw [support_append_of_ne hskip, hc.skipTotal]
      · intro b' stake
        rw [mem_upsert]
        by_cases hb : b' = b
        · subst hb
          rw [← hv]
          simp
        · have hne : m.vote ≠ .notarize m.vote.slot b' := by
            intro h
            rw [hv, notarize.injEq] at h
            exact hb h.2.symm
          rw [support_append_of_ne hne, hc.entries]
          simp [or_and_right, exists_or, hne, hb]

/-! ## The checks -/

variable {round : ℚ → ℚ} {entries : List (Hash × ℕ)} {looked : Prop}

/-- The blocks that the loop reports. -/
def newlySafe (round : ℚ → ℚ) (c : SlotStakeCounters) (entries : List (Hash × ℕ)) : List Hash :=
  (entries.filter fun e =>
    decide (e.1 ∉ c.safeToNotarSent ∧ c.isSafeToNotar round e.1 e.2 = true)).map fst

theorem checkSafeToNotar_eq (hsorted : KeyedList.Sorted fst entries) (slot : ℕ)
    (c : SlotStakeCounters) (events : List VotorEvent) :
    checkSafeToNotar round slot entries c events =
      ({ c with safeToNotarSent := c.safeToNotarSent ++ newlySafe round c entries },
        events ++ (newlySafe round c entries).map fun b => .safeToNotar (slot, b)) := by
  induction entries generalizing c events with
  | nil => simp [checkSafeToNotar, newlySafe]
  | cons e entries ih =>
    obtain ⟨b, st⟩ := e
    obtain ⟨hlt, hsorted⟩ := sorted_cons.mp hsorted
    unfold checkSafeToNotar
    by_cases h : b ∉ c.safeToNotarSent ∧ c.isSafeToNotar round b st = true
    · -- the block reported here is none of the later ones
      have hrest : newlySafe round { c with safeToNotarSent := c.safeToNotarSent ++ [b] } entries =
          newlySafe round c entries := by
        unfold newlySafe
        refine congrArg _ (filter_congr fun e he => ?_)
        rw [decide_eq_decide, mem_append, mem_singleton, not_or]
        have hne : e.1 ≠ b := (hlt e he).ne'
        constructor
        · rintro ⟨⟨hno, -⟩, hsafe⟩
          exact ⟨hno, hsafe⟩
        · rintro ⟨hno, hsafe⟩
          exact ⟨⟨hno, hne⟩, hsafe⟩
      have hcons : newlySafe round c ((b, st) :: entries) = b :: newlySafe round c entries := by
        unfold newlySafe
        rw [filter_cons_of_pos (by simpa using h), map_cons]
      rw [if_pos h, ih hsorted, hrest, hcons]
      simp
    · have hcons : newlySafe round c ((b, st) :: entries) = newlySafe round c entries := by
        unfold newlySafe
        rw [filter_cons_of_neg (by simpa using h)]
      rw [if_neg h, ih hsorted, hcons]

theorem mem_newlySafe {b : Hash} :
    b ∈ newlySafe round c entries ↔
      ∃ st, (b, st) ∈ entries ∧ b ∉ c.safeToNotarSent ∧ c.isSafeToNotar round b st = true := by
  unfold newlySafe
  rw [mem_map]
  constructor
  · rintro ⟨⟨b', st⟩, hmem, rfl⟩
    rw [mem_filter, decide_eq_true_iff] at hmem
    exact ⟨st, hmem⟩
  · rintro ⟨st, hmem⟩
    exact ⟨(b, st), by rwa [mem_filter, decide_eq_true_iff], rfl⟩

include hc in
/-- The check for a block is the condition on the ledger. -/
theorem Represents.isSafeToNotar_iff (hv : c.myFirstVote = some v) {b : Hash} :
    (∃ st, (b, st) ∈ c.notarizeEntryTotal ∧ c.isSafeToNotar round b st = true) ↔
      SafeToNotar round cl me led s b := by
  have hfirst := hc.first.symm.trans hv
  obtain ⟨m, -, ⟨hslot, hisFirst, -⟩, rfl⟩ := mem_of_firstVote hfirst
  have hcheck : ∀ st, c.isSafeToNotar round b st = true ↔
      m.vote ≠ .notarize s b ∧ NotarReached round c.totalStake st c.skipTotal := by
    intro st
    unfold isSafeToNotar NotarReached
    rw [hv]
    rcases isFirst_iff.mp hisFirst with hskip | ⟨b', hb'⟩
    · rw [hskip]
      simp
    · rw [hb', hslot]
      by_cases hb : b' = b <;> simp [hb]
  constructor
  · rintro ⟨st, hmem, hsafe⟩
    obtain ⟨hvote, rfl⟩ := (hc.entries b st).mp hmem
    obtain ⟨hne, hreached⟩ := (hcheck _).mp hsafe
    rw [hc.totalStake, hc.skipTotal] at hreached
    exact ⟨⟨m.vote, hfirst, hne⟩, hvote, hreached⟩
  · rintro ⟨⟨v', hv', hne⟩, hvote, hreached⟩
    rw [hfirst, Option.some_inj] at hv'
    subst hv'
    refine ⟨_, (hc.entries b _).mpr ⟨hvote, rfl⟩, (hcheck _).mpr ⟨hne, ?_⟩⟩
    rw [hc.totalStake, hc.skipTotal]
    exact hreached

include hc in
theorem Represents.isSafeToSkip_iff :
    c.isSafeToSkip round = true ↔ SafeToSkip round cl me led s := by
  have hfirst := hc.first
  unfold isSafeToSkip
  rw [hc.skipTotal, hc.notarizeTotal, hc.top, hc.totalStake]
  constructor
  · intro h
    split at h
    · next s' b hmy =>
      rw [hmy] at hfirst
      obtain ⟨m, -, ⟨hslot, -, -⟩, hvote⟩ := mem_of_firstVote hfirst.symm
      rw [hvote] at hslot
      change s' = s at hslot
      subst hslot
      exact ⟨⟨b, hfirst.symm⟩, of_decide_eq_true h⟩
    · exact absurd h Bool.false_ne_true
  · rintro ⟨⟨b, hb⟩, hreached⟩
    rw [hfirst, hb]
    exact decide_eq_true hreached

/-- What is reported between the counters `c` and `c'`: if `looked`, what the ledger makes safe, and
each event once. -/
structure Reports (round : ℚ → ℚ) (cl : Cluster) (me : Pubkey) (led : Ledger Sig) (s : ℕ)
    (looked : Prop) (c c' : SlotStakeCounters) (new : List VotorEvent) : Prop where
  notar_iff : ∀ b, b ∈ c'.safeToNotarSent ↔
    b ∈ c.safeToNotarSent ∨ looked ∧ SafeToNotar round cl me led s b
  skip_iff : c'.safeToSkipSent = true ↔
    c.safeToSkipSent = true ∨ looked ∧ SafeToSkip round cl me led s
  mem_new : ∀ e, e ∈ new ↔
    (∃ b, e = .safeToNotar (s, b) ∧ b ∈ c'.safeToNotarSent ∧ b ∉ c.safeToNotarSent) ∨
      e = .safeToSkip s ∧ c'.safeToSkipSent = true ∧ c.safeToSkipSent = false

theorem Reports.nothing (hnotar : c'.safeToNotarSent = c.safeToNotarSent)
    (hskip : c'.safeToSkipSent = c.safeToSkipSent)
    (hsafe : looked → (∀ b, ¬SafeToNotar round cl me led s b) ∧ ¬SafeToSkip round cl me led s) :
    Reports round cl me led s looked c c' [] := by
  refine ⟨fun b => ?_, ?_, fun e => ?_⟩
  · rw [hnotar]
    exact ⟨.inl, fun h => h.elim id fun h => absurd h.2 ((hsafe h.1).1 b)⟩
  · rw [hskip]
    exact ⟨.inl, fun h => h.elim id fun h => absurd h.2 (hsafe h.1).2⟩
  · rw [hnotar, hskip]
    constructor
    · intro he
      cases he
    · rintro (⟨b, -, hyes, hno⟩ | ⟨-, hyes, hno⟩)
      · exact absurd hyes hno
      · rw [hyes] at hno
        exact absurd hno (by decide)

include hc in
/-- The two checks, in counters with a first vote. -/
theorem Represents.check (round : ℚ → ℚ) (hv : c.myFirstVote = some v) (hlooked : looked)
    (events : List VotorEvent) :
    ∃ c' new, checkSafeToSkip round s
        (checkSafeToNotar round s c.notarizeEntryTotal c events).1
        (checkSafeToNotar round s c.notarizeEntryTotal c events).2 = (c', events ++ new) ∧
      c'.Represents cl me led s ∧ Reports round cl me led s looked c c' new := by
  rw [checkSafeToNotar_eq hc.sorted]
  generalize hnew : newlySafe round c c.notarizeEntryTotal = blocks
  have hblocks : ∀ b, b ∈ blocks ↔ b ∉ c.safeToNotarSent ∧ SafeToNotar round cl me led s b := by
    intro b
    rw [← hnew, mem_newlySafe, ← hc.isSafeToNotar_iff hv]
    constructor
    · rintro ⟨st, hmem, hno, hsafe⟩
      exact ⟨hno, st, hmem, hsafe⟩
    · rintro ⟨hno, st, hmem, hsafe⟩
      exact ⟨st, hmem, hno, hsafe⟩
  have hnotar : ∀ b, b ∈ c.safeToNotarSent ++ blocks ↔
      b ∈ c.safeToNotarSent ∨ looked ∧ SafeToNotar round cl me led s b := by
    intro b
    rw [mem_append, hblocks]
    by_cases hsent : b ∈ c.safeToNotarSent <;> simp [hsent, hlooked]
  have hrep : ∀ flag, ({ c with safeToNotarSent := c.safeToNotarSent ++ blocks
                                safeToSkipSent := flag } : SlotStakeCounters).Represents
      cl me led s := fun flag =>
    ⟨hc.totalStake, hc.skipTotal, hc.sorted, hc.entries, hc.notarizeTotal, hc.top, hc.first⟩
  have hevents : ∀ e : VotorEvent, e ∈ (blocks.map fun b => VotorEvent.safeToNotar (s, b)) ↔
      ∃ b, e = .safeToNotar (s, b) ∧ b ∈ c.safeToNotarSent ++ blocks ∧ b ∉ c.safeToNotarSent := by
    intro e
    rw [mem_map]
    constructor
    · rintro ⟨b, hb, rfl⟩
      exact ⟨b, rfl, mem_append_right _ hb, ((hblocks b).mp hb).1⟩
    · rintro ⟨b, rfl, hmem, hno⟩
      exact ⟨b, (mem_append.mp hmem).resolve_left hno, rfl⟩
  unfold checkSafeToSkip
  have hsafe : ({ c with safeToNotarSent := c.safeToNotarSent ++ blocks } :
      SlotStakeCounters).isSafeToSkip round = true ↔ SafeToSkip round cl me led s :=
    hc.isSafeToSkip_iff
  by_cases hskip : c.safeToSkipSent = false ∧ SafeToSkip round cl me led s
  · rw [if_pos (by simpa [hskip.1] using hsafe.mpr hskip.2), append_assoc]
    refine ⟨_, _, rfl, hrep true, hnotar, by simp [hlooked, hskip.2], fun e => ?_⟩
    rw [mem_append, hevents, mem_singleton]
    simp [hskip.1]
  · have hcond : ¬((!c.safeToSkipSent &&
        ({ c with safeToNotarSent := c.safeToNotarSent ++ blocks } :
          SlotStakeCounters).isSafeToSkip round) = true) := by
      rw [Bool.and_eq_true, hsafe]
      simpa using hskip
    rw [if_neg hcond]
    refine ⟨_, _, rfl, hrep c.safeToSkipSent, hnotar, ?_, fun e => ?_⟩
    · constructor
      · exact .inl
      · rintro (h | ⟨-, h⟩)
        · exact h
        · by_contra hno
          exact hskip ⟨by simpa using hno, h⟩
    · rw [hevents]
      cases hflag : c.safeToSkipSent <;> simp

/-- **One more vote.**  The counters are those of the longer ledger; when they look at the vote,
what the ledger makes safe has been reported. -/
theorem addVote_spec (round : ℚ → ℚ) (hc : c.Represents cl me led m.vote.slot)
    (hwf : Ledger.WellFormed cl (led ++ [m])) (events : List VotorEvent) :
    ∃ c' new, c.addVote round m.vote (stake cl m.vote.slot ((led ++ [m]).entry m.vote))
        (decide (me = (cl.stakesAt m.vote.slot).keyOf m.rank)) events = (c', events ++ new) ∧
      c'.Represents cl me (led ++ [m]) m.vote.slot ∧
      Reports round cl me (led ++ [m]) m.vote.slot (m.vote.isFirst = true) c c' new := by
  unfold addVote
  by_cases hfirst : m.vote.isFirst = true
  · obtain ⟨c1, hcount, hrep, hnotar, hskip⟩ := hc.count hwf hfirst
    rw [hcount]
    dsimp only
    have hsent : (c1.noteFirstVote m.vote
        (decide (me = (cl.stakesAt m.vote.slot).keyOf m.rank))).safeToNotarSent =
          c.safeToNotarSent := by
      rw [noteFirstVote_eq, hnotar]
    have hflag : (c1.noteFirstVote m.vote
        (decide (me = (cl.stakesAt m.vote.slot).keyOf m.rank))).safeToSkipSent =
          c.safeToSkipSent := by
      rw [noteFirstVote_eq, hskip]
    generalize c1.noteFirstVote m.vote
      (decide (me = (cl.stakesAt m.vote.slot).keyOf m.rank)) = c2 at hrep hsent hflag ⊢
    cases hmy : c2.myFirstVote with
    | none =>
      rw [if_pos Option.isNone_none]
      refine ⟨c2, [], by rw [append_nil], hrep, .nothing hsent hflag fun _ => ?_⟩
      have hnone := hrep.first.symm.trans hmy
      constructor
      · rintro b ⟨⟨v, hv, -⟩, -, -⟩
        rw [hnone] at hv
        cases hv
      · rintro ⟨⟨b, hb⟩, -⟩
        rw [hnone] at hb
        cases hb
    | some v =>
      rw [if_neg (by simp)]
      obtain ⟨c', new, heq, hrep', hreports⟩ := hrep.check round hmy hfirst events
      refine ⟨c', new, heq, hrep', fun b => ?_, ?_, fun e => ?_⟩
      · rw [hreports.notar_iff, hsent]
      · rw [hreports.skip_iff, hflag]
      · rw [hreports.mem_new, hsent, hflag]
  · have hother : m.vote.isFirst = false := by simpa using hfirst
    have hcount : c.count m.vote (stake cl m.vote.slot ((led ++ [m]).entry m.vote)) = none := by
      cases hv : m.vote <;> simp_all [isFirst, getType, count]
    rw [hcount]
    exact ⟨c, [], by rw [append_nil], hc.append_of_other fun _ => hother,
      .nothing rfl rfl fun h => absurd h hfirst⟩

end SlotStakeCounters

/-! ## The counters of a pool -/

namespace ConsensusPool

/-- The counters of a slot, or those that the next vote of the slot creates. -/
def countersAt (cl : Cluster) (p : ConsensusPool Sig) (s : ℕ) : SlotStakeCounters :=
  (p.slotStakeCountersMap s).getD (.new (cl.stakesAt s).totalStake)

/-- The counters of every slot are those of the ledger. -/
def Counts (cl : Cluster) (me : Pubkey) (p : ConsensusPool Sig) (led : Ledger Sig) : Prop :=
  ∀ s, (p.countersAt cl s).Represents cl me led s

variable {cl : Cluster} {me : Pubkey} {p : ConsensusPool Sig} {led : Ledger Sig}
  {ctx : PoolContext} {m : VoteMessage Sig}

theorem counts_nil (h : p.slotStakeCountersMap = fun _ => none) :
    p.Counts cl me ([] : Ledger Sig) := by
  intro s
  unfold countersAt
  rw [h]
  exact represents_new nofun

/-- **The counters of the pool after a vote**, and the events of the counters. -/
theorem acceptVote_spec (hp : p.Counts cl ctx.myVotePubkey led)
    (hwf : Ledger.WellFormed cl (led ++ [m])) (events : List VotorEvent) :
    ∃ new, (acceptVote cl ctx led p m events).2 = events ++ new ∧
      (acceptVote cl ctx led p m events).1.Counts cl ctx.myVotePubkey (led ++ [m]) ∧
      SlotStakeCounters.Reports ctx.round cl ctx.myVotePubkey (led ++ [m]) m.vote.slot
        (m.vote.isFirst = true) (p.countersAt cl m.vote.slot)
        ((acceptVote cl ctx led p m events).1.countersAt cl m.vote.slot) new ∧
      ∀ s, s ≠ m.vote.slot →
        (acceptVote cl ctx led p m events).1.countersAt cl s = p.countersAt cl s := by
  obtain ⟨c', new, heq, hrep, hreports⟩ := addVote_spec ctx.round (hp m.vote.slot) hwf events
  have hself : (acceptVote cl ctx led p m events).1.countersAt cl m.vote.slot = c' := by
    unfold acceptVote countVote countersAt
    dsimp only
    rw [Function.update_self, Option.getD_some]
    exact congrArg fst heq
  have hother : ∀ s, s ≠ m.vote.slot →
      (acceptVote cl ctx led p m events).1.countersAt cl s = p.countersAt cl s := by
    intro s hs
    unfold acceptVote countVote countersAt
    dsimp only
    rw [Function.update_of_ne hs]
  refine ⟨new, congrArg snd heq, ?_, hself ▸ hreports, hother⟩
  intro s
  by_cases hs : s = m.vote.slot
  · subst hs
    rw [hself]
    exact hrep
  · rw [hother s hs]
    exact (hp s).append_of_other fun h => absurd h.symm hs

end ConsensusPool
end FlowraValidator.Votor
