import FlowraValidator.EpochRewards.InflationRewards

/-!
# Credits of a stake are counted once

A stake is paid for the credits of its vote account above those it has observed, at its effective
stake in the epoch of each credit. The loop over the items takes the credits of the item that was
partly observed from the largest final credits so far, so that the order of the items matters.

* `creditedPoints`: the points for the credits in an interval.
* `stakePoints_iff`: the points of a history in its order, in another order, and at its prefixes.
-/

namespace FlowraValidator.EpochRewards
open List

variable {K : Type} {stakeAt : ℕ → ℕ} {d : Delegation K} {v : DelegatedVoteState}
  {o c n p a m : ℕ} {item : ℕ × ℕ × ℕ} {l l' : List (ℕ × ℕ × ℕ)}

/-! ## Histories -/

/-- The final credits of the last item. -/
def lastCredits (l : List (ℕ × ℕ × ℕ)) : ℕ := (l.getLast?.map fun item => item.2.1).getD 0

/-- No item begins before those ahead of it ended, and the last one ends at the credits. -/
structure DelegatedVoteState.InOrder (v : DelegatedVoteState) : Prop where
  pairwise : v.epochCredits.Pairwise fun a b => a.2.1 ≤ b.2.2
  le : ∀ item ∈ v.epochCredits, item.2.2 ≤ item.2.1
  last : v.credits = lastCredits v.epochCredits
  lt : v.credits < 2 ^ 64

/-- The vote account when only the first items were there. -/
def DelegatedVoteState.upTo (v : DelegatedVoteState) (n : ℕ) : DelegatedVoteState :=
  ⟨lastCredits (v.epochCredits.take n), v.epochCredits.take n⟩

/-- The points for the credits above `o` and up to `c`. -/
def creditedPoints (stakeAt : ℕ → ℕ) (o c : ℕ) (l : List (ℕ × ℕ × ℕ)) : ℕ :=
  (l.map fun item => stakeAt item.1 * (Finset.Ioc o c ∩ Finset.Ioc item.2.2 item.2.1).card).sum

/-- No subtraction of the loop underflows. -/
def SubtractionsFit (creditsInStake : ℕ) : ℕ → List (ℕ × ℕ × ℕ) → Prop
  | _, [] => True
  | new, item :: items =>
    (if creditsInStake < item.2.2 then item.2.2 ≤ item.2.1
      else creditsInStake < item.2.1 → new ≤ item.2.1) ∧
    SubtractionsFit creditsInStake (max new item.2.1) items

/-- When the items are taken in the order `l`, each credit above those observed counts once. -/
structure CountsOnce (stakeAt : ℕ → ℕ) (d : Delegation K) (o : ℕ) (v : DelegatedVoteState)
    (l : List (ℕ × ℕ × ℕ)) : Prop where
  fit : SubtractionsFit o o l
  points : (calculateStakePointsAndCredits stakeAt ⟨d, o⟩ ⟨v.credits, l⟩).points =
    creditedPoints stakeAt o v.credits v.epochCredits
  observed : (calculateStakePointsAndCredits stakeAt ⟨d, o⟩ ⟨v.credits, l⟩).newCreditsObserved =
    v.credits

/-- If the item was observed in part, then nothing newer has been seen, or it does not matter. -/
def Ready (stakeAt : ℕ → ℕ) (o n : ℕ) (item : ℕ × ℕ × ℕ) : Prop :=
  item.2.2 ≤ o → o < item.2.1 → n ≤ o ∨ n ≤ item.2.1 ∧ stakeAt item.1 = 0

/-- The points of redemptions one after the other. -/
def redeemAll (stakeAt : ℕ → ℕ) (d : Delegation K) : ℕ → List DelegatedVoteState → ℕ
  | _, [] => 0
  | o, v :: vs =>
    let calculated := calculateStakePointsAndCredits stakeAt ⟨d, o⟩ v
    calculated.points + redeemAll stakeAt d calculated.newCreditsObserved vs

/-! ## Points of an interval -/

theorem creditedPoints_cons : creditedPoints stakeAt o c (item :: l) =
    stakeAt item.1 * (min c item.2.1 - max o item.2.2) + creditedPoints stakeAt o c l := by
  simp [creditedPoints, Finset.Ioc_inter_Ioc]

theorem creditedPoints_append : creditedPoints stakeAt o c (l ++ l') =
    creditedPoints stakeAt o c l + creditedPoints stakeAt o c l' := by
  simp [creditedPoints]

theorem creditedPoints_eq_zero (h : ∀ item ∈ l, min c item.2.1 ≤ max o item.2.2) :
    creditedPoints stakeAt o c l = 0 := by
  induction l with
  | nil => rfl
  | cons item l ih =>
    obtain ⟨hitem, hl⟩ := forall_mem_cons.mp h
    rw [creditedPoints_cons, ih hl, Nat.sub_eq_zero_of_le hitem, mul_zero]

/-- Credits are counted up to `n` and from there, and those from `n` to `o` once more. -/
theorem creditedPoints_add (hn : n ≤ c) (hl : ∀ item ∈ l, item.2.2 ≤ item.2.1 ∧ item.2.1 ≤ c) :
    creditedPoints stakeAt o n l + creditedPoints stakeAt n c l =
      creditedPoints stakeAt o c l + creditedPoints stakeAt n o l := by
  induction l with
  | nil => rfl
  | cons item l ih =>
    obtain ⟨hitem, hl⟩ := forall_mem_cons.mp hl
    have hsplit : min n item.2.1 - max o item.2.2 + (min c item.2.1 - max n item.2.2) =
        min c item.2.1 - max o item.2.2 + (min o item.2.1 - max n item.2.2) := by omega
    simp only [creditedPoints_cons]
    linear_combination stakeAt item.1 * hsplit + ih hl

/-- Items that follow one another have no more credits than the last one. -/
theorem creditedPoints_add_le (hstake : ∀ e, stakeAt e ≤ m)
    (hpair : l.Pairwise fun a b => a.2.1 ≤ b.2.2) (hac : a ≤ c)
    (hl : ∀ item ∈ l, a ≤ item.2.2 ∧ item.2.2 ≤ item.2.1 ∧ item.2.1 ≤ c) :
    creditedPoints stakeAt o c l + m * a ≤ m * c := by
  induction l generalizing a with
  | nil => simpa [creditedPoints] using Nat.mul_le_mul_left m hac
  | cons item l ih =>
    obtain ⟨hhead, htail⟩ := pairwise_cons.mp hpair
    obtain ⟨⟨hai, hif, hfc⟩, hl⟩ := forall_mem_cons.mp hl
    have hrest := ih htail hfc fun e he => ⟨hhead e he, (hl e he).2⟩
    have hitem : stakeAt item.1 * (min c item.2.1 - max o item.2.2) ≤ m * (item.2.1 - a) :=
      Nat.mul_le_mul (hstake _) (by omega)
    have hsplit : m * (item.2.1 - a) + m * a = m * item.2.1 := by
      rw [← mul_add, Nat.sub_add_cancel (hai.trans hif)]
    rw [creditedPoints_cons]
    omega

/-! ## The loop -/

theorem foldl_addItem_snd {acc : ℕ × ℕ} (hl : ∀ item ∈ l, item.2.1 ≤ c) (hacc : acc.2 ≤ c)
    (hmem : acc.2 = c ∨ ∃ item ∈ l, item.2.1 = c) :
    (l.foldl (addItem stakeAt o) acc).2 = c := by
  induction l generalizing acc with
  | nil => simpa using hmem
  | cons item l ih =>
    obtain ⟨hitem, hl⟩ := forall_mem_cons.mp hl
    refine ih hl (max_le hacc hitem) ?_
    rw [exists_mem_cons_iff, ← or_assoc] at hmem
    refine hmem.imp_left fun hc => ?_
    dsimp only [addItem]
    omega

/-- One round earns at most the credits that are due, and exactly them if it is in time. -/
theorem mul_earnedCredits {f i : ℕ} (s : ℕ) (hc : c < 2 ^ 64) (ho : o ≤ n) (hif : i ≤ f)
    (hfc : f ≤ c) (hfit : if o < i then i ≤ f else o < f → n ≤ f) :
    s * earnedCredits o n f i ≤ s * (min c f - max o i) ∧
      (s * earnedCredits o n f i = s * (min c f - max o i) ↔
        (i ≤ o → o < f → n ≤ o ∨ n ≤ f ∧ s = 0)) := by
  unfold earnedCredits
  split_ifs at hfit ⊢ with hbefore hpart
  · rw [show (f + 2 ^ 64 - i) % 2 ^ 64 = min c f - max o i by omega]
    exact ⟨le_rfl, iff_of_true rfl fun h => absurd h (by omega)⟩
  · have hle := hfit hpart
    rw [show (f + 2 ^ 64 - n) % 2 ^ 64 = f - n by omega, show min c f - max o i = f - o by omega]
    refine ⟨Nat.mul_le_mul_left _ (by omega), ?_⟩
    rw [mul_eq_mul_left_iff]
    omega
  · rw [show min c f - max o i = 0 by omega]
    exact ⟨le_rfl, iff_of_true rfl fun _ h => absurd h hpart⟩

/-- **The loop counts each credit once if and only if it comes to each item in time.** -/
theorem foldl_addItem_iff (hc : c < 2 ^ 64) (ho : o ≤ n)
    (hl : ∀ item ∈ l, item.2.2 ≤ item.2.1 ∧ item.2.1 ≤ c)
    (hp : p + creditedPoints stakeAt o c l < 2 ^ 128) :
    let ready := (∀ item ∈ l, Ready stakeAt o n item) ∧
      l.Pairwise fun d e => Ready stakeAt o d.2.1 e
    let points := (l.foldl (addItem stakeAt o) (p, n)).1
    (ready → SubtractionsFit o n l) ∧ (SubtractionsFit o n l →
      points ≤ p + creditedPoints stakeAt o c l ∧
      (points = p + creditedPoints stakeAt o c l ↔ ready)) := by
  induction l generalizing n p with
  | nil => simp [SubtractionsFit, creditedPoints]
  | cons item l ih =>
    obtain ⟨hitem, hl⟩ := forall_mem_cons.mp hl
    rw [creditedPoints_cons] at hp ⊢
    have hready : (∀ e ∈ l, Ready stakeAt o (max n item.2.1) e) ↔
        (∀ e ∈ l, Ready stakeAt o n e) ∧ ∀ e ∈ l, Ready stakeAt o item.2.1 e := by
      rw [← forall₂_and]
      refine forall₂_congr fun e _ => ?_
      unfold Ready
      omega
    have ih := fun p => ih (p := p) (ho.trans (le_max_left n item.2.1)) hl
    simp only [hready] at ih
    rw [forall_mem_cons, pairwise_cons]
    refine ⟨fun ⟨⟨hr, hrs⟩, hrs', hpair⟩ => ⟨?_, (ih p (by omega)).1 ⟨⟨hrs, hrs'⟩, hpair⟩⟩,
      fun ⟨hfit, hfits⟩ => ?_⟩
    · unfold Ready at hr
      split_ifs
      · exact hitem.1
      · omega
    · obtain ⟨hle, heq⟩ := mul_earnedCredits (stakeAt item.1) hc ho hitem.1 hitem.2 hfit
      set q := p + stakeAt item.1 * earnedCredits o n item.2.1 item.2.2 with hq
      obtain ⟨hle', heq'⟩ := (ih q (by omega)).2 hfits
      have hstep : addItem stakeAt o (p, n) item = (q, max n item.2.1) :=
        Prod.ext (Nat.mod_eq_of_lt (show q < _ by omega)) rfl
      rw [foldl_cons, hstep]
      refine ⟨by omega, fun h => ?_, fun ⟨⟨hr, hrs⟩, hrs', hpair⟩ => ?_⟩
      · obtain ⟨⟨hrs, hrs'⟩, hpair⟩ := heq'.mp (by omega)
        exact ⟨⟨heq.mp (by omega), hrs⟩, hrs', hpair⟩
      · have hdue := heq.mpr hr
        have hrest := heq'.mpr ⟨⟨hrs, hrs'⟩, hpair⟩
        omega

/-! ## Histories in order -/

theorem lastCredits_cases (l : List (ℕ × ℕ × ℕ)) :
    lastCredits l = 0 ∨ ∃ item ∈ l, item.2.1 = lastCredits l := by
  unfold lastCredits
  cases h : l.getLast? with
  | none => exact .inl rfl
  | some item => exact .inr ⟨item, mem_of_getLast? h, rfl⟩

theorem lastCredits_le (h : ∀ item ∈ l, item.2.1 ≤ n) : lastCredits l ≤ n := by
  obtain hzero | ⟨item, hmem, heq⟩ := lastCredits_cases l
  · omega
  · exact heq ▸ h item hmem

namespace DelegatedVoteState.InOrder
variable (hv : v.InOrder)
include hv
theorem mem_le : ∀ item ∈ v.epochCredits, item.2.2 ≤ item.2.1 ∧ item.2.1 ≤ v.credits := by
  intro item hmem
  refine ⟨hv.le item hmem, ?_⟩
  obtain hnil | ⟨l, x, hl⟩ := v.epochCredits.eq_nil_or_concat'
  · rw [hnil] at hmem
    cases hmem
  · rw [hv.last, hl, lastCredits, getLast?_concat]
    rw [hl, mem_append, mem_singleton] at hmem
    obtain hmem | rfl := hmem
    · have hpair := hv.pairwise
      rw [hl, pairwise_append] at hpair
      exact (hpair.2.2 item hmem x mem_cons_self).trans (hv.le x (by simp [hl]))
    · exact le_rfl

theorem credits_le (n : ℕ) : (v.upTo n).credits ≤ v.credits :=
  lastCredits_le fun item hmem => (hv.mem_le item (mem_of_mem_take hmem)).2

theorem upTo (n : ℕ) : (v.upTo n).InOrder where
  pairwise := hv.pairwise.sublist (take_sublist n _)
  le item hmem := hv.le item (mem_of_mem_take hmem)
  last := rfl
  lt := (hv.credits_le n).trans_lt hv.lt

theorem credits_upTo_le (h : n ≤ p) : (v.upTo n).credits ≤ (v.upTo p).credits :=
  lastCredits_le fun item hmem =>
    ((hv.upTo p).mem_le item ((take_sublist_take_left h).subset hmem)).2

variable (hstake : ∀ e, stakeAt e < 2 ^ 64)
include hstake
/-- **Items in any order.** -/
theorem countsOnce_iff (hl : l.Perm v.epochCredits) :
    CountsOnce stakeAt d o v l ↔ l.Pairwise fun d e => Ready stakeAt o d.2.1 e := by
  have hmem : ∀ item ∈ l, item.2.2 ≤ item.2.1 ∧ item.2.1 ≤ v.credits :=
    fun item hmem => hv.mem_le item (hl.mem_iff.mp hmem)
  have hsum : creditedPoints stakeAt o v.credits l =
      creditedPoints stakeAt o v.credits v.epochCredits := (hl.map _).sum_eq
  have hbound : creditedPoints stakeAt o v.credits v.epochCredits + (2 ^ 64 - 1) * 0 ≤
      (2 ^ 64 - 1) * v.credits :=
    creditedPoints_add_le (fun e => Nat.le_pred_of_lt (hstake e)) hv.pairwise (Nat.zero_le _)
      fun item hmem => ⟨Nat.zero_le _, hv.mem_le item hmem⟩
  have hlt := hv.lt
  have hsmall : 0 + creditedPoints stakeAt o v.credits l < 2 ^ 128 := by omega
  obtain ⟨hfit, hpoints⟩ := foldl_addItem_iff hlt le_rfl hmem hsmall
  have hself : ∀ item ∈ l, Ready stakeAt o o item := fun _ _ _ _ => .inl le_rfl
  rw [hsum, zero_add] at hpoints
  by_cases hgt : o < v.credits
  · have hcalc : calculateStakePointsAndCredits stakeAt ⟨d, o⟩ ⟨v.credits, l⟩ =
        ⟨_, _, false⟩ := (if_neg hgt.not_gt).trans (if_neg hgt.ne')
    constructor
    · intro h
      have heq := h.points
      rw [hcalc] at heq
      exact ((hpoints h.fit).2.mp heq).2
    · intro h
      refine ⟨hfit ⟨hself, h⟩, ?_, ?_⟩ <;> rw [hcalc]
      · exact (hpoints (hfit ⟨hself, h⟩)).2.mpr ⟨hself, h⟩
      · refine foldl_addItem_snd (fun item h => (hmem item h).2) hgt.le (.inr ?_)
        obtain hzero | ⟨item, hin, heq⟩ := lastCredits_cases v.epochCredits
        · exact absurd (hv.last.trans hzero) (Nat.ne_zero_of_lt hgt)
        · exact ⟨item, hl.mem_iff.mpr hin, heq.trans hv.last.symm⟩
  · -- The loop is not reached, and no item ends above the credits observed.
    have hready : l.Pairwise fun d e => Ready stakeAt o d.2.1 e :=
      pairwise_of_forall_mem_list fun _ _ e he _ h => absurd (h.trans_le (hmem e he).2) hgt
    refine iff_of_true ⟨hfit ⟨hself, hready⟩, ?_, ?_⟩ hready
    rw [creditedPoints_eq_zero fun item _ => by omega]
    all_goals
      unfold calculateStakePointsAndCredits
      split_ifs <;> dsimp only at * <;> omega

/-- A history is in order. -/
theorem countsOnce : CountsOnce stakeAt d o v v.epochCredits :=
  (hv.countsOnce_iff hstake (.refl _)).mpr
    (hv.pairwise.imp fun h hle _ => .inl (h.trans hle))

/-- One of the redemptions. -/
theorem redeemAll_upTo (vs : List DelegatedVoteState) :
    redeemAll stakeAt d o (v.upTo n :: vs) =
      creditedPoints stakeAt o (v.upTo n).credits v.epochCredits +
        redeemAll stakeAt d (v.upTo n).credits vs := by
  have hpair := hv.pairwise
  rw [← take_append_drop n v.epochCredits] at hpair
  have hdrop : creditedPoints stakeAt o (v.upTo n).credits (v.epochCredits.drop n) = 0 := by
    refine creditedPoints_eq_zero fun item hmem => ?_
    have hlater : (v.upTo n).credits ≤ item.2.2 :=
      lastCredits_le fun e he => (pairwise_append.mp hpair).2.2 e he item hmem
    omega
  have honce := (hv.upTo n).countsOnce (d := d) (o := o) hstake
  rw [← take_append_drop n v.epochCredits, creditedPoints_append, hdrop]
  exact congrArg₂ _ honce.points (congrArg (redeemAll stakeAt d · vs) honce.observed)

/-- The only redemption. -/
theorem redeemAll_singleton :
    redeemAll stakeAt d o [v] = creditedPoints stakeAt o v.credits v.epochCredits :=
  (hv.countsOnce hstake).points

/-- **Successive redemptions.**  What a rewound stake has been paid for is paid once more. -/
theorem redeemAll_eq {ns : List ℕ} (hns : (n :: ns).Pairwise (· ≤ ·)) :
    redeemAll stakeAt d o ((n :: ns).map v.upTo ++ [v]) =
      creditedPoints stakeAt o v.credits v.epochCredits +
        creditedPoints stakeAt (v.upTo n).credits o v.epochCredits := by
  rw [← creditedPoints_add (hv.credits_le n) hv.mem_le, map_cons, cons_append,
    hv.redeemAll_upTo hstake]
  induction ns generalizing n o with
  | nil => rw [map_nil, nil_append, hv.redeemAll_singleton hstake]
  | cons m ns ih =>
    obtain ⟨hn, hns⟩ := pairwise_cons.mp hns
    have hle := hv.credits_upTo_le (hn m mem_cons_self)
    have hzero : creditedPoints stakeAt (v.upTo m).credits (v.upTo n).credits v.epochCredits = 0 :=
      creditedPoints_eq_zero fun item _ => by omega
    rw [map_cons, cons_append, hv.redeemAll_upTo hstake, ih hns,
      creditedPoints_add (hv.credits_le m) hv.mem_le, hzero, add_zero]

end DelegatedVoteState.InOrder

/-- **Every credit is counted once.**  A history in its order gives a stake the points of all
credits that it has not observed. In another order it does if and only if no newer item comes
before the one that was observed in part. Redemptions at prefixes of the history give the same
points in total unless the first of them rewinds the stake. -/
theorem stakePoints_iff (hstake : ∀ e, stakeAt e < 2 ^ 64) (hv : v.InOrder) (d : Delegation K)
    (o : ℕ) : CountsOnce stakeAt d o v v.epochCredits ∧
      (∀ l, l.Perm v.epochCredits → (CountsOnce stakeAt d o v l ↔
        l.Pairwise fun d e => Ready stakeAt o d.2.1 e)) ∧
      ∀ n ns, (n :: ns).Pairwise (· ≤ ·) →
        (redeemAll stakeAt d o ((n :: ns).map v.upTo ++ [v]) = redeemAll stakeAt d o [v] ↔
          creditedPoints stakeAt (v.upTo n).credits o v.epochCredits = 0) := by
  refine ⟨hv.countsOnce hstake, fun l hl => hv.countsOnce_iff hstake hl, fun n ns hns => ?_⟩
  rw [hv.redeemAll_eq hstake hns, hv.redeemAll_singleton hstake, Nat.add_eq_left]

/-- Two epochs with ten credits each. -/
def twoEpochs : DelegatedVoteState := ⟨20, [(0, 10, 0), (1, 20, 10)]⟩

theorem stakePoints_twoEpochs : twoEpochs.InOrder ∧ CountsOnce (fun _ => 1)
    (⟨(), 1, 0, 0⟩ : Delegation Unit) 5 twoEpochs twoEpochs.epochCredits := by
  have hv : twoEpochs.InOrder := ⟨by simp [twoEpochs], by decide, rfl, by decide⟩
  exact ⟨hv, (stakePoints_iff (fun _ => by decide) hv _ 5).1⟩

/-- With the newer item first, the credits of the older one are taken from the newer. -/
theorem not_countsOnce_reverse : ¬CountsOnce (fun _ => 1) (⟨(), 1, 0, 0⟩ : Delegation Unit) 5
    twoEpochs twoEpochs.epochCredits.reverse := by
  intro h
  simpa [SubtractionsFit, twoEpochs] using h.fit

end FlowraValidator.EpochRewards
