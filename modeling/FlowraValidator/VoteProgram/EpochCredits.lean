import FlowraValidator.VoteProgram.VoteState

/-!
# The ledger of epoch credits

`increment_credits` keeps one entry for each epoch in which credits were earned, with the credits at
its end and at its start. An entry of an epoch without credits is given to the next epoch, and the
oldest entry is dropped when there are too many.

* `creditsIn`: what was passed for an epoch, over a whole history of calls.
* `Ledger`: the entries tell the history.
* `Ledger.exists_openEpoch`, `Ledger.add`: the two halves of a call.
* `exists_ledger`: **every history of calls with non-decreasing epochs keeps the ledger.**
-/

namespace FlowraValidator.VoteProgram.VoteState
open List

/-- The credits of all calls, each an epoch and its credits. -/
def total (calls : List (ℕ × ℕ)) : ℕ := (calls.map Prod.snd).sum

/-- The credits of the calls for an epoch. -/
def creditsIn (calls : List (ℕ × ℕ)) (epoch : ℕ) : ℕ :=
  total (calls.filter fun call => decide (call.1 = epoch))

def incrementAll (vs : VoteState) (calls : List (ℕ × ℕ)) : VoteState :=
  calls.foldl (fun vs call => vs.incrementCredits call.1 call.2) vs

/-- The entries `init` and a last entry for `epoch` with all credits tell the calls. -/
structure Ledger (calls : List (ℕ × ℕ)) (epoch : ℕ) (init : List (ℕ × ℕ × ℕ)) (prev : ℕ) :
    Prop where
  length_lt : init.length < maxEpochCreditsHistory
  epochs : (init ++ [(epoch, total calls, prev)]).Pairwise (·.1 < ·.1)
  chained : (init ++ [(epoch, total calls, prev)]).IsChain fun a b => b.2.2 = a.2.1
  earned : ∀ x ∈ init, x.2.2 < x.2.1
  attributed : ∀ x ∈ init ++ [(epoch, total calls, prev)], x.2.1 = x.2.2 + creditsIn calls x.1

variable {calls : List (ℕ × ℕ)} {epoch last credits prev : ℕ} {init : List (ℕ × ℕ × ℕ)}

theorem total_concat : total (calls ++ [(epoch, credits)]) = total calls + credits := by
  rw [total, map_append, sum_append, ← total]
  rfl

theorem creditsIn_concat (other : ℕ) : creditsIn (calls ++ [(epoch, credits)]) other =
    creditsIn calls other + if epoch = other then credits else 0 := by
  rw [creditsIn, filter_append, filter_singleton]
  split_ifs with h <;> simp [h, total, creditsIn]

theorem creditsIn_eq_zero (h : ∀ call ∈ calls, call.1 < epoch) : creditsIn calls epoch = 0 := by
  have hnil : calls.filter (fun call => decide (call.1 = epoch)) = [] :=
    filter_eq_nil_iff.mpr fun call hmem => by simpa using (h call hmem).ne
  rw [creditsIn, hnil]
  rfl

/-- A new epoch that follows some of the entries. -/
theorem Ledger.of_infix {entries : List (ℕ × ℕ × ℕ)} {old : ℕ}
    (h : Ledger calls last init old) (hlt : last < epoch) (hcalls : ∀ call ∈ calls, call.1 < epoch)
    (hpart : entries <:+: init ++ [(last, total calls, old)])
    (hlength : entries.length < maxEpochCreditsHistory)
    (hearned : ∀ x ∈ entries, x.2.2 < x.2.1)
    (hprev : ∀ x ∈ entries.getLast?, total calls = x.2.1) :
    Ledger calls epoch entries (total calls) where
  length_lt := hlength
  epochs := by
    refine pairwise_append.mpr ⟨h.epochs.sublist hpart.sublist, pairwise_singleton _ _, ?_⟩
    rintro x hx y hy
    rw [mem_singleton.mp hy]
    rcases mem_append.mp (hpart.subset hx) with hx | hx
    · have hlast := (pairwise_append.mp h.epochs).2.2 x hx _ (mem_singleton_self _)
      exact lt_trans hlast hlt
    · rwa [mem_singleton.mp hx]
  chained := by
    have hchained := h.chained.infix hpart
    refine isChain_append.mpr ⟨hchained, isChain_singleton _, ?_⟩
    rintro x hx y hy
    cases hy
    exact hprev x hx
  earned := hearned
  attributed := by
    refine forall_mem_append.mpr ⟨fun x hx => h.attributed x (hpart.subset hx), ?_⟩
    rw [forall_mem_singleton, creditsIn_eq_zero hcalls]
    rfl

/-- The entry of the epoch is opened. -/
theorem Ledger.exists_openEpoch (h : Ledger calls last init prev) (hle : last ≤ epoch)
    (hcalls : ∀ call ∈ calls, call.1 ≤ last) :
    ∃ init' prev', openEpoch epoch (init ++ [(last, total calls, prev)]) =
      init' ++ [(epoch, total calls, prev')] ∧ Ledger calls epoch init' prev' := by
  rw [openEpoch, getLast?_concat]
  dsimp only
  by_cases hsame : epoch = last
  · rw [if_pos hsame, hsame]
    exact ⟨init, prev, rfl, h⟩
  have hlt : last < epoch := lt_of_le_of_ne hle fun heq => hsame heq.symm
  have hbefore : ∀ call ∈ calls, call.1 < epoch := fun call hmem => (hcalls call hmem).trans_lt hlt
  have hlength := h.length_lt
  rw [if_neg hsame]
  by_cases hidle : total calls = prev
  · -- the idle entry is given to the epoch
    rw [if_neg (not_not_intro hidle), dropLast_concat, if_neg (by simp; omega), ← hidle]
    refine ⟨init, total calls, rfl, h.of_infix hlt hbefore (prefix_append _ _).isInfix hlength
      h.earned fun x hx => ?_⟩
    exact hidle.trans ((isChain_append.mp h.chained).2.2 x hx _ rfl)
  · rw [if_pos hidle]
    have hearned : ∀ x ∈ init ++ [(last, total calls, prev)], x.2.2 < x.2.1 := by
      intro x hx
      rcases mem_append.mp hx with hx | hx
      · exact h.earned x hx
      · have hsum := h.attributed x (mem_append_right _ hx)
        rw [mem_singleton.mp hx] at hsum ⊢
        dsimp only at hsum ⊢
        omega
    have hlast : ∀ entries, entries <:+ init ++ [(last, total calls, prev)] →
        ∀ x ∈ entries.getLast?, total calls = x.2.1 := by
      rintro entries ⟨dropped, hdropped⟩ x hx
      have hlast := congrArg getLast? hdropped
      rw [getLast?_append, Option.mem_def.mp hx, getLast?_concat] at hlast
      exact congrArg (·.2.1) (Option.some_inj.mp hlast).symm
    split_ifs with hlong
    · obtain ⟨a, rest, hrest⟩ := exists_cons_of_ne_nil
        (append_ne_nil_of_right_ne_nil init (cons_ne_nil (last, total calls, prev) []))
      have hsuffix : rest <:+ init ++ [(last, total calls, prev)] := hrest ▸ suffix_cons a rest
      have hshort : rest.length < maxEpochCreditsHistory := by
        have hcount := congrArg length hrest
        simp only [length_append, length_cons, length_nil] at hcount
        omega
      refine ⟨rest, total calls, ?_, h.of_infix hlt hbefore hsuffix.isInfix hshort
        (fun x hx => hearned x (hsuffix.subset hx)) (hlast rest hsuffix)⟩
      rw [hrest]
      rfl
    · refine ⟨_, total calls, rfl, h.of_infix hlt hbefore infix_rfl ?_ hearned
        (hlast _ suffix_rfl)⟩
      rw [length_append] at hlong
      exact not_le.mp fun hle => hlong (Nat.lt_succ_of_le hle)

/-- Credits are added to the last entry. -/
theorem Ledger.add (h : Ledger calls epoch init prev) (credits : ℕ) :
    Ledger (calls ++ [(epoch, credits)]) epoch init prev where
  length_lt := h.length_lt
  epochs := by
    obtain ⟨hinit, -, hlast⟩ := pairwise_append.mp h.epochs
    refine pairwise_append.mpr ⟨hinit, pairwise_singleton _ _, fun x hx y hy => ?_⟩
    rw [mem_singleton.mp hy]
    exact hlast x hx (epoch, total calls, prev) (mem_singleton_self _)
  chained := by
    obtain ⟨hinit, -, hlast⟩ := isChain_append.mp h.chained
    refine isChain_append.mpr ⟨hinit, isChain_singleton _, fun x hx y hy => ?_⟩
    cases hy
    exact hlast x hx (epoch, total calls, prev) rfl
  earned := h.earned
  attributed := by
    intro x hx
    rcases mem_append.mp hx with hx | hx
    · have hlt := (pairwise_append.mp h.epochs).2.2 x hx _ (mem_singleton_self _)
      rw [creditsIn_concat, if_neg hlt.ne']
      exact h.attributed x (mem_append_left _ hx)
    · have hsum := h.attributed _ (mem_append_right _ (mem_singleton_self _))
      rw [mem_singleton.mp hx, total_concat, creditsIn_concat, if_pos rfl]
      dsimp only at hsum ⊢
      omega

/-- A call, once the entry of its epoch is open. -/
theorem Ledger.exists_incrementCredits {vs : VoteState} (h : Ledger calls epoch init prev)
    (hopen : openEpoch epoch vs.epochCredits = init ++ [(epoch, total calls, prev)])
    (hfit : total (calls ++ [(epoch, credits)]) ≤ u64Max) :
    ∃ init prev, (vs.incrementCredits epoch credits).epochCredits =
        init ++ [(epoch, total (calls ++ [(epoch, credits)]), prev)] ∧
      Ledger (calls ++ [(epoch, credits)]) epoch init prev := by
  refine ⟨init, prev, ?_, h.add credits⟩
  rw [total_concat] at hfit ⊢
  rw [incrementCredits, hopen, getLast?_concat]
  dsimp only
  rw [dropLast_concat, min_eq_left hfit]

/-- **The ledger of epoch credits.**  After every call of a history with non-decreasing epochs whose
credits fit in 64 bits, the last entry is of the epoch of that call and has all credits, and the
entries tell the history. -/
theorem exists_ledger (vs : VoteState) (calls : List (ℕ × ℕ)) (epoch credits : ℕ)
    (hempty : vs.epochCredits = []) (hepochs : (calls ++ [(epoch, credits)]).Pairwise (·.1 ≤ ·.1))
    (hfit : total (calls ++ [(epoch, credits)]) ≤ u64Max) :
    ∃ init prev, (vs.incrementAll (calls ++ [(epoch, credits)])).epochCredits =
        init ++ [(epoch, total (calls ++ [(epoch, credits)]), prev)] ∧
      Ledger (calls ++ [(epoch, credits)]) epoch init prev := by
  -- by induction over the calls before this one
  induction calls using List.reverseRecOn generalizing epoch credits with
  | nil =>
    have hnew : Ledger [] epoch [] 0 :=
      ⟨by decide, pairwise_singleton _ _, isChain_singleton _, nofun, fun x hx => by
        rw [mem_singleton.mp hx]
        rfl⟩
    refine hnew.exists_incrementCredits ?_ hfit
    rw [hempty]
    rfl
  | append_singleton calls call ih =>
    obtain ⟨hbefore, -, hle⟩ := pairwise_append.mp hepochs
    have hfit' := hfit
    rw [total_concat] at hfit'
    obtain ⟨init, prev, hentries, hledger⟩ := ih call.1 call.2 hbefore
      (le_trans (Nat.le_add_right _ _) hfit')
    have hlast := hle call (mem_append_right _ (mem_singleton_self _)) _ (mem_singleton_self _)
    have hcalls : ∀ c ∈ calls ++ [call], c.1 ≤ call.1 := by
      refine forall_mem_append.mpr ⟨fun c hc => ?_, forall_mem_singleton.mpr le_rfl⟩
      exact (pairwise_append.mp hbefore).2.2 c hc _ (mem_singleton_self _)
    obtain ⟨init', prev', hopen, hledger'⟩ := hledger.exists_openEpoch hlast hcalls
    rw [incrementAll, foldl_append]
    refine hledger'.exists_incrementCredits ?_ hfit
    exact (congrArg (openEpoch epoch) hentries).trans hopen

/-- Credits in two epochs, with an idle one between them. -/
theorem exists_ledger_three_epochs :
    ∃ init prev, (incrementAll ⟨[], none, [], ⟨0, 0⟩⟩ [(1, 5), (2, 0), (3, 7)]).epochCredits =
        init ++ [(3, 12, prev)] ∧ Ledger [(1, 5), (2, 0), (3, 7)] 3 init prev :=
  exists_ledger ⟨[], none, [], ⟨0, 0⟩⟩ [(1, 5), (2, 0)] 3 7 rfl (by decide) (by decide)

end FlowraValidator.VoteProgram.VoteState
