import FlowraValidator.BankingStage.ReadWriteAccountSet

/-!
# Batches of executed transactions

`Consumer::create_sequential_non_conflicting_batches`: the executed transactions are recorded in
their order, in batches without conflicts. A batch is closed when a transaction conflicts with it.

* `IsCutting`: consecutive pieces without conflicts.
* `Greedy`: a cutting whose pieces are closed as late as possible.
* `createSequentialNonConflictingBatches_spec`: the batches are a cutting with the fewest pieces.
-/

namespace FlowraValidator.BankingStage
open List SVMMessage

/-! ## Cuttings -/

section
variable {α : Type*}

/-- Consecutive pieces, none of them empty and each without conflicts. -/
structure IsCutting (conflicts : α → α → Prop) (l : List α) (pieces : List (List α)) : Prop where
  flatten : pieces.flatten = l
  free : ∀ piece ∈ pieces, piece ≠ [] ∧ piece.Pairwise fun a b => ¬conflicts a b

/-- A cutting with a last piece. Every cutting has more pieces, or its last one begins no later. -/
structure Greedy (conflicts : α → α → Prop) (l : List α) (pieces : List (List α))
    (current : List α) : Prop extends IsCutting conflicts l (pieces ++ [current]) where
  least : ∀ ds d, IsCutting conflicts l (ds ++ [d]) →
    pieces.length < ds.length ∨ (pieces.length = ds.length ∧ current <:+ d)

variable {conflicts : α → α → Prop} {l current d : List α} {pieces ds : List (List α)} {x : α}

theorem isCutting_concat_iff : IsCutting conflicts l (ds ++ [d]) ↔ ds.flatten ++ d = l ∧
    (∀ piece ∈ ds, piece ≠ [] ∧ piece.Pairwise fun a b => ¬conflicts a b) ∧
    d ≠ [] ∧ d.Pairwise fun a b => ¬conflicts a b := by
  constructor
  · rintro ⟨hflatten, hfree⟩
    rw [forall_mem_append, forall_mem_singleton] at hfree
    exact ⟨flatten_concat.symm.trans hflatten, hfree⟩
  · rintro ⟨hflatten, hfree⟩
    refine ⟨flatten_concat.trans hflatten, ?_⟩
    rwa [forall_mem_append, forall_mem_singleton]

/-- The last entry is a piece of its own, or it stands at the end of one. -/
theorem IsCutting.of_concat (h : IsCutting conflicts (l ++ [x]) (ds ++ [d])) :
    (d = [x] ∧ IsCutting conflicts l ds) ∨
      ∃ d', d = d' ++ [x] ∧ IsCutting conflicts l (ds ++ [d']) ∧ ∀ y ∈ d', ¬conflicts y x := by
  obtain ⟨hflatten, hds, hne, hfree⟩ := isCutting_concat_iff.mp h
  obtain rfl | ⟨d', y, rfl⟩ := eq_nil_or_concat' d
  · exact absurd rfl hne
  rw [← append_assoc, append_singleton_inj] at hflatten
  obtain ⟨hl, rfl⟩ := hflatten
  by_cases hd' : d' = []
  · subst hd'
    exact .inl ⟨rfl, (append_nil _).symm.trans hl, hds⟩
  · obtain ⟨hpiece, -, hlast⟩ := pairwise_append.mp hfree
    exact .inr ⟨d', rfl, isCutting_concat_iff.mpr ⟨hl, hds, hd', hpiece⟩,
      fun z hz => hlast z hz y mem_cons_self⟩

theorem greedy_singleton (x : α) : Greedy conflicts [x] [] [x] where
  toIsCutting := ⟨rfl, by simp⟩
  least ds d h := by
    have hlast : [x] <:+ d := by
      rcases IsCutting.of_concat (l := []) h with ⟨rfl, -⟩ | ⟨d', rfl, -, -⟩
      · exact suffix_rfl
      · exact suffix_append _ _
    exact ds.length.eq_zero_or_pos.symm.imp_right fun h0 => ⟨h0.symm, hlast⟩

namespace Greedy
variable (h : Greedy conflicts l pieces current)
include h
/-- No cutting has fewer pieces. -/
theorem length_lt (hds : IsCutting conflicts l ds) : pieces.length < ds.length := by
  obtain rfl | ⟨ds', d, rfl⟩ := eq_nil_or_concat' ds
  · obtain ⟨hl, -, hne, -⟩ := isCutting_concat_iff.mp h.toIsCutting
    exact absurd (append_eq_nil_iff.mp (hl.trans hds.flatten.symm)).2 hne
  · rw [length_append, length_singleton, Nat.lt_succ_iff]
    exact (h.least ds' d hds).elim le_of_lt fun hlast => hlast.1.le

/-- Without a conflict the entry joins the last piece. -/
theorem join (hx : ∀ y ∈ current, ¬conflicts y x) :
    Greedy conflicts (l ++ [x]) pieces (current ++ [x]) := by
  obtain ⟨hl, hpieces, -, hfree⟩ := isCutting_concat_iff.mp h.toIsCutting
  refine ⟨isCutting_concat_iff.mpr ⟨by rw [← append_assoc, hl], hpieces, by simp, ?_⟩, ?_⟩
  · rw [pairwise_append]
    exact ⟨hfree, pairwise_singleton _ _, by simpa using hx⟩
  · intro ds d hds
    rcases hds.of_concat with ⟨rfl, hcut⟩ | ⟨d', rfl, hcut, -⟩
    · exact .inl (h.length_lt hcut)
    · refine (h.least ds d' hcut).imp_right fun hlast => ?_
      exact ⟨hlast.1, suffix_append_self_iff.mpr hlast.2⟩

/-- A conflict closes the last piece: a cutting with as few pieces has the conflict too. -/
theorem close (hx : ∃ y ∈ current, conflicts y x) :
    Greedy conflicts (l ++ [x]) (pieces ++ [current]) [x] := by
  obtain ⟨y, hy, hconflict⟩ := hx
  refine ⟨isCutting_concat_iff.mpr ⟨by rw [h.flatten], h.free, by simp⟩, fun ds d hds => ?_⟩
  have hmore : pieces.length < ds.length ∧ [x] <:+ d := by
    rcases hds.of_concat with ⟨rfl, hcut⟩ | ⟨d', rfl, hcut, hfree⟩
    · exact ⟨h.length_lt hcut, suffix_rfl⟩
    · refine ⟨(h.least ds d' hcut).resolve_right fun hlast => ?_, suffix_append _ _⟩
      exact hfree y (hlast.2.subset hy) hconflict
  rw [length_append, length_singleton]
  exact (lt_or_eq_of_le hmore.1).imp_right fun heq => ⟨heq, hmore.2⟩

end Greedy
end

/-! ## The batches -/

section
variable {Versioned Tx Key : Type} [SVMMessage Tx Key] [DecidableEq Key]

/-- The batches so far, and the accounts of the current one. -/
structure EntryBatches (Versioned Key : Type) where
  result : List (List Versioned)
  currentBatch : List Versioned
  aggregateWriteLocks : Finset Key
  aggregateReadLocks : Finset Key

namespace EntryBatches
variable (s : EntryBatches Versioned Key)

/-- An account of the transaction is locked by the current batch. -/
def hasContention (info : Tx) : Bool :=
  (accountKeys info).zipIdx.any fun e => decide (e.1 ∈ s.aggregateWriteLocks) ||
    (isWritable info e.2 && decide (e.1 ∈ s.aggregateReadLocks))

/-- One round of the loop. -/
def addTransaction (e : Versioned × Tx) : EntryBatches Versioned Key :=
  let s := if s.hasContention e.2 then ⟨s.result ++ [s.currentBatch], [], ∅, ∅⟩ else s
  { s with
    currentBatch := s.currentBatch ++ [e.1]
    aggregateWriteLocks := s.aggregateWriteLocks ∪ (writeAccountLocks e.2).toFinset
    aggregateReadLocks := s.aggregateReadLocks ∪ (readAccountLocks e.2).toFinset }

end EntryBatches

/-- The locks that are reused are cleared first. -/
def createSequentialNonConflictingBatches (processedTransactions : List (Versioned × Tx)) :
    List (List Versioned) :=
  let s := processedTransactions.foldl EntryBatches.addTransaction ⟨[], [], ∅, (∅ : Finset Key)⟩
  if s.currentBatch.isEmpty then s.result else s.result ++ [s.currentBatch]

/-- The batches are the pieces, and the locks those of the last one. -/
structure EntryBatches.Records (s : EntryBatches Versioned Key)
    (pieces : List (List (Versioned × Tx))) (current : List (Versioned × Tx)) : Prop where
  result : s.result = pieces.map (map Prod.fst)
  currentBatch : s.currentBatch = current.map Prod.fst
  writes : ∀ a, a ∈ s.aggregateWriteLocks ↔ ∃ e ∈ current, a ∈ writeAccountLocks e.2
  reads : ∀ a, a ∈ s.aggregateReadLocks ↔ ∃ e ∈ current, a ∈ readAccountLocks e.2

/-- Executed transactions conflict as their messages do. -/
def EntryConflict (a b : Versioned × Tx) : Prop := Conflicts a.2 b.2

variable {s : EntryBatches Versioned Key} {l current : List (Versioned × Tx)}
  {pieces : List (List (Versioned × Tx))}

theorem EntryBatches.Records.hasContention_iff (h : s.Records pieces current) (e : Versioned × Tx) :
    s.hasContention e.2 = true ↔ ∃ y ∈ current, EntryConflict y e := by
  simp only [hasContention, any_eq_true, Bool.or_eq_true, Bool.and_eq_true, decide_eq_true_iff,
    h.writes, h.reads]
  constructor
  · rintro ⟨⟨a, i⟩, hmem, ⟨y, hy, hw⟩ | ⟨hi, y, hy, hr⟩⟩
    · exact ⟨y, hy, a, mem_accountKeys_iff.mpr (.inl hw), fst_mem_of_mem_zipIdx hmem, .inl hw⟩
    · exact ⟨y, hy, a, mem_accountKeys_iff.mpr (.inr hr), fst_mem_of_mem_zipIdx hmem,
        .inr (mem_writeAccountLocks_iff.mpr ⟨i, hmem, hi⟩)⟩
  · rintro ⟨y, hy, a, hya, hea, hwrite⟩
    by_cases hw : a ∈ writeAccountLocks y.2
    · obtain ⟨i, hmem⟩ := exists_mem_zipIdx hea
      exact ⟨(a, i), hmem, .inl ⟨y, hy, hw⟩⟩
    · obtain ⟨i, hmem, hi⟩ := mem_writeAccountLocks_iff.mp (hwrite.resolve_left hw)
      exact ⟨(a, i), hmem, .inr ⟨hi, y, hy, (mem_accountKeys_iff.mp hya).resolve_left hw⟩⟩

/-- **One transaction more.** -/
theorem EntryBatches.Records.addTransaction (h : s.Records pieces current)
    (hg : Greedy EntryConflict l pieces current) (e : Versioned × Tx) :
    ∃ pieces' current', (s.addTransaction e).Records pieces' current' ∧
      Greedy EntryConflict (l ++ [e]) pieces' current' := by
  unfold EntryBatches.addTransaction
  have hiff := h.hasContention_iff e
  by_cases hc : s.hasContention e.2 = true
  · refine ⟨_, _, ⟨?_, ?_, ?_, ?_⟩, hg.close (hiff.mp hc)⟩
    all_goals simp [hc, h.result, h.currentBatch]
  · refine ⟨_, _, ⟨?_, ?_, ?_, ?_⟩, hg.join fun y hy hy' => hc (hiff.mpr ⟨y, hy, hy'⟩)⟩
    all_goals simp [hc, h.result, h.currentBatch, h.writes, h.reads, or_and_right, exists_or]

/-- **The executed transactions are recorded in order, in as few batches without conflicts as
possible.** -/
theorem createSequentialNonConflictingBatches_spec (l : List (Versioned × Tx)) :
    ∃ pieces, createSequentialNonConflictingBatches l = pieces.map (map Prod.fst) ∧
      IsCutting EntryConflict l pieces ∧
      ∀ ds, IsCutting EntryConflict l ds → pieces.length ≤ ds.length := by
  obtain _ | ⟨e, l⟩ := l
  · exact ⟨[], rfl, ⟨rfl, by simp⟩, by simp⟩
  have hrun : ∃ pieces current, ((e :: l).foldl EntryBatches.addTransaction
        (⟨[], [], ∅, (∅ : Finset Key)⟩ : EntryBatches Versioned Key)).Records pieces current ∧
      Greedy EntryConflict (e :: l) pieces current := by
    induction l using List.reverseRecOn with
    | nil =>
      refine ⟨[], [e], ⟨?_, ?_, ?_, ?_⟩, greedy_singleton e⟩
      all_goals simp [EntryBatches.addTransaction, EntryBatches.hasContention]
    | append_singleton l e' ih =>
      obtain ⟨pieces, current, hs, hg⟩ := ih
      rw [← cons_append, foldl_concat]
      exact hs.addTransaction hg e'
  obtain ⟨pieces, current, hs, hg⟩ := hrun
  refine ⟨pieces ++ [current], ?_, hg.toIsCutting, fun ds hds => ?_⟩
  · have hne : current ≠ [] := (isCutting_concat_iff.mp hg.toIsCutting).2.2.1
    have hnot : (current.map Prod.fst).isEmpty = false := by simpa using hne
    rw [createSequentialNonConflictingBatches, hs.result, hs.currentBatch, hnot]
    simp
  · rw [length_append, length_singleton]
    exact hg.length_lt hds

end
end FlowraValidator.BankingStage
