import FlowraValidator.Gossip.Crds

/-!
# The gossip table converges

The values of a label are ordered by `rank`: contact infos by their outset, their wallclock and
their hash, and other values by their wallclock and their hash. A value overrides another one of
its label iff its rank is greater, so that the table holds the greatest value of each label,
whatever the order of the insertions.

* `overrides_eq`: overriding is the order of the ranks.
* `insert_spec`: what an insertion changes.
* `Reached`: the tables that are reached by insertions, removals and trimming.
* `crds_converges`: two sequences of insertions of the same values end with the same values, and no
  hash is forgotten.
-/

namespace FlowraValidator.Gossip
open CrdsValue List Option Prod

/-! ## The order of values -/

/-- The outset of a contact info. -/
def CrdsData.outset : CrdsData → ℕ
  | .contactInfo node => node.outset
  | _ => 0

/-- Outset, wallclock and hash, in this order. Only contact infos have an outset. -/
def CrdsValue.rank (value : CrdsValue) : ℕ ×ₗ ℕ ×ₗ ℕ :=
  toLex (value.data.outset, toLex (value.wallclock, value.hash))

variable {v w : CrdsValue}

theorem CrdsValue.rank_lt_iff :
    v.rank < w.rank ↔ v.data.outset < w.data.outset ∨
      v.data.outset = w.data.outset ∧ (v.wallclock < w.wallclock ∨
        v.wallclock = w.wallclock ∧ v.hash < w.hash) := by
  rw [rank, rank, Prod.Lex.toLex_lt_toLex, Prod.Lex.toLex_lt_toLex]

theorem CrdsValue.hash_eq_of_rank_eq (h : v.rank = w.rank) : v.hash = w.hash := by
  have hpair := Prod.mk.inj (toLex.injective h)
  exact (Prod.mk.inj (toLex.injective hpair.2)).2

/-- The label of a contact info is one only of contact infos. -/
theorem CrdsValue.exists_of_label {pubkey : Pubkey} (h : v.label = .contactInfo pubkey) :
    ∃ node, v.data = .contactInfo node ∧ node.pubkey = pubkey := by
  obtain ⟨data, hash⟩ := v
  cases data with
  | contactInfo node => exact ⟨node, rfl, CrdsValueLabel.contactInfo.inj h⟩
  | _ => exact absurd h (by simp [label])

theorem overridesByWallclock_eq (h : v.data.outset = w.data.outset) :
    overridesByWallclock v w = decide (w.rank < v.rank) := by
  rw [Bool.eq_iff_iff, decide_eq_true_iff, rank_lt_iff, overridesByWallclock]
  split_ifs with h1 h2
  · simp only [false_iff]
    omega
  · simp only [true_iff]
    omega
  · rw [decide_eq_true_iff]
    omega

/-- **A value overrides another one iff its rank is greater.** -/
theorem overrides_eq {value : CrdsValue} {other : VersionedCrdsValue}
    (h : value.label = other.value.label) :
    overrides value other = some (decide (other.value.rank < value.rank)) := by
  rw [overrides, if_pos h]
  congr 1
  obtain ⟨data, hash⟩ := value
  by_cases hnode : ∃ node, data = .contactInfo node
  · obtain ⟨node, rfl⟩ := hnode
    obtain ⟨otherNode, hdata, hpubkey⟩ := exists_of_label (v := other.value) h.symm
    have hrank : other.value.rank < rank ⟨.contactInfo node, hash⟩ ↔
        otherNode.outset < node.outset ∨ otherNode.outset = node.outset ∧
          (otherNode.wallclock < node.wallclock ∨
            otherNode.wallclock = node.wallclock ∧ other.value.hash < hash) := by
      rw [rank_lt_iff, wallclock, hdata]
      rfl
    have hsame : node.pubkey = otherNode.pubkey := hpubkey.symm
    rw [hdata]
    dsimp only
    rw [ContactInfo.overrides, if_neg (not_not_intro hsame)]
    split_ifs with h1 h2
    · rw [getD_some, eq_comm, decide_eq_false_iff_not, hrank]
      omega
    · rw [getD_some, eq_comm, decide_eq_true_iff, hrank]
      omega
    · rw [getD_none]
      refine overridesByWallclock_eq ?_
      rw [hdata]
      show node.outset = otherNode.outset
      omega
  · have hnot : ∀ node, data ≠ .contactInfo node := fun node heq => hnode ⟨node, heq⟩
    have hother : ∀ node, other.value.data ≠ .contactInfo node := by
      intro node heq
      have hlabel : other.value.label = .contactInfo node.pubkey := by
        rw [label, pubkey, heq]
        rfl
      obtain ⟨node', hdata, -⟩ := exists_of_label (h.trans hlabel)
      exact hnot node' hdata
    have hzero : ∀ data : CrdsData, (∀ node, data ≠ .contactInfo node) → data.outset = 0 := by
      intro data hdata
      cases data with
      | contactInfo node => exact absurd rfl (hdata node)
      | _ => rfl
    have hbyWallclock := overridesByWallclock_eq (v := ⟨data, hash⟩) (w := other.value)
      ((hzero data hnot).trans (hzero _ hother).symm)
    rw [← hbyWallclock]
    split
    · rename_i node otherNode hdata hdata'
      exact absurd hdata (hnot node)
    · rfl

/-! ## Insertions -/

namespace Crds
variable {crds crds' : Crds} {value : CrdsValue} {now : ℕ} {route : GossipRoute}

/-- The value of a label. -/
def value? (crds : Crds) (label : CrdsValueLabel) : Option CrdsValue :=
  (crds.table.get? label).map VersionedCrdsValue.value

/-- Values are kept under their labels. -/
def Labelled (crds : Crds) : Prop :=
  ∀ label value, crds.value? label = some value → value.label = label

/-- A hash is in the table, or in the list of purged ones. -/
def Known (crds : Crds) (hash : ℕ) : Prop :=
  (∃ label value, crds.value? label = some value ∧ value.hash = hash) ∨ hash ∈ crds.purged.map fst

variable {label : CrdsValueLabel} {inserted : List CrdsValue} (old versioned : VersionedCrdsValue)
  (index : ℕ) {r : Except CrdsError Unit} {dropped : List ℕ}

@[simp] theorem indexData_table : (crds.indexData versioned index).table = crds.table := by
  unfold indexData
  split <;> rfl

@[simp] theorem indexData_purged : (crds.indexData versioned index).purged = crds.purged := by
  unfold indexData
  split <;> rfl

@[simp] theorem reindexData_table : (crds.reindexData old versioned index).table = crds.table := by
  unfold reindexData
  split <;> rfl

@[simp] theorem reindexData_purged :
    (crds.reindexData old versioned index).purged = crds.purged := by
  unfold reindexData
  split <;> rfl

@[simp] theorem unindexData_table : (crds.unindexData versioned index).table = crds.table := by
  unfold unindexData
  split <;> rfl

@[simp] theorem unindexData_purged : (crds.unindexData versioned index).purged = crds.purged := by
  unfold unindexData
  split <;> rfl

theorem value?_insert_table {versioned : VersionedCrdsValue} {label' : CrdsValueLabel}
    (h : crds'.table = crds.table.insert label versioned) :
    crds'.value? label' = if label = label' then some versioned.value else crds.value? label' := by
  rw [value?, h, IndexMap.get?_insert]
  split_ifs <;> rfl

/-- The greatest value of a label among some values. -/
def IsLatest (crds : Crds) (inserted : List CrdsValue) (label : CrdsValueLabel) : Prop :=
  match crds.value? label with
  | none => ∀ v ∈ inserted, v.label ≠ label
  | some w => w ∈ inserted ∧ w.label = label ∧ ∀ v ∈ inserted, v.label = label → v.rank ≤ w.rank

/-- **What an insertion does.**  It succeeds iff the value is greater than the one of its label, as
`upserts` predicts, and then it replaces that one. The hashes of both values are known. -/
structure Inserted (crds : Crds) (value : CrdsValue) (r : Except CrdsError Unit)
    (crds' : Crds) : Prop where
  ok_iff : r = .ok () ↔ ∀ w, crds.value? value.label = some w → w.rank < value.rank
  upserts : crds.upserts value = some (decide (∀ w ∈ crds.value? value.label, w.rank < value.rank))
  value? : ∀ label, crds'.value? label =
    if r = .ok () ∧ value.label = label then some value else crds.value? label
  known : ∀ hash, crds.Known hash ∨ hash = value.hash → crds'.Known hash

/-- A value that is stored under its label. -/
theorem inserted_of_table (hvalue : versioned.value = value)
    (htable : crds'.table = crds.table.insert value.label versioned)
    (hpurged : ∀ hash, hash ∈ crds.purged.map fst → hash ∈ crds'.purged.map fst)
    (hold : ∀ w, crds.value? value.label = some w → w.hash ∈ crds'.purged.map fst)
    (hgreater : ∀ w, crds.value? value.label = some w → w.rank < value.rank)
    (hupserts : crds.upserts value = some true) :
    Inserted crds value (.ok ()) crds' := by
  have hget : ∀ label, crds'.value? label =
      if value.label = label then some value else crds.value? label := by
    intro label
    rw [value?_insert_table htable, hvalue]
  refine ⟨iff_of_true rfl hgreater, ?_, fun label => ?_, ?_⟩
  · rw [hupserts, decide_eq_true fun w hw => hgreater w (mem_def.mp hw)]
  · rw [hget]
    simp
  · rintro hash ((⟨label, w, hw, rfl⟩ | hmem) | rfl)
    · by_cases hlabel : value.label = label
      · exact .inr (hold w (hlabel ▸ hw))
      · exact .inl ⟨label, w, by rw [hget, if_neg hlabel]; exact hw, rfl⟩
    · exact .inr (hpurged hash hmem)
    · exact .inl ⟨value.label, value, by rw [hget, if_pos rfl], rfl⟩

/-- **An insertion returns.** -/
theorem insert_spec (h : crds.Labelled) (value : CrdsValue) (now : ℕ) (route : GossipRoute) :
    ∃ r crds', crds.insert value now route = some (r, crds') ∧ Inserted crds value r crds' := by
  unfold insert
  cases hget : crds.table.get? value.label with
  | none =>
    have hnone : crds.value? value.label = none := by rw [value?, hget]; rfl
    refine ⟨_, _, rfl, inserted_of_table (.new value crds.cursor now route) rfl ?_
      (fun hash hmem => ?_) (fun w hw => ?_) (fun w hw => ?_) ?_⟩
    · simp only [insertVacant, indexData_table]
      rfl
    · simp only [insertVacant, indexData_purged]
      exact hmem
    · cases hnone.symm.trans hw
    · cases hnone.symm.trans hw
    · rw [upserts, hget]
  | some old =>
    have hsome : crds.value? value.label = some old.value := by rw [value?, hget]; rfl
    have hover := overrides_eq (h _ _ hsome).symm
    have hupserts : crds.upserts value = some (decide (old.value.rank < value.rank)) := by
      rw [upserts, hget]
      exact hover
    dsimp only
    rw [hover, map_some]
    by_cases hlt : old.value.rank < value.rank
    · rw [decide_eq_true hlt] at hupserts ⊢
      refine ⟨_, _, rfl, inserted_of_table (.new value crds.cursor now route) rfl ?_
        (fun hash hmem => ?_) (fun w hw => ?_) (fun w hw => ?_) hupserts⟩
      · simp only [insertOver, reindexData_table]
        rfl
      · simp only [insertOver, reindexData_purged, map_append]
        exact mem_append_left _ hmem
      · cases hsome.symm.trans hw
        simp only [insertOver, reindexData_purged, map_append]
        exact mem_append_right _ (mem_singleton_self _)
      · cases hsome.symm.trans hw
        exact hlt
    · -- nothing is replaced, and the hash is that of the old value or it is purged
      have hnot : ¬∀ w, crds.value? value.label = some w → w.rank < value.rank :=
        fun hall => hlt (hall _ hsome)
      rw [decide_eq_false hlt] at hupserts ⊢
      have hkeep : ∀ error crds', (∀ label, crds'.value? label = crds.value? label) →
          (∀ hash, hash ∈ crds.purged.map fst → hash ∈ crds'.purged.map fst) →
          (value.hash = old.value.hash ∨ value.hash ∈ crds'.purged.map fst) →
          Inserted crds value (.error error) crds' := by
        intro error crds' hvalue hpurged hhash
        refine ⟨iff_of_false (by simp) hnot, ?_, fun label => ?_, ?_⟩
        · rw [hupserts, decide_eq_false fun hall => hnot fun w hw => hall w hw]
        · rw [hvalue]
          simp
        · rintro hash ((⟨label, w, hw, rfl⟩ | hmem) | rfl)
          · exact .inl ⟨label, w, (hvalue label).trans hw, rfl⟩
          · exact .inr (hpurged hash hmem)
          · rcases hhash with heq | hmem
            · exact .inl ⟨value.label, old.value, (hvalue _).trans hsome, heq.symm⟩
            · exact .inr hmem
      refine ⟨_, _, rfl, ?_⟩
      unfold insertFail
      split_ifs with hne
      · refine hkeep _ _ (fun _ => rfl) (fun hash hmem => ?_) (.inr ?_)
        · simp only [map_append]
          exact mem_append_left _ hmem
        · simp only [map_append]
          exact mem_append_right _ (mem_singleton_self _)
      · have heq : value.hash = old.value.hash := (not_not.mp hne).symm
        split
        · refine hkeep _ _ (fun label => ?_) (fun _ hmem => hmem) (.inl heq)
          refine (value?_insert_table rfl).trans ?_
          split_ifs with hlabel
          · rw [← hlabel]
            exact hsome.symm
          · rfl
        · exact hkeep _ _ (fun _ => rfl) (fun _ hmem => hmem) (.inl heq)

theorem Inserted.labelled (h : Inserted crds value r crds') (hlabelled : crds.Labelled)
    : crds'.Labelled := by
  intro label w hw
  rw [h.value?] at hw
  split_ifs at hw with hcond
  · cases hw
    exact hcond.2
  · exact hlabelled label w hw

/-- The greatest values stay the greatest ones. -/
theorem Inserted.isLatest (h : Inserted crds value r crds') (hlatest : crds.IsLatest inserted label)
    :
    crds'.IsLatest (inserted ++ [value]) label := by
  unfold IsLatest at hlatest ⊢
  rw [h.value?]
  by_cases hlabel : value.label = label
  · subst hlabel
    by_cases hok : r = .ok ()
    · rw [if_pos ⟨hok, rfl⟩]
      refine ⟨mem_append_right _ (mem_singleton_self _), rfl, fun v hv hvl => ?_⟩
      rcases mem_append.mp hv with hold | hnew
      · cases hw : crds.value? value.label with
        | none =>
          rw [hw] at hlatest
          exact absurd hvl (hlatest v hold)
        | some w =>
          rw [hw] at hlatest
          exact (hlatest.2.2 v hold hvl).trans (h.ok_iff.mp hok w hw).le
      · rw [mem_singleton.mp hnew]
    · rw [if_neg fun hboth => hok hboth.1]
      -- a value that is rejected is not greater
      obtain ⟨w, hw, hle⟩ : ∃ w, crds.value? value.label = some w ∧ ¬w.rank < value.rank := by
        by_contra hnone
        push Not at hnone
        exact hok (h.ok_iff.mpr hnone)
      rw [hw] at hlatest ⊢
      refine ⟨mem_append_left _ hlatest.1, hlatest.2.1, fun v hv hvl => ?_⟩
      rcases mem_append.mp hv with hold | hnew
      · exact hlatest.2.2 v hold hvl
      · rw [mem_singleton.mp hnew]
        exact not_lt.mp hle
  · rw [if_neg fun hboth => hlabel hboth.2]
    cases hw : crds.value? label with
    | none =>
      rw [hw] at hlatest
      exact forall_mem_append.mpr ⟨hlatest, forall_mem_singleton.mpr hlabel⟩
    | some w =>
      rw [hw] at hlatest
      refine ⟨mem_append_left _ hlatest.1, hlatest.2.1, fun v hv hvl => ?_⟩
      rcases mem_append.mp hv with hold | hnew
      · exact hlatest.2.2 v hold hvl
      · rw [mem_singleton.mp hnew] at hvl
        exact absurd hvl hlabel

/-! ## Sequences of insertions -/

/-- The values in order, each with the local time and the route. -/
def insertAll (calls : List (CrdsValue × ℕ × GossipRoute)) : Option Crds :=
  calls.foldlM (fun crds call => (crds.insert call.1 call.2.1 call.2.2).map snd) default

theorem value?_default (label : CrdsValueLabel) : default.value? label = none := rfl

/-- **Insertions return, and the table holds the greatest values.** -/
theorem exists_insertAll (calls : List (CrdsValue × ℕ × GossipRoute)) :
    ∃ crds, insertAll calls = some crds ∧ crds.Labelled ∧
      ∀ label, crds.IsLatest (calls.map fst) label := by
  induction calls using List.reverseRecOn with
  | nil =>
    refine ⟨default, rfl, fun label value hvalue => ?_, fun label => ?_⟩
    · cases (value?_default label).symm.trans hvalue
    · rw [IsLatest, value?_default]
      exact nofun
  | append_singleton calls call ih =>
    obtain ⟨crds, heq, hlabelled, hlatest⟩ := ih
    obtain ⟨r, crds', hinsert, hinserted⟩ := insert_spec hlabelled call.1 call.2.1 call.2.2
    refine ⟨crds', ?_, hinserted.labelled hlabelled, fun label => ?_⟩
    · rw [insertAll, foldlM_append]
      show (insertAll calls).bind _ = _
      rw [heq]
      show ((crds.insert call.1 call.2.1 call.2.2).map snd).bind _ = _
      rw [hinsert]
      rfl
    · rw [map_append, map_singleton]
      exact hinserted.isLatest (hlatest label)

/-- The greatest value of a label is determined by the set of values, if hashes are different. -/
theorem IsLatest.value?_eq {inserted' : List CrdsValue} (h : crds.IsLatest inserted label)
    (h' : crds'.IsLatest inserted' label) (hsame : ∀ v, v ∈ inserted ↔ v ∈ inserted')
    (hhash : ∀ v ∈ inserted, ∀ w ∈ inserted, v.hash = w.hash → v = w) :
    crds.value? label = crds'.value? label := by
  unfold IsLatest at h h'
  cases hw : crds.value? label with
  | none =>
    rw [hw] at h
    cases hw' : crds'.value? label with
    | none => rfl
    | some w' =>
      rw [hw'] at h'
      exact absurd h'.2.1 (h w' ((hsame w').mpr h'.1))
  | some w =>
    rw [hw] at h
    cases hw' : crds'.value? label with
    | none =>
      rw [hw'] at h'
      exact absurd h.2.1 (h' w ((hsame w).mp h.1))
    | some w' =>
      rw [hw'] at h'
      have hmem : w' ∈ inserted := (hsame w').mpr h'.1
      have hrank : w.rank = w'.rank :=
        le_antisymm (h'.2.2 w ((hsame w).mp h.1) h.2.1) (h.2.2 w' hmem h'.2.1)
      rw [hhash w h.1 w' hmem (hash_eq_of_rank_eq hrank)]

/-! ## Hashes are not forgotten -/

/-- The tables that are reached, with the values that were inserted, and the hashes of purged values
that were dropped by trimming and have not been inserted since. -/
inductive Reached : Crds → List CrdsValue → List ℕ → Prop where
  | default : Reached default [] []
  | insert {crds crds' : Crds} {inserted : List CrdsValue} {dropped : List ℕ} {value : CrdsValue}
      {now : ℕ} {route : GossipRoute} {r : Except CrdsError Unit}
      (h : Reached crds inserted dropped) (heq : crds.insert value now route = some (r, crds')) :
      Reached crds' (value :: inserted) (dropped.filter (· ≠ value.hash))
  | remove {crds crds' : Crds} {inserted : List CrdsValue} {dropped : List ℕ}
      {key : CrdsValueLabel} {now : ℕ}
      (h : Reached crds inserted dropped) (heq : crds.remove key now = some crds') :
      Reached crds' inserted dropped
  | trimPurged {crds : Crds} {inserted : List CrdsValue} {dropped : List ℕ} (timestamp : ℕ)
      (h : Reached crds inserted dropped) :
      Reached (crds.trimPurged timestamp) inserted
        (dropped ++ (crds.purged.takeWhile fun entry => decide (entry.2 < timestamp)).map fst)

theorem moveLast_eq {index : ℕ} (h : crds.moveLast index = some crds') :
    crds'.table = crds.table ∧ crds'.purged = crds.purged := by
  unfold moveLast at h
  split at h
  · cases h
    exact ⟨rfl, rfl⟩
  · obtain ⟨records, -, hsome⟩ := bind_eq_some_iff.mp h
    cases hsome
    split
    · exact ⟨rfl, rfl⟩
    · exact ⟨indexData_table _ _, indexData_purged _ _⟩

/-- **A removal takes out one value, whose hash is purged.** -/
theorem remove_spec {key : CrdsValueLabel} (h : crds.remove key now = some crds') :
    (∀ label, crds'.value? label = if key = label then none else crds.value? label) ∧
      ∀ hash, hash ∈ crds'.purged.map fst ↔ hash ∈ crds.purged.map fst ∨
        ∃ value, crds.value? key = some value ∧ value.hash = hash := by
  unfold remove at h
  cases hremove : crds.table.swapRemove key with
  | none =>
    rw [hremove] at h
    cases h
    have hnone : crds.value? key = none := by
      rw [value?, IndexMap.get?_eq_none_of_swapRemove hremove]
      rfl
    refine ⟨fun label => ?_, fun hash => ?_⟩
    · split_ifs with heq
      · rw [← heq]
        exact hnone
      · rfl
    · simp [hnone]
  | some found =>
    obtain ⟨index, versioned, table⟩ := found
    rw [hremove] at h
    obtain ⟨hget, htable⟩ := IndexMap.get?_swapRemove _ hremove
    obtain ⟨records, -, hmove⟩ := bind_eq_some_iff.mp h
    obtain ⟨htable', hpurged'⟩ := moveLast_eq hmove
    simp only [unindexData_table] at htable'
    simp only [unindexData_purged] at hpurged'
    have hvalue : crds.value? key = some versioned.value := by
      rw [value?, hget]
      rfl
    refine ⟨fun label => ?_, fun hash => ?_⟩
    · rw [value?, htable', htable, value?]
      split_ifs <;> rfl
    · rw [hpurged', map_append, mem_append, hvalue]
      simp [eq_comm]

theorem Reached.labelled (h : Reached crds inserted dropped) : crds.Labelled := by
  induction h with
  | default => exact fun label value hvalue => absurd hvalue (by simp [value?_default])
  | insert _ heq ih =>
    obtain ⟨r', crds'', heq', hinserted⟩ := insert_spec ih _ _ _
    cases heq.symm.trans heq'
    exact hinserted.labelled ih
  | remove _ heq ih =>
    intro label value hvalue
    rw [(remove_spec heq).1] at hvalue
    split_ifs at hvalue
    exact ih label value hvalue
  | trimPurged timestamp _ ih => exact ih

/-- **Every hash that was inserted is in the table or purged**, until it is dropped. -/
theorem Reached.known (h : Reached crds inserted dropped) :
    ∀ v ∈ inserted, crds.Known v.hash ∨ v.hash ∈ dropped := by
  induction h with
  | default => exact nofun
  | insert h heq ih =>
    obtain ⟨r', crds'', heq', hinserted⟩ := insert_spec h.labelled _ _ _
    cases heq.symm.trans heq'
    refine forall_mem_cons.mpr ⟨.inl (hinserted.known _ (.inr rfl)), fun v hold => ?_⟩
    refine (ih v hold).elim (fun hknown => .inl (hinserted.known _ (.inl hknown))) fun hmem => ?_
    exact or_iff_not_imp_left.mpr fun hunknown => mem_filter.mpr
      ⟨hmem, decide_eq_true fun heq => hunknown (hinserted.known _ (.inr heq))⟩
  | @remove crds crds' inserted dropped key now h heq ih =>
    obtain ⟨hvalue, hpurged⟩ := remove_spec heq
    intro v hv
    refine (ih v hv).imp_left ?_
    rintro (⟨label, w, hw, hhash⟩ | hmem)
    · by_cases hkey : key = label
      · exact .inr ((hpurged _).mpr (.inr ⟨w, hkey ▸ hw, hhash⟩))
      · exact .inl ⟨label, w, by rw [hvalue, if_neg hkey]; exact hw, hhash⟩
    · exact .inr ((hpurged _).mpr (.inl hmem))
  | @trimPurged crds inserted dropped timestamp h ih =>
    intro v hv
    rcases ih v hv with (hin | hmem) | hdropped
    · exact .inl (.inl hin)
    · rw [← takeWhile_append_dropWhile
        (p := fun entry : ℕ × ℕ => decide (entry.2 < timestamp)) (l := crds.purged),
        map_append, mem_append] at hmem
      rcases hmem with hfront | hback
      · exact .inr (mem_append_right _ hfront)
      · exact .inl (.inr hback)
    · exact .inr (mem_append_left _ hdropped)

/-- **The gossip table converges.**  Two sequences of insertions of the same values, whose hashes
are different, end with the same values, the greatest ones of each label. In every table that is
reached, an insertion succeeds iff the value is greater than the one of its label or there is none,
as `upserts` predicts, and every hash that was inserted is in the table or purged, until it is
dropped. -/
theorem crds_converges (collection : List CrdsValue)
    (hhash : ∀ v ∈ collection, ∀ w ∈ collection, v.hash = w.hash → v = w)
    (calls calls' : List (CrdsValue × ℕ × GossipRoute))
    (hcalls : ∀ v, v ∈ calls.map fst ↔ v ∈ collection)
    (hcalls' : ∀ v, v ∈ calls'.map fst ↔ v ∈ collection) :
    (∃ crds crds', insertAll calls = some crds ∧ insertAll calls' = some crds' ∧
      ∀ label, crds.value? label = crds'.value? label ∧ crds.IsLatest collection label) ∧
    ∀ crds inserted dropped, Reached crds inserted dropped →
      (∀ v ∈ inserted, crds.Known v.hash ∨ v.hash ∈ dropped) ∧
      ∀ value now route, ∃ r crds', crds.insert value now route = some (r, crds') ∧
        (r = .ok () ↔ ∀ w, crds.value? value.label = some w → w.rank < value.rank) ∧
        crds.upserts value = some (decide (r = .ok ())) := by
  constructor
  · obtain ⟨crds, heq, -, hlatest⟩ := exists_insertAll calls
    obtain ⟨crds', heq', -, hlatest'⟩ := exists_insertAll calls'
    refine ⟨crds, crds', heq, heq', fun label => ⟨?_, ?_⟩⟩
    · refine (hlatest label).value?_eq (hlatest' label)
        (fun v => (hcalls v).trans (hcalls' v).symm) fun v hv w hw => ?_
      exact hhash v ((hcalls v).mp hv) w ((hcalls w).mp hw)
    · have hlabel := hlatest label
      unfold IsLatest at hlabel ⊢
      simp only [hcalls] at hlabel
      exact hlabel
  · intro crds inserted dropped hreached
    refine ⟨hreached.known, fun value now route => ?_⟩
    obtain ⟨r, crds', heq, hinserted⟩ := insert_spec hreached.labelled value now route
    refine ⟨r, crds', heq, hinserted.ok_iff, ?_⟩
    rw [hinserted.upserts, some_inj, Bool.eq_iff_iff, decide_eq_true_iff,
      decide_eq_true_iff, hinserted.ok_iff]
    rfl

/-- Two contact infos of a node, in both orders. -/
theorem crds_converges_two_outsets :
    ∃ crds crds',
      insertAll [(⟨.contactInfo ⟨1, 5, 9⟩, 20⟩, 0, .localMessage),
        (⟨.contactInfo ⟨1, 6, 2⟩, 10⟩, 1, .pullResponse)] = some crds ∧
      insertAll [(⟨.contactInfo ⟨1, 6, 2⟩, 10⟩, 3, .pushMessage 4),
        (⟨.contactInfo ⟨1, 5, 9⟩, 20⟩, 4, .pullRequest)] = some crds' ∧
      crds.value? (.contactInfo 1) = crds'.value? (.contactInfo 1) := by
  obtain ⟨⟨crds, crds', heq, heq', hall⟩, -⟩ := crds_converges
    [⟨.contactInfo ⟨1, 5, 9⟩, 20⟩, ⟨.contactInfo ⟨1, 6, 2⟩, 10⟩] (by decide)
    [(⟨.contactInfo ⟨1, 5, 9⟩, 20⟩, 0, .localMessage),
      (⟨.contactInfo ⟨1, 6, 2⟩, 10⟩, 1, .pullResponse)]
    [(⟨.contactInfo ⟨1, 6, 2⟩, 10⟩, 3, .pushMessage 4),
      (⟨.contactInfo ⟨1, 5, 9⟩, 20⟩, 4, .pullRequest)]
    (fun v => Iff.rfl) (fun v => by simp [or_comm])
  exact ⟨crds, crds', heq, heq', (hall _).1⟩

end Crds
end FlowraValidator.Gossip
