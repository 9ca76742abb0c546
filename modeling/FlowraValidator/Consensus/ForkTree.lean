import FlowraValidator.Consensus.ForkChoice

/-!
# The tree of the fork choice

The parents and the children of the nodes are kept in the nodes themselves, so that they form a tree
is an invariant. This module has the tree, the two walks over it, and the operations that are
collected before they are applied.

The collected operations are a batch that can be applied from the greatest key to the smallest one:
if there is an operation for a node, the node above it is aggregated later, and a node that is
marked is aggregated after it was marked. The collection stops at the first node that is
aggregated already, so this needs that the nodes to be aggregated are closed under parents.

* `HeaviestSubtreeForkChoice.Shaped`: the tree.
* `Shaped.exists_subtreeDiff_eq`, `Shaped.mem_ancestorIterator_iff`: the walks.
* `Batch`: operations that can be applied in order.
* `Shaped.batch_markOperations`: the operations of a mark.
-/

namespace FlowraValidator.Consensus
open UpdateOperation List Option OrdMap Forest Relation SlotHashKey

/-! ## The tree -/

namespace HeaviestSubtreeForkChoice

/-- Parents and children form a tree, and slots grow away from its root. -/
structure IsTree (parent : SlotHashKey → Option SlotHashKey)
    (children : SlotHashKey → Option (List SlotHashKey)) (root : SlotHashKey) : Prop where
  root_mem : ∃ below, children root = some below
  root_top : parent root = none
  up : ∀ {k below}, children k = some below → k ≠ root → ∃ p, parent k = some p
  known : ∀ {k p}, parent k = some p → ∃ below, children k = some below
  link : ∀ {k p}, parent k = some p → ∃ below, children p = some below ∧ k ∈ below
  down : ∀ {p below}, children p = some below → ∀ c ∈ below, parent c = some p
  nodup : ∀ {p below}, children p = some below → below.Nodup
  slot_lt : ∀ {k p}, parent k = some p → p.slot < k.slot

variable (fc : HeaviestSubtreeForkChoice)

/-- The nodes of the fork choice are a tree. -/
def Shaped : Prop := IsTree fc.parent fc.children fc.treeRoot

/-- The node is in the tree. -/
def Present (k : SlotHashKey) : Prop := ∃ info, fc.get k = some info

/-- `b` is `a` or below `a`. -/
def Below (a b : SlotHashKey) : Prop := IsAncestorOrSelf fc.parent a b

variable {fc} {k p c d : SlotHashKey} {info : ForkInfo}

theorem children_eq_of_get (h : fc.get k = some info) : fc.children k = some info.children := by
  unfold children
  rw [h]
  rfl

theorem parent_eq_of_get (h : fc.get k = some info) : fc.parent k = info.parent := by
  unfold parent
  rw [h]
  rfl

theorem exists_children_iff : (∃ below, fc.children k = some below) ↔ fc.Present k := by
  unfold children Present
  cases fc.get k <;> simp

theorem containsBlock_iff : fc.containsBlock k = true ↔ fc.Present k := by
  unfold containsBlock Present
  cases fc.get k <;> simp

theorem present_of_parent (h : fc.parent k = some p) : fc.Present k := by
  unfold parent at h
  unfold Present
  cases hget : fc.get k with
  | none =>
    rw [hget] at h
    cases h
  | some info => exact ⟨info, rfl⟩

theorem present_of_below (hk : fc.Present k) (hbelow : fc.Below k c) : fc.Present c := by
  rcases isAncestorOrSelf_iff.mp hbelow with rfl | hanc
  · exact hk
  · obtain ⟨p, hp, -⟩ := isAncestor_iff.mp hanc
    exact present_of_parent hp

namespace Shaped
variable (h : fc.Shaped)
include h
theorem root_present : fc.Present fc.treeRoot := exists_children_iff.mp h.root_mem

theorem rank : ∀ a b : SlotHashKey, fc.parent b = some a → a.slot < b.slot :=
  fun _ _ hp => h.slot_lt hp

/-- A child is a node with that parent. -/
theorem mem_children_iff (hget : fc.get p = some info) :
    c ∈ info.children ↔ fc.parent c = some p := by
  constructor
  · exact h.down (children_eq_of_get hget) c
  · intro hp
    obtain ⟨below, hbelow, hmem⟩ := h.link hp
    rw [children_eq_of_get hget] at hbelow
    cases hbelow
    exact hmem

theorem present_parent (hp : fc.parent c = some p) : fc.Present p := by
  obtain ⟨below, hbelow, -⟩ := h.link hp
  exact exists_children_iff.mp ⟨below, hbelow⟩

theorem present_of_isAncestor (hanc : IsAncestor fc.parent p k) : fc.Present p := by
  induction hanc with
  | single hp => exact h.present_parent hp
  | tail _ _ ih => exact ih

theorem slot_le (hbelow : fc.Below k c) : k.slot ≤ c.slot := hbelow.rank_le slot h.rank

theorem slot_lt_of_isAncestor (hanc : IsAncestor fc.parent k c) : k.slot < c.slot :=
  hanc.rank_lt slot h.rank

/-- The nodes below two children are different. -/
theorem eq_of_below (hc : fc.parent c = some p) (hd : fc.parent d = some p)
    (hck : fc.Below c k) (hdk : fc.Below d k) : c = d := by
  -- one child below the other would be below the common parent
  have hside : ∀ {a b : SlotHashKey}, fc.parent a = some p → fc.parent b = some p →
      fc.Below a b → a = b := by
    intro a b ha hb hab
    rcases isAncestorOrSelf_iff.mp hab with heq | hanc
    · exact heq
    · obtain ⟨q, hq, haq⟩ := isAncestor_iff.mp hanc
      rw [hb] at hq
      cases hq
      exact absurd (h.slot_lt ha) (not_lt.mpr (h.slot_le haq))
  rcases hck.total_of_common hdk with hcd | hdc
  · exact hside hc hd hcd
  · exact (hside hd hc hdc).symm

/-- A node is not below its child. -/
theorem not_below_child (hc : fc.parent c = some p) : ¬fc.Below c p := by
  intro hbelow
  exact absurd (h.slot_lt hc) (not_lt.mpr (h.slot_le hbelow))

/-- Every node is below the root. -/
theorem below_root (hk : fc.Present k) : fc.Below fc.treeRoot k := by
  induction hn : k.slot using Nat.strong_induction_on generalizing k with
  | _ n ih =>
    by_cases hroot : k = fc.treeRoot
    · rw [hroot]
      exact ReflTransGen.refl
    · obtain ⟨below, hbelow⟩ := exists_children_iff.mpr hk
      obtain ⟨p, hp⟩ := h.up hbelow hroot
      exact (ih p.slot (hn ▸ h.slot_lt hp) (h.present_parent hp) rfl).tail hp

/-! ## Walks -/

theorem mem_ancestorIterator_iff : p ∈ fc.ancestorIterator k ↔ IsAncestor fc.parent p k :=
  mem_ancestors_iff slot h.rank le_rfl

/-- **The walk over a subtree finds all nodes below the first one that are not below the other
one.** -/
theorem exists_subtreeDiff_eq (hk : fc.Present k) (r : SlotHashKey) :
    ∃ below, fc.subtreeDiff k r = some below ∧ below.Nodup ∧
      ∀ c, c ∈ below ↔ fc.Below k c ∧ ¬(fc.Below k r ∧ fc.Below r c) := by
  have hlinked : IsLinked fc.parent fc.children fc.forkInfos.keys.toFinset := by
    have hmem : ∀ a, a ∈ fc.forkInfos.keys.toFinset ↔ fc.Present a := by
      intro a
      rw [List.mem_toFinset, Std.ExtTreeMap.mem_keys, ← Std.ExtTreeMap.isSome_getElem?_iff_mem]
      exact isSome_iff_exists
    refine ⟨fun a => ?_, fun hc => h.nodup hc, fun hc b hb => ⟨?_, h.down hc b hb⟩,
      fun _ hp => h.link hp⟩
    · rw [hmem]
      exact exists_children_iff.symm
    · rw [hmem]
      exact present_of_parent (h.down hc b hb)
  have hnode : k ∈ fc.forkInfos.keys.toFinset :=
    (hlinked.mem_iff k).mpr (exists_children_iff.mpr hk)
  have hcard : fc.forkInfos.keys.toFinset.card ≤ fc.forkInfos.size := by
    rw [← Std.ExtTreeMap.length_keys]
    exact toFinset_card_le _
  obtain ⟨below, heq, hnodup, hbelow⟩ := exists_traverse_eq hlinked slot h.rank
    (fun a => decide (a = r)) hnode hcard
  refine ⟨below, ?_, hnodup, fun c => ?_⟩
  · unfold subtreeDiff
    rwa [if_pos (containsBlock_iff.mpr hk)]
  · rw [hbelow]
    simp only [decide_eq_true_eq, forall_eq]
    constructor
    · rintro ⟨-, hkc, hfree⟩
      exact ⟨hkc, fun hboth => hfree hboth.1 hboth.2⟩
    · rintro ⟨hkc, hfree⟩
      refine ⟨?_, hkc, fun hkr hrc => hfree ⟨hkr, hrc⟩⟩
      exact (hlinked.mem_iff c).mpr (exists_children_iff.mpr (present_of_below hk hkc))

end Shaped
end HeaviestSubtreeForkChoice

/-! ## Collected operations -/

namespace UpdateOperation

/-- The label under which the operation is kept. -/
def label : UpdateOperation → UpdateLabel
  | add _ => .add
  | markValid slot => .markValid slot
  | markInvalid slot => .markInvalid slot
  | subtract _ => .subtract
  | aggregate => .aggregate

def isMark : UpdateOperation → Bool
  | markValid _ | markInvalid _ => true
  | _ => false

end UpdateOperation

theorem UpdateKey.aggregate_lt {k : SlotHashKey} {label : UpdateLabel}
    (h : label ≠ .aggregate) : (⟨k, .aggregate⟩ : UpdateKey) < ⟨k, label⟩ := by
  refine Prod.Lex.lt_iff.mpr (.inr ⟨rfl, Prod.Lex.lt_iff.mpr (.inl ?_)⟩)
  cases label <;> first | exact absurd rfl h | exact Nat.succ_pos _

/-- The entry that aggregates a node. -/
def aggregateEntry (k : SlotHashKey) : UpdateKey × UpdateOperation := (⟨k, .aggregate⟩, .aggregate)

/-- Operations in the order in which they are applied: the node above a node with an operation is
aggregated later, and a marked node is aggregated after it was marked. -/
structure Batch (parent : SlotHashKey → Option SlotHashKey)
    (entries : List (UpdateKey × UpdateOperation)) : Prop where
  sorted : entries.Pairwise fun a b => b.1 < a.1
  label : ∀ e ∈ entries, e.2.label = e.1.label
  up : ∀ e ∈ entries, ∀ p, parent e.1.key = some p → aggregateEntry p ∈ entries
  own : ∀ e ∈ entries, e.2.isMark = true → aggregateEntry e.1.key ∈ entries

namespace Batch
variable {parent : SlotHashKey → Option SlotHashKey} {e : UpdateKey × UpdateOperation}
  {rest : List (UpdateKey × UpdateOperation)}

section
variable (h : Batch parent (e :: rest))
include h
/-- What is left after the first operation. -/
theorem tail (hslot : ∀ a b : SlotHashKey, parent b = some a → a.slot < b.slot) :
    Batch parent rest := by
  obtain ⟨hfirst, hsorted⟩ := pairwise_cons.mp h.sorted
  refine ⟨hsorted, fun e' he' => h.label e' (mem_cons_of_mem _ he'), ?_, ?_⟩
  · intro e' he' p hp
    rcases mem_cons.mp (h.up e' (mem_cons_of_mem _ he') p hp) with heq | hmem
    · have hlt := hfirst e' he'
      rw [← heq] at hlt
      exact absurd hlt (UpdateKey.lt_of_key_lt
        (lt_of_slot_lt (hslot p e'.1.key hp))).asymm
    · exact hmem
  · intro e' he' hmark
    rcases mem_cons.mp (h.own e' (mem_cons_of_mem _ he') hmark) with heq | hmem
    · have hlt := hfirst e' he'
      have hlabel : e'.1.label ≠ .aggregate := by
        rw [← h.label e' (mem_cons_of_mem _ he')]
        revert hmark
        cases e'.2 <;> simp [UpdateOperation.isMark, UpdateOperation.label]
      rw [← heq] at hlt
      exact absurd hlt (UpdateKey.aggregate_lt hlabel).asymm
    · exact hmem

/-- The node above the first one is aggregated later. -/
theorem up_head (hslot : ∀ a b : SlotHashKey, parent b = some a → a.slot < b.slot) {p : SlotHashKey}
    (hp : parent e.1.key = some p) : aggregateEntry p ∈ rest := by
  rcases mem_cons.mp (h.up e mem_cons_self p hp) with heq | hmem
  · have hkey : p = e.1.key := congrArg (fun e => e.1.key) heq
    have hlt := hslot p e.1.key hp
    rw [hkey] at hlt
    exact absurd hlt (lt_irrefl _)
  · exact hmem

/-- A node that is marked first is aggregated later. -/
theorem own_head (hmark : e.2.isMark = true) : aggregateEntry e.1.key ∈ rest := by
  rcases mem_cons.mp (h.own e mem_cons_self hmark) with heq | hmem
  · rw [← heq] at hmark
    exact absurd hmark Bool.false_ne_true
  · exact hmem

/-- An entry occurs once. -/
theorem head_notMem : e ∉ rest := by
  intro hmem
  exact lt_irrefl _ ((pairwise_cons.mp h.sorted).1 e hmem)

/-- Entries for greater slots are not left. -/
theorem notMem_of_slot_lt {e' : UpdateKey × UpdateOperation} (hlt : e.1.key.slot < e'.1.key.slot) :
    e' ∉ e :: rest := by
  intro hmem
  have hkey : e.1 < e'.1 := UpdateKey.lt_of_key_lt (lt_of_slot_lt hlt)
  rcases mem_cons.mp hmem with rfl | hmem
  · exact lt_irrefl _ hkey
  · exact lt_asymm hkey ((pairwise_cons.mp h.sorted).1 e' hmem)

end
end Batch

namespace UpdateOperations

/-- The node is to be aggregated. -/
def Aggregates (operations : UpdateOperations) (k : SlotHashKey) : Prop :=
  operations[(⟨k, .aggregate⟩ : UpdateKey)]? = some .aggregate

/-- Operations are kept under their labels. -/
def Labelled (operations : UpdateOperations) : Prop :=
  ∀ (x : UpdateKey) (operation : UpdateOperation), operations[x]? = some operation →
    operation.label = x.label

theorem Labelled.aggregates_iff {operations : UpdateOperations} (h : Labelled operations)
    {k : SlotHashKey} :
    operations[(⟨k, .aggregate⟩ : UpdateKey)]?.isSome = true ↔ Aggregates operations k := by
  unfold Aggregates
  constructor
  · intro hsome
    obtain ⟨operation, hget⟩ := isSome_iff_exists.mp hsome
    have hlabel := h _ _ hget
    rw [hget]
    revert hlabel
    cases operation <;> simp [label]
  · intro hget
    rw [hget]
    rfl

variable {operations : UpdateOperations}

/-- The entries, in the order in which they are applied. -/
def entries (operations : UpdateOperations) : List (UpdateKey × UpdateOperation) :=
  operations.toList.reverse

theorem mem_entries_iff {x : UpdateKey} {operation : UpdateOperation} :
    (x, operation) ∈ entries operations ↔ operations[x]? = some operation := by
  unfold entries
  rw [mem_reverse]
  exact mem_toList_iff operations x

/-- **Operations that are closed under parents are a batch.** -/
theorem batch_entries {parent : SlotHashKey → Option SlotHashKey} (hlabel : Labelled operations)
    (hup : ∀ (x : UpdateKey) (operation : UpdateOperation), operations[x]? = some operation →
      ∀ p, parent x.key = some p → Aggregates operations p)
    (hown : ∀ (x : UpdateKey) (operation : UpdateOperation), operations[x]? = some operation →
      operation.isMark = true → Aggregates operations x.key) :
    Batch parent (entries operations) := by
  refine ⟨pairwise_reverse.mpr (pairwise_toList operations), ?_, ?_, ?_⟩
  · rintro ⟨x, operation⟩ he
    exact hlabel x operation (mem_entries_iff.mp he)
  · rintro ⟨x, operation⟩ he p hp
    exact mem_entries_iff.mpr (hup x operation (mem_entries_iff.mp he) p hp)
  · rintro ⟨x, operation⟩ he hmark
    exact mem_entries_iff.mpr (hown x operation (mem_entries_iff.mp he) hmark)

end UpdateOperations

namespace HeaviestSubtreeForkChoice
open UpdateOperations

variable {fc : HeaviestSubtreeForkChoice} {operations : UpdateOperations} {k : SlotHashKey}

theorem labelled_insert (h : Labelled operations) (k : SlotHashKey) (operation : UpdateOperation) :
    Labelled (operations.insert ⟨k, operation.label⟩ operation) := by
  intro x operation' hget
  rw [get_insert] at hget
  split_ifs at hget with heq
  · rw [← heq, ← some_inj.mp hget]
  · exact h x operation' hget

/-- **The loop over the nodes above a node**, which stops at the first one that is aggregated
already. -/
theorem get_insertAcross (hlabel : Labelled operations) {keys : List SlotHashKey}
    (hnodup : keys.Nodup)
    (hclosed : keys.Pairwise fun a b => Aggregates operations a → Aggregates operations b)
    (x : UpdateKey) :
    (insertAcross none operations keys)[x]? =
      if x.label = .aggregate ∧ x.key ∈ keys then some .aggregate else operations[x]? := by
  induction keys generalizing operations with
  | nil =>
    rw [insertAcross, if_neg]
    exact fun hmem => absurd hmem.2 not_mem_nil
  | cons a rest ih =>
    obtain ⟨hfirst, hrest⟩ := pairwise_cons.mp hclosed
    obtain ⟨hnew, hnodup'⟩ := nodup_cons.mp hnodup
    rw [insertAcross]
    by_cases hagg : Aggregates operations a
    · -- everything above is aggregated, too
      have hstop : doInsertAggregateOperation operations none a = (false, operations) := by
        exact if_pos (hlabel.aggregates_iff.mpr hagg)
      rw [hstop]
      split_ifs with hmem
      · obtain ⟨key, label⟩ := x
        obtain ⟨rfl, hmem⟩ := hmem
        rcases mem_cons.mp hmem with rfl | hmem
        · exact hagg
        · exact hfirst key hmem hagg
      · rfl
    · rw [show doInsertAggregateOperation operations none a = _ from
        if_neg (mt hlabel.aggregates_iff.mp hagg)]
      have hagg' : ∀ b ∈ rest, Aggregates (operations.insert ⟨a, .aggregate⟩ .aggregate) b ↔
          Aggregates operations b := by
        intro b hb
        unfold Aggregates
        rw [get_insert, if_neg]
        intro heq
        have hab : a = b := congrArg UpdateKey.key heq
        exact hnew (hab ▸ hb)
      have hclosed' : rest.Pairwise fun b c =>
          Aggregates (operations.insert ⟨a, .aggregate⟩ .aggregate) b →
            Aggregates (operations.insert ⟨a, .aggregate⟩ .aggregate) c := by
        refine hrest.imp_of_mem fun hb hc himp hb' => ?_
        exact (hagg' _ hc).mpr (himp ((hagg' _ hb).mp hb'))
      have hlabel' : Labelled (operations.insert ⟨a, .aggregate⟩ .aggregate) :=
        labelled_insert hlabel a .aggregate
      rw [ih hlabel' hnodup' hclosed', get_insert]
      obtain ⟨key, label⟩ := x
      simp only [mem_cons, UpdateKey.mk.injEq]
      by_cases hlab : label = .aggregate
      · subst hlab
        by_cases hkey : key = a
        · subst hkey
          simp
        · have hkey' : ¬a = key := fun heq => hkey heq.symm
          simp [hkey, hkey']
      · have hlab' : ¬UpdateLabel.aggregate = label := fun heq => hlab heq.symm
        simp [hlab, hlab']

/-- The operations of a mark for some nodes. -/
def markEntry (operation : UpdateOperation) (keys : List SlotHashKey) (x : UpdateKey) :
    Option UpdateOperation :=
  if x.key ∈ keys ∧ x.label = .aggregate then some .aggregate
  else if x.key ∈ keys ∧ x.label = operation.label then some operation
  else none

variable {operation : UpdateOperation} {below : List SlotHashKey}

theorem label_ne_aggregate (h : operation.isMark = true) : operation.label ≠ .aggregate := by
  revert h
  cases operation <;> simp [isMark, label]

theorem get_insertForAll_append (hmark : operation.isMark = true) (keys done : List SlotHashKey)
    (h : ∀ x : UpdateKey, operations[x]? = markEntry operation done x) (x : UpdateKey) :
    (insertForAll operation operations keys)[x]? = markEntry operation (done ++ keys) x := by
  induction keys generalizing done operations with
  | nil =>
    rw [append_nil]
    exact h x
  | cons k keys ih =>
    have happend : done ++ k :: keys = (done ++ [k]) ++ keys := by simp
    rw [happend]
    refine ih (done ++ [k]) fun x => ?_
    by_cases hdone : k ∈ done
    · -- the node has its operations already
      have hget : operations[(⟨k, .aggregate⟩ : UpdateKey)]? = some .aggregate := by
        rw [h]
        exact if_pos ⟨hdone, rfl⟩
      have hsame : (doInsertAggregateOperation operations (some operation) k).2 = operations := by
        unfold doInsertAggregateOperation
        rw [hget]
        rfl
      have hmem : ∀ a, a ∈ done ++ [k] ↔ a ∈ done := by
        intro a
        rw [mem_append, mem_singleton]
        exact ⟨fun ha => ha.elim id fun heq => heq ▸ hdone, .inl⟩
      show (doInsertAggregateOperation operations (some operation) k).2[x]? = _
      rw [hsame, h]
      unfold markEntry
      simp only [hmem]
    · have hget : operations[(⟨k, .aggregate⟩ : UpdateKey)]? = none := by
        rw [h]
        unfold markEntry
        rw [if_neg fun hmem => hdone hmem.1, if_neg fun hmem => hdone hmem.1]
      have hnew : (doInsertAggregateOperation operations (some operation) k).2 =
          (operations.insert ⟨k, operation.label⟩ operation).insert ⟨k, .aggregate⟩ .aggregate := by
        unfold doInsertAggregateOperation
        rw [hget]
        revert hmark
        cases operation <;> simp [isMark, label]
      show (doInsertAggregateOperation operations (some operation) k).2[x]? = _
      rw [hnew, get_insert, get_insert, h]
      obtain ⟨key, label⟩ := x
      have hne := label_ne_aggregate hmark
      unfold markEntry
      simp only [UpdateKey.mk.injEq, mem_append, mem_singleton]
      by_cases hkey : key = k
      · subst hkey
        simp only [hdone, true_and, false_and, or_true, if_false]
        by_cases hagg : label = .aggregate
        · simp [hagg]
        · have hagg' : ¬UpdateLabel.aggregate = label := fun heq => hagg heq.symm
          simp only [hagg, hagg', if_false, eq_comm]
      · have hkey' : ¬k = key := fun heq => hkey heq.symm
        simp only [hkey, hkey', false_and, or_false, if_false]

/-- The operations of a mark: the nodes below are marked and aggregated, and the nodes above are
aggregated. -/
def markOperations (fc : HeaviestSubtreeForkChoice) (operation : UpdateOperation)
    (below : List SlotHashKey) (k : SlotHashKey) : UpdateOperations :=
  fc.insertAggregateOperations (insertForAll operation ∅ below) k

theorem Shaped.nodup_ancestorIterator (h : fc.Shaped) (k : SlotHashKey) :
    (fc.ancestorIterator k).Nodup := by
  refine (pairwise_ancestors k.slot k).imp fun {a b} hanc => ?_
  rintro rfl
  exact absurd (h.slot_lt_of_isAncestor hanc) (lt_irrefl _)

/-- **What is collected for a mark.** -/
theorem Shaped.get_markOperations (h : fc.Shaped) (hmark : operation.isMark = true)
    (hbelow : ∀ c ∈ below, fc.Below k c) (x : UpdateKey) (operation' : UpdateOperation) :
    (fc.markOperations operation below k)[x]? = some operation' ↔
      (operation' = operation ∧ x.label = operation.label ∧ x.key ∈ below) ∨
      (operation' = .aggregate ∧ x.label = .aggregate ∧
        (x.key ∈ below ∨ IsAncestor fc.parent x.key k)) := by
  have hget : ∀ x : UpdateKey,
      (insertForAll operation ∅ below)[x]? = markEntry operation below x := by
    refine fun x => get_insertForAll_append hmark below [] (fun y => ?_) x
    unfold markEntry
    rw [if_neg fun hmem => absurd hmem.1 not_mem_nil, if_neg fun hmem => absurd hmem.1 not_mem_nil]
    exact Std.ExtTreeMap.getElem?_empty
  have hne := label_ne_aggregate hmark
  have hlabel : Labelled (insertForAll operation ∅ below) := by
    intro y operation'' hy
    rw [hget] at hy
    unfold markEntry at hy
    split_ifs at hy with hagg hown
    · rw [← some_inj.mp hy, hagg.2]
      rfl
    · rw [← some_inj.mp hy, hown.2]
  -- no node above is among those below
  have habove : ∀ a ∈ fc.ancestorIterator k, ¬Aggregates (insertForAll operation ∅ below) a := by
    intro a ha hagg
    unfold Aggregates at hagg
    rw [hget] at hagg
    unfold markEntry at hagg
    split_ifs at hagg with hmem hmem
    · have hle := h.slot_le (hbelow a hmem.1)
      have hlt := h.slot_lt_of_isAncestor (h.mem_ancestorIterator_iff.mp ha)
      omega
    · exact hne hmem.2.symm
  have hclosed : (fc.ancestorIterator k).Pairwise fun a b =>
      Aggregates (insertForAll operation ∅ below) a →
        Aggregates (insertForAll operation ∅ below) b :=
    List.Pairwise.imp_of_mem (fun ha _ _ hagg => absurd hagg (habove _ ha))
      (pairwise_ancestors k.slot k)
  unfold markOperations insertAggregateOperations
  rw [get_insertAcross hlabel (h.nodup_ancestorIterator k) hclosed, hget]
  unfold markEntry
  rw [← h.mem_ancestorIterator_iff]
  constructor
  · intro hx
    split_ifs at hx with hanc hagg hown
    · exact .inr ⟨(some_inj.mp hx).symm, hanc.1, .inr hanc.2⟩
    · exact .inr ⟨(some_inj.mp hx).symm, hagg.2, .inl hagg.1⟩
    · exact .inl ⟨(some_inj.mp hx).symm, hown.2, hown.1⟩
  · rintro (⟨rfl, hown, hmem⟩ | ⟨rfl, hagg, hmem⟩)
    · have hnot : x.label ≠ .aggregate := fun heq => hne (hown.symm.trans heq)
      rw [if_neg fun hboth => hnot hboth.1, if_neg fun hboth => hnot hboth.2, if_pos ⟨hmem, hown⟩]
    · by_cases hanc : x.key ∈ fc.ancestorIterator k
      · rw [if_pos ⟨hagg, hanc⟩]
      · rw [if_neg fun hboth => hanc hboth.2, if_pos ⟨hmem.resolve_right hanc, hagg⟩]

/-- **The operations of a mark are a batch.** -/
theorem Shaped.batch_markOperations (h : fc.Shaped) (hmark : operation.isMark = true)
    (hbelow : ∀ c, c ∈ below ↔ fc.Below k c) :
    Batch fc.parent (entries (fc.markOperations operation below k)) := by
  have hget := h.get_markOperations hmark fun c hc => (hbelow c).mp hc
  refine batch_entries ?_ ?_ ?_
  · intro x operation' hx
    rcases (hget x operation').mp hx with ⟨rfl, hlabel, -⟩ | ⟨rfl, hlabel, -⟩
    · exact hlabel.symm
    · exact hlabel.symm
  · intro x operation' hx p hp
    -- the parent of a node below `k` is below `k` or above it
    have hbelow' : fc.Below k x.key ∨ IsAncestor fc.parent x.key k := by
      rcases (hget x operation').mp hx with ⟨-, -, hmem⟩ | ⟨-, -, hmem | hanc⟩
      · exact .inl ((hbelow _).mp hmem)
      · exact .inl ((hbelow _).mp hmem)
      · exact .inr hanc
    refine (hget _ _).mpr (.inr ⟨rfl, rfl, ?_⟩)
    rcases hbelow' with hkx | hanc
    · rcases isAncestorOrSelf_iff.mp hkx with heq | hanc
      · rw [← heq] at hp
        exact .inr (TransGen.single hp)
      · obtain ⟨q, hq, hkq⟩ := isAncestor_iff.mp hanc
        rw [hp] at hq
        cases hq
        exact .inl ((hbelow p).mpr hkq)
    · exact .inr (TransGen.head hp hanc)
  · intro x operation' hx hmark'
    refine (hget _ _).mpr (.inr ⟨rfl, rfl, .inl ?_⟩)
    rcases (hget x operation').mp hx with ⟨-, -, hmem⟩ | ⟨rfl, -, -⟩
    · exact hmem
    · exact absurd hmark' Bool.false_ne_true

end HeaviestSubtreeForkChoice
end FlowraValidator.Consensus
