import FlowraValidator.Lib.Forest
import FlowraValidator.Lib.OrdMap

/-!
# The heaviest subtree fork choice

`core/src/consensus/heaviest_subtree_fork_choice.rs`: a tree of blocks, in which each node caches
the stake that has voted for it and for the nodes below it, its height, and the best and the deepest
node below it. A new leaf is propagated up the tree at once. Votes and marks are first turned into
a map of operations, which are then applied from the greatest key to the smallest one, so that a
node is aggregated after its children.

A panic is `none`. A `BTreeSet` of children is a sorted list. The loops that follow parents end
because the slot of a parent is smaller, so the slot bounds their length; the walk over a subtree
visits each node once, so the number of nodes bounds it. Stakes are naturals here and `u64` in the
source; all lamports together fit into a `u64`.

* `ForkInfo`, `HeaviestSubtreeForkChoice`: the data.
* `addNewLeafSlot`, `addVotes`, `markForkInvalidCandidate`, `markForkValidCandidate`,
  `setTreeRoot`: the operations.
-/

namespace FlowraValidator.Consensus

abbrev Pubkey := ℕ

/-- `SlotHashKey`: a slot and a hash. -/
structure SlotHashKey where
  slot : ℕ
  hash : ℕ

namespace SlotHashKey

def toPair (k : SlotHashKey) : ℕ ×ₗ ℕ := toLex (k.slot, k.hash)

theorem toPair_injective : Function.Injective toPair := by
  rintro ⟨slot, hash⟩ ⟨slot', hash'⟩ h
  have hpair : (slot, hash) = (slot', hash') := toLex.injective h
  cases hpair
  rfl

/-- Keys are ordered by their slots, then by their hashes. -/
instance : LinearOrder SlotHashKey := LinearOrder.lift' toPair toPair_injective

instance : LawfulBEq SlotHashKey := inferInstance

theorem lt_iff {a b : SlotHashKey} : a < b ↔ a.slot < b.slot ∨ a.slot = b.slot ∧ a.hash < b.hash :=
  Prod.Lex.lt_iff

theorem lt_of_slot_lt {a b : SlotHashKey} (h : a.slot < b.slot) : a < b := lt_iff.mpr (.inl h)

/-- `SlotHashKey::default()`. -/
def default : SlotHashKey := ⟨0, 0⟩

end SlotHashKey

/-! ## Nodes -/

structure ForkInfo where
  stakeVotedAt : ℕ
  stakeVotedSubtree : ℕ
  height : ℕ
  bestSlot : SlotHashKey
  deepestSlot : SlotHashKey
  parent : Option SlotHashKey
  children : List SlotHashKey
  latestInvalidAncestor : Option ℕ
  isDuplicateConfirmed : Bool

namespace ForkInfo

def isCandidate (info : ForkInfo) : Bool := info.latestInvalidAncestor.isNone

def setDuplicateConfirmed (info : ForkInfo) : ForkInfo :=
  { info with isDuplicateConfirmed := true, latestInvalidAncestor := none }

def updateWithNewlyValidAncestor (info : ForkInfo) (newlyValidAncestor : ℕ) : ForkInfo :=
  match info.latestInvalidAncestor with
  | none => info
  | some latestInvalidAncestor =>
    if latestInvalidAncestor ≤ newlyValidAncestor then { info with latestInvalidAncestor := none }
    else info

/-- It is asserted that the node is not duplicate confirmed. -/
def updateWithNewlyInvalidAncestor (info : ForkInfo) (newlyInvalidAncestor : ℕ) :
    Option ForkInfo :=
  if info.isDuplicateConfirmed then none
  else
    match info.latestInvalidAncestor with
    | none => some { info with latestInvalidAncestor := some newlyInvalidAncestor }
    | some latestInvalidAncestor =>
      if newlyInvalidAncestor > latestInvalidAncestor then
        some { info with latestInvalidAncestor := some newlyInvalidAncestor }
      else some info

end ForkInfo

/-! ## Operations -/

/-- `UpdateLabel`, from the smallest to the greatest one. -/
inductive UpdateLabel where
  | aggregate
  | add
  | markValid (slot : ℕ)
  | markInvalid (slot : ℕ)
  | subtract
  deriving DecidableEq

inductive UpdateOperation where
  | add (stake : ℕ)
  | markValid (slot : ℕ)
  | markInvalid (slot : ℕ)
  | subtract (stake : ℕ)
  | aggregate
  deriving DecidableEq

/-- `update_stake`: only for stakes. -/
def UpdateOperation.updateStake (newStake : ℕ) : UpdateOperation → Option UpdateOperation
  | .add stake => some (.add (stake + newStake))
  | .subtract stake => some (.subtract (stake + newStake))
  | .aggregate | .markValid _ | .markInvalid _ => none

namespace UpdateLabel

/-- The place of a label among all labels, and its slot. -/
def rank : UpdateLabel → ℕ × ℕ
  | aggregate => (0, 0)
  | add => (1, 0)
  | markValid slot => (2, slot)
  | markInvalid slot => (3, slot)
  | subtract => (4, 0)

theorem rank_injective : Function.Injective rank := by
  intro a b h
  cases a <;> cases b <;> simp_all [rank]

end UpdateLabel

/-- A key of the map of operations. -/
structure UpdateKey where
  key : SlotHashKey
  label : UpdateLabel

namespace UpdateKey

def toPair (k : UpdateKey) : SlotHashKey ×ₗ ℕ ×ₗ ℕ := toLex (k.key, toLex k.label.rank)

theorem toPair_injective : Function.Injective toPair := by
  rintro ⟨key, label⟩ ⟨key', label'⟩ h
  have hpair : (key, toLex label.rank) = (key', toLex label'.rank) := toLex.injective h
  obtain ⟨rfl, hlabel⟩ := Prod.mk.inj hpair
  rw [UpdateLabel.rank_injective (toLex.injective hlabel)]

/-- Keys of operations are ordered by the keys of the nodes, then by the labels. -/
instance : LinearOrder UpdateKey := LinearOrder.lift' toPair toPair_injective

theorem lt_of_key_lt {a b : UpdateKey} (h : a.key < b.key) : a < b := Prod.Lex.lt_iff.mpr (.inl h)

end UpdateKey

abbrev UpdateOperations := OrdMap UpdateKey UpdateOperation

/-! ## The tree -/

structure HeaviestSubtreeForkChoice where
  forkInfos : OrdMap SlotHashKey ForkInfo
  latestVotes : OrdMap Pubkey SlotHashKey
  treeRoot : SlotHashKey

/-- The epoch of a slot, and the stakes of the vote accounts in an epoch. -/
structure EpochStakes where
  getEpoch : ℕ → ℕ
  stakes : ℕ → Option (Pubkey → ℕ)

/-- The stake of a vote account for a vote in the slot. -/
def EpochStakes.stakeAt (es : EpochStakes) (pubkey : Pubkey) (slot : ℕ) : ℕ :=
  ((es.stakes (es.getEpoch slot)).map fun stake => stake pubkey).getD 0

namespace HeaviestSubtreeForkChoice
variable (fc : HeaviestSubtreeForkChoice) (k : SlotHashKey)

def get : Option ForkInfo := fc.forkInfos[k]?

def containsBlock : Bool := (fc.get k).isSome

def bestSlot : Option SlotHashKey := (fc.get k).map ForkInfo.bestSlot

def deepestSlot : Option SlotHashKey := (fc.get k).map ForkInfo.deepestSlot

def stakeVotedAt : Option ℕ := (fc.get k).map ForkInfo.stakeVotedAt

def stakeVotedSubtree : Option ℕ := (fc.get k).map ForkInfo.stakeVotedSubtree

def height : Option ℕ := (fc.get k).map ForkInfo.height

def latestInvalidAncestor : Option ℕ := (fc.get k).bind ForkInfo.latestInvalidAncestor

def isDuplicateConfirmed : Option Bool := (fc.get k).map ForkInfo.isDuplicateConfirmed

def isCandidate : Option Bool := (fc.get k).map ForkInfo.isCandidate

def parent : Option SlotHashKey := (fc.get k).bind ForkInfo.parent

def children : Option (List SlotHashKey) := (fc.get k).map ForkInfo.children

def bestOverallSlot : Option SlotHashKey := fc.bestSlot fc.treeRoot

/-- `get_mut`, for a node that may be missing. -/
def modifyInfo (f : ForkInfo → ForkInfo) : HeaviestSubtreeForkChoice :=
  { fc with forkInfos := fc.forkInfos.modify k f }

/-- The nodes above a node, the nearest one first. -/
def ancestorIterator : List SlotHashKey := Forest.ancestors fc.parent k.slot k

/-- All nodes below `root1`, without those below `root2`. -/
def subtreeDiff (root1 root2 : SlotHashKey) : Option (List SlotHashKey) :=
  if fc.containsBlock root1 then
    Forest.traverse fc.children (fun k => decide (k = root2)) fc.forkInfos.size [root1] []
  else some []

/-! ## New leaves -/

/-- The loop of `is_best_child` over the children. -/
def noneHeavier (maybeBestChild : SlotHashKey) (weight : ℕ) : List SlotHashKey → Option Bool
  | [] => some true
  | child :: rest => do
    let childWeight ← fc.stakeVotedSubtree child
    let candidate ← fc.isCandidate child
    if !candidate then noneHeavier maybeBestChild weight rest
    else if childWeight > weight ∨ (weight = childWeight ∧ child < maybeBestChild) then some false
    else noneHeavier maybeBestChild weight rest

def isBestChild (maybeBestChild : SlotHashKey) : Option Bool := do
  let weight ← fc.stakeVotedSubtree maybeBestChild
  match fc.parent maybeBestChild with
  | none => some true
  | some parent =>
    let children ← fc.children parent
    fc.noneHeavier maybeBestChild weight children

/-- The loop of `is_deepest_child` over the children. -/
def noneDeeper (maybeDeepestChild : SlotHashKey) (weight height : ℕ) :
    List SlotHashKey → Option Bool
  | [] => some true
  | child :: rest => do
    let childHeight ← fc.height child
    let childWeight ← fc.stakeVotedSubtree child
    if childHeight > height then some false
    else if childHeight = height ∧ childWeight > weight then some false
    else if childHeight = height ∧ childWeight = weight ∧ child < maybeDeepestChild then some false
    else noneDeeper maybeDeepestChild weight height rest

def isDeepestChild (maybeDeepestChild : SlotHashKey) : Option Bool := do
  let weight ← fc.stakeVotedSubtree maybeDeepestChild
  let height ← fc.height maybeDeepestChild
  match fc.parent maybeDeepestChild with
  | none => some true
  | some parent =>
    let children ← fc.children parent
    fc.noneDeeper maybeDeepestChild weight height children

/-- The first loop of `propagate_new_leaf`: nodes whose best slot was the one of the parent. -/
def propagateBest (leaf parentBest : SlotHashKey) :
    ℕ → Option SlotHashKey → HeaviestSubtreeForkChoice → Option HeaviestSubtreeForkChoice
  | _, none, fc => some fc
  | 0, some _, _ => none
  | n + 1, some ancestor, fc =>
    match fc.get ancestor with
    | none => none
    | some info =>
      if info.bestSlot = parentBest then
        propagateBest leaf parentBest n info.parent
          (fc.modifyInfo ancestor fun info => { info with bestSlot := leaf })
      else some fc

/-- The second loop of `propagate_new_leaf`: nodes whose deepest child leads to the leaf. -/
def propagateDeepest (leaf : SlotHashKey) :
    ℕ → Option SlotHashKey → SlotHashKey → ℕ → HeaviestSubtreeForkChoice →
      Option HeaviestSubtreeForkChoice
  | _, none, _, _, fc => some fc
  | 0, some _, _, _, _ => none
  | n + 1, some ancestor, currentChild, currentHeight, fc =>
    match fc.isDeepestChild currentChild with
    | none => none
    | some false => some fc
    | some true =>
      match fc.get ancestor with
      | none => none
      | some info =>
        propagateDeepest leaf n info.parent ancestor (currentHeight + 1)
          (fc.modifyInfo ancestor fun info =>
            { info with deepestSlot := leaf, height := currentHeight + 1 })

def propagateNewLeaf (leaf parent : SlotHashKey) : Option HeaviestSubtreeForkChoice := do
  let parentBest ← fc.bestSlot parent
  let best ← fc.isBestChild leaf
  let fc ←
    if best then propagateBest leaf parentBest (parent.slot + 1) (some parent) fc else some fc
  propagateDeepest leaf (parent.slot + 1) (some parent) leaf 1 fc

/-- The node of a new leaf. -/
def newLeaf (parent : Option SlotHashKey) : ForkInfo where
  stakeVotedAt := 0
  stakeVotedSubtree := 0
  height := 1
  bestSlot := k
  deepestSlot := k
  parent := parent
  children := []
  latestInvalidAncestor := parent.bind fc.latestInvalidAncestor
  isDuplicateConfirmed := parent.isNone

/-- `BTreeSet::insert`. -/
def insertChild (children : List SlotHashKey) : List SlotHashKey :=
  if k ∈ children then children else children.orderedInsert (· ≤ ·) k

def addNewLeafSlot (parent : Option SlotHashKey) :
    Option HeaviestSubtreeForkChoice :=
  if fc.containsBlock k then some fc
  else
    let fc := { fc with forkInfos := fc.forkInfos.insert k (fc.newLeaf k parent) }
    match parent with
    | none => some fc
    | some parent =>
      if fc.containsBlock parent then
        (fc.modifyInfo parent fun info =>
          { info with children := insertChild k info.children }).propagateNewLeaf k parent
      else none

/-- `HeaviestSubtreeForkChoice::new`. -/
def new (treeRoot : SlotHashKey) : Option HeaviestSubtreeForkChoice :=
  (⟨∅, ∅, treeRoot⟩ : HeaviestSubtreeForkChoice).addNewLeafSlot treeRoot none

/-! ## Aggregation -/

/-- The variables of the loop over the children in `aggregate_slot`. -/
structure Aggregation where
  stakeVotedSubtree : ℕ
  deepestChildHeight : ℕ
  bestSlot : SlotHashKey
  deepestSlot : SlotHashKey
  isDuplicateConfirmed : Bool
  bestChildStake : ℕ
  bestChild : SlotHashKey
  deepestChildStake : ℕ
  deepestChild : SlotHashKey

/-- The best child so far. -/
def Aggregation.updateBest (acc : Aggregation) (childKey : SlotHashKey) (child : ForkInfo) :
    Aggregation :=
  if child.isCandidate ∧ (acc.bestChild = k ∨ child.stakeVotedSubtree > acc.bestChildStake ∨
      child.stakeVotedSubtree = acc.bestChildStake ∧ childKey < acc.bestChild) then
    { acc with
      bestChildStake := child.stakeVotedSubtree
      bestChild := childKey
      bestSlot := child.bestSlot }
  else acc

/-- The deepest child so far. -/
def Aggregation.updateDeepest (acc : Aggregation) (childKey : SlotHashKey) (child : ForkInfo) :
    Aggregation :=
  if acc.deepestChild = k ∨ child.height > acc.deepestChildHeight ∨
      (child.height = acc.deepestChildHeight ∧ child.stakeVotedSubtree > acc.deepestChildStake) ∨
      (child.height = acc.deepestChildHeight ∧
        child.stakeVotedSubtree = acc.deepestChildStake ∧ childKey < acc.deepestChild) then
    { acc with
      deepestChildHeight := child.height
      deepestChildStake := child.stakeVotedSubtree
      deepestChild := childKey
      deepestSlot := child.deepestSlot }
  else acc

def Aggregation.addChild (acc : Aggregation) (childKey : SlotHashKey) (child : ForkInfo) :
    Aggregation :=
  let acc := { acc with
    isDuplicateConfirmed := acc.isDuplicateConfirmed || child.isDuplicateConfirmed
    stakeVotedSubtree := acc.stakeVotedSubtree + child.stakeVotedSubtree }
  (acc.updateBest k childKey child).updateDeepest k childKey child

/-- The loop over the children in `aggregate_slot`. -/
def aggregateChildren (k : SlotHashKey) : Aggregation → List SlotHashKey → Option Aggregation
  | acc, [] => some acc
  | acc, childKey :: rest => do
    let child ← fc.get childKey
    aggregateChildren k (acc.addChild k childKey child) rest

/-- What `aggregate_slot` writes. -/
def Aggregation.write (acc : Aggregation) (info : ForkInfo) : ForkInfo :=
  { (if acc.isDuplicateConfirmed then info.setDuplicateConfirmed else info) with
    stakeVotedSubtree := acc.stakeVotedSubtree
    height := acc.deepestChildHeight + 1
    bestSlot := acc.bestSlot
    deepestSlot := acc.deepestSlot }

def aggregateSlot (k : SlotHashKey) : Option HeaviestSubtreeForkChoice :=
  match fc.get k with
  | none => some fc
  | some info => do
    let acc ← fc.aggregateChildren k ⟨info.stakeVotedAt, 0, k, k, false, 0, k, 0, k⟩ info.children
    some (fc.modifyInfo k acc.write)

def markForkValid (validSlot : ℕ) : HeaviestSubtreeForkChoice :=
  fc.modifyInfo k fun info =>
    let info := info.updateWithNewlyValidAncestor validSlot
    if k.slot = validSlot then { info with isDuplicateConfirmed := true } else info

def markForkInvalid (invalidSlot : ℕ) : Option HeaviestSubtreeForkChoice :=
  match fc.get k with
  | none => some fc
  | some info =>
    (info.updateWithNewlyInvalidAncestor invalidSlot).map fun info => fc.modifyInfo k fun _ => info

def addSlotStake (stake : ℕ) : HeaviestSubtreeForkChoice :=
  fc.modifyInfo k fun info =>
    { info with
      stakeVotedAt := info.stakeVotedAt + stake
      stakeVotedSubtree := info.stakeVotedSubtree + stake }

/-- The subtractions may not underflow. -/
def subtractSlotStake (stake : ℕ) : Option HeaviestSubtreeForkChoice :=
  match fc.get k with
  | none => some fc
  | some info =>
    if stake ≤ info.stakeVotedAt ∧ stake ≤ info.stakeVotedSubtree then
      some (fc.modifyInfo k fun info =>
        { info with
          stakeVotedAt := info.stakeVotedAt - stake
          stakeVotedSubtree := info.stakeVotedSubtree - stake })
    else none

def processOperation : UpdateOperation → Option HeaviestSubtreeForkChoice
  | .markValid validSlot => some (fc.markForkValid k validSlot)
  | .markInvalid invalidSlot => fc.markForkInvalid k invalidSlot
  | .aggregate => fc.aggregateSlot k
  | .add stake => some (fc.addSlotStake k stake)
  | .subtract stake => fc.subtractSlotStake k stake

/-- From the greatest key to the smallest one. -/
def processUpdateOperations (operations : UpdateOperations) : Option HeaviestSubtreeForkChoice :=
  operations.toList.reverse.foldlM (fun fc entry => fc.processOperation entry.1.key entry.2) fc

/-! ## Votes -/

def doInsertAggregateOperation (operations : UpdateOperations)
    (modifyForkValidity : Option UpdateOperation) (k : SlotHashKey) : Bool × UpdateOperations :=
  if operations[(⟨k, .aggregate⟩ : UpdateKey)]?.isSome then (false, operations)
  else
    let operations :=
      match modifyForkValidity with
      | some (.markValid slot) => operations.insert ⟨k, .markValid slot⟩ (.markValid slot)
      | some (.markInvalid slot) => operations.insert ⟨k, .markInvalid slot⟩ (.markInvalid slot)
      | _ => operations
    (true, operations.insert ⟨k, .aggregate⟩ .aggregate)

/-- The loop of `do_insert_aggregate_operations_across_ancestors`. -/
def insertAcross (modifyForkValidity : Option UpdateOperation) :
    UpdateOperations → List SlotHashKey → UpdateOperations
  | operations, [] => operations
  | operations, ancestor :: rest =>
    match doInsertAggregateOperation operations modifyForkValidity ancestor with
    | (false, operations) => operations
    | (true, operations) => insertAcross modifyForkValidity operations rest

def insertAggregateOperations (operations : UpdateOperations) (k : SlotHashKey) :
    UpdateOperations :=
  insertAcross none operations (fc.ancestorIterator k)

/-- `entry`, `and_modify` and `or_insert` for a stake. -/
def insertStake (operations : UpdateOperations) (k : UpdateKey) (stake : ℕ)
    (operation : UpdateOperation) : Option UpdateOperations :=
  match operations[k]? with
  | none => some (operations.insert k operation)
  | some old => (old.updateStake stake).map fun new => operations.insert k new

/-- The vote does not replace the latest one. -/
def isOutdated (latest : Option SlotHashKey) (newVote : SlotHashKey) : Bool :=
  match latest with
  | none => false
  | some latest => decide (newVote.slot < latest.slot ∨
      newVote.slot = latest.slot ∧ newVote.hash ≥ latest.hash)

/-- The stake is taken from the latest vote, if there is one. -/
def subtractLatest (es : EpochStakes) (pubkey : Pubkey) (newVote : SlotHashKey)
    (operations : UpdateOperations) : Option SlotHashKey → Option UpdateOperations
  | none => some operations
  | some old =>
    if (if newVote.slot = old.slot then newVote.hash < old.hash else newVote.slot > old.slot) then
      let stakeUpdate := es.stakeAt pubkey old.slot
      if stakeUpdate > 0 then
        (insertStake operations ⟨old, .subtract⟩ stakeUpdate (.subtract stakeUpdate)).map
          fun operations => fc.insertAggregateOperations operations old
      else some operations
    else none

/-- The loop of `generate_update_operations`. -/
def generateLoop (es : EpochStakes) :
    HeaviestSubtreeForkChoice → List Pubkey → UpdateOperations → List (Pubkey × SlotHashKey) →
      Option (HeaviestSubtreeForkChoice × UpdateOperations)
  | fc, _, operations, [] => some (fc, operations)
  | fc, observed, operations, (pubkey, newVote) :: votes =>
    if newVote.slot < fc.treeRoot.slot then generateLoop es fc observed operations votes
    else if pubkey ∈ observed then none
    else if isOutdated fc.latestVotes[pubkey]? newVote then
      generateLoop es fc (pubkey :: observed) operations votes
    else do
      let old := fc.latestVotes[pubkey]?
      let fc := { fc with latestVotes := fc.latestVotes.insert pubkey newVote }
      let operations ← fc.subtractLatest es pubkey newVote operations old
      let stakeUpdate := es.stakeAt pubkey newVote.slot
      let operations ← insertStake operations ⟨newVote, .add⟩ stakeUpdate (.add stakeUpdate)
      generateLoop es fc (pubkey :: observed) (fc.insertAggregateOperations operations newVote)
        votes

def generateUpdateOperations (es : EpochStakes) (votes : List (Pubkey × SlotHashKey)) :
    Option (HeaviestSubtreeForkChoice × UpdateOperations) :=
  generateLoop es fc [] ∅ votes

/-- The tree, and the best slot of it. -/
def addVotes (es : EpochStakes) (votes : List (Pubkey × SlotHashKey)) :
    Option (HeaviestSubtreeForkChoice × SlotHashKey) := do
  let (fc, operations) ← fc.generateUpdateOperations es votes
  let fc ← fc.processUpdateOperations operations
  let best ← fc.bestOverallSlot
  some (fc, best)

/-! ## Marks -/

def insertForAll (operation : UpdateOperation) (operations : UpdateOperations)
    (keys : List SlotHashKey) : UpdateOperations :=
  keys.foldl (fun operations k => (doInsertAggregateOperation operations (some operation) k).2)
    operations

/-- Nothing happens if there is no such node; it is asserted that the node is not duplicate
confirmed. -/
def markForkInvalidCandidate : Option HeaviestSubtreeForkChoice :=
  match fc.get k with
  | none => some fc
  | some info =>
    if info.isDuplicateConfirmed then none
    else do
      let below ← fc.subtreeDiff k .default
      let operations := insertForAll (.markInvalid k.slot) ∅ below
      fc.processUpdateOperations (fc.insertAggregateOperations operations k)

/-- The newly duplicate confirmed nodes from the node up, and the tree. -/
def markForkValidCandidate :
    Option (List SlotHashKey × HeaviestSubtreeForkChoice) := do
  let confirmed ← (k :: fc.ancestorIterator k).filterM fun ancestor =>
    (fc.isDuplicateConfirmed ancestor).map Bool.not
  let below ← fc.subtreeDiff k .default
  let operations := insertForAll (.markValid k.slot) ∅ below
  let fc ← fc.processUpdateOperations (fc.insertAggregateOperations operations k)
  some (confirmed, fc)

/-! ## Roots -/

def removeAll : HeaviestSubtreeForkChoice → List SlotHashKey → Option HeaviestSubtreeForkChoice
  | fc, [] => some fc
  | fc, k :: rest =>
    if fc.containsBlock k then removeAll { fc with forkInfos := fc.forkInfos.erase k } rest
    else none

def setTreeRoot (newRoot : SlotHashKey) : Option HeaviestSubtreeForkChoice := do
  let removeSet ← fc.subtreeDiff fc.treeRoot newRoot
  let fc ← fc.removeAll removeSet
  if fc.containsBlock newRoot then
    some { fc.modifyInfo newRoot fun info => { info with parent := none } with treeRoot := newRoot }
  else none

end HeaviestSubtreeForkChoice
end FlowraValidator.Consensus
