import FlowraValidator.BankingStage.ReadWriteAccountSet

/-!
# The graph of pending transactions

The schedulers put transactions into a graph of a library outside the repository. A transaction
that is inserted waits for the conflicting ones that were inserted before it; it is *released*
when each of them was popped and then unblocked. Of the released ones, the one of highest
priority is popped first.

`PrioGraph` has the operations of that library together with what it promises about them, in
terms of the transactions inserted so far and what has become of each (`nodes`).

* `PrioGraph.Released`: what is promised of a transaction that may be popped.
* `Sequential.graph`: a graph that keeps every promise.
-/

namespace FlowraValidator.BankingStage
open Function List Option

inductive AccessKind where
  | read
  | write
  deriving DecidableEq

/-- The accessed accounts of a transaction, for use in the graph. -/
def getTransactionAccountAccess {Tx Key : Type} [SVMMessage Tx Key] (message : Tx) :
    List (Key × AccessKind) :=
  (SVMMessage.accountKeys message).zipIdx.map fun e =>
    if SVMMessage.isWritable message e.2 then (e.1, .write) else (e.1, .read)

/-- Two accesses conflict if they share an account at least one of them writes. -/
def accessConflicts {Key : Type} [DecidableEq Key] (a b : List (Key × AccessKind)) : Bool :=
  a.any fun x => b.any fun y =>
    decide (x.1 = y.1) && (decide (x.2 = .write) || decide (y.2 = .write))

/-- An inserted transaction, and what has become of it. -/
structure GraphNode (Id Key : Type) where
  id : Id
  access : List (Key × AccessKind)
  popped : Bool
  unblocked : Bool

namespace GraphNode
variable {Id Key : Type}

/-- A transaction that was just inserted. -/
def inserted (id : Id) (access : List (Key × AccessKind)) : GraphNode Id Key :=
  { id := id, access := access, popped := false, unblocked := false }

variable [DecidableEq Id] {n : GraphNode Id Key}

def markPopped (id : Id) (nodes : List (GraphNode Id Key)) : List (GraphNode Id Key) :=
  nodes.map fun n => if n.id = id then { n with popped := true } else n

def markUnblocked (id : Id) (nodes : List (GraphNode Id Key)) : List (GraphNode Id Key) :=
  nodes.map fun n => if n.id = id then { n with unblocked := true } else n

theorem mem_markPopped_iff {nodes : List (GraphNode Id Key)} {id : Id} :
    n ∈ markPopped id nodes ↔
      ∃ m ∈ nodes, n = if m.id = id then { m with popped := true } else m := by
  rw [markPopped, List.mem_map]
  exact exists_congr fun m => and_congr_right fun _ => eq_comm

theorem mem_markUnblocked_iff {nodes : List (GraphNode Id Key)} {id : Id} :
    n ∈ markUnblocked id nodes ↔
      ∃ m ∈ nodes, n = if m.id = id then { m with unblocked := true } else m := by
  rw [markUnblocked, List.mem_map]
  exact exists_congr fun m => and_congr_right fun _ => eq_comm

@[simp] theorem map_id_markPopped (id : Id) (nodes : List (GraphNode Id Key)) :
    (markPopped id nodes).map (·.id) = nodes.map (·.id) := by
  rw [markPopped, List.map_map]
  refine map_congr_left fun n _ => ?_
  simp only [comp_apply]
  split <;> rfl

@[simp] theorem map_id_markUnblocked (id : Id) (nodes : List (GraphNode Id Key)) :
    (markUnblocked id nodes).map (·.id) = nodes.map (·.id) := by
  rw [markUnblocked, List.map_map]
  refine map_congr_left fun n _ => ?_
  simp only [comp_apply]
  split <;> rfl

end GraphNode

/-! ## What the library promises -/

section
variable {Id Key : Type} [DecidableEq Key]

/-- A transaction that may be released: it was not popped, and each conflicting one that was
inserted before it was popped and unblocked. -/
def Free (nodes : List (GraphNode Id Key)) (id : Id) : Prop :=
  ∃ before node after, nodes = before ++ node :: after ∧ node.id = id ∧ node.popped = false ∧
    ∀ n ∈ before, accessConflicts n.access node.access = true → n.popped = true ∧ n.unblocked = true

end

/-- The operations of the graph, and what they promise. -/
structure PrioGraph (Id Key : Type) [LinearOrder Id] [DecidableEq Key] where
  Graph : Type
  new : Graph
  insertTransaction : Graph → Id → List (Key × AccessKind) → Graph
  pop : Graph → Option (Id × Graph)
  unblock : Graph → Id → Option Graph
  isEmpty : Graph → Bool
  clear : Graph → Graph
  /-- The transactions inserted since the last `clear`, in order. -/
  nodes : Graph → List (GraphNode Id Key)
  /-- The transactions that may be popped. -/
  Released : Graph → Id → Prop
  nodes_new : nodes new = []
  nodes_clear : ∀ g, nodes (clear g) = []
  nodes_insertTransaction : ∀ g id access, (∀ n ∈ nodes g, n.id ≠ id) →
    nodes (insertTransaction g id access) = nodes g ++ [GraphNode.inserted id access]
  /-- A transaction is released only after the conflicting ones before it. -/
  free_of_released : ∀ g id, Released g id → Free (nodes g) id
  /-- The released transaction of highest priority is popped. -/
  pop_some : ∀ g id g', pop g = some (id, g') → Released g id ∧ (∀ j, Released g j → j ≤ id) ∧
    nodes g' = GraphNode.markPopped id (nodes g)
  pop_none : ∀ g, pop g = none ↔ ∀ id, ¬ Released g id
  isEmpty_iff : ∀ g, isEmpty g = true ↔ ∀ id, ¬ Released g id
  /-- A transaction that was popped may be unblocked, once. -/
  unblock_some : ∀ g id, (∃ n ∈ nodes g, n.id = id ∧ n.popped = true ∧ n.unblocked = false) →
    ∃ g', unblock g id = some g' ∧ nodes g' = GraphNode.markUnblocked id (nodes g)

namespace PrioGraph
variable {Id Key : Type} [LinearOrder Id] [DecidableEq Key]

/-- The combination of `pop` and `unblock`. -/
def popAndUnblock (G : PrioGraph Id Key) (g : G.Graph) : Option (Option (Id × G.Graph)) :=
  match G.pop g with
  | none => some none
  | some (id, g) => (G.unblock g id).map fun g => some (id, g)

end PrioGraph

/-! ## A sequential graph -/

namespace Sequential
variable {Id Key : Type}

/-- The first transaction that was not popped and unblocked. -/
def next (nodes : List (GraphNode Id Key)) : Option (GraphNode Id Key) :=
  nodes.find? fun n => !(n.popped && n.unblocked)

/-- The id of that transaction, if it was not popped. -/
def nextId (nodes : List (GraphNode Id Key)) : Option Id :=
  (next nodes).bind fun n => if n.popped then none else some n.id

theorem free_of_nextId [DecidableEq Key] {nodes : List (GraphNode Id Key)} {id : Id}
    (h : nextId nodes = some id) : Free nodes id := by
  obtain ⟨n, hn, hid⟩ := bind_eq_some_iff.mp h
  obtain ⟨-, before, after, hnodes, hbefore⟩ := find?_eq_some_iff_append.mp hn
  split_ifs at hid with hpopped
  refine ⟨before, n, after, hnodes, some_inj.mp hid, Bool.eq_false_iff.mpr hpopped, ?_⟩
  intro m hm _
  simpa using hbefore m hm

/-- A graph that hands out one transaction after the other. -/
def graph (Id Key : Type) [LinearOrder Id] [DecidableEq Key] : PrioGraph Id Key where
  Graph := List (GraphNode Id Key)
  new := []
  insertTransaction nodes id access := nodes ++ [GraphNode.inserted id access]
  pop nodes := (nextId nodes).map fun id => (id, GraphNode.markPopped id nodes)
  unblock nodes id := some (GraphNode.markUnblocked id nodes)
  isEmpty nodes := (nextId nodes).isNone
  clear _ := []
  nodes := id
  Released nodes id := nextId nodes = some id
  nodes_new := rfl
  nodes_clear _ := rfl
  nodes_insertTransaction _ _ _ _ := rfl
  free_of_released _ _ := free_of_nextId
  pop_some nodes id nodes' h := by
    obtain ⟨m, hm, heq⟩ := map_eq_some_iff.mp h
    cases heq
    refine ⟨hm, fun j hj => ?_, rfl⟩
    rw [hm] at hj
    exact (some_inj.mp hj).ge
  pop_none nodes := by
    rw [map_eq_none_iff, eq_none_iff_forall_ne_some]
  isEmpty_iff nodes := by
    rw [isNone_iff_eq_none, eq_none_iff_forall_ne_some]
  unblock_some _ _ _ := ⟨_, rfl, rfl⟩

end Sequential
end FlowraValidator.BankingStage
