import CartFlow.Failure
import Std.Data.HashMap

/-!
# Directed graphs

Nodes have an identifier and carry data; edges carry a label. Nodes and edges keep
the order in which they were added, parallel edges and edges from a node to itself
included. Every node knows the numbers of its outgoing and incoming edges, and an
index leads from identifiers to positions.
-/
namespace CartFlow

structure Edge where
  source : String
  target : String
  label : UInt8 := 0
  deriving DecidableEq, Repr

namespace Edge

/-- The label of the edge that a branch takes if its condition holds. -/
def taken : UInt8 := 1

/-- The label of the edge that a branch takes if its condition does not hold. -/
def notTaken : UInt8 := 2

end Edge

/-- A node with its data and the numbers of its edges. -/
structure Node (α : Type) where
  id : String
  data : α
  outgoing : Array Nat := #[]
  incoming : Array Nat := #[]

/-- A directed graph with an optional entry and an optional exit. -/
structure Graph (α : Type) where
  nodes : Array (Node α) := #[]
  edges : Array Edge := #[]
  index : Std.HashMap String Nat := {}
  entry : Option String := none
  exit : Option String := none

namespace Graph

variable {α : Type}

def empty : Graph α := {}

instance : Inhabited (Graph α) := ⟨empty⟩

def size (g : Graph α) : Nat :=
  g.nodes.size

/-- The identifiers in the order in which the nodes were added. -/
def ids (g : Graph α) : List String :=
  g.nodes.toList.map (·.id)

def sortedIds (g : Graph α) : List String :=
  g.ids.mergeSort fun a b => !(b < a)

def contains (g : Graph α) (id : String) : Bool :=
  g.index.contains id

def node? (g : Graph α) (id : String) : Option (Node α) :=
  g.index[id]?.bind fun i => g.nodes[i]?

def node (g : Graph α) (id : String) : Except Failure (Node α) :=
  match g.node? id with
  | some n => .ok n
  | none => fail (.nodeNotFound id)

/-- Adds a node; an identifier that is there already keeps its node. -/
def insert (g : Graph α) (id : String) (data : α) : Graph α :=
  if g.contains id then g
  else
    let { nodes, edges, index, entry, exit } := g
    let position := nodes.size
    { nodes := nodes.push { id, data }, edges, index := index.insert id position, entry, exit }

def modify (g : Graph α) (id : String) (f : α → α) : Graph α :=
  match g.index[id]? with
  | some i =>
    let { nodes, edges, index, entry, exit } := g
    { nodes := nodes.modify i fun n => { n with data := f n.data }, edges, index, entry, exit }
  | none => g

def addEdge (g : Graph α) (source target : String) (label : UInt8) :
    Except Failure (Graph α) :=
  match g.index[source]?, g.index[target]? with
  | none, _ => during .edgeSource (fail (.nodeNotFound source))
  | some _, none => during .edgeTarget (fail (.nodeNotFound target))
  | some i, some j =>
    let { nodes, edges, index, entry, exit } := g
    let number := edges.size
    let leaving := nodes.modify i fun n => { n with outgoing := n.outgoing.push number }
    let entering := leaving.modify j fun n => { n with incoming := n.incoming.push number }
    .ok { nodes := entering, edges := edges.push ⟨source, target, label⟩, index, entry, exit }

def setEntry (g : Graph α) (id : String) : Except Failure (Graph α) :=
  if g.contains id then .ok { g with entry := some id }
  else during .settingEntry (fail (.nodeNotFound id))

def setExit (g : Graph α) (id : String) : Except Failure (Graph α) :=
  if g.contains id then .ok { g with exit := some id }
  else during .settingExit (fail (.nodeNotFound id))

def edgesAt (g : Graph α) (numbers : Array Nat) : List Edge :=
  numbers.toList.filterMap fun k => g.edges[k]?

/-- The edges that leave a node, in the order in which they were added. -/
def successors (g : Graph α) (id : String) : List Edge :=
  match g.node? id with
  | some n => g.edgesAt n.outgoing
  | none => []

/-- The edges that enter a node, in the order in which they were added. -/
def predecessors (g : Graph α) (id : String) : List Edge :=
  match g.node? id with
  | some n => g.edgesAt n.incoming
  | none => []

def successorIds (g : Graph α) (id : String) : List String :=
  (g.successors id).map (·.target)

def predecessorIds (g : Graph α) (id : String) : List String :=
  (g.predecessors id).map (·.source)

def hasEdge (g : Graph α) (source target : String) : Bool :=
  (g.successorIds source).contains target

def entryData? (g : Graph α) : Option α :=
  g.entry.bind fun id => (g.node? id).map (·.data)

@[simp] theorem contains_insert (g : Graph α) (id other : String) (data : α) :
    (g.insert id data).contains other = (id == other || g.contains other) := by
  unfold insert
  split
  · next h =>
    cases hid : id == other with
    | false => rfl
    | true => rw [← eq_of_beq hid, h]; rfl
  · simp [contains, Std.HashMap.contains_insert]

theorem contains_of_addEdge {g h : Graph α} {source target : String} {label : UInt8}
    (hok : g.addEdge source target label = .ok h) (id : String) :
    h.contains id = g.contains id := by
  unfold addEdge at hok
  split at hok
  · cases hok
  · cases hok
  · cases hok; rfl

end Graph

end CartFlow
