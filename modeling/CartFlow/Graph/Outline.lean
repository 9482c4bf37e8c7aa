import CartFlow.Graph.Basic

/-!
# Outlines

The nodes below the entry of a tree, each in front of the nodes below it and with its
depth. Nodes that edges lead to from one node keep the order of the edges.
-/
namespace CartFlow.Graph

variable {α : Type}

/-- Takes nodes from a stack and puts the nodes below in their place, at most `fuel` times. -/
def unfold (tree : Graph α) : Nat → List (String × Nat) → List (String × Nat)
  | 0, _ => []
  | _, [] => []
  | fuel + 1, (id, depth) :: rest =>
    (id, depth) :: tree.unfold fuel ((tree.successorIds id).map (·, depth + 1) ++ rest)

/-- The nodes of a tree from its entry on, with their depths. In a tree no node is met twice,
so there are at most as many as the tree has nodes. -/
def outline (tree : Graph α) : List (String × Nat) :=
  match tree.entry with
  | none => []
  | some id => tree.unfold tree.size [(id, 0)]

end CartFlow.Graph
