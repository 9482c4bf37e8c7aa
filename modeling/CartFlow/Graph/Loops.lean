import CartFlow.Graph.Dominators
import CartFlow.Text.Split

/-!
# Natural loops

An edge whose target dominates its source closes a loop. The loop of such an edge
consists of the target, its header, and all nodes from which the source, its tail, can
be reached without passing the header. A node with an edge to itself is a loop of its
own.
-/
namespace CartFlow

/-- A loop: the ends of the edge that closes it and its nodes in the order of discovery. -/
structure Loop where
  header : String
  tail : String
  nodes : List String
  deriving DecidableEq, Repr

namespace Loop

/-- Whether an identifier comes before another: shorter ones first, then by characters. -/
def before (a b : String) : Bool :=
  if a.utf8ByteSize = b.utf8ByteSize then !(b < a) else a.utf8ByteSize < b.utf8ByteSize

def sorted (l : Loop) : List String :=
  l.nodes.mergeSort before

def text (l : Loop) : String :=
  ", ".intercalate l.sorted

/-- The nodes as the text lists them. -/
def listed (l : Loop) : List String :=
  Text.split ", " l.text

/-- The text lists the nodes, unless the name of one has a comma. -/
theorem listed_eq_sorted {l : Loop} (hne : l.nodes ≠ []) (hids : ∀ id ∈ l.nodes, ',' ∉ id.toList) :
    l.listed = l.sorted := by
  have hseparator : ", ".toList = [',', ' '] := rfl
  apply Text.split_intercalate hseparator
  · intro hnil
    have hperm := List.mergeSort_perm l.nodes before
    rw [sorted] at hnil
    rw [hnil] at hperm
    exact hne hperm.nil_eq.symm
  · intro id hid
    exact hids id (List.mem_mergeSort.1 hid)

end Loop

namespace Graph

variable {α : Type}

/-- Extends a loop backwards: `members` are found already, the pool has the other nodes, and
the predecessors of those on the stack are still to be looked at. -/
def growLoop (g : Graph α) (members : Array String) (pool : Pool) : List String → Array String
  | [] => members
  | id :: rest =>
    match _h : draw pool (g.predecessorIds id) with
    | (found, left) => g.growLoop (members ++ found) left (found.reverse ++ rest)
termination_by stack => (pool.size, stack.length)
decreasing_by
  have := length_draw pool (g.predecessorIds id)
  rw [_h] at this
  cases found with
  | nil =>
    have hsize : left.size = pool.size := by simpa using this
    rw [hsize]
    exact Prod.Lex.right _ (by simp)
  | cons a found =>
    apply Prod.Lex.left
    simp only [List.length_cons] at this
    omega

def naturalLoop (g : Graph α) (tail header : String) : Except Failure Loop := do
  let _ ← g.node tail
  let pool := (g.index.erase tail).erase header
  return ⟨header, tail, (g.growLoop #[tail, header] pool [tail]).toList⟩

def selfLoops (g : Graph α) : List Loop :=
  (g.ids.filter fun id => g.hasEdge id id).map fun id => ⟨id, id, [id]⟩

def loopsOfEdges (g tree : Graph α) : List Edge → Except Failure (List Loop)
  | [] => .ok []
  | e :: rest =>
    if e.source = e.target then g.loopsOfEdges tree rest
    else do
      let back ← during (.checkingEdge e.source e.target) (tree.dominates e.target e.source)
      if back then
        let l ← g.naturalLoop e.source e.target
        return l :: (← g.loopsOfEdges tree rest)
      else g.loopsOfEdges tree rest

/-- All loops: those of single nodes in the order of the nodes, then the others in the order of
the edges that close them. -/
def loops (g tree : Graph α) : Except Failure (List Loop) :=
  (g.loopsOfEdges tree g.edges.toList).map (g.selfLoops ++ ·)

end Graph

end CartFlow
