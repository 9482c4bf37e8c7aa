import CartFlow.Graph.NodeSet
import CartFlow.Graph.Search
import CartFlow.Log

/-!
# Dominator trees

A node dominates another if every way from the entry to the other passes through it.
The sets of dominators are found by iteration: the entry is dominated by itself
alone, all other sets start full, and a pass replaces the set of each node, in order
and in place, by what the sets of its predecessors have in common, together with the
node. Passes are repeated until one changes nothing; a limit on their number may end
the iteration before.

The parent of a node in the tree is the dominator that is closest by distance, the
first of these in the order of the nodes: the entry, then the others by identifier.
-/
namespace CartFlow.Graph

variable {α : Type}

/-- The nodes in the order of the iteration, with the positions of their predecessors. -/
structure Frame where
  ids : Array String
  predecessors : Array (List Nat)

namespace Frame

def ofGraph (g : Graph α) (entry : String) : Frame :=
  let ids := entry :: g.sortedIds.filter (· != entry)
  let positions := Std.HashMap.ofList ids.zipIdx
  { ids := ids.toArray
    predecessors := ids.toArray.map fun id =>
      (g.predecessorIds id).map fun p => positions.getD p ids.length }

def size (f : Frame) : Nat := f.ids.size

def id (f : Frame) (i : Nat) : String := f.ids.getD i ""

def predecessorsOf (f : Frame) (i : Nat) : List Nat := f.predecessors.getD i []

def inner (f : Frame) : List Nat := List.range' 1 (f.size - 1)

/-- The sets at the start: the entry alone for the entry, full sets for all others. -/
def start (f : Frame) : Array NodeSet :=
  (Array.range f.size).map fun i => if i = 0 then .single 0 else .below f.size

end Frame

def setAt (sets : Array NodeSet) (i : Nat) : NodeSet := sets.getD i .empty

def common (sets : Array NodeSet) : List Nat → NodeSet
  | [] => .empty
  | p :: rest => rest.foldl (fun s q => s.inter (setAt sets q)) (setAt sets p)

/-- Replaces the set of a node. A set only shrinks, so the new set is taken inside the old one. -/
def refine (f : Frame) (sets : Array NodeSet) (i : Nat) : Array NodeSet :=
  sets.modify i fun old => old.inter ((common sets (f.predecessorsOf i)).insert i)

/-- The reports on replacing the set of a node: one for each of its predecessors. -/
def refineRecords (f : Frame) (sets : Array NodeSet) (i : Nat) : List Record :=
  (f.predecessorsOf i).map fun p =>
    { level := .debug
      message := "Node has predecessor"
      fields :=
        [("node", .text (f.id i)), ("predecessor", .text (f.id p)),
         ("dominators", .number (setAt sets p).size)] }

/-- Replaces the sets of some nodes one after the other, with the reports. -/
def refineAll (f : Frame) : List Nat → Array NodeSet → Array Record → Array NodeSet × Array Record
  | [], sets, log => (sets, log)
  | i :: rest, sets, log =>
    refineAll f rest (refine f sets i) (log ++ refineRecords f sets i)

def pass (f : Frame) (sets : Array NodeSet) : Array NodeSet :=
  f.inner.foldl (refine f) sets

@[simp] theorem refineAll_fst (f : Frame) (is : List Nat) (sets : Array NodeSet)
    (log : Array Record) : (refineAll f is sets log).1 = is.foldl (refine f) sets := by
  induction is generalizing sets log with
  | nil => rfl
  | cons i rest ih => exact ih _ _

theorem size_refine (f : Frame) (sets : Array NodeSet) (i : Nat) :
    (refine f sets i).size = sets.size := by
  simp [refine]

theorem bits_refine_le (f : Frame) (sets : Array NodeSet) (i k : Nat) :
    (setAt (refine f sets i) k).bits ≤ (setAt sets k).bits := by
  simp only [setAt, refine, Array.getD_eq_getD_getElem?, Array.getElem?_modify]
  split
  · next h =>
    subst h
    cases sets[i]? with
    | none => exact Nat.le_refl _
    | some s => exact NodeSet.bits_inter_le s _
  · exact Nat.le_refl _

theorem size_foldl_refine (f : Frame) (is : List Nat) (sets : Array NodeSet) :
    (is.foldl (refine f) sets).size = sets.size := by
  induction is generalizing sets with
  | nil => rfl
  | cons i rest ih => rw [List.foldl_cons, ih, size_refine]

theorem bits_foldl_refine_le (f : Frame) (is : List Nat) (sets : Array NodeSet) (k : Nat) :
    (setAt (is.foldl (refine f) sets) k).bits ≤ (setAt sets k).bits := by
  induction is generalizing sets with
  | nil => exact Nat.le_refl _
  | cons i rest ih => exact Nat.le_trans (ih _) (bits_refine_le f sets i k)

/-- The sum of numbers over a list. -/
def total (p : Nat → Nat) : List Nat → Nat
  | [] => 0
  | i :: rest => p i + total p rest

/-- The sum of the sets read as numbers. -/
def weight (sets : Array NodeSet) : Nat :=
  total (fun k => (setAt sets k).bits) (List.range sets.size)

theorem total_le_total {p q : Nat → Nat} (hle : ∀ i, p i ≤ q i) (l : List Nat) :
    total p l ≤ total q l := by
  induction l with
  | nil => exact Nat.le_refl _
  | cons i l ih =>
    have := hle i
    simp only [total]
    omega

theorem total_lt_total {p q : Nat → Nat} {l : List Nat} {k : Nat} (hk : k ∈ l)
    (hle : ∀ i, p i ≤ q i) (hlt : p k < q k) : total p l < total q l := by
  induction l with
  | nil => cases hk
  | cons i l ih =>
    have hi := hle i
    have hl := total_le_total hle l
    simp only [total]
    rcases List.mem_cons.1 hk with rfl | hk
    · omega
    · have := ih hk
      omega

/-- A pass that changes a set makes the sets lighter. -/
theorem weight_pass_lt {f : Frame} {sets : Array NodeSet} (h : pass f sets ≠ sets) :
    weight (pass f sets) < weight sets := by
  have hsize : (pass f sets).size = sets.size := size_foldl_refine f f.inner sets
  have hle := bits_foldl_refine_le f f.inner sets
  have hex : ∃ k, k < sets.size ∧ setAt (pass f sets) k ≠ setAt sets k := by
    apply Classical.byContradiction
    intro hno
    apply h
    apply Array.ext hsize
    intro k hk hk'
    have heq : setAt (pass f sets) k = setAt sets k :=
      Classical.byContradiction fun hne => hno ⟨k, hk', hne⟩
    simpa [setAt, Array.getD, hk, hk'] using heq
  obtain ⟨k, hk, hne⟩ := hex
  have hbits : (setAt (pass f sets) k).bits ≠ (setAt sets k).bits := by
    intro heq
    apply hne
    cases hp : setAt (pass f sets) k
    cases hs : setAt sets k
    simp_all
  rw [weight, weight, hsize]
  exact total_lt_total (List.mem_range.2 hk) hle
    (Nat.lt_of_le_of_ne (hle k) hbits)

/-- Repeats passes until one changes nothing. `passes` have changed something so far, and a
positive limit is the number of changing passes at which the iteration gives up. -/
def stabilize (f : Frame) (limit : Int) (passes : Nat) (sets : Array NodeSet)
    (log : Array Record) : Traced (Array NodeSet) :=
  match h : refineAll f f.inner sets log with
  | (next, reports) =>
    if hsame : next = sets then ⟨reports.toList, .ok sets⟩
    else if 0 < limit ∧ limit ≤ (passes + 1 : Nat) then ⟨reports.toList, fail (.passLimit limit)⟩
    else stabilize f limit (passes + 1) next reports
termination_by weight sets
decreasing_by
  have hnext : next = pass f sets := by rw [pass, ← refineAll_fst f f.inner sets log, h]
  subst hnext
  exact weight_pass_lt hsame

def dominatorSets (f : Frame) (limit : Int) : Traced (Array NodeSet) :=
  match f.inner.find? fun i => (f.predecessorsOf i).isEmpty with
  | some i => Traced.ofExcept (fail (.noPredecessor (f.id i)))
  | none => stabilize f limit 0 f.start #[]

/-- The parent of a node: the closest of its other dominators. -/
def parent (g : Graph α) (f : Frame) (sets : Array NodeSet) (i : Nat) :
    Except Failure String :=
  let others := ((setAt sets i).members f.size).filter (· != i)
  let levels := g.levelsTo (f.id i)
  match closest (levelOf? levels) (others.map f.id) with
  | some id => .ok id
  | none => fail (.noDominator (f.id i))

/-- The nodes of a frame with their data and without edges. -/
def bare (g : Graph α) (f : Frame) : Graph α :=
  f.ids.foldl (fun tree id =>
    match g.node? id with
    | some n => tree.insert id n.data
    | none => tree) empty

def linkParents (g : Graph α) (f : Frame) (sets : Array NodeSet) : Except Failure (Graph α) := do
  let tree ← f.inner.foldlM (fun tree i => do
    let id ← g.parent f sets i
    tree.addEdge id (f.id i) 0) (g.bare f)
  tree.setEntry (f.id 0)

/-- The dominator tree; a positive limit bounds the passes of the iteration. -/
def dominatorTree (g : Graph α) (limit : Int) : Traced (Graph α) := do
  match g.entry with
  | none => Traced.ofExcept (fail .noEntry)
  | some entry =>
    let f := Frame.ofGraph g entry
    let sets ← dominatorSets f limit
    Traced.ofExcept (g.linkParents f sets)

/-- Whether a node dominates another in a dominator tree; every node dominates itself. -/
def dominates (tree : Graph α) (a b : String) : Except Failure Bool := do
  let _ ← during .dominatedNode (tree.node b)
  if a = b then return true
  during .dominatorNode (tree.reachable a b)

end CartFlow.Graph
