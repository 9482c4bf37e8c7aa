import CartFlow.Flow.Block
import CartFlow.Graph.Basic
import CartFlow.Log
import CartFlow.Routine.Basic

/-!
# Control flow graphs

The graph of a routine is built in one walk over its instructions, in the order in
which they were found. Blocks start at the entry of the routine, at targets of
branches and behind conditional branches. The walk knows the block that the next
instruction belongs to; behind an unconditional branch there is none, and the next
instruction has to start a block that is known already.

At most one block other than the entry may be without successors; it is the exit of
the graph, or the entry is if there is no such block.
-/
namespace CartFlow

open Text

abbrev BlockGraph := Graph Block

namespace BlockGraph

/-- The state of the walk. -/
structure Walk where
  graph : BlockGraph
  /-- The block that the next instruction belongs to, if control can reach it from above. -/
  current : Option String

def addBlock (g : BlockGraph) (address : Address) : BlockGraph :=
  g.insert (Block.idOf address) { address }

def labels (instructions : List Instruction) : Except Failure (Std.HashSet Address) := do
  let targets ← (instructions.filter (·.has .branch)).mapM (·.staticTarget)
  return .ofList targets

namespace Walk

/-- Starts a block at the target of a branch; the block above leads to it if control
falls through. -/
def enterLabel : Walk → Address → Except Failure Walk
  | ⟨graph, current⟩, address => do
    let id := Block.idOf address
    let graph := addBlock graph address
    match current with
    | none => return ⟨graph, some id⟩
    | some above =>
      if above = id then return ⟨graph, some id⟩
      else return ⟨← graph.addEdge above id 0, some id⟩

def blockOf (w : Walk) (i : Instruction) : Except Failure String :=
  match w.current with
  | some id => .ok id
  | none =>
    (during (.behindBranch i.address) (w.graph.node (Block.idOf i.address))).map (·.id)

def append (w : Walk) (i : Instruction) : Except Failure (Walk × String) :=
  match w.blockOf i with
  | .ok id => .ok (⟨w.graph.modify id (·.push i), some id⟩, id)
  | .error e => .error e

def endBlock (w : Walk) (i : Instruction) : Except Failure Walk := do
  let (w, id) ← w.append i
  let target ← i.staticTarget
  if i.has .unconditional then
    let graph := addBlock w.graph target
    return ⟨← graph.addEdge id (Block.idOf target) 0, none⟩
  else
    let below := Block.idOf i.nextAddress
    let graph := addBlock (addBlock w.graph i.nextAddress) target
    let graph ← graph.addEdge id below Edge.notTaken
    let graph ← graph.addEdge id (Block.idOf target) Edge.taken
    return ⟨graph, some below⟩

def feed (labels : Std.HashSet Address) (w : Walk) (i : Instruction) : Except Failure Walk := do
  let w ← if labels.contains i.address then w.enterLabel i.address else pure w
  if i.has .branch then w.endBlock i else (w.append i).map (·.1)

def records (labels : Std.HashSet Address) (i : Instruction) : List Record :=
  let found (what : String) : Record :=
    { level := .debug, message := "Found " ++ what, fields := [("address", .address i.address)] }
  (if labels.contains i.address then [found "label"] else []) ++
    (if i.has .branch then [found "branch"] else [])

/-- Takes instructions one after the other; `log` is what was reported before. -/
def feedAll (labels : Std.HashSet Address) :
    List Instruction → Walk → Array Record → Traced Walk
  | [], w, log => ⟨log.toList, .ok w⟩
  | i :: rest, w, log =>
    match w.feed labels i with
    | .ok w => feedAll labels rest w (log ++ records labels i)
    | .error e => ⟨(log ++ records labels i).toList, .error e⟩

@[simp] theorem outcome_feedAll (labels : Std.HashSet Address) (is : List Instruction) (w : Walk)
    (log : Array Record) :
    (feedAll labels is w log).outcome = is.foldlM (feed labels) w := by
  induction is generalizing w log with
  | nil => rfl
  | cons i rest ih =>
    rw [feedAll, List.foldlM_cons]
    cases w.feed labels i with
    | error e => rfl
    | ok w => exact ih w _

end Walk

def start (address : Address) : Walk where
  graph := { addBlock .empty address with entry := some (Block.idOf address) }
  current := some (Block.idOf address)

/-- The blocks other than the entry that no edge leaves. -/
def deadEnds (g : BlockGraph) : List (Node Block) :=
  g.nodes.toList.filter fun n => n.outgoing.isEmpty && g.entry != some n.id

def chooseExit (g : BlockGraph) : Except Failure BlockGraph :=
  match deadEnds g with
  | [] => .ok { g with exit := g.entry }
  | [n] => .ok { g with exit := some n.id }
  | m :: n :: _ => fail (.multipleExits m.data.address n.data.address)

def ofRoutine (r : Routine) : Traced BlockGraph :=
  Traced.during (.buildingGraph r.address) do
    let instructions := r.instructions.toList
    let labels ← Traced.ofExcept (labels instructions)
    let w ← Walk.feedAll labels instructions (start r.address) #[]
    Traced.ofExcept (chooseExit w.graph)

end BlockGraph

end CartFlow
