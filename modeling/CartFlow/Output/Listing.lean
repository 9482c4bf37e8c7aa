import CartFlow.Flow.BlockGraph
import CartFlow.Graph.Loops
import CartFlow.Graph.Outline
import CartFlow.Output.Document
import CartFlow.Quicksort

/-!
# Listings

The text forms of a routine, its control flow graph, its dominator tree and its
loops. Instructions may be shown with their addresses and with their bytes as a
comment.
-/
namespace CartFlow

open Text

structure Listing where
  addresses : Bool := true
  bytes : Bool := false
  deriving DecidableEq, Repr

namespace Listing

/-- The column at which the bytes of an instruction start at the earliest. -/
def bytesColumn : Nat := 32

def fill (line : String) : String :=
  line ++ String.ofList (List.replicate (bytesColumn - line.utf8ByteSize) ' ')

def bytesText (i : Instruction) : String :=
  " ".intercalate (i.bytes.map hexByte)

def instruction (l : Listing) (i : Instruction) : Document :=
  Document.ofExcept (i.text l.addresses) fun text =>
    let line := "  " ++ text
    Document.part "instruction"
      ((if l.bytes then fill line ++ " ; " ++ bytesText i else line) ++ "\n")

/-- The line of a label, behind an empty line unless it is the first. -/
def label (first : Bool) (address : Address) : Document :=
  (if first then {} else Document.part "line" "\n") ++
    Document.part "label" ("L_" ++ hexAddress address ++ ":\n")

def labels (instructions : List Instruction) : Std.HashSet Address :=
  .ofList <|
    (instructions.filter (·.opcode.attributes.hasAny (.branch ∪ .jump))).filterMap (·.knownTarget?)

/-- The listing of a routine by ascending address, with labels at the targets of branches
and jumps. -/
def routine (l : Listing) (r : Routine) : Document :=
  let instructions := (Quicksort.sort (fun i j => i.address < j.address) r.instructions).toList
  let labels := labels instructions
  Document.part "routine header" ("; routine " ++ hexAddress r.address ++ "\n") ++
    Document.concat (instructions.zipIdx.map fun (i, k) =>
      (if labels.contains i.address then label (k == 0) i.address else {}) ++ l.instruction i)

def marker (g : BlockGraph) (id : String) : String :=
  let markers := (if g.entry == some id then ["entry"] else []) ++
    (if g.exit == some id then ["exit"] else [])
  if markers.isEmpty then "" else " (" ++ ", ".intercalate markers ++ ")"

def condition (label : UInt8) : String :=
  if label = Edge.taken then " (taken)"
  else if label = Edge.notTaken then " (not taken)"
  else ""

def edge (g : BlockGraph) (e : Edge) : Document :=
  Document.ofExcept (g.node e.target) fun n =>
    Document.part "edge" ("  -> " ++ n.data.name ++ condition e.label ++ "\n")

def block (l : Listing) (g : BlockGraph) (n : Node Block) : Document :=
  Document.part "block header" ("block " ++ n.data.name ++ marker g n.id ++ ":\n") ++
    Document.concat (n.data.instructions.toList.map l.instruction) ++
    Document.concat ((g.successors n.id).map (edge g))

/-- The listing of a control flow graph, its blocks separated by empty lines. -/
def blocks (l : Listing) (g : BlockGraph) : Document :=
  Document.concat (g.nodes.toList.zipIdx.map fun (n, k) =>
    (if k == 0 then {} else Document.part "line" "\n") ++ l.block g n)

/-- The listing of a dominator tree, indented by depth. -/
def tree (t : BlockGraph) : Document :=
  Document.concat (t.outline.map fun (id, depth) =>
    Document.ofExcept (t.node id) fun n =>
      Document.part "tree node"
        (String.ofList (List.replicate (2 * depth) ' ') ++ n.data.name ++ "\n"))

def loop (g : BlockGraph) (k : Nat) (l : Loop) : Document :=
  Document.ofExcept (l.listed.mapM fun id => during (.loopNumber k) (g.node id)) fun nodes =>
    Document.part "loop"
      ("loop " ++ toString k ++ ": back edge " ++ l.tail ++ " -> " ++ l.header ++ ": " ++
        ", ".intercalate (nodes.map (·.data.name)) ++ "\n")

def loops (g : BlockGraph) (ls : List Loop) : Document :=
  if ls.isEmpty then Document.part "loops" "no loops\n"
  else Document.concat (ls.zipIdx.map fun (l, k) => loop g k l)

end Listing

end CartFlow
