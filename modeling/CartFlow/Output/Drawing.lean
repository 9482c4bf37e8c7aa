import CartFlow.Distinct
import CartFlow.Flow.BlockGraph
import CartFlow.Graph.Basic
import CartFlow.Text.Quoted

/-!
# Drawings

Graphs as text for a drawing program. A plain graph shows every node and one edge for
each pair of nodes that edges join. A control flow graph leaves out blocks that
neither call nor decide anything: it shows the first block, blocks with calls, blocks
with more than one successor and blocks without any, and edges between them lead over
the blocks that are left out.
-/
namespace CartFlow.Drawing

open Text

def escaped (s : String) : String :=
  String.join (s.toList.map fun c =>
    match c with
    | '&' => "&amp;"
    | '<' => "&lt;"
    | '>' => "&gt;"
    | '"' => "&quot;"
    | c => String.singleton c)

def isNameChar (c : Char) : Bool :=
  c.isAlphanum || c == '_'

/-- The name of a node; other characters are replaced by their codes. -/
def nodeName (s : String) : String :=
  "n_" ++ String.join (s.toList.map fun c =>
    if isNameChar c then String.singleton c else "_" ++ lowerHex 4 c.toNat)

def caption (color text : String) : String :=
  "<<font face=\"Helvetica Neue,Helvetica\" point-size=\"8\" color=\"" ++ color ++ "\">" ++
    escaped text ++ "</font>>"

/-- The lines of a title in the upper left corner. -/
def titleLines (color title : String) : List String :=
  ["  labelloc=t;", "  labeljust=l;", "  label=" ++ caption color title ++ ";"]

def unlines (lines : List String) : String :=
  String.join (lines.map (· ++ "\n"))

def nodeLine (id : String) : String :=
  let style :=
    if id == "main" then ", fillcolor=\"#0B3D91\", fontcolor=white, penwidth=0"
    else if id.startsWith "anon#" then
      ", style=\"filled,dashed\", color=\"#9E9E9E\", fontcolor=\"#9E9E9E\""
    else ""
  "  " ++ nodeName id ++ " [label=" ++ quoted id ++ style ++ "];"

def plain {α : Type} (title : String) (g : Graph α) : String :=
  let pairs := distinct (g.edges.toList.map fun e => (e.source, e.target))
  unlines <|
    ["digraph callgraph \x7b",
     "  rankdir=LR;",
     "  splines=true;",
     "  nodesep=0.4;",
     "  ranksep=0.6;",
     "  bgcolor=\"#F5F5F5\";",
     "  node [shape=rect, style=filled, fillcolor=white, color=\"#1A1A1A\", penwidth=0.5, " ++
       "fontname=\"Helvetica Neue,Helvetica,Arial\", fontsize=9, fontcolor=\"#1A1A1A\", " ++
       "height=0.3, margin=\"0.12,0.06\"];",
     "  edge [color=\"#9E9E9E\", penwidth=0.5, arrowsize=0.5, arrowhead=vee];"] ++
    (if title.isEmpty then [] else titleLines "#1A1A1A" title) ++
    [""] ++
    g.ids.map nodeLine ++
    [""] ++
    pairs.map (fun (a, b) => "  " ++ nodeName a ++ " -> " ++ nodeName b ++ ";") ++
    ["\x7d"]

structure Shape where
  number : Nat
  /-- The called routines. -/
  calls : List String
  /-- The numbers of the blocks that edges lead to, with the conditions. -/
  successors : List (Nat × Option Char)

namespace Shape

def visible (s : Shape) : Bool :=
  s.number == 0 || !s.calls.isEmpty || s.successors.length != 1

def name (number : Nat) : String :=
  "f0_b" ++ toString number

def callRow (color text : String) : String :=
  "<tr><td align=\"left\"><font point-size=\"8\" color=\"" ++ color ++ "\">" ++ text ++
    "</font></td></tr>"

/-- The label of a block: its calls, the first ten by name. -/
def label (s : Shape) : String :=
  let first := s.number == 0
  let text := if first then "#FAF6F0" else "#2D2D2D"
  let rest := if first then "#D4C5A9" else "#8B7355"
  if s.calls.isEmpty then "<<font point-size=\"8\" color=\"#FAF6F0\">entry</font>>"
  else
    "<<table border=\"0\" cellborder=\"0\" cellspacing=\"0\" cellpadding=\"2\">" ++
      String.join ((s.calls.take 10).map (callRow text)) ++
      (if 10 < s.calls.length then
        callRow rest ("+" ++ toString (s.calls.length - 10) ++ " more")
       else "") ++
      "</table>>"

def line (s : Shape) : String :=
  "    " ++ name s.number ++
    (if s.number == 0 then
      " [label=" ++ s.label ++ ", style=filled, fillcolor=\"#2D2D2D\", " ++
        "fontcolor=\"#FAF6F0\", color=\"#2D2D2D\", penwidth=0];"
    else if s.calls.isEmpty && 1 < s.successors.length then
      " [label=\"\", shape=diamond, width=0.15, height=0.15, color=\"#2D2D2D\", penwidth=0.3];"
    else if s.calls.isEmpty && s.successors.isEmpty then
      " [label=\"ret\", shape=plaintext, fontsize=8, fontcolor=\"#8E8E8E\"];"
    else " [label=" ++ s.label ++ "];")

/-- The visible block that a way over blocks that are left out leads to, if it does not run in
a circle; such a way is shorter than the number of blocks. -/
def resolve (shapes : Array Shape) : Nat → Nat → Option Nat
  | 0, _ => none
  | fuel + 1, number =>
    match shapes[number]? with
    | none => none
    | some s =>
      if s.visible then some number
      else s.successors.head?.bind fun (next, _) => resolve shapes fuel next

def edgeLine (source : Nat) : Nat × Option Char → String
  | (target, none) => "    " ++ name source ++ " -> " ++ name target ++ ";"
  | (target, some condition) =>
    let color := if condition == 'T' then "#2D4A7A" else "#BF3F2F"
    "    " ++ name source ++ " -> " ++ name target ++ " [color=\"" ++ color ++
      "\", label=<<font point-size=\"8\" color=\"" ++ color ++ "\">" ++
      String.singleton condition ++ "</font>>];"

/-- The first edge to each target. -/
def distinctTargets (edges : List (Nat × Option Char)) : List (Nat × Option Char) :=
  edges.foldl (fun kept e => if kept.any (·.1 == e.1) then kept else kept ++ [e]) []

/-- The edges of a block, drawn to visible blocks. Two conditions that lead to the same block
make one plain edge. -/
def edgeLines (shapes : Array Shape) (s : Shape) : List String :=
  let edges := s.successors.filterMap fun (number, condition) =>
    (resolve shapes (shapes.size + 1) number).map (·, condition)
  match edges with
  | [(a, some _), (b, some _)] =>
    if a = b then [edgeLine s.number (a, none)] else edges.map (edgeLine s.number)
  | _ => (distinctTargets edges).map (edgeLine s.number)

def calleeLine (callee : String) : String :=
  "  " ++ nodeName callee ++ " [label=" ++ quoted callee ++ ", shape=plaintext, " ++
    (if callee == "computed" then "fontcolor=\"#BF3F2F\", fontsize=8];"
     else "fontname=\"Courier,monospace\", fontcolor=\"#8E8E8E\", fontsize=8];")

def callLine (number : Nat) (callee : String) : String :=
  "  " ++ name number ++ " -> " ++ nodeName callee ++
    (if callee == "computed" then " [color=\"#BF3F2F\", style=dashed, penwidth=0.3];"
     else " [color=\"#8E8E8E\", style=dotted, penwidth=0.2];")

/-- The calls of a block; a routine that was not drawn before is drawn first. -/
def callLines (drawn : Std.HashSet String) (s : Shape) : List String :=
  (distinct s.calls).flatMap fun callee =>
    (if drawn.contains callee then [] else [calleeLine callee]) ++ [callLine s.number callee]

def allCallLines : Std.HashSet String → List Shape → List String
  | _, [] => []
  | drawn, s :: rest => callLines drawn s ++ allCallLines (drawn.insertMany s.calls) rest

end Shape

def condition (label : UInt8) : Option Char :=
  if label = Edge.taken then some 'T'
  else if label = Edge.notTaken then some 'F'
  else none

def callee (i : Instruction) : Except Failure String := do
  match ← during (.callAt i.address) i.target with
  | some target => return hexAddress target
  | none => return "computed"

def shapes (g : BlockGraph) : Except Failure (List Shape) :=
  g.nodes.toList.zipIdx.mapM fun (n, number) => do
    let calls ← (n.data.instructions.toList.filter (·.has .call)).mapM callee
    return {
      number
      calls
      successors := (g.successors n.id).map fun e =>
        (g.index.getD e.target g.size, condition e.label) }

def blocks (title : String) (g : BlockGraph) : Except Failure String := do
  let all ← shapes g
  let shown := all.filter (·.visible)
  return unlines <|
    ["digraph cfg \x7b",
     "  rankdir=LR;",
     "  splines=true;",
     "  nodesep=0.5;",
     "  ranksep=0.6;",
     "  compound=true;",
     "  bgcolor=\"#FAF6F0\";",
     "  node [shape=rect, style=\"\", color=\"#8E8E8E\", penwidth=0.3, " ++
       "fontname=\"Helvetica Neue,Helvetica,Arial\", fontsize=8, fontcolor=\"#2D2D2D\", " ++
       "height=0.3, margin=\"0.14,0.08\"];",
     "  edge [color=\"#8E8E8E\", penwidth=0.4, arrowsize=0.35, arrowhead=vee];"] ++
    titleLines "#2D2D2D" title ++
    ["",
     "  subgraph cluster_0 \x7b",
     "    label=" ++ caption "#2D2D2D" title ++ ";",
     "    style=dotted;",
     "    color=\"#8E8E8E\";",
     "    penwidth=0.3;"] ++
    shown.map (·.line) ++
    shown.flatMap (Shape.edgeLines all.toArray) ++
    ["  \x7d", ""] ++
    Shape.allCallLines ∅ shown ++
    ["\x7d"]

end CartFlow.Drawing
