import CartFlow.Flow.Stages
import CartFlow.Graph.Outline
import CartFlow.Report.CallGraph

/-!
# Analysis of a handler

A handler is analysed for its calls of the tracked routine: whether every way through
the handler makes them, and whether they are made in a loop. A call is on every way
if its block dominates the exit block.
-/
namespace CartFlow

/-- What an analysis needs: where routines come from, the tracked routine, and the limit of
dominator passes. -/
structure Analyzer where
  source : RoutineSource
  track : Address
  passLimit : Int := 0

structure Analysis where
  address : Address
  callGraph : CallGraph
  /-- The profile of the handler itself. -/
  root : Profile
  blocks : BlockGraph
  tree : BlockGraph
  loops : List Loop
  /-- Some call of the tracked routine is not made on every way. -/
  conditional : Bool
  /-- Some call of the tracked routine is made in a loop. -/
  inLoop : Bool

namespace Analysis

def makesCall (calls : List DirectCall) (b : Block) : Bool :=
  calls.any fun call => b.contains call.site

def nodeMakesCall (calls : List DirectCall) (g : BlockGraph) (id : String) :
    Except Failure Bool :=
  (g.node id).map fun n => makesCall calls n.data

/-- Whether some calling block of the tree does not dominate the exit. A graph of one block
has no conditional calls. -/
def hasConditionalCalls (calls : List DirectCall) (blocks tree : BlockGraph) :
    Except Failure Bool :=
  if blocks.size = 1 then .ok false
  else
    (tree.outline.map (·.1)).anyM fun id => do
      if ← nodeMakesCall calls tree id then
        return !(← tree.dominates id (blocks.exit.getD ""))
      else return false

def hasCallsInLoops (calls : List DirectCall) (blocks : BlockGraph) (loops : List Loop) :
    Except Failure Bool :=
  (loops.flatMap (·.nodes)).anyM (nodeMakesCall calls blocks)

end Analysis

namespace Analyzer

def analyze (a : Analyzer) (address : Address) : Traced Analysis := do
  Traced.report
    { level := .info, message := "Read routine", fields := [("address", .address address)] }
  let callGraph ← CallGraph.build a.source a.track address
  let root := callGraph.entryData?.getD { routine := { address } }
  let blocks ← BlockGraph.ofRoutine root.routine
  let tree ← (blocks.dominatorTree a.passLimit).during (.buildingTreeOf address)
  let loops ← Traced.ofExcept (during (.findingLoopsOf address) (blocks.loops tree))
  let calls := root.callsOf a.track
  let conditional ← Traced.ofExcept (Analysis.hasConditionalCalls calls blocks tree)
  let inLoop ← Traced.ofExcept (Analysis.hasCallsInLoops calls blocks loops)
  return { address, callGraph, root, blocks, tree, loops, conditional, inLoop }

end Analyzer

end CartFlow
