import CartFlow.Flow.BlockGraph
import CartFlow.Graph.Loops
import CartFlow.Routine.Reader

/-!
# Stages of the analysis

A routine is read, then its control flow graph, its dominator tree and its loops are
found; each stage needs the ones before. An analysis may be cancelled: it asks before
each stage whether to go on, and so does everything else that takes long.
-/
namespace CartFlow

open Processor Cartridge

/-- How many more times an analysis that asks is told to go on; `none` for always. -/
structure Patience where
  remaining : Option Nat := none
  deriving DecidableEq, Repr

namespace Patience

def ask (p : Patience) : Except Failure Patience :=
  match p.remaining with
  | none => .ok p
  | some 0 => fail .cancelled
  | some (n + 1) => .ok ⟨some n⟩

/-- What is left after asking a number of times, all of them with success. -/
def after (p : Patience) (times : Nat) : Patience :=
  ⟨p.remaining.map (· - times)⟩

end Patience

inductive Stage
  | routine
  | blocks
  | dominators
  | loops
  deriving DecidableEq, Repr

structure Findings where
  routine : Routine
  blocks : Option BlockGraph := none
  tree : Option BlockGraph := none
  loops : List Loop := []

namespace Findings

def upTo (last : Stage) (read : Traced Routine) (passLimit : Int) (patience : Patience) :
    Traced Findings := do
  let patience ← Traced.ofExcept patience.ask
  let routine ← read
  if last = .routine then return { routine }
  let patience ← Traced.ofExcept patience.ask
  let blocks ← BlockGraph.ofRoutine routine
  if last = .blocks then return { routine, blocks := some blocks }
  let patience ← Traced.ofExcept patience.ask
  let tree ← (blocks.dominatorTree passLimit).during .buildingTree
  if last = .dominators then return { routine, blocks := some blocks, tree := some tree }
  let _ ← Traced.ofExcept patience.ask
  let loops ← Traced.ofExcept (during .findingLoops (blocks.loops tree))
  return { routine, blocks := some blocks, tree := some tree, loops }

end Findings

end CartFlow
