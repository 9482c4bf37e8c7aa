import CartFlow.Report.Analysis

/-!
# Verdicts on handlers

A handler is fine if it makes its calls of the tracked routine on every way and
outside of loops, makes no indexed calls, and calls no routine that calls the tracked
one. Handlers may also be ignored on request, or fail to be analysed.
-/
namespace CartFlow

inductive Status
  | ko
  | ok
  | ignored
  | failed
  deriving DecidableEq, Repr

namespace Status

def name : Status → String
  | ko => "KO"
  | ok => "OK"
  | ignored => "Ignored"
  | failed => "Failed"

/-- The name of the verdict with a number; other numbers are shown as they are. -/
def nameOf : Nat → String
  | 0 => ko.name
  | 1 => ok.name
  | 2 => ignored.name
  | 3 => failed.name
  | n => "Status(" ++ toString n ++ ")"

end Status

/-- A routine below a handler that calls the tracked routine. -/
structure CallingRoutine where
  address : Address
  /-- The number of its calls of the tracked routine. -/
  count : Nat
  /-- Its distance from the handler in the call graph, `none` if no calls lead to it. -/
  depth : Option Nat
  deriving DecidableEq, Repr

structure Handler where
  address : Address
  calls : Nat := 0
  indexedCalls : Nat := 0
  jumps : Nat := 0
  subroutines : List CallingRoutine := []
  conditional : Bool := false
  inLoop : Bool := false
  status : Status
  /-- Why the analysis failed. -/
  failure : Option Failure := none
  deriving DecidableEq, Repr

namespace Handler

/-- The routines of a call graph other than the handler that call the tracked routine. -/
def callers (g : CallGraph) (track : Address) : List (Node Profile) :=
  g.nodes.toList.filter fun n => g.entry != some n.id && n.data.callCount track != 0

/-- The routines below the handler that call the tracked routine, with their distances. -/
def subroutinesOf (g : CallGraph) (track : Address) : Except Failure (List CallingRoutine) :=
  (callers g track).mapM fun n => do
    let depth ← g.distance (g.entry.getD "") n.id
    return ⟨n.data.routine.address, n.data.callCount track, depth⟩

def verdict (calls indexedCalls : Nat) (subroutines : List CallingRoutine)
    (conditional inLoop : Bool) : Status :=
  if (0 < calls ∧ (conditional ∨ inLoop)) ∨ 0 < indexedCalls ∨ subroutines ≠ [] then .ko else .ok

def ofAnalysis (a : Analysis) (track : Address) : Except Failure Handler := do
  let subroutines ← subroutinesOf a.callGraph track
  let calls := a.root.callCount track
  let indexedCalls := a.root.indexedCalls.length
  return {
    address := a.address
    calls
    indexedCalls
    jumps := a.root.jumps.length
    subroutines
    conditional := a.conditional
    inLoop := a.inLoop
    status := verdict calls indexedCalls subroutines a.conditional a.inLoop }

end Handler

end CartFlow
