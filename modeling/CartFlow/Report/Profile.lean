import CartFlow.Routine.Basic

/-!
# Call profiles

The calls and jumps of a routine, in the order of its instructions. A call through an
indexed table has no target; every other call has to be among the recorded calls of
the routine, which also have the flags it was made with.
-/
namespace CartFlow

/-- A call with a known target. -/
structure DirectCall where
  /-- The routine that contains the call. -/
  caller : Address
  /-- The address of the call. -/
  site : Address
  target : CalledRoutine
  deriving DecidableEq, Repr

/-- A jump, with its target unless that is computed while the program runs. -/
structure JumpSite where
  site : Address
  target : Option Address
  deriving DecidableEq, Repr

structure Profile where
  routine : Routine
  calls : List DirectCall := []
  jumps : List JumpSite := []
  indexedCalls : List Address := []

namespace Profile

def add (p : Profile) (i : Instruction) : Except Failure Profile :=
  if i.has .call then
    if i.isIndexedCall then .ok { p with indexedCalls := p.indexedCalls ++ [i.address] }
    else do
      let target ← i.staticTarget
      match p.routine.call? target with
      | none => fail (.unrecordedCall i.address target)
      | some target =>
        return { p with calls := p.calls ++ [⟨p.routine.address, i.address, target⟩] }
  else if i.has .jump then do
    let target ← i.target
    return { p with jumps := p.jumps ++ [⟨i.address, target⟩] }
  else .ok p

def ofRoutine (routine : Routine) : Except Failure Profile :=
  routine.instructions.toList.foldlM add { routine }

def callsOf (p : Profile) (target : Address) : List DirectCall :=
  p.calls.filter (·.target.address == target)

def callCount (p : Profile) (target : Address) : Nat :=
  (p.callsOf target).length

end Profile

end CartFlow
