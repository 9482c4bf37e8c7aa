import CartFlow.Routine.Instruction
import Std.Data.HashSet

/-!
# Routines

A routine holds its instructions in the order in which they were found, the
addresses that are still to be read, and the subroutines it calls with the flags at
the first call of each. Which addresses are read already is kept beside the
instructions, so that asking costs little.
-/
namespace CartFlow

open Processor

/-- A called subroutine and the flags at its first call. -/
structure CalledRoutine where
  address : Address
  flags : Flags
  deriving DecidableEq, Repr

/-- What is known of a routine while it is being read and afterwards. -/
structure Routine where
  address : Address
  instructions : Array Instruction := #[]
  /-- The addresses of the instructions. -/
  known : Std.HashSet Address := {}
  /-- The addresses that are still to be read, each once. -/
  pending : List Address := []
  /-- The called subroutines in the order of their first calls, each once. -/
  calls : List CalledRoutine := []

namespace Routine

def isKnown (r : Routine) (address : Address) : Bool :=
  r.known.contains address

/-- Adds an instruction; its address is not to be read any more. -/
def addInstruction (r : Routine) (i : Instruction) : Routine :=
  { r with
    instructions := r.instructions.push i
    known := r.known.insert i.address
    pending := r.pending.filter (· != i.address) }

def addPending (r : Routine) (address : Address) : Routine :=
  if r.isKnown address || r.pending.contains address then r
  else { r with pending := r.pending ++ [address] }

def dropPending (r : Routine) (address : Address) : Routine :=
  { r with pending := r.pending.filter (· != address) }

def call? (r : Routine) (address : Address) : Option CalledRoutine :=
  r.calls.find? (·.address == address)

/-- Notes a call; only the flags of the first call of a subroutine are kept. -/
def addCall (r : Routine) (address : Address) (flags : Flags) : Routine :=
  if (r.call? address).isSome then r
  else { r with calls := r.calls ++ [⟨address, flags⟩] }

def sortedCalls (r : Routine) : List CalledRoutine :=
  r.calls.mergeSort fun a b => a.address ≤ b.address

end Routine

/-- A choice of the next address to read. The reader works with every such
choice, so nothing may depend on a particular one. -/
structure PopOrder where
  next : Routine → Option Address
  mem_pending : ∀ {r : Routine} {a : Address}, next r = some a → a ∈ r.pending
  isSome_next : ∀ {r : Routine}, r.pending ≠ [] → (next r).isSome

namespace PopOrder

def oldest : PopOrder where
  next r := r.pending.head?
  mem_pending h := List.mem_of_mem_head? h
  isSome_next h := by simpa [List.isSome_head?] using h

def newest : PopOrder where
  next r := r.pending.getLast?
  mem_pending h := List.mem_of_getLast? h
  isSome_next h := by simpa [List.getLast?_isSome] using h

end PopOrder

end CartFlow
