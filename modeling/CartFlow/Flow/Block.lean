import CartFlow.Routine.Instruction

/-!
# Basic blocks

A block is a run of instructions that is entered at its first and left behind its last
instruction. It is named by its address, in the graph without leading zeros.
-/
namespace CartFlow

open Text

structure Block where
  address : Address
  instructions : Array Instruction := #[]
  deriving Repr

namespace Block

def idOf (address : Address) : String :=
  hex address.toNat

def name (b : Block) : String :=
  hexAddress b.address

def push (b : Block) (i : Instruction) : Block :=
  { b with instructions := b.instructions.push i }

/-- Whether an instruction of the block has the address. -/
def contains (b : Block) (address : Address) : Bool :=
  b.instructions.any (·.address == address)

/-- The assembly text of the instructions without their addresses. -/
def lines (b : Block) : Except Failure (List String) :=
  b.instructions.toList.mapM fun i => i.text false

end Block

end CartFlow
