import CartFlow.Processor.Operand

/-!
# Instructions

A decoded instruction, its place, the address behind it, the target it passes
control to, and its assembly text.
-/
namespace CartFlow

open Text Processor

structure Instruction where
  address : Address
  opcode : Opcode
  operand : Operand
  deriving DecidableEq, Repr, Inhabited

namespace Instruction

def has (i : Instruction) (attributes : Attributes) : Bool :=
  i.opcode.has attributes

/-- The number of bytes of the instruction, counted in a word of 64 bits. -/
def size (i : Instruction) : Int :=
  (1 + i.operand.length).bmod 0x10000000000000000

/-- The size of an instruction is exact as long as it fits in a word. -/
theorem size_eq {i : Instruction} (hlow : -0x8000000000000001 ≤ i.operand.length)
    (hhigh : i.operand.length < 0x7FFFFFFFFFFFFFFF) : i.size = 1 + i.operand.length :=
  Int.bmod_eq_of_le (by omega) (by omega)

def nextAddress (i : Instruction) : Address :=
  i.address + UInt32.ofInt i.size

def isIndexedCall (i : Instruction) : Bool :=
  i.has .call && i.opcode.mode == .absoluteIndexedIndirect

/-- The target of a call, branch or jump; `none` if it is computed while the program runs. -/
def target (i : Instruction) : Except Failure (Option Address) :=
  if i.opcode.isControlTransfer then
    during (.instructionAt i.address)
      (i.opcode.mode.target i.address i.operand.value i.nextAddress)
  else fail (.notAJump i.opcode.mnemonic)

/-- The target of a call, branch or jump that is known from the instruction alone. -/
def staticTarget (i : Instruction) : Except Failure Address :=
  i.target.bind fun
    | some target => .ok target
    | none => during (.instructionAt i.address) (fail .computedTarget)

def knownTarget? (i : Instruction) : Option Address :=
  match i.target with
  | .ok target => target
  | .error _ => none

def operandPart (i : Instruction) : Except Failure String :=
  if i.opcode.mode = .none then .ok ""
  else
    (during (.formatting i.address)
      (i.opcode.operandText i.operand.value i.operand.length)).map (" " ++ ·)

/-- The target behind a branch or a call, in brackets, if it is known. -/
def targetPart (i : Instruction) : Except Failure String :=
  if i.opcode.attributes.hasAny (.branch ∪ .call) then
    i.target.map fun
      | some target => " [" ++ hexAddress target ++ "]"
      | none => ""
  else .ok ""

def text (i : Instruction) (showAddress : Bool) : Except Failure String := do
  let operand ← i.operandPart
  let target ← i.targetPart
  let place := if showAddress then hexAddress i.address ++ " " else ""
  return place ++ i.opcode.mnemonic ++ operand ++ target

/-- The assembly text with the address, or a note on why there is none. -/
def describe (i : Instruction) : String :=
  match i.text true with
  | .ok text => text
  | .error e => hexAddress i.address ++ " " ++ i.opcode.mnemonic ++ " <" ++ e.message ++ ">"

def bytes (i : Instruction) : List UInt8 :=
  i.opcode.value ::
    (List.range i.operand.length.toNat).map fun k => UInt8.ofNat (i.operand.value.toNat >>> (8 * k))

end Instruction

end CartFlow
