import CartFlow.Cartridge.Cursor
import CartFlow.Processor.Flags

/-!
# Operands

What an addressing mode means: how many bytes the operand has, how it is written
in assembly text, and which address it names when the opcode passes control.
-/
namespace CartFlow.Processor

open Text Cartridge

structure Operand where
  value : UInt32 := 0
  /-- At most three in an operand that was read; one that is given by hand may have any length. -/
  length : Int := 0
  deriving DecidableEq, Repr, Inhabited

namespace Opcode

def operandLength (op : Opcode) (p : Flags) : Except Failure Nat :=
  match op.mode with
  | .none | .accumulator => .ok 0
  | .immediate => .ok (immediateLength op p)
  | .direct | .directIndexed | .indirect | .indirectIndexed | .indirectLong
  | .indirectLongIndexed | .stackRelative | .relative => .ok 1
  | .absolute | .absoluteIndexed | .absoluteIndexedIndirect | .blockMove => .ok 2
  | .absoluteLong | .absoluteLongIndexed => .ok 3
  | .reserved code => fail (.undefinedMode (.reserved code))

/-- Reads the operand at the cursor; an opcode without operand reads nothing. -/
def readOperand (op : Opcode) (p : Flags) (c : Cursor) : Except Failure (Operand × Cursor) :=
  during (.readingOperand op.mode) do
    let length ← op.operandLength p
    if length = 0 then return ({}, c)
    let (value, c) ← c.readNumber length
    return (⟨UInt32.ofNat value, length⟩, c)

def indexedText (op : Opcode) (operand : String) : Except Failure String :=
  op.indexRegister.map fun register => operand ++ "," ++ register

def operandText (op : Opcode) (value : UInt32) (length : Int) : Except Failure String :=
  let byte := "$" ++ hexPadded 2 value.toNat
  let word := "$" ++ hexPadded 4 value.toNat
  let long := "$" ++ hexPadded 6 value.toNat
  match op.mode with
  | .none => .ok ""
  | .immediate =>
    if length = 1 then .ok ("#" ++ byte)
    else if length = 2 then .ok ("#" ++ word)
    else fail (.immediateLength length)
  | .direct | .relative => .ok byte
  | .directIndexed => op.indexedText byte
  | .indirect => .ok ("(" ++ byte ++ ")")
  | .indirectIndexed => op.indexedText ("(" ++ byte ++ ")")
  | .indirectLong => .ok ("[" ++ byte ++ "]")
  | .indirectLongIndexed => op.indexedText ("[" ++ byte ++ "]")
  | .absolute => .ok word
  | .absoluteIndexed => op.indexedText word
  | .absoluteLong => .ok long
  | .absoluteLongIndexed => op.indexedText long
  | .absoluteIndexedIndirect => op.indexedText ("(" ++ word ++ ")")
  | .accumulator => .ok "A"
  | .stackRelative => .ok (byte ++ ",S")
  | .blockMove =>
    .ok ("$" ++ hexPadded 2 (value.toNat % 256) ++ ",$" ++ hexPadded 2 (value.toNat / 256))
  | .reserved code => fail (.undefinedMode (.reserved code))

end Opcode

namespace Mode

/-- A byte read as a signed distance. -/
def distance (value : UInt32) : UInt32 :=
  UInt32.ofInt (((value.toNat % 256 : Nat) : Int).bmod 256)

def canJump : Mode → Bool
  | direct | absolute | absoluteLong | absoluteIndexedIndirect | relative => true
  | _ => false

/-- The target that the operand of an instruction names: `none` if it is computed
while the program runs, a failure if the mode cannot name a target. -/
def target (mode : Mode) (address value next : Address) : Except Failure (Option Address) :=
  match mode with
  | direct => .ok (some (next + value))
  | absolute => .ok (some (address &&& 0xFF0000 ||| value))
  | absoluteLong => .ok (some value)
  | relative => .ok (some (next + distance value))
  | absoluteIndexedIndirect => .ok Option.none
  | _ => fail (.modeCannotJump mode)

end Mode

end CartFlow.Processor
