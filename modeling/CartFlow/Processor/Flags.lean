import CartFlow.Processor.Opcode

/-!
# Processor flags

The two flags that decide the width of immediate operands. A set flag selects
8 bits. An instruction that clears or sets flags changes only one of the two: the
M flag if its bit is in the operand, else the X flag if that bit is.
-/
namespace CartFlow.Processor

/-- The width flags: M for the accumulator, X for the index registers. -/
structure Flags where
  m : Bool := false
  x : Bool := false
  deriving DecidableEq, Repr, Inhabited

namespace Flags

def mBit : UInt32 := 0x20

def xBit : UInt32 := 0x10

/-- Gives the flag that the operand selects a value. -/
def assign (p : Flags) (operand : UInt32) (value : Bool) : Flags :=
  if operand &&& mBit != 0 then { p with m := value }
  else if operand &&& xBit != 0 then { p with x := value }
  else p

def update (p : Flags) (op : Opcode) (operand : UInt32) : Flags :=
  if op.has .clearsFlags then p.assign operand false
  else if op.has .setsFlags then p.assign operand true
  else p

def text (p : Flags) : String :=
  "M=" ++ (if p.m then "1" else "0") ++ " X=" ++ (if p.x then "1" else "0")

end Flags

def immediateLength (op : Opcode) (p : Flags) : Nat :=
  if op.has .accumulatorWide && !p.m then 2
  else if op.has .indexWide && !p.x then 2
  else 1

theorem immediateLength_eq_one_or_two (op : Opcode) (p : Flags) :
    immediateLength op p = 1 ∨ immediateLength op p = 2 := by
  unfold immediateLength
  grind

end CartFlow.Processor
