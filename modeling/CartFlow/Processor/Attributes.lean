/-!
# Opcode attributes

The properties of an opcode that matter to control flow and to the width and
the text of its operand, kept as a set of bits.
-/
namespace CartFlow.Processor

structure Attributes where
  bits : UInt16
  deriving DecidableEq, Repr, Inhabited

namespace Attributes

def empty : Attributes := ⟨0⟩

def indexedX : Attributes := ⟨0x001⟩
def indexedY : Attributes := ⟨0x002⟩
/-- The width of an immediate operand follows the M flag. -/
def accumulatorWide : Attributes := ⟨0x004⟩
/-- The width of an immediate operand follows the X flag. -/
def indexWide : Attributes := ⟨0x008⟩
def call : Attributes := ⟨0x010⟩
def ret : Attributes := ⟨0x020⟩
def clearsFlags : Attributes := ⟨0x040⟩
def setsFlags : Attributes := ⟨0x080⟩
/-- A branch, which ends a basic block. -/
def branch : Attributes := ⟨0x100⟩
/-- A jump that does not come back. -/
def jump : Attributes := ⟨0x200⟩
/-- A branch that is always taken. -/
def unconditional : Attributes := ⟨0x400⟩

def union (a b : Attributes) : Attributes := ⟨a.bits ||| b.bits⟩

instance : Union Attributes := ⟨union⟩

def has (a b : Attributes) : Bool := a.bits &&& b.bits == b.bits

def hasAny (a b : Attributes) : Bool := a.bits &&& b.bits != 0

def named : List (Attributes × String) :=
  [(indexedX, "indexed_x"), (indexedY, "indexed_y"), (accumulatorWide, "m_dependant"),
   (indexWide, "x_dependant"), (call, "enter_sub"), (ret, "return_sub"),
   (clearsFlags, "reset_p"), (setsFlags, "set_p"), (branch, "branch"), (jump, "jump"),
   (unconditional, "unconditional")]

def text (a : Attributes) : String :=
  "|".intercalate ((named.filter fun (b, _) => a.hasAny b).map (·.2))

end Attributes

end CartFlow.Processor
