import CartFlow.Cartridge.Cursor
import CartFlow.Distinct

/-!
# Tables of operation handlers

The script interpreter finds the handler of an operation in a table of words;
all handlers are in one bank.
-/
namespace CartFlow.Cartridge

/-- A table of handler addresses without their bank. -/
structure PointerTable where
  base : Address
  count : Int
  bank : UInt8
  deriving DecidableEq, Repr

namespace PointerTable

def standard : PointerTable := ⟨0xC43128, 0x100, 0xC4⟩

def handler (t : PointerTable) (c : Cursor) (index : Int) : Except Failure Address × Cursor :=
  if index < 0 ∨ t.count ≤ index then (fail (.invalidIndex index t.count), c)
  else
    let (address, c) := c.readPointer t.base index t.bank
    (during (.readingOperation index) address, c)

/-- The handlers of the next `n` operations behind those in `found`. -/
def handlersFrom (t : PointerTable) (c : Cursor) (found : Array (Nat × Address)) :
    Nat → Except Failure (Array (Nat × Address))
  | 0 => .ok found
  | n + 1 =>
    match t.handler c found.size with
    | (.error e, _) => .error e
    | (.ok address, c) => t.handlersFrom c (found.push (found.size, address)) n

def entries (t : PointerTable) (c : Cursor) : Except Failure (List (Nat × Address)) :=
  (t.handlersFrom c #[] t.count.toNat).map (·.toList)

/-- The distinct handlers in the order of the table. -/
def handlers (t : PointerTable) (c : Cursor) : Except Failure (List Address) :=
  (t.entries c).map fun entries => distinct (entries.map (·.2))

end PointerTable

end CartFlow.Cartridge
