import CartFlow.Failure
import CartFlow.Processor.Attributes

/-!
# Opcodes and the opcode table

Opcodes are described in groups that share a mnemonic. A table is built from
groups and holds at most one opcode for each byte; a mnemonic or a byte that
occurs twice is refused, the first conflict in reading order first.
-/
namespace CartFlow.Processor

structure Opcode where
  value : UInt8
  mnemonic : String
  mode : Mode
  attributes : Attributes
  deriving DecidableEq, Repr, Inhabited

namespace Opcode

def has (op : Opcode) (attributes : Attributes) : Bool :=
  op.attributes.has attributes

def isControlTransfer (op : Opcode) : Bool :=
  op.attributes.hasAny (.call ∪ .branch ∪ .jump)

/-- The register that indexes the operand; X wins if both are named. -/
def indexRegister (op : Opcode) : Except Failure String :=
  if op.has .indexedX then .ok "X"
  else if op.has .indexedY then .ok "Y"
  else fail (.notIndexed op.mnemonic op.value)

end Opcode

/-- One opcode byte of a group. -/
structure Description where
  value : UInt8
  mode : Mode
  attributes : Attributes := .empty
  deriving DecidableEq, Repr

/-- The opcodes that share a mnemonic; the attributes of the group belong to each of them. -/
structure Group where
  mnemonic : String
  attributes : Attributes := .empty
  opcodes : List Description
  deriving DecidableEq, Repr

namespace Group

def opcode (g : Group) (d : Description) : Opcode where
  value := d.value
  mnemonic := g.mnemonic
  mode := d.mode
  attributes := g.attributes ∪ d.attributes

end Group

/-- At most one opcode for every byte. -/
structure Table where
  slots : Vector (Option Opcode) 256
  count : Nat
  deriving DecidableEq

namespace Table

def empty : Table := ⟨Vector.replicate 256 none, 0⟩

instance : Inhabited Table := ⟨empty⟩

def find? (t : Table) (value : UInt8) : Option Opcode :=
  t.slots.get ⟨value.toNat, value.toNat_lt⟩

def lookup (t : Table) (value : UInt8) : Except Failure Opcode :=
  match t.find? value with
  | some op => .ok op
  | none => fail (.unknownOpcode value)

def insert (t : Table) (op : Opcode) : Except Failure Table :=
  if (t.find? op.value).isSome then fail (.duplicateOpcode op.value)
  else .ok ⟨t.slots.set op.value.toNat (some op) op.value.toNat_lt, t.count + 1⟩

def insertGroup (t : Table) (g : Group) : Except Failure Table :=
  g.opcodes.foldlM (fun t d => t.insert (g.opcode d)) t

/-- Enters groups whose mnemonics are neither among `seen` nor among each other. -/
def insertGroups (t : Table) (seen : List String) : List Group → Except Failure Table
  | [] => .ok t
  | g :: rest =>
    if seen.contains g.mnemonic then fail (.duplicateMnemonic g.mnemonic)
    else do
      let t ← t.insertGroup g
      t.insertGroups (g.mnemonic :: seen) rest

def ofGroups (groups : List Group) : Except Failure Table :=
  empty.insertGroups [] groups

end Table

end CartFlow.Processor
