/-!
# Addressing modes

How an opcode finds its operand. The sixteen operand forms and the absence of
an operand are numbered from zero; an opcode description may carry any number,
so numbers without a meaning are kept as they are.
-/
namespace CartFlow.Processor

inductive Mode
  | none
  | immediate
  | direct
  | directIndexed
  | indirect
  | indirectIndexed
  | indirectLong
  | indirectLongIndexed
  | absolute
  | absoluteIndexed
  | absoluteLong
  | absoluteLongIndexed
  | absoluteIndexedIndirect
  | accumulator
  | stackRelative
  | relative
  | blockMove
  | reserved (code : UInt8)
  deriving DecidableEq, Repr, Inhabited

namespace Mode

def ofCode (code : UInt8) : Mode :=
  match code.toNat with
  | 0 => none
  | 1 => immediate
  | 2 => direct
  | 3 => directIndexed
  | 4 => indirect
  | 5 => indirectIndexed
  | 6 => indirectLong
  | 7 => indirectLongIndexed
  | 8 => absolute
  | 9 => absoluteIndexed
  | 10 => absoluteLong
  | 11 => absoluteLongIndexed
  | 12 => absoluteIndexedIndirect
  | 13 => accumulator
  | 14 => stackRelative
  | 15 => relative
  | 16 => blockMove
  | _ => reserved code

def name : Mode → String
  | none => "none"
  | immediate => "immediate"
  | direct => "direct"
  | directIndexed => "direct_indexed"
  | indirect => "indirect"
  | indirectIndexed => "indirect_indexed"
  | indirectLong => "indirect_long"
  | indirectLongIndexed => "indirect_long_indexed"
  | absolute => "absolute"
  | absoluteIndexed => "absolute_indexed"
  | absoluteLong => "absolute_long"
  | absoluteLongIndexed => "absolute_long_indexed"
  | absoluteIndexedIndirect => "absolute_indexed_indirect"
  | accumulator => "accumulator"
  | stackRelative => "stack_relative"
  | relative => "pc_relative"
  | blockMove => "block_move"
  | reserved code => "AddressingMode(" ++ toString code.toNat ++ ")"

def isDefined : Mode → Bool
  | reserved _ => false
  | _ => true

end Mode

end CartFlow.Processor
