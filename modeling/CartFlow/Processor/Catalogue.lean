import CartFlow.Processor.Opcode

/-!
# The opcode catalogue

The 172 opcodes that the analysed programs use, grouped by mnemonic. It is not
the complete instruction set of the 65816.
-/
namespace CartFlow.Processor.Catalogue

/-- An opcode byte without properties of its own. -/
def plain (value : UInt8) (mode : Mode) : Description :=
  ⟨value, mode, .empty⟩

def groups : List Group := [
  ⟨"ADC", .empty, [plain 0x65 .direct, plain 0x6D .absolute, plain 0x6F .absoluteLong,
    ⟨0x7F, .absoluteLongIndexed, .indexedX⟩, ⟨0x69, .immediate, .accumulatorWide⟩,
    ⟨0x7D, .absoluteIndexed, .indexedX⟩, ⟨0x79, .absoluteIndexed, .indexedY⟩,
    plain 0x63 .stackRelative, ⟨0x71, .directIndexed, .indexedY⟩]⟩,
  ⟨"AND", .empty, [plain 0x25 .direct, plain 0x2D .absolute,
    ⟨0x29, .immediate, .accumulatorWide⟩, ⟨0x31, .directIndexed, .indexedY⟩]⟩,
  ⟨"ASL", .empty, [plain 0x06 .direct, plain 0x0A .accumulator, plain 0x0E .absolute,
    ⟨0x1E, .absoluteIndexed, .indexedX⟩]⟩,
  ⟨"BCC", .branch, [plain 0x90 .relative]⟩,
  ⟨"BCS", .branch, [plain 0xB0 .relative]⟩,
  ⟨"BEQ", .branch, [plain 0xF0 .relative]⟩,
  ⟨"BIT", .empty, [plain 0x24 .direct, ⟨0x89, .immediate, .accumulatorWide⟩,
    ⟨0x3C, .absoluteIndexed, .indexedX⟩]⟩,
  ⟨"BMI", .branch, [plain 0x30 .relative]⟩,
  ⟨"BNE", .branch, [plain 0xD0 .relative]⟩,
  ⟨"BPL", .branch, [plain 0x10 .relative]⟩,
  ⟨"BRA", .branch ∪ .unconditional, [plain 0x80 .relative]⟩,
  ⟨"BRK", .empty, [plain 0x00 .none]⟩,
  ⟨"CLC", .empty, [plain 0x18 .none]⟩,
  ⟨"CLD", .empty, [plain 0xD8 .none]⟩,
  ⟨"CLI", .empty, [plain 0x58 .none]⟩,
  ⟨"CLV", .empty, [plain 0xB8 .none]⟩,
  ⟨"CMP", .empty, [plain 0xC5 .direct, ⟨0xD5, .directIndexed, .indexedX⟩, plain 0xCD .absolute,
    plain 0xCF .absoluteLong, ⟨0xC9, .immediate, .accumulatorWide⟩, plain 0xC3 .stackRelative,
    ⟨0xD9, .absoluteIndexed, .indexedY⟩, ⟨0xDD, .absoluteIndexed, .indexedX⟩,
    ⟨0xDF, .absoluteLongIndexed, .indexedX⟩, ⟨0xD7, .indirectLongIndexed, .indexedY⟩,
    ⟨0xD1, .directIndexed, .indexedY⟩]⟩,
  ⟨"COP", .empty, [plain 0x02 .immediate]⟩,
  ⟨"CPX", .empty, [⟨0xE0, .immediate, .indexWide⟩, plain 0xE4 .direct, plain 0xEC .absolute]⟩,
  ⟨"CPY", .empty, [plain 0xC4 .direct, ⟨0xC0, .immediate, .indexWide⟩]⟩,
  ⟨"DEC", .empty, [plain 0x3A .accumulator, plain 0xC6 .direct, plain 0xCE .absolute,
    ⟨0xDE, .absoluteIndexed, .indexedX⟩]⟩,
  ⟨"DEX", .empty, [plain 0xCA .none]⟩,
  ⟨"DEY", .empty, [plain 0x88 .none]⟩,
  ⟨"EOR", .empty, [plain 0x45 .direct, ⟨0x49, .immediate, .accumulatorWide⟩,
    ⟨0x51, .directIndexed, .indexedY⟩]⟩,
  ⟨"INC", .empty, [plain 0xE6 .direct, plain 0x1A .accumulator, plain 0xEE .absolute,
    ⟨0xFE, .absoluteIndexed, .indexedX⟩]⟩,
  ⟨"INX", .empty, [plain 0xE8 .none]⟩,
  ⟨"INY", .empty, [plain 0xC8 .none]⟩,
  ⟨"JMP", .jump, [plain 0x4C .absolute, plain 0x5C .absoluteLong]⟩,
  ⟨"JSL", .call, [plain 0x22 .absoluteLong, ⟨0xFC, .absoluteIndexedIndirect, .indexedX⟩]⟩,
  ⟨"JSR", .call, [plain 0x20 .absolute]⟩,
  ⟨"LDA", .empty, [⟨0xA9, .immediate, .accumulatorWide⟩, plain 0xA5 .direct,
    plain 0xB2 .indirect, ⟨0xB5, .directIndexed, .indexedX⟩, plain 0xAD .absolute,
    ⟨0xBF, .absoluteLongIndexed, .indexedX⟩, ⟨0xBD, .absoluteIndexed, .indexedX⟩,
    ⟨0xB9, .absoluteIndexed, .indexedY⟩, plain 0xA3 .stackRelative, plain 0xAF .absoluteLong,
    plain 0xA7 .indirectLong, ⟨0xB1, .indirectIndexed, .indexedY⟩,
    ⟨0xB7, .indirectLongIndexed, .indexedY⟩]⟩,
  ⟨"LDX", .empty, [plain 0xAE .absolute, ⟨0xBE, .absoluteIndexed, .indexedY⟩, plain 0xA6 .direct,
    ⟨0xA2, .immediate, .indexWide⟩]⟩,
  ⟨"LDY", .empty, [plain 0xAC .absolute, ⟨0xA0, .immediate, .indexWide⟩, plain 0xA4 .direct,
    ⟨0xBC, .absoluteIndexed, .indexedX⟩]⟩,
  ⟨"LSR", .empty, [plain 0x4A .accumulator, plain 0x46 .direct]⟩,
  ⟨"NOP", .empty, [plain 0xEA .none]⟩,
  ⟨"MVN", .empty, [plain 0x54 .blockMove]⟩,
  ⟨"MVP", .empty, [plain 0x44 .blockMove]⟩,
  ⟨"ORA", .empty, [plain 0x05 .direct, plain 0x0D .absolute, plain 0x0F .absoluteLong,
    plain 0x03 .stackRelative, ⟨0x09, .immediate, .accumulatorWide⟩,
    ⟨0x1D, .absoluteIndexed, .indexedX⟩, ⟨0x19, .absoluteIndexed, .indexedY⟩,
    ⟨0x11, .directIndexed, .indexedY⟩, plain 0x07 .indirectLong,
    ⟨0x17, .indirectLongIndexed, .indexedY⟩]⟩,
  ⟨"PEA", .empty, [plain 0xF4 .absolute]⟩,
  ⟨"PHA", .empty, [plain 0x48 .none]⟩,
  ⟨"PHB", .empty, [plain 0x8B .none]⟩,
  ⟨"PHD", .empty, [plain 0x0B .none]⟩,
  ⟨"PHK", .empty, [plain 0x4B .none]⟩,
  ⟨"PHP", .empty, [plain 0x08 .none]⟩,
  ⟨"PHX", .empty, [plain 0xDA .none]⟩,
  ⟨"PHY", .empty, [plain 0x5A .none]⟩,
  ⟨"PLA", .empty, [plain 0x68 .none]⟩,
  ⟨"PLB", .empty, [plain 0xAB .none]⟩,
  ⟨"PLD", .empty, [plain 0x2B .none]⟩,
  ⟨"PLP", .empty, [plain 0x28 .none]⟩,
  ⟨"PLX", .empty, [plain 0xFA .none]⟩,
  ⟨"PLY", .empty, [plain 0x7A .none]⟩,
  ⟨"REP", .empty, [⟨0xC2, .immediate, .clearsFlags⟩]⟩,
  ⟨"ROL", .empty, [plain 0x26 .direct, plain 0x2A .accumulator, plain 0x2E .absolute]⟩,
  ⟨"ROR", .empty, [plain 0x6A .accumulator, ⟨0x7E, .absoluteIndexed, .indexedX⟩]⟩,
  ⟨"RTI", .ret, [plain 0x40 .none]⟩,
  ⟨"RTL", .ret, [plain 0x6B .none]⟩,
  ⟨"RTS", .ret, [plain 0x60 .none]⟩,
  ⟨"SBC", .empty, [⟨0xE9, .immediate, .accumulatorWide⟩, plain 0xE5 .direct,
    plain 0xED .absolute, ⟨0xFD, .absoluteIndexed, .indexedX⟩,
    ⟨0xF9, .absoluteIndexed, .indexedY⟩]⟩,
  ⟨"SEC", .empty, [plain 0x38 .none]⟩,
  ⟨"SED", .empty, [plain 0xF8 .none]⟩,
  ⟨"SEI", .empty, [plain 0x78 .none]⟩,
  ⟨"SEP", .empty, [⟨0xE2, .immediate, .setsFlags⟩]⟩,
  ⟨"STA", .empty, [plain 0x85 .direct, ⟨0x95, .directIndexed, .indexedX⟩, plain 0x92 .indirect,
    plain 0x83 .stackRelative, plain 0x8D .absolute, plain 0x8F .absoluteLong,
    ⟨0x99, .absoluteIndexed, .indexedY⟩, ⟨0x9D, .absoluteIndexed, .indexedX⟩,
    ⟨0x9F, .absoluteLongIndexed, .indexedX⟩, ⟨0x91, .indirectIndexed, .indexedY⟩,
    ⟨0x97, .indirectLongIndexed, .indexedY⟩]⟩,
  ⟨"STX", .empty, [plain 0x86 .direct, plain 0x8E .absolute]⟩,
  ⟨"STY", .empty, [plain 0x84 .direct, plain 0x8C .absolute]⟩,
  ⟨"STZ", .empty, [plain 0x9C .absolute, plain 0x64 .direct, ⟨0x9E, .absoluteIndexed, .indexedX⟩,
    ⟨0x74, .directIndexed, .indexedX⟩]⟩,
  ⟨"TAX", .empty, [plain 0xAA .none]⟩,
  ⟨"TAY", .empty, [plain 0xA8 .none]⟩,
  ⟨"TCD", .empty, [plain 0x5B .none]⟩,
  ⟨"TCS", .empty, [plain 0x1B .none]⟩,
  ⟨"TDB", .empty, [plain 0x14 .direct]⟩,
  ⟨"TDC", .empty, [plain 0x7B .none]⟩,
  ⟨"TSB", .empty, [plain 0x04 .direct, plain 0x0C .absolute]⟩,
  ⟨"TSC", .empty, [plain 0x3B .none]⟩,
  ⟨"TSX", .empty, [plain 0xBA .none]⟩,
  ⟨"TXA", .empty, [plain 0x8A .none]⟩,
  ⟨"TXS", .empty, [plain 0x9A .none]⟩,
  ⟨"TXY", .empty, [plain 0x9B .none]⟩,
  ⟨"TYA", .empty, [plain 0x98 .none]⟩,
  ⟨"TYX", .empty, [plain 0xBB .none]⟩,
  ⟨"XBA", .empty, [plain 0xEB .none]⟩]

end CartFlow.Processor.Catalogue

namespace CartFlow.Processor.Table

def standard : Table :=
  (ofGroups Catalogue.groups).toOption.getD empty

/-- The catalogue has no conflict, so the standard table is the one built from it. -/
theorem toOption_ofGroups_catalogue :
    (ofGroups Catalogue.groups).toOption = some standard := by
  have hbuilt : (ofGroups Catalogue.groups).toOption.isSome = true := by
    decide +kernel
  rcases Option.isSome_iff_exists.1 hbuilt with ⟨t, ht⟩
  rw [standard, ht, Option.getD_some]

end CartFlow.Processor.Table
