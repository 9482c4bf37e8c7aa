import CartFlow.Proofs.Routine.Encoding

/-!
# The address behind an instruction and the place behind it

Where control goes on behind an instruction has two names. One is the address of the instruction
plus its size, which relative branches and the block graph use; the other is the address that the
cursor tells behind it, which the next instruction is found under. The first is a sum of words and
the second comes from the offset of the place. Under HiROM they are the same. Under LoROM an
instruction that reaches the end of its chunk of 32 KB tells them apart: the sum runs into the
lower half of the next bank, where no cartridge is seen, while the cursor stands at the start of
the next chunk.
-/
namespace CartFlow

open Processor Cartridge

namespace Instruction

variable {table : Table} {p : Flags} {c d : Cursor} {i : Instruction}

theorem size_of_decode (h : decode table p c = .ok (i, d)) : 1 ≤ i.size ∧ i.size ≤ 4 := by
  obtain ⟨hlength, hnonneg⟩ := operandLength_of_decode h
  have hle := Opcode.operandLength_le hlength
  rw [size_eq (by omega) (by omega)]
  omega

theorem nextAddress_of_decode_loRom (hmapping : c.mapping = .loRom)
    (h : decode table p c = .ok (i, d)) :
    i.nextAddress = d.tell ↔ (c.offset % 0x8000 : Nat) + i.size < 0x8000 := by
  obtain ⟨haddress, -, -, hsame, hoffset⟩ := decode_eq_ok h
  obtain ⟨hpos, hle⟩ := size_of_decode h
  obtain ⟨size, hsize⟩ := Int.eq_ofNat_of_zero_le (show 0 ≤ i.size by omega)
  have hend : d.offset = c.offset + size := by omega
  rw [nextAddress, haddress, Cursor.tell, Cursor.tell, hsame, hmapping, hend, hsize, eq_comm,
    Mapping.toAddress_loRom_add_iff (by omega)]
  omega

/-- The address behind a decoded instruction is the address of the place behind it: always under
HiROM, and under LoROM exactly if the instruction ends before the end of its chunk of 32 KB. -/
theorem nextAddress_eq_tell_iff (h : decode table p c = .ok (i, d)) :
    (c.mapping = .hiRom → i.nextAddress = d.tell) ∧
    (c.mapping = .loRom →
      (i.nextAddress = d.tell ↔ (c.offset % 0x8000 : Nat) + i.size < 0x8000)) :=
  ⟨fun hmapping => (tell_of_decode_hiRom hmapping h).symm,
    fun hmapping => nextAddress_of_decode_loRom hmapping h⟩

/-- At the last byte of a chunk the two part: the address behind it is 810000, and the cursor
tells 818000. -/
theorem nextAddress_eq_tell_iff_chunkEnd :
    ∃ d, decode Table.standard {} ⟨Array.replicate 0x8001 0xEA, .loRom, 0x7FFF, none⟩ =
        .ok (⟨0x80FFFF, .nop, {}⟩, d) ∧
      nextAddress ⟨0x80FFFF, .nop, {}⟩ = 0x810000 ∧ d.tell ≠ 0x810000 := by
  have hholds : (⟨Array.replicate 0x8001 0xEA, .loRom, 0x7FFF, none⟩ : Cursor).Holds [0xEA] := by
    rw [Cursor.Holds, Array.toList_replicate, List.drop_replicate]
    exact List.prefix_replicate_iff.2 ⟨by decide, rfl⟩
  obtain ⟨d, hd⟩ := Cursor.readU8_of_holds (by rw [Array.size_replicate]; decide) hholds
  have hdecode := decode_of_parts (p := {}) hd Opcode.find?_nop rfl
  have hparts := (nextAddress_eq_tell_iff hdecode).2 rfl
  refine ⟨d, hdecode, by decide, fun htell => ?_⟩
  have hfits := hparts.1 htell.symm
  revert hfits
  decide

end Instruction

end CartFlow
