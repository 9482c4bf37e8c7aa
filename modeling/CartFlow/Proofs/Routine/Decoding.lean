import CartFlow.Proofs.Cartridge.Mapping
import CartFlow.Proofs.Routine.Coverage

/-!
# What decoding reads

A decoded instruction consists of a byte, the opcode that the table has for it, and an operand
as long as this opcode asks for under the flags. All of it is inside the image, and what is
decoded depends on the image and the place alone. Under HiROM the address behind the
instruction is the address of the place behind it.
-/
namespace CartFlow

open Processor Cartridge

namespace Cartridge.Cursor

variable {c d e : Cursor}

theorem seek_congr {address : Address} (hsame : c.SameImage d) (h : c.seek address = .ok e) :
    ∃ f, d.seek address = .ok f ∧ e.SameImage f ∧ f.offset = e.offset := by
  obtain ⟨-, -, hlt, hoffset⟩ := seek_eq_ok h
  have hsame' := (sameImage_seek h).symm.trans hsame
  rw [← hsame.mapping_eq] at hoffset
  refine ⟨{ d with offset := e.offset }, ?_, ⟨hsame'.image_eq, hsame'.mapping_eq⟩, rfl⟩
  rw [seek, hoffset]
  exact if_pos (by rwa [hsame.image_eq])

theorem tell_congr (hsame : c.SameImage d) (hoffset : d.offset = c.offset) : d.tell = c.tell := by
  rw [tell, tell, hsame.mapping_eq, hoffset]

theorem read_congr {count : Int64} {bytes : Array UInt8} (hsame : c.SameImage d)
    (hoffset : d.offset = c.offset) (h : c.read count = .ok (bytes, e)) :
    ∃ f, d.read count = .ok (bytes, f) ∧ e.SameImage f ∧ f.offset = e.offset := by
  have hstop : d.stop count = c.stop count := by rw [stop, stop, hoffset]
  unfold read at h ⊢
  rw [hstop, hsame.image_eq, hoffset]
  split at h
  · cases h
  · next hbounds =>
    rw [if_neg hbounds]
    split at h
    · cases h
    · next hwraps =>
      rw [if_neg hwraps]
      cases h
      exact ⟨_, rfl, ⟨rfl, hsame.mapping_eq⟩, rfl⟩

theorem readNumber_congr {size n : Nat} (hsame : c.SameImage d) (hoffset : d.offset = c.offset)
    (h : c.readNumber size = .ok (n, e)) :
    ∃ f, d.readNumber size = .ok (n, f) ∧ e.SameImage f ∧ f.offset = e.offset := by
  unfold readNumber at h ⊢
  split at h
  · next bytes e' hread =>
    cases h
    obtain ⟨f, hf, hrest⟩ := read_congr hsame hoffset hread
    exact ⟨f, by rw [hf], hrest⟩
  · cases h

theorem readU8_congr {value : UInt8} (hsame : c.SameImage d) (hoffset : d.offset = c.offset)
    (h : c.readU8 = .ok (value, e)) :
    ∃ f, d.readU8 = .ok (value, f) ∧ e.SameImage f ∧ f.offset = e.offset := by
  unfold readU8 at h ⊢
  cases hn : c.readNumber 1 with
  | error failure => rw [hn] at h; cases h
  | ok r =>
    obtain ⟨n, e'⟩ := r
    rw [hn] at h
    cases h
    obtain ⟨f, hf, hrest⟩ := readNumber_congr hsame hoffset hn
    exact ⟨f, by rw [hf]; rfl, hrest⟩

end Cartridge.Cursor

namespace Processor

theorem Table.find?_of_lookup {table : Table} {value : UInt8} {op : Opcode}
    (h : table.lookup value = .ok op) : table.find? value = some op := by
  unfold Table.lookup at h
  split at h
  · next found hfind => cases h; exact hfind
  · cases h

theorem Opcode.readOperand_congr {op : Opcode} {p : Flags} {c d e : Cursor} {operand : Operand}
    (hsame : c.SameImage d) (hoffset : d.offset = c.offset)
    (h : op.readOperand p c = .ok (operand, e)) :
    ∃ f, op.readOperand p d = .ok (operand, f) ∧ e.SameImage f ∧ f.offset = e.offset := by
  unfold readOperand at h ⊢
  rw [during_eq_ok] at h
  obtain ⟨n, hn, h⟩ := bind_eq_ok.1 h
  rw [hn]
  split at h
  · next hzero =>
    cases h
    refine ⟨d, ?_, hsame, hoffset⟩
    rw [during_eq_ok]
    exact if_pos hzero
  · next hzero =>
    obtain ⟨⟨value, e'⟩, hr, h⟩ := bind_eq_ok.1 h
    cases h
    obtain ⟨f, hf, hrest⟩ := Cursor.readNumber_congr hsame hoffset hr
    refine ⟨f, ?_, hrest⟩
    rw [during_eq_ok, bind_eq_ok]
    refine ⟨n, rfl, ?_⟩
    rw [if_neg hzero, hf]
    rfl

end Processor

namespace Instruction

variable {table : Table} {p : Flags} {c d e : Cursor} {i : Instruction}

theorem decode_parts (h : decode table p c = .ok (i, d)) :
    ∃ value e, c.readU8 = .ok (value, e) ∧ table.lookup value = .ok i.opcode ∧
      i.opcode.readOperand p e = .ok (i.operand, d) ∧ i.address = c.tell := by
  unfold decode at h
  obtain ⟨⟨value, e⟩, hvalue, h⟩ := bind_eq_ok.1 h
  rw [during_eq_ok] at hvalue h
  obtain ⟨op, hop, h⟩ := bind_eq_ok.1 h
  obtain ⟨⟨operand, f⟩, hoperand, h⟩ := bind_eq_ok.1 h
  cases h
  exact ⟨value, e, hvalue, hop, hoperand, rfl⟩

theorem exists_find?_of_decode (h : decode table p c = .ok (i, d)) :
    ∃ value, table.find? value = some i.opcode := by
  obtain ⟨value, _, -, hop, -⟩ := decode_parts h
  exact ⟨value, Table.find?_of_lookup hop⟩

theorem operandLength_of_decode (h : decode table p c = .ok (i, d)) :
    i.opcode.operandLength p = .ok i.operand.length.toNat ∧ 0 ≤ i.operand.length := by
  obtain ⟨_, _, -, -, hoperand, -⟩ := decode_parts h
  obtain ⟨hlength, hnonneg, -⟩ := Opcode.readOperand_eq_ok hoperand
  exact ⟨hlength, hnonneg⟩

theorem offset_le_of_decode (h : decode table p c = .ok (i, d)) : d.offset ≤ c.image.size := by
  obtain ⟨_, e, hvalue, -, hoperand, -⟩ := decode_parts h
  obtain ⟨himage, -, hoffset, hlt, -⟩ := Cursor.readU8_eq_ok hvalue
  obtain ⟨-, hnonneg, -, -, hend, hinside⟩ := Opcode.readOperand_eq_ok hoperand
  rw [himage] at hinside
  omega

theorem decode_congr (hsame : c.SameImage d) (hoffset : d.offset = c.offset)
    (h : decode table p c = .ok (i, e)) :
    ∃ f, decode table p d = .ok (i, f) ∧ e.SameImage f ∧ f.offset = e.offset := by
  obtain ⟨value, b, hvalue, hop, hoperand, haddress⟩ := decode_parts h
  obtain ⟨b', hvalue', hsame', hoffset'⟩ := Cursor.readU8_congr hsame hoffset hvalue
  obtain ⟨f, hoperand', hrest⟩ := Opcode.readOperand_congr hsame' hoffset' hoperand
  refine ⟨f, ?_, hrest⟩
  have htell : d.tell = i.address := by rw [haddress, Cursor.tell_congr hsame hoffset]
  rw [decode, hvalue', htell]
  simp only [during_ok, bind, Except.bind, hop, hoperand']
  rfl

/-- Under HiROM the address behind an instruction is that of the place behind it. -/
theorem tell_of_decode_hiRom (hmapping : c.mapping = .hiRom) (h : decode table p c = .ok (i, d)) :
    d.tell = i.nextAddress := by
  obtain ⟨haddress, -, -, hsame, hoffset⟩ := decode_eq_ok h
  rw [nextAddress, haddress, Cursor.tell, Cursor.tell, hsame, hmapping, hoffset, Mapping.toAddress,
    Mapping.toAddress, UInt32.ofInt_add]
  ac_rfl

end Instruction

end CartFlow
