import CartFlow.Output.Listing
import CartFlow.Proofs.Processor.OpcodeTable
import CartFlow.Proofs.Routine.Evaluation

/-!
# Instructions and their bytes

A decoded instruction can be written back: its opcode and the bytes of its operand, the least
significant first, are the bytes that were read, and the listing shows them. Reading takes no notice
of anything else, so wherever these bytes stand, in whatever image, the same opcode and operand
are decoded from them. The number behind the bytes of an operand is below a power of 256, and the
bytes are the digits of this number; both follow by induction on the bytes.
-/
namespace CartFlow

open Processor Cartridge

namespace Cartridge.Cursor

section Numbers

theorem littleEndian_cons (b : UInt8) (bytes : List UInt8) :
    littleEndian (b :: bytes).toArray = b.toNat + 256 * littleEndian bytes.toArray := by
  simp [littleEndian]

theorem littleEndian_lt (bytes : List UInt8) : littleEndian bytes.toArray < 256 ^ bytes.length := by
  induction bytes with
  | nil => simp [littleEndian]
  | cons b bytes ih =>
    have hb := b.toNat_lt
    rw [littleEndian_cons, List.length_cons, Nat.pow_succ]
    omega

theorem map_littleEndian (bytes : List UInt8) :
    ((List.range bytes.length).map fun k =>
      UInt8.ofNat (littleEndian bytes.toArray >>> (8 * k))) = bytes := by
  induction bytes with
  | nil => rfl
  | cons b bytes ih =>
    have hb := b.toNat_lt
    have hfirst : UInt8.ofNat (littleEndian (b :: bytes).toArray) = b := by
      apply UInt8.toNat_inj.1
      rw [littleEndian_cons, UInt8.toNat_ofNat']
      omega
    have hshift : ∀ k, littleEndian (b :: bytes).toArray >>> (8 * (k + 1)) =
        littleEndian bytes.toArray >>> (8 * k) := by
      intro k
      rw [Nat.mul_succ, Nat.add_comm, Nat.shiftRight_add, littleEndian_cons]
      congr 1
      rw [Nat.shiftRight_eq_div_pow]
      omega
    rw [List.length_cons, List.range_succ_eq_map, List.map_cons, List.map_map]
    congr 1
    simpa only [Function.comp_def, Nat.succ_eq_add_one, hshift] using ih

end Numbers

/-- The image has the given bytes in front of the cursor. -/
def Holds (c : Cursor) (bytes : List UInt8) : Prop :=
  bytes <+: c.image.toList.drop c.offset

section Holding

variable {c d : Cursor} {bytes : List UInt8} {n size : Nat}

theorem toList_extract_offset (c : Cursor) (size : Nat) :
    (c.image.extract c.offset (c.offset + size)).toList =
      (c.image.toList.drop c.offset).take size := by
  rw [Array.toList_extract, List.extract_eq_take_drop, Nat.add_sub_cancel_left]

theorem Holds.extract_eq (h : c.Holds bytes) (hsize : bytes.length = size) :
    c.image.extract c.offset (c.offset + size) = bytes.toArray := by
  apply Array.toList_inj.1
  rw [toList_extract_offset, ← hsize, ← List.prefix_iff_eq_take.1 h]

theorem holds_extract (c : Cursor) (size : Nat) :
    c.Holds (c.image.extract c.offset (c.offset + size)).toList := by
  rw [toList_extract_offset]
  exact List.take_prefix _ _

theorem Holds.add_length_le (h : c.Holds bytes) (hsize : bytes.length = size)
    (hpos : 0 < size) : c.offset + size ≤ c.image.size := by
  have hle : bytes.length ≤ c.image.size - c.offset := by
    simpa using List.IsPrefix.length_le h
  omega

theorem holds_cons {b : UInt8} :
    c.Holds (b :: bytes) ↔ c.Holds [b] ∧ bytes <+: c.image.toList.drop (c.offset + 1) := by
  rw [Holds, Holds, ← List.drop_drop]
  cases c.image.toList.drop c.offset with
  | nil => simp
  | cons a rest => simp [List.cons_prefix_cons]

theorem readNumber_holds (hsize : size < 0x8000000000000000)
    (h : c.readNumber size = .ok (n, d)) :
    ∃ bytes, c.Holds bytes ∧ bytes.length = size ∧ n = littleEndian bytes.toArray := by
  obtain ⟨-, -, -, hle, rfl⟩ := readNumber_eq_ok hsize h
  refine ⟨_, c.holds_extract size, ?_, by rw [Array.toArray_toList]⟩
  rw [Array.length_toList, Array.size_extract]
  omega

theorem readNumber_of_holds (hc : c.image.size < 0x8000000000000000) (h : c.Holds bytes)
    (hsize : bytes.length = size) (hpos : 0 < size) :
    ∃ d, c.readNumber size = .ok (littleEndian bytes.toArray, d) := by
  have hle := h.add_length_le hsize hpos
  have hcount : (Int64.ofNat size).toInt = size := Int64.toInt_ofNat_of_lt (by omega)
  have hstop : c.stop (Int64.ofNat size) = c.offset + size := by
    rw [stop, hcount]
    exact Int.bmod_eq_of_le (by omega) (by omega)
  have hbounds : ¬ (Int64.ofNat size < 0 ∨ c.image.size < c.stop (Int64.ofNat size)) := by
    rw [Int64.lt_iff_toInt_lt, hcount, hstop]
    simp only [Int64.toInt_zero]
    omega
  have hextract := h.extract_eq hsize
  rw [readNumber, read, if_neg hbounds, if_neg (by omega)]
  have hend : (c.stop (Int64.ofNat size)).toNat = c.offset + size := by omega
  rw [hend, hextract]
  exact ⟨_, rfl⟩

theorem readU8_holds {value : UInt8} (h : c.readU8 = .ok (value, d)) : c.Holds [value] := by
  unfold readU8 at h
  cases hn : c.readNumber 1 with
  | error failure => rw [hn] at h; cases h
  | ok r =>
    obtain ⟨n, e⟩ := r
    rw [hn] at h
    cases h
    obtain ⟨bytes, hbytes, hlength, rfl⟩ := readNumber_holds (by decide) hn
    obtain ⟨b, rfl⟩ := List.length_eq_one_iff.1 hlength
    simpa [littleEndian] using hbytes

theorem readU8_of_holds {value : UInt8} (hc : c.image.size < 0x8000000000000000)
    (h : c.Holds [value]) : ∃ d, c.readU8 = .ok (value, d) := by
  have hsize : [value].length = 1 := rfl
  obtain ⟨d, hd⟩ := readNumber_of_holds hc h hsize Nat.one_pos
  refine ⟨d, ?_⟩
  rw [readU8, hd]
  simp [Except.map, littleEndian]

end Holding

end Cartridge.Cursor

namespace Processor

variable {op : Opcode} {p : Flags} {c d : Cursor} {operand : Operand} {bytes : List UInt8} {n : Nat}

/-- A table that is built from groups has under a byte an opcode of this value. -/
theorem Table.value_of_lookup {groups : List Group} {table : Table} {value : UInt8}
    (htable : Table.ofGroups groups = .ok table) (h : table.lookup value = .ok op) :
    op.value = value := by
  have hfind := Table.find?_of_lookup h
  obtain ⟨g, -, description, -, rfl, rfl⟩ := (Table.find?_ofGroups htable).1 hfind
  rfl

theorem Opcode.readOperand_holds (h : op.readOperand p c = .ok (operand, d)) :
    ∃ bytes, c.Holds bytes ∧ bytes.length = operand.length.toNat ∧ bytes.length ≤ 3 ∧
      Cursor.littleEndian bytes.toArray = operand.value.toNat := by
  unfold readOperand at h
  rw [during_eq_ok] at h
  obtain ⟨n, hn, h⟩ := bind_eq_ok.1 h
  have hle := operandLength_le hn
  split at h
  · cases h
    exact ⟨[], List.nil_prefix, rfl, by simp, rfl⟩
  · obtain ⟨⟨value, e⟩, hr, h⟩ := bind_eq_ok.1 h
    cases h
    obtain ⟨bytes, hbytes, hlength, rfl⟩ := Cursor.readNumber_holds (by omega) hr
    refine ⟨bytes, hbytes, hlength, hlength ▸ hle, ?_⟩
    have hlt : Cursor.littleEndian bytes.toArray < 256 ^ 3 :=
      Nat.lt_of_lt_of_le (Cursor.littleEndian_lt bytes)
        (Nat.pow_le_pow_right (by decide) (hlength ▸ hle))
    rw [UInt32.toNat_ofNat_of_lt' (by rw [UInt32.size]; omega)]

theorem Opcode.readOperand_of_holds (hc : c.image.size < 0x8000000000000000)
    (hn : op.operandLength p = .ok bytes.length) (h : c.Holds bytes) :
    ∃ d, op.readOperand p c =
      .ok (⟨UInt32.ofNat (Cursor.littleEndian bytes.toArray), bytes.length⟩, d) := by
  unfold readOperand
  simp only [during_eq_ok]
  cases bytes with
  | nil =>
    refine ⟨c, bind_eq_ok.2 ⟨0, hn, ?_⟩⟩
    rw [if_pos rfl]
    rfl
  | cons b rest =>
    obtain ⟨d, hd⟩ := Cursor.readNumber_of_holds hc h rfl (Nat.succ_pos _)
    refine ⟨d, bind_eq_ok.2 ⟨_, hn, ?_⟩⟩
    rw [if_neg (by simp)]
    exact bind_eq_ok.2 ⟨_, hd, rfl⟩

end Processor

namespace Instruction

variable {table : Table} {p : Flags} {c d e : Cursor} {i : Instruction}

theorem bytes_eq {bytes : List UInt8} (hlength : bytes.length = i.operand.length.toNat)
    (hvalue : Cursor.littleEndian bytes.toArray = i.operand.value.toNat) :
    i.bytes = i.opcode.value :: bytes := by
  rw [Instruction.bytes, ← hlength, ← hvalue, Cursor.map_littleEndian]

/-- The image holds the bytes of a decoded instruction where it was read. -/
theorem holds_of_decode {groups : List Group} (htable : Table.ofGroups groups = .ok table)
    (h : decode table p c = .ok (i, d)) :
    c.Holds i.bytes ∧ i.bytes.length = i.size ∧ i.operand.length ≤ 3 ∧
      i.operand.value.toNat < 256 ^ i.operand.length.toNat := by
  obtain ⟨value, e, hvalue, hop, hoperand, -⟩ := decode_parts h
  obtain ⟨himage, -, hoffset, -⟩ := Cursor.readU8_eq_ok hvalue
  obtain ⟨bytes, hbytes, hlength, hle, hnumber⟩ := Opcode.readOperand_holds hoperand
  obtain ⟨-, hnonneg⟩ := operandLength_of_decode h
  have heq := bytes_eq hlength hnumber
  refine ⟨?_, ?_, by omega, ?_⟩
  · rw [heq, Table.value_of_lookup htable hop]
    rw [Cursor.Holds, himage, hoffset] at hbytes
    exact Cursor.holds_cons.2 ⟨Cursor.readU8_holds hvalue, hbytes⟩
  · rw [heq, List.length_cons, size_eq (by omega) (by omega)]
    omega
  · rw [← hnumber, ← hlength]
    exact Cursor.littleEndian_lt bytes

/-- Wherever an image holds the bytes of a decoded instruction, its opcode and its operand are
decoded from them. -/
theorem decode_of_holds {groups : List Group} (htable : Table.ofGroups groups = .ok table)
    (h : decode table p c = .ok (i, d)) (he : e.image.size < 0x8000000000000000)
    (hbytes : e.Holds i.bytes) :
    ∃ f, decode table p e = .ok (⟨e.tell, i.opcode, i.operand⟩, f) := by
  obtain ⟨value, b, hvalue, hop, hoperand, -⟩ := decode_parts h
  obtain ⟨bytes, -, hlength, -, hnumber⟩ := Opcode.readOperand_holds hoperand
  obtain ⟨hn, hnonneg⟩ := operandLength_of_decode h
  rw [bytes_eq hlength hnumber, Cursor.holds_cons, Table.value_of_lookup htable hop] at hbytes
  obtain ⟨b, hb⟩ := Cursor.readU8_of_holds he hbytes.1
  obtain ⟨himage, -, hoffset, -⟩ := Cursor.readU8_eq_ok hb
  have hrest : b.Holds bytes := by
    rw [Cursor.Holds, himage, hoffset]
    exact hbytes.2
  obtain ⟨f, hf⟩ := Opcode.readOperand_of_holds (by rwa [himage]) (hlength ▸ hn) hrest
  have hsame : (⟨UInt32.ofNat (Cursor.littleEndian bytes.toArray), bytes.length⟩ : Operand) =
      i.operand := by
    rw [hnumber, UInt32.ofNat_toNat, hlength, Int.toNat_of_nonneg hnonneg]
  rw [hsame] at hf
  exact ⟨f, decode_of_parts hb (Table.find?_of_lookup hop) hf⟩

/-- Decoding with a table that was built from groups is faithful to the image: the instruction has
the address of its place, the cursor moves by its size, the operand has at most three bytes and
fits in them, and the bytes from the place up to the cursor are the opcode and the operand, as the
listing shows them. Any image that holds these bytes is decoded to the same opcode and
operand. -/
theorem decode_faithful {groups : List Group} (htable : Table.ofGroups groups = .ok table)
    (h : decode table p c = .ok (i, d)) :
    i.address = c.mapping.toAddress c.offset ∧
    (d.image = c.image ∧ d.mapping = c.mapping ∧ d.offset = c.offset + i.size) ∧
    (0 ≤ i.operand.length ∧ i.operand.length ≤ 3 ∧ i.size = 1 + i.operand.length ∧
      i.operand.value.toNat < 256 ^ i.operand.length.toNat) ∧
    (c.image.extract c.offset d.offset).toList = i.bytes ∧
    Listing.bytesText i =
      " ".intercalate ((c.image.extract c.offset d.offset).toList.map Text.hexByte) ∧
    ∀ e : Cursor, e.image.size < 0x8000000000000000 → e.Holds i.bytes →
      ∃ f, decode table p e = .ok (⟨e.tell, i.opcode, i.operand⟩, f) ∧
        f.offset = e.offset + i.size := by
  obtain ⟨haddress, -, himage, hmapping, hoffset⟩ := decode_eq_ok h
  obtain ⟨hbytes, hlength, hle, hlt⟩ := holds_of_decode htable h
  obtain ⟨-, hnonneg⟩ := operandLength_of_decode h
  have hsize : i.size = 1 + i.operand.length := size_eq (by omega) (by omega)
  have hend : d.offset = c.offset + i.bytes.length := by omega
  have hextract : (c.image.extract c.offset d.offset).toList = i.bytes := by
    rw [hend, hbytes.extract_eq rfl]
  refine ⟨haddress, ⟨himage, hmapping, hoffset⟩, ⟨hnonneg, hle, hsize, hlt⟩, hextract,
    by rw [hextract]; rfl, ?_⟩
  intro e he hholds
  obtain ⟨f, hf⟩ := decode_of_holds htable h he hholds
  exact ⟨f, hf, (decode_eq_ok hf).2.2.2.2⟩

/-- A load of a word in the middle of a LoROM image, and the same bytes at the start of a HiROM
image. -/
theorem decode_faithful_load :
    ∃ d, decode Table.standard {} ⟨#[0xEA, 0xA9, 0x34, 0x12, 0x60], .loRom, 1, none⟩ =
        .ok (⟨0x808001, .lda, ⟨0x1234, 2⟩⟩, d) ∧
      d.offset = 4 ∧ Listing.bytesText ⟨0x808001, .lda, ⟨0x1234, 2⟩⟩ = "A9 34 12" ∧
      ∃ f, decode Table.standard {} ⟨#[0xA9, 0x34, 0x12], .hiRom, 0, none⟩ =
        .ok (⟨0xC00000, .lda, ⟨0x1234, 2⟩⟩, f) := by
  have hload := decode_of_parts (c := ⟨#[0xEA, 0xA9, 0x34, 0x12, 0x60], .loRom, 1, none⟩)
    (p := {}) rfl Opcode.find?_lda rfl
  obtain ⟨-, -, -, -, htext, hagain⟩ := decode_faithful Table.ofGroups_catalogue hload
  obtain ⟨f, hf, -⟩ := hagain ⟨#[0xA9, 0x34, 0x12], .hiRom, 0, none⟩ (by decide)
    ⟨[], rfl⟩
  exact ⟨_, hload, rfl, htext, f, hf⟩

end Instruction

end CartFlow
