import CartFlow.Routine.Instruction

/-!
# Decoding

One instruction is read at the cursor: the opcode byte, then the operand that the
opcode and the flags ask for.
-/
namespace CartFlow.Instruction

open Processor Cartridge

def decode (table : Table) (p : Flags) (c : Cursor) : Except Failure (Instruction × Cursor) := do
  let (value, d) ← during (.readingOpcode c.tell) c.readU8
  during (.decoding c.tell) do
    let opcode ← table.lookup value
    let (operand, d) ← opcode.readOperand p d
    return (⟨c.tell, opcode, operand⟩, d)

end CartFlow.Instruction

namespace CartFlow.Cartridge.Cursor

open Processor

/-- Reading a number keeps the image and moves behind the bytes, which are inside the image. -/
theorem readNumber_eq_ok {c d : Cursor} {size n : Nat} (hsize : size < 0x8000000000000000)
    (h : c.readNumber size = .ok (n, d)) :
    d.image = c.image ∧ d.mapping = c.mapping ∧ d.offset = c.offset + size ∧
      c.offset + size ≤ c.image.size ∧
      n = littleEndian (c.image.extract c.offset (c.offset + size)) := by
  unfold readNumber at h
  split at h
  · next bytes e hread =>
    cases h
    have hcount : (Int64.ofNat size).toInt = size := Int64.toInt_ofNat_of_lt hsize
    obtain ⟨-, hle, rfl, himage, hmapping, hoffset⟩ := read_eq_ok hread
    simp only [hcount, Int.toNat_natCast] at *
    exact ⟨himage, hmapping, hoffset, by omega, trivial⟩
  · cases h

theorem readU8_eq_ok {c d : Cursor} {value : UInt8} (h : c.readU8 = .ok (value, d)) :
    d.image = c.image ∧ d.mapping = c.mapping ∧ d.offset = c.offset + 1 ∧
      c.offset < c.image.size ∧
      value = UInt8.ofNat (littleEndian (c.image.extract c.offset (c.offset + 1))) := by
  unfold readU8 at h
  cases hn : c.readNumber 1 with
  | error e => rw [hn] at h; cases h
  | ok r =>
    obtain ⟨n, e⟩ := r
    rw [hn] at h
    cases h
    obtain ⟨h₁, h₂, h₃, h₄, h₅⟩ := readNumber_eq_ok (by omega) hn
    exact ⟨h₁, h₂, h₃, by omega, by rw [h₅]⟩

end CartFlow.Cartridge.Cursor

namespace CartFlow.Processor.Opcode

open Cartridge

theorem operandLength_le {op : Opcode} {p : Flags} {n : Nat} (h : op.operandLength p = .ok n) :
    n ≤ 3 := by
  unfold operandLength at h
  have := immediateLength_eq_one_or_two op p
  split at h <;> cases h <;> omega

theorem readOperand_eq_ok {op : Opcode} {p : Flags} {c d : Cursor} {operand : Operand}
    (h : op.readOperand p c = .ok (operand, d)) :
    op.operandLength p = .ok operand.length.toNat ∧ 0 ≤ operand.length ∧
      d.image = c.image ∧ d.mapping = c.mapping ∧ d.offset = c.offset + operand.length ∧
      (operand.length = 0 ∨ c.offset + operand.length ≤ c.image.size) := by
  unfold readOperand at h
  rw [during_eq_ok] at h
  cases hn : op.operandLength p with
  | error e => rw [hn] at h; cases h
  | ok n =>
    rw [hn] at h
    simp only [bind, Except.bind] at h
    split at h
    · next hzero => cases h; simp [hzero]
    · have hle := operandLength_le hn
      cases hr : c.readNumber n with
      | error e => rw [hr] at h; cases h
      | ok r =>
        obtain ⟨value, e⟩ := r
        rw [hr] at h
        cases h
        obtain ⟨h₁, h₂, h₃, h₄, -⟩ := Cursor.readNumber_eq_ok (by omega) hr
        exact ⟨rfl, Int.natCast_nonneg n, h₁, h₂, by simp only [h₃]; omega,
          .inr (by dsimp only; omega)⟩

end CartFlow.Processor.Opcode

namespace CartFlow.Instruction

open Processor Cartridge

/-- A decoded instruction stands at the cursor, inside the image, and the cursor moves behind it. -/
theorem decode_eq_ok {table : Table} {p : Flags} {c d : Cursor} {i : Instruction}
    (h : decode table p c = .ok (i, d)) :
    i.address = c.tell ∧ c.offset < c.image.size ∧
      d.image = c.image ∧ d.mapping = c.mapping ∧ d.offset = c.offset + i.size := by
  unfold decode at h
  cases hv : c.readU8 with
  | error e => rw [hv] at h; cases h
  | ok r =>
    obtain ⟨value, e⟩ := r
    obtain ⟨h₁, h₂, h₃, h₄, -⟩ := Cursor.readU8_eq_ok hv
    rw [hv] at h
    simp only [during_ok, bind, Except.bind] at h
    rw [during_eq_ok] at h
    cases ht : table.lookup value with
    | error e => rw [ht] at h; cases h
    | ok op =>
      simp only [ht] at h
      cases ho : op.readOperand p e with
      | error e => rw [ho] at h; cases h
      | ok r =>
        obtain ⟨operand, f⟩ := r
        rw [ho] at h
        cases h
        obtain ⟨hlength, hnonneg, h₅, h₆, h₇, -⟩ := Opcode.readOperand_eq_ok ho
        have hle := Opcode.operandLength_le hlength
        refine ⟨rfl, h₄, h₅.trans h₁, h₆.trans h₂, ?_⟩
        rw [size_eq (by dsimp only; omega) (by dsimp only; omega)]
        dsimp only
        omega

end CartFlow.Instruction
