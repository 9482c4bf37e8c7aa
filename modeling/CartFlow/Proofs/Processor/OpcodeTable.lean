import CartFlow.Processor.Catalogue

/-!
# What an opcode table holds

A table that is built from groups holds the described opcodes and nothing else. Facts about
the standard table are therefore facts about the catalogue, and the table need not be built to
know what it has for a byte.
-/
namespace CartFlow.Processor.Table

variable {t u : Table} {op found : Opcode} {value : UInt8} {g : Group} {groups : List Group}

theorem find?_eq_getElem (t : Table) (h : value.toNat < 256) :
    t.find? value = t.slots[value.toNat] := rfl

/-- Entering an opcode fills its slot, which was free, and no other. -/
theorem insert_eq_ok (h : t.insert op = .ok u) :
    t.find? op.value = none ∧
      ∀ value, u.find? value = if value = op.value then some op else t.find? value := by
  unfold insert at h
  split at h
  · cases h
  · next hfree =>
    cases h
    refine ⟨by simpa using hfree, fun value => ?_⟩
    rw [find?_eq_getElem _ value.toNat_lt, Vector.getElem_set]
    by_cases heq : value = op.value
    · simp [heq]
    · have hne : op.value.toNat ≠ value.toNat := fun hnat => heq (UInt8.toNat_inj.1 hnat.symm)
      rw [if_neg hne, if_neg heq, find?_eq_getElem _ value.toNat_lt]

theorem find?_insert (h : t.insert op = .ok u) :
    u.find? value = some found ↔
      t.find? value = some found ∨ op.value = value ∧ op = found := by
  obtain ⟨hfree, hslots⟩ := insert_eq_ok h
  rw [hslots]
  split
  · next heq =>
    subst heq
    simp [hfree]
  · next hne => simp [Ne.symm hne]

theorem find?_insertGroup (h : t.insertGroup g = .ok u) :
    u.find? value = some found ↔
      t.find? value = some found ∨ ∃ d ∈ g.opcodes, d.value = value ∧ g.opcode d = found := by
  unfold insertGroup at h
  generalize g.opcodes = described at h
  induction described generalizing t with
  | nil => cases h; simp
  | cons d rest ih =>
    rw [List.foldlM_cons] at h
    obtain ⟨s, hinsert, h⟩ := bind_eq_ok.1 h
    rw [ih h, find?_insert hinsert, or_assoc]
    simp [Group.opcode]

theorem find?_insertGroups {seen : List String} (h : t.insertGroups seen groups = .ok u) :
    u.find? value = some found ↔
      t.find? value = some found ∨
        ∃ g ∈ groups, ∃ d ∈ g.opcodes, d.value = value ∧ g.opcode d = found := by
  induction groups generalizing t seen with
  | nil => cases h; simp
  | cons g rest ih =>
    unfold insertGroups at h
    split at h
    · cases h
    · obtain ⟨s, hgroup, h⟩ := bind_eq_ok.1 h
      rw [ih h, find?_insertGroup hgroup, or_assoc]
      simp

theorem find?_ofGroups (h : ofGroups groups = .ok t) :
    t.find? value = some found ↔
      ∃ g ∈ groups, ∃ d ∈ g.opcodes, d.value = value ∧ g.opcode d = found := by
  rw [find?_insertGroups h]
  have hfree : empty.find? value = none := by
    rw [find?_eq_getElem _ value.toNat_lt]
    exact Vector.getElem_replicate _
  simp [hfree]

theorem ofGroups_catalogue : ofGroups Catalogue.groups = .ok standard := by
  have hbuilt := toOption_ofGroups_catalogue
  cases h : ofGroups Catalogue.groups with
  | ok t =>
    rw [h] at hbuilt
    exact congrArg Except.ok (Option.some.inj hbuilt)
  | error e =>
    rw [h] at hbuilt
    cases hbuilt

theorem find?_standard :
    standard.find? value = some found ↔
      ∃ g ∈ Catalogue.groups, ∃ d ∈ g.opcodes, d.value = value ∧ g.opcode d = found :=
  find?_ofGroups ofGroups_catalogue

end CartFlow.Processor.Table

namespace CartFlow.Processor.Opcode

/-! Opcodes of the standard table that short pieces of code are made of. -/

def nop : Opcode := ⟨0xEA, "NOP", .none, .empty⟩

def lda : Opcode := ⟨0xA9, "LDA", .immediate, .accumulatorWide⟩

def sep : Opcode := ⟨0xE2, "SEP", .immediate, .setsFlags⟩

def beq : Opcode := ⟨0xF0, "BEQ", .relative, .branch⟩

def bne : Opcode := ⟨0xD0, "BNE", .relative, .branch⟩

def bra : Opcode := ⟨0x80, "BRA", .relative, .branch ∪ .unconditional⟩

def jmp : Opcode := ⟨0x5C, "JMP", .absoluteLong, .jump⟩

def jsr : Opcode := ⟨0x20, "JSR", .absolute, .call⟩

def rts : Opcode := ⟨0x60, "RTS", .none, .ret⟩

def usual : List Opcode := [nop, lda, sep, beq, bne, bra, jmp, jsr, rts]

theorem find?_usual : ∀ op ∈ usual, Table.standard.find? op.value = some op := by
  have hall : ∀ op ∈ usual, ∃ g ∈ Catalogue.groups, ∃ d ∈ g.opcodes,
      d.value = op.value ∧ g.opcode d = op := by
    decide +kernel
  intro op hop
  exact Table.find?_standard.2 (hall op hop)

theorem find?_nop : Table.standard.find? 0xEA = some nop :=
  find?_usual nop (by simp [usual])

theorem find?_lda : Table.standard.find? 0xA9 = some lda :=
  find?_usual lda (by simp [usual])

theorem find?_sep : Table.standard.find? 0xE2 = some sep :=
  find?_usual sep (by simp [usual])

theorem find?_beq : Table.standard.find? 0xF0 = some beq :=
  find?_usual beq (by simp [usual])

theorem find?_bne : Table.standard.find? 0xD0 = some bne :=
  find?_usual bne (by simp [usual])

theorem find?_bra : Table.standard.find? 0x80 = some bra :=
  find?_usual bra (by simp [usual])

theorem find?_jmp : Table.standard.find? 0x5C = some jmp :=
  find?_usual jmp (by simp [usual])

theorem find?_jsr : Table.standard.find? 0x20 = some jsr :=
  find?_usual jsr (by simp [usual])

theorem find?_rts : Table.standard.find? 0x60 = some rts :=
  find?_usual rts (by simp [usual])

end CartFlow.Processor.Opcode
