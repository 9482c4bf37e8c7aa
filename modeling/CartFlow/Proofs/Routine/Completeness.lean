import CartFlow.Proofs.Routine.Evaluation

/-!
# A routine that is read is complete and minimal

Nothing that control can reach is left out: the code behind an instruction is decoded unless it is
a return or a jump, and so is the target of every branch and jump, possibly under the name that the
mapping prefers. Nothing else is decoded: what is not the entry is behind a decoded instruction or
the target of one.
-/
namespace CartFlow.Reader

open Processor Cartridge

/-- A routine that is read successfully is complete: the entry is decoded, the instructions
that reading decodes are those of the routine, and control is followed behind each of them.
It is also minimal: each decoded address is the entry or stems from a decoded instruction. -/
theorem read_complete_minimal {order : PopOrder} {table : Table} {c : Cursor} {address : Address}
    {p : Flags} {r : Routine}
    (h : (Routine.read order table c address p).outcome = .ok r) :
    (∃ d, c.seek address = .ok d ∧ ∃ i ∈ r.instructions, i.address = d.tell) ∧
    (∀ i, i ∈ r.instructions ↔ ∃ d, Decodes order table c address p i d) ∧
    (∀ i d, Decodes order table c address p i d →
      (i.handling = .call ∨ i.handling = .branch ∨ i.handling = .plain →
        ∃ j ∈ r.instructions, j.address = d.tell) ∧
      (i.handling = .branch ∨ i.handling = .jump →
        ∃ t, i.staticTarget = .ok t ∧
          ((∃ j ∈ r.instructions, j.address = t) ∨
            ∃ e, c.seek t = .ok e ∧ ∃ j ∈ r.instructions, j.address = e.tell))) ∧
    ∀ i ∈ r.instructions, Origin c address (Decodes order table c address p) i.address := by
  have hstems := stems_of_read h
  have hknown := (tidy_of_read h).1.isKnown_iff
  refine ⟨?_, ?_, ?_, ?_⟩
  · have hseek := h
    rw [outcome_read] at hseek
    split at hseek
    · cases hseek
    · next d hd =>
      obtain ⟨next, hstep, hnext⟩ := (ReachedAfter.start hd).covered h
      exact ⟨d, hd, (hknown _).1 ((steps_of_step hstep).covered hnext).cursor⟩
  · intro i
    constructor
    · exact hstems.instructions i
    · rintro ⟨d, hi⟩
      exact (hi.continued h).1
  · intro i d hi
    obtain ⟨-, hcontinued⟩ := hi.continued h
    constructor
    · intro hhandling
      apply (hknown _).1
      rcases hhandling with hh | hh | hh <;> exact hcontinued.behind (by simp [hh]) (by simp [hh])
    · intro hhandling
      obtain ⟨t, ht, hfound⟩ := hcontinued.target hhandling
      obtain ⟨n, s, hs, -, hd⟩ := hi
      obtain ⟨-, -, himage, hmapping, -⟩ := Instruction.decode_eq_ok hd
      have hsame : d.SameImage c := (hs.stems.sameImage.trans ⟨himage, hmapping⟩).symm
      refine ⟨t, ht, ?_⟩
      rcases hfound.congr hsame with ht' | ⟨e, he, ht'⟩
      · exact .inl ((hknown t).1 ht')
      · exact .inr ⟨e, he, (hknown _).1 ht'⟩
  · intro i hi
    exact hstems.known _ ((hknown _).2 ⟨i, hi, rfl⟩)

namespace Aliases

/-! A branch to a return, and behind it a jump to the same place by another name. The code is
entered by another name, too. -/

def cursor : Cursor :=
  { image := #[0xF0, 0x04, 0x5C, 0x06, 0x00, 0x40, 0x60], mapping := .hiRom }

def branch : Instruction := ⟨0xC00000, .beq, ⟨0x04, 1⟩⟩

def jump : Instruction := ⟨0xC00002, .jmp, ⟨0x400006, 3⟩⟩

def ret : Instruction := ⟨0xC00006, .rts, {}⟩

theorem read_eq (order : PopOrder) :
    ∃ r, (Routine.read order Table.standard cursor 0x400000 {}).outcome = .ok r ∧
      r.instructions.toList = [branch, jump, ret] := by
  have hplace : cursor.seek 0x400006 = .ok { cursor with offset := 6 } := by
    simp [Cursor.seek, Mapping.toOffset?, cursor]
  apply Reads.read (d := cursor) (by simp [Cursor.seek, Mapping.toOffset?, cursor])
  refine .branch (i := branch) (d := { cursor with offset := 2 }) (t := 0xC00006) (by decide)
    (Instruction.decode_of_parts rfl Opcode.find?_beq rfl) (by decide) (by decide +kernel)
    (by decide) (by decide) ?_
  refine .jump (i := jump) (d := { cursor with offset := 6 }) (t := 0x400006) (by decide)
    (Instruction.decode_of_parts rfl Opcode.find?_jmp rfl) (by decide) (by decide +kernel)
    (by decide) (by decide) hplace ?_
  refine .ret (i := ret) (d := { cursor with offset := 7 }) (t := 0x400006) (by decide)
    (Instruction.decode_of_parts rfl Opcode.find?_rts rfl) (by decide)
    (fun r hr => next_of_singleton order hr) hplace ?_
  exact .known (by decide)

end Aliases

open Aliases in
/-- The branch and the jump lead to the same return, the jump by a name that is decoded nowhere. -/
theorem read_complete_minimal_aliases :
    ∃ r, (Routine.read .newest Table.standard cursor 0x400000 {}).outcome = .ok r ∧
      r.instructions.toList = [branch, jump, ret] ∧
      (∃ d, cursor.seek 0x400000 = .ok d ∧ ∃ i ∈ r.instructions, i.address = d.tell) ∧
      (∀ i ∈ [branch, jump], ∃ t, i.staticTarget = .ok t ∧
        ((∃ j ∈ r.instructions, j.address = t) ∨
          ∃ e, cursor.seek t = .ok e ∧ ∃ j ∈ r.instructions, j.address = e.tell)) ∧
      (∀ j ∈ r.instructions, j.address ≠ 0x400006) ∧
      ∀ i ∈ r.instructions, Origin cursor 0x400000
        (Decodes .newest Table.standard cursor 0x400000 {}) i.address := by
  obtain ⟨r, hread, hall⟩ := read_eq .newest
  obtain ⟨hentry, hdecodes, hfollowed, horigin⟩ := read_complete_minimal hread
  have hhandling : ∀ i ∈ [branch, jump], i.handling = .branch ∨ i.handling = .jump := by decide
  refine ⟨r, hread, hall, hentry, fun i hi => ?_, fun j hj => ?_, horigin⟩
  · have hmem : i ∈ r.instructions := by
      rw [← Array.mem_toList_iff, hall]
      exact List.mem_append_left [ret] hi
    obtain ⟨d, hd⟩ := (hdecodes i).1 hmem
    exact (hfollowed i d hd).2 (hhandling i hi)
  · rw [← Array.mem_toList_iff, hall] at hj
    revert j
    decide

end CartFlow.Reader
