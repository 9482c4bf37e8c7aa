import CartFlow.Proofs.Processor.OpcodeTable
import CartFlow.Proofs.Routine.Decoding

/-!
# Reading given code step by step

Of a state of the reader only the place, the flags, the instructions found and the pending
addresses matter. What a step does with them is stated here once for each kind of instruction,
so that code of a few instructions is read by applying these rules one after the other.
-/
namespace CartFlow

open Processor Cartridge

theorem Instruction.decode_of_parts {table : Table} {p : Flags} {c d e : Cursor} {value : UInt8}
    {op : Opcode} {operand : Operand} (hvalue : c.readU8 = .ok (value, e))
    (hop : table.find? value = some op) (hoperand : op.readOperand p e = .ok (operand, d)) :
    Instruction.decode table p c = .ok (⟨c.tell, op, operand⟩, d) := by
  have hlookup : table.lookup value = .ok op := by rw [Table.lookup, hop]
  refine bind_eq_ok.2 ⟨(value, e), during_eq_ok.2 hvalue, during_eq_ok.2 ?_⟩
  exact bind_eq_ok.2 ⟨op, hlookup, bind_eq_ok.2 ⟨(operand, d), hoperand, rfl⟩⟩

namespace Reader

section Steps

variable {order : PopOrder} {table : Table} {d e : Cursor} {t : Address} {i : Instruction}
  {s : State}

theorem step_of_decode (hknown : s.routine.isKnown s.cursor.tell = false)
    (hd : Instruction.decode table s.flags s.cursor = .ok (i, d)) :
    (step order table s).outcome = CartFlow.during (.readingRoutine s.routine.address)
      (follow order i (s.advance i d)).outcome := by
  simp only [step, hknown, hd]
  rfl

theorem follow_eq (order : PopOrder) (i : Instruction) (s : State) :
    follow order i s =
      match i.handling with
      | .call => followCall i s
      | .ret => resume order s
      | .branch => followBranch i s
      | .jump => followJump i s
      | .plain => pure (.more s) := by
  unfold follow Instruction.handling
  cases i.has .call <;> cases i.has .ret <;> cases i.has .branch <;> cases i.has .jump <;> rfl

theorem resume_of_nil (h : s.routine.pending = []) :
    (resume order s).outcome = .ok (.finished s.routine) := by
  have hnone : order.next s.routine = none := by
    rw [Option.eq_none_iff_forall_ne_some]
    intro a ha
    have hmem := order.mem_pending ha
    rw [h] at hmem
    exact List.not_mem_nil hmem
  rw [resume, hnone]
  rfl

theorem resume_of_next (h : order.next s.routine = some t) (hseek : s.cursor.seek t = .ok e) :
    (resume order s).outcome =
      .ok (.more { s with cursor := e, routine := s.routine.dropPending t }) := by
  rw [resume, h]
  simp only [note, Traced.outcome_bind, Traced.outcome_report, Traced.outcome_ofExcept, hseek]
  rfl

theorem followBranch_eq (h : i.staticTarget = .ok t) :
    (followBranch i s).outcome = .ok (.more { s with routine := s.routine.addPending t }) := by
  simp only [followBranch, note, Traced.outcome_bind, Traced.outcome_ofExcept,
    Traced.outcome_report, h]
  rfl

theorem followJump_eq (h : i.staticTarget = .ok t) (hunknown : s.routine.isKnown t = false)
    (hseek : s.cursor.seek t = .ok e) :
    (followJump i s).outcome =
      .ok (.more { s with cursor := e, routine := s.routine.addPending t }) := by
  rw [followJump, Traced.outcome_bind, Traced.outcome_ofExcept, h]
  change (if s.routine.isKnown t then _ else _ : Traced Next).outcome = _
  rw [hunknown, if_neg Bool.false_ne_true]
  simp only [note, Traced.outcome_bind, Traced.outcome_report, Traced.outcome_ofExcept, hseek]
  rfl

theorem step_of_known (h : s.routine.isKnown s.cursor.tell = true) :
    (step order table s).outcome = (resume order s).outcome := by
  rw [step, if_pos h]
  simp only [note, Traced.outcome_bind, Traced.outcome_report]
  rfl

end Steps

/-- What matters of a state: the place, the flags, the instructions found and the pending
addresses. -/
structure Looks (c : Cursor) (p : Flags) (found : List Instruction) (pending : List Address)
    (s : State) : Prop where
  sameImage : c.SameImage s.cursor
  offset_eq : s.cursor.offset = c.offset
  flags_eq : s.flags = p
  tidy : s.routine.Tidy
  instructions_eq : s.routine.instructions.toList = found
  pending_eq : s.routine.pending = pending

/-- From states that look alike the reader ends with a routine of the given instructions. -/
def Reads (order : PopOrder) (table : Table) (c : Cursor) (p : Flags) (found : List Instruction)
    (pending : List Address) (all : List Instruction) : Prop :=
  ∀ s, Looks c p found pending s →
    ∃ r, (∀ seen, (run order table s seen).outcome = .ok r) ∧ r.instructions.toList = all

section Rules

variable {order : PopOrder} {table : Table} {c d e : Cursor} {address t : Address} {p : Flags}
  {found all : List Instruction} {pending : List Address} {i : Instruction} {s s' : State}

namespace Looks

theorem isKnown_eq (h : Looks c p found pending s) {a : Address} :
    s.routine.isKnown a = true ↔ ∃ i ∈ found, i.address = a := by
  rw [h.tidy.isKnown_iff, ← h.instructions_eq]
  simp only [Array.mem_toList_iff]

theorem tell_eq (h : Looks c p found pending s) : s.cursor.tell = c.tell :=
  Cursor.tell_congr h.sameImage h.offset_eq

theorem advance (h : Looks c p found pending s) (hnew : ∀ j ∈ found, j.address ≠ c.tell)
    (hd : Instruction.decode table p c = .ok (i, d)) :
    ∃ f, s.routine.isKnown s.cursor.tell = false ∧
      Instruction.decode table s.flags s.cursor = .ok (i, f) ∧
      Looks d (p.update i.opcode i.operand.value) (found ++ [i])
        (pending.filter (· != i.address)) (s.advance i f) := by
  obtain ⟨f, hf, hsame, hoffset⟩ := Instruction.decode_congr h.sameImage h.offset_eq hd
  have hknown : s.routine.isKnown s.cursor.tell = false := by
    rw [← Bool.not_eq_true, h.isKnown_eq, h.tell_eq]
    rintro ⟨j, hj, heq⟩
    exact hnew j hj heq
  refine ⟨f, hknown, by rw [h.flags_eq, hf], hsame, hoffset, ?_, ?_, ?_, ?_⟩
  · simp only [State.advance, h.flags_eq]
  · apply h.tidy.addInstruction
    rw [(Instruction.decode_eq_ok hf).1]
    exact hknown
  · simp only [State.advance, Routine.addInstruction, Array.toList_push, h.instructions_eq]
  · simp only [State.advance, Routine.addInstruction, h.pending_eq]

theorem isKnown_eq_false (h : Looks c p found pending s) (hfree : ∀ j ∈ found, j.address ≠ t) :
    s.routine.isKnown t = false := by
  rw [← Bool.not_eq_true, h.isKnown_eq]
  rintro ⟨j, hj, heq⟩
  exact hfree j hj heq

theorem addPending (h : Looks c p found pending s) (hfree : ∀ j ∈ found, j.address ≠ t)
    (hpending : t ∉ pending) :
    Looks c p found (pending ++ [t]) { s with routine := s.routine.addPending t } where
  sameImage := h.sameImage
  offset_eq := h.offset_eq
  flags_eq := h.flags_eq
  tidy := h.tidy.addPending t
  instructions_eq := by rw [Routine.instructions_addPending, h.instructions_eq]
  pending_eq := by
    rw [Routine.addPending, if_neg, h.pending_eq]
    simp [h.isKnown_eq_false hfree, h.pending_eq, hpending]

end Looks

namespace Reads

theorem of_step (hstep : (step order table s).outcome = .ok (.more s'))
    (hs : Looks c p found pending s') (h : Reads order table c p found pending all) :
    ∃ r, (∀ seen, (run order table s seen).outcome = .ok r) ∧ r.instructions.toList = all := by
  obtain ⟨r, hrun, hall⟩ := h s' hs
  refine ⟨r, fun seen => ?_, hall⟩
  rw [outcome_run, hstep]
  exact hrun _

theorem plain (hnew : ∀ j ∈ found, j.address ≠ c.tell)
    (hd : Instruction.decode table p c = .ok (i, d)) (hi : i.handling = .plain)
    (h : Reads order table d (p.update i.opcode i.operand.value) (found ++ [i])
      (pending.filter (· != i.address)) all) :
    Reads order table c p found pending all := by
  intro s hs
  obtain ⟨f, hknown, hf, hs'⟩ := hs.advance hnew hd
  refine of_step ?_ hs' h
  rw [step_of_decode hknown hf, follow_eq, hi]
  rfl

theorem branch (hnew : ∀ j ∈ found, j.address ≠ c.tell)
    (hd : Instruction.decode table p c = .ok (i, d)) (hi : i.handling = .branch)
    (ht : i.staticTarget = .ok t) (hfree : ∀ j ∈ found ++ [i], j.address ≠ t)
    (hpending : t ∉ pending)
    (h : Reads order table d (p.update i.opcode i.operand.value) (found ++ [i])
      (pending.filter (· != i.address) ++ [t]) all) :
    Reads order table c p found pending all := by
  intro s hs
  obtain ⟨f, hknown, hf, hs'⟩ := hs.advance hnew hd
  have hstep : (step order table s).outcome = .ok (.more { s.advance i f with
      routine := (s.advance i f).routine.addPending t }) := by
    rw [step_of_decode hknown hf, follow_eq, hi]
    dsimp only
    rw [followBranch_eq ht, during_ok]
  exact of_step hstep (hs'.addPending hfree fun hmem => hpending (List.mem_of_mem_filter hmem)) h

theorem branchBack (hnew : ∀ j ∈ found, j.address ≠ c.tell)
    (hd : Instruction.decode table p c = .ok (i, d)) (hi : i.handling = .branch)
    (ht : i.staticTarget = .ok t) (hfound : ∃ j ∈ found ++ [i], j.address = t)
    (h : Reads order table d (p.update i.opcode i.operand.value) (found ++ [i])
      (pending.filter (· != i.address)) all) :
    Reads order table c p found pending all := by
  intro s hs
  obtain ⟨f, hknown, hf, hs'⟩ := hs.advance hnew hd
  have hsame : (s.advance i f).routine.addPending t = (s.advance i f).routine := by
    rw [Routine.addPending, if_pos]
    rw [hs'.isKnown_eq.2 hfound]
    rfl
  refine of_step ?_ hs' h
  rw [step_of_decode hknown hf, follow_eq, hi]
  dsimp only
  rw [followBranch_eq ht, hsame, during_ok]

theorem jump (hnew : ∀ j ∈ found, j.address ≠ c.tell)
    (hd : Instruction.decode table p c = .ok (i, d)) (hi : i.handling = .jump)
    (ht : i.staticTarget = .ok t) (hfree : ∀ j ∈ found ++ [i], j.address ≠ t)
    (hpending : t ∉ pending) (hseek : d.seek t = .ok e)
    (h : Reads order table e (p.update i.opcode i.operand.value) (found ++ [i])
      (pending.filter (· != i.address) ++ [t]) all) :
    Reads order table c p found pending all := by
  intro s hs
  obtain ⟨f, hknown, hf, hs'⟩ := hs.advance hnew hd
  obtain ⟨g, hg, hsame, hoffset⟩ := Cursor.seek_congr hs'.sameImage hseek
  have hstep : (step order table s).outcome = .ok (.more { s.advance i f with
      cursor := g, routine := (s.advance i f).routine.addPending t }) := by
    rw [step_of_decode hknown hf, follow_eq, hi]
    dsimp only
    rw [followJump_eq ht (hs'.isKnown_eq_false hfree) hg, during_ok]
  have hlooks := hs'.addPending hfree fun hmem => hpending (List.mem_of_mem_filter hmem)
  exact of_step hstep ⟨hsame, hoffset, hlooks.flags_eq, hlooks.tidy, hlooks.instructions_eq,
    hlooks.pending_eq⟩ h

theorem ret (hnew : ∀ j ∈ found, j.address ≠ c.tell)
    (hd : Instruction.decode table p c = .ok (i, d)) (hi : i.handling = .ret)
    (hnext : ∀ r : Routine, r.pending = pending.filter (· != i.address) → order.next r = some t)
    (hseek : d.seek t = .ok e)
    (h : Reads order table e (p.update i.opcode i.operand.value) (found ++ [i])
      ((pending.filter (· != i.address)).filter (· != t)) all) :
    Reads order table c p found pending all := by
  intro s hs
  obtain ⟨f, hknown, hf, hs'⟩ := hs.advance hnew hd
  obtain ⟨g, hg, hsame, hoffset⟩ := Cursor.seek_congr hs'.sameImage hseek
  have hstep : (step order table s).outcome = .ok (.more { s.advance i f with
      cursor := g, routine := (s.advance i f).routine.dropPending t }) := by
    rw [step_of_decode hknown hf, follow_eq, hi]
    dsimp only
    rw [resume_of_next (hnext _ hs'.pending_eq) hg, during_ok]
  refine of_step hstep ?_ h
  · refine ⟨hsame, hoffset, hs'.flags_eq, hs'.tidy.dropPending t, hs'.instructions_eq, ?_⟩
    simp only [Routine.dropPending, hs'.pending_eq]

theorem lastRet (hnew : ∀ j ∈ found, j.address ≠ c.tell)
    (hd : Instruction.decode table p c = .ok (i, d)) (hi : i.handling = .ret)
    (hpending : pending.filter (· != i.address) = []) :
    Reads order table c p found pending (found ++ [i]) := by
  intro s hs
  obtain ⟨f, hknown, hf, hs'⟩ := hs.advance hnew hd
  refine ⟨(s.advance i f).routine, fun seen => ?_, hs'.instructions_eq⟩
  have hfinish : (step order table s).outcome = .ok (.finished (s.advance i f).routine) := by
    rw [step_of_decode hknown hf, follow_eq, hi]
    dsimp only
    rw [resume_of_nil (by rw [hs'.pending_eq, hpending]), during_ok]
  rw [outcome_run, hfinish]

theorem known (hknown : ∃ j ∈ found, j.address = c.tell) :
    Reads order table c p found [] found := by
  intro s hs
  refine ⟨s.routine, fun seen => ?_, hs.instructions_eq⟩
  have hfinish : (step order table s).outcome = .ok (.finished s.routine) := by
    rw [step_of_known (by rwa [hs.isKnown_eq, hs.tell_eq]), resume_of_nil hs.pending_eq]
  rw [outcome_run, hfinish]

theorem read (hseek : c.seek address = .ok d) (h : Reads order table d p [] [] all) :
    ∃ r, (Routine.read order table c address p).outcome = .ok r ∧
      r.instructions.toList = all := by
  have hstart : Looks d p [] [] ⟨d, p, { address }⟩ :=
    ⟨⟨rfl, rfl⟩, rfl, rfl, .start address, rfl, rfl⟩
  obtain ⟨r, hrun, hall⟩ := h _ hstart
  refine ⟨r, ?_, hall⟩
  rw [outcome_read, hseek]
  exact hrun #[]

end Reads

/-- With one address pending every order takes it. -/
theorem next_of_singleton (order : PopOrder) {r : Routine}
    (h : r.pending = [t]) : order.next r = some t := by
  obtain ⟨a, ha⟩ := Option.isSome_iff_exists.1 (order.isSome_next (r := r) (by simp [h]))
  have hmem := order.mem_pending ha
  rw [h, List.mem_singleton] at hmem
  rw [ha, hmem]

end Rules

end Reader

end CartFlow
