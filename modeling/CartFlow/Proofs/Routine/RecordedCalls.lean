import CartFlow.Proofs.Routine.OrderIndependence

/-!
# The calls that reading records

Following a call instruction with a known target records this target, and no step of the reader
forgets a recorded call. In a routine that was read, the target of every such instruction is
therefore recorded, whatever the instructions do to the flags.
-/
namespace CartFlow

open Processor Cartridge

namespace Routine

/-- The known targets of the call instructions are recorded. -/
def RecordsCalls (r : Routine) : Prop :=
  ∀ i ∈ r.instructions, i.handling = .call → ∀ t, i.target = .ok (some t) →
    ∃ called ∈ r.calls, called.address = t

section Calls

variable {r s : Routine} {i : Instruction} {flags : Flags} {target : Option Address} {a : Address}

theorem mem_calls_noteCall_of_mem {called : CalledRoutine} (h : called ∈ r.calls) :
    called ∈ (r.noteCall flags target).calls := by
  cases target with
  | none => exact h
  | some a => exact mem_calls_addCall.2 (.inl h)

/-- A call that is noted is recorded, if it was not before. -/
theorem exists_mem_noteCall (r : Routine) (flags : Flags) (a : Address) :
    ∃ called ∈ (r.noteCall flags (some a)).calls, called.address = a := by
  by_cases hfree : ∀ x ∈ r.calls, x.address ≠ a
  · exact ⟨⟨a, flags⟩, mem_calls_addCall.2 (.inr ⟨rfl, hfree⟩), rfl⟩
  · push Not at hfree
    obtain ⟨x, hx, ha⟩ := hfree
    exact ⟨x, mem_calls_noteCall_of_mem hx, ha⟩

theorem isSome_call? (h : ∃ called ∈ r.calls, called.address = a) : (r.call? a).isSome = true := by
  obtain ⟨called, hmem, ha⟩ := h
  exact List.find?_isSome.2 ⟨called, hmem, by simp [ha]⟩

theorem RecordsCalls.push (h : r.RecordsCalls)
    (hinstructions : s.instructions = r.instructions.push i)
    (hcalls : s.calls = (r.noteCall flags target).calls)
    (hcall : i.handling = .call → i.target = .ok target) : s.RecordsCalls := by
  intro j hj hjcall t ht
  rw [hcalls]
  rw [hinstructions, Array.mem_push] at hj
  rcases hj with hj | rfl
  · obtain ⟨called, hmem, ha⟩ := h j hj hjcall t ht
    exact ⟨called, mem_calls_noteCall_of_mem hmem, ha⟩
  · have htarget : target = some t := by
      rw [hcall hjcall] at ht
      exact Except.ok.inj ht
    rw [htarget]
    exact exists_mem_noteCall r flags t

end Calls

end Routine

namespace Reader

variable {order : PopOrder} {table : Table} {c d : Cursor} {address t : Address} {p : Flags}
  {n : Nat} {s : State} {i : Instruction} {r : Routine} {next : Next}

theorem recordsCalls_of_step (hs : s.routine.RecordsCalls)
    (h : (step order table s).outcome = .ok next) : next.routine.RecordsCalls := by
  cases steps_of_step h with
  | known _ hresumes =>
    intro i hi hcall t ht
    rw [hresumes.calls_eq]
    rw [hresumes.instructions_eq] at hi
    exact hs i hi hcall t ht
  | @decode i d _ hknown hd hfollows =>
    rw [step_of_decode hknown hd, during_eq_ok] at h
    obtain ⟨target, hcalls, hcall, -⟩ := calls_of_follow h
    have hnoted : next.routine.calls =
        (s.routine.noteCall (s.advance i d).flags target).calls :=
      hcalls.trans (Routine.calls_noteCall_congr rfl)
    exact hs.push hfollows.instructions_eq hnoted hcall

theorem ReachedAfter.recordsCalls (h : ReachedAfter order table c address p n s) :
    s.routine.RecordsCalls := by
  induction h with
  | start _ =>
    intro i hi
    exact absurd hi (Array.not_mem_empty i)
  | step _ hstep ih => exact recordsCalls_of_step ih hstep

theorem recordsCalls_of_read (h : (Routine.read order table c address p).outcome = .ok r) :
    r.RecordsCalls := by
  obtain ⟨n, s, hs, hfinish⟩ := read_eq_ok h
  exact recordsCalls_of_step hs.recordsCalls hfinish

theorem Reads.call {found all : List Instruction} {pending : List Address}
    (hnew : ∀ j ∈ found, j.address ≠ c.tell)
    (hd : Instruction.decode table p c = .ok (i, d)) (hi : i.handling = .call)
    (ht : i.target = .ok (some t))
    (h : Reads order table d (p.update i.opcode i.operand.value) (found ++ [i])
      (pending.filter (· != i.address)) all) :
    Reads order table c p found pending all := by
  intro s hs
  obtain ⟨f, hknown, hf, hs'⟩ := hs.advance hnew hd
  have hstep : (step order table s).outcome = .ok (.more { s.advance i f with
      routine := (s.advance i f).routine.addCall t (s.advance i f).flags }) := by
    rw [step_of_decode hknown hf, follow_eq, hi]
    dsimp only
    rw [followCall_eq ht, during_ok]
    rfl
  apply of_step hstep _ h
  rw [Routine.addCall_eq]
  exact ⟨hs'.sameImage, hs'.offset_eq, hs'.flags_eq, hs'.tidy.withCalls _, hs'.instructions_eq,
    hs'.pending_eq⟩

end Reader

end CartFlow
