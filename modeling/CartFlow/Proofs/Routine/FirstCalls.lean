import CartFlow.Proofs.Routine.RecordedCalls

/-!
# First calls and ignored calls

A call is recorded with the flags that the reader holds right behind it, unless a call of the same
routine was decoded before. Every recorded call therefore has the flags behind the first call of
its routine. A call whose target is computed is not recorded; the reader reports that it ignores
it, so its log names these calls in the order in which they are decoded. Nothing else that the
reader reports looks like this, which is stated once for each way of putting computations
together.
-/
namespace CartFlow

open Processor Cartridge

namespace Instruction

def Calls (i : Instruction) (t : Address) : Prop :=
  i.handling = .call ∧ i.target = .ok (some t)

theorem handling_eq_call_iff {i : Instruction} : i.handling = .call ↔ i.has .call = true := by
  unfold handling
  cases i.has .call <;> cases i.has .ret <;> cases i.has .branch <;> cases i.has .jump <;> decide

/-- Whether an instruction is a call whose target is computed while the program runs. -/
def isComputedCall (i : Instruction) : Bool :=
  i.has .call && i.target.toOption == some none

end Instruction

namespace Reader

/-- The first call of a routine that reading decodes, and the flags right behind it. -/
def FirstCall (order : PopOrder) (table : Table) (c : Cursor) (address : Address) (p : Flags)
    (called : CalledRoutine) : Prop :=
  ∃ n s i d, ReachedAfter order table c address p n s ∧
    s.routine.isKnown s.cursor.tell = false ∧
    Instruction.decode table s.flags s.cursor = .ok (i, d) ∧ i.Calls called.address ∧
    (∀ j ∈ s.routine.instructions, ¬ j.Calls called.address) ∧
    called.flags = (s.advance i d).flags

section FirstCalls

variable {order : PopOrder} {table : Table} {c : Cursor} {address : Address} {p : Flags}
  {n : Nat} {s : State} {r : Routine} {next : Next}

theorem firstCall_of_step (hs : ReachedAfter order table c address p n s)
    (hfirst : ∀ called ∈ s.routine.calls, FirstCall order table c address p called)
    (h : (step order table s).outcome = .ok next) :
    ∀ called ∈ next.routine.calls, FirstCall order table c address p called := by
  intro called hcalled
  cases steps_of_step h with
  | known _ hresumes =>
    rw [hresumes.calls_eq] at hcalled
    exact hfirst called hcalled
  | @decode i d _ hknown hd _ =>
    rw [step_of_decode hknown hd, during_eq_ok] at h
    obtain ⟨target, hcalls, hcall, hother⟩ := calls_of_follow h
    rw [hcalls] at hcalled
    cases target with
    | none => exact hfirst called hcalled
    | some t =>
      have hhandling : i.handling = .call := by
        by_contra hno
        cases hother hno
      rcases Routine.mem_calls_addCall.1 hcalled with hold | ⟨rfl, hfree⟩
      · exact hfirst called hold
      · refine ⟨n, s, i, d, hs, hknown, hd, ⟨hhandling, hcall hhandling⟩, ?_, rfl⟩
        -- an earlier call of this routine would have been recorded
        rintro j hj ⟨hjcall, ht⟩
        obtain ⟨x, hx, hxt⟩ := hs.recordsCalls j hj hjcall t ht
        exact hfree x hx hxt

theorem ReachedAfter.firstCall (h : ReachedAfter order table c address p n s) :
    ∀ called ∈ s.routine.calls, FirstCall order table c address p called := by
  induction h with
  | start _ =>
    intro called hcalled
    exact absurd hcalled List.not_mem_nil
  | step hs hstep ih => exact firstCall_of_step hs ih hstep

theorem firstCall_of_read (h : (Routine.read order table c address p).outcome = .ok r) :
    ∀ called ∈ r.calls, FirstCall order table c address p called := by
  obtain ⟨n, s, hs, hfinish⟩ := read_eq_ok h
  exact firstCall_of_step hs hs.firstCall hfinish

end FirstCalls

/-- The calls that a log says were ignored. -/
def ignoredCalls (records : List Record) : List Address :=
  records.filterMap fun record =>
    match record.fields with
    | [(_, .address a)] => if record.message = "Ignore computed call" then some a else none
    | _ => none

def Quiet {α : Type} (x : Traced α) : Prop :=
  ignoredCalls x.records = []

section Quiet

variable {α β : Type}

theorem ignoredCalls_append (l m : List Record) :
    ignoredCalls (l ++ m) = ignoredCalls l ++ ignoredCalls m :=
  List.filterMap_append

theorem records_bind {x : Traced α} {f : α → Traced β} {a : α} (h : x.outcome = .ok a) :
    (x >>= f).records = x.records ++ (f a).records := by
  obtain ⟨records, outcome⟩ := x
  cases h
  rfl

theorem quiet_pure (a : α) : Quiet (pure a : Traced α) := rfl

theorem quiet_ofExcept (x : Except Failure α) : Quiet (Traced.ofExcept x) := rfl

theorem quiet_note {message : String} (key : String) (a : Address)
    (h : message ≠ "Ignore computed call") : Quiet (note message key a) := by
  simp [Quiet, ignoredCalls, note, Traced.report, h]

theorem Quiet.bind {x : Traced α} {f : α → Traced β} (hx : Quiet x) (hf : ∀ a, Quiet (f a)) :
    Quiet (x >>= f) := by
  cases h : x.outcome with
  | ok a => rw [Quiet, records_bind h, ignoredCalls_append, hx, hf a, List.append_nil]
  | error e =>
    obtain ⟨records, outcome⟩ := x
    cases h
    exact hx

variable {order : PopOrder} {i : Instruction} {s : State}

theorem quiet_resume (order : PopOrder) (s : State) : Quiet (resume order s) := by
  unfold resume
  split
  · exact quiet_pure _
  · refine (quiet_note _ _ (by decide)).bind fun _ => ?_
    exact (quiet_ofExcept _).bind fun _ => quiet_pure _

theorem quiet_followBranch (i : Instruction) (s : State) : Quiet (followBranch i s) := by
  refine (quiet_ofExcept _).bind fun target => ?_
  refine (quiet_note _ _ ?_).bind fun _ => quiet_pure _
  split <;> decide

theorem quiet_followJump (i : Instruction) (s : State) : Quiet (followJump i s) := by
  refine (quiet_ofExcept _).bind fun target => ?_
  split
  · exact (quiet_note _ _ (by decide)).bind fun _ => quiet_pure _
  · refine (quiet_note _ _ (by decide)).bind fun _ => ?_
    exact (quiet_ofExcept _).bind fun _ => quiet_pure _

theorem ignoredCalls_followCall {next : Next} (hcall : i.has .call = true)
    (h : (followCall i s).outcome = .ok next) :
    ignoredCalls (followCall i s).records = if i.isComputedCall then [i.address] else [] := by
  unfold followCall at h ⊢
  cases ht : i.target with
  | error e =>
    rw [ht] at h
    cases h
  | ok target =>
    have hcomputed : i.isComputedCall = target.isNone := by
      rw [Instruction.isComputedCall, hcall, ht]
      cases target <;> rfl
    rw [hcomputed]
    cases target with
    | none => rfl
    | some t => rfl

/-- Following an instruction reports it as ignored exactly if it is a computed call. -/
theorem ignoredCalls_follow {next : Next} (h : (follow order i s).outcome = .ok next) :
    ignoredCalls (follow order i s).records = if i.isComputedCall then [i.address] else [] := by
  by_cases hcall : i.has .call = true
  · rw [follow, if_pos hcall] at h ⊢
    exact ignoredCalls_followCall hcall h
  · have hother : i.isComputedCall = false := by simp [Instruction.isComputedCall, hcall]
    rw [follow, if_neg hcall, hother]
    split
    · exact quiet_resume order s
    split
    · exact quiet_followBranch i s
    split
    · exact quiet_followJump i s
    · exact quiet_pure _

end Quiet

def computedCalls (r : Routine) : List Address :=
  (r.instructions.toList.filter (·.isComputedCall)).map (·.address)

section Runs

variable {order : PopOrder} {table : Table} {c : Cursor} {address : Address} {p : Flags}
  {s : State} {r : Routine} {next : Next}

/-- A step reports the computed call that it decodes, if it decodes one. -/
theorem computedCalls_of_step (h : (step order table s).outcome = .ok next) :
    computedCalls next.routine =
      computedCalls s.routine ++ ignoredCalls (step order table s).records := by
  cases steps_of_step h with
  | known hknown hresumes =>
    have hquiet : Quiet (step order table s) := by
      rw [step, if_pos hknown]
      exact (quiet_note _ _ (by decide)).bind fun _ => quiet_resume order s
    rw [hquiet, List.append_nil, computedCalls, hresumes.instructions_eq]
    rfl
  | @decode i d _ hknown hd hfollows =>
    have hrecords : (step order table s).records = (follow order i (s.advance i d)).records := by
      simp only [step, hknown, hd]
      rfl
    rw [step_of_decode hknown hd, during_eq_ok] at h
    rw [hrecords, ignoredCalls_follow h, computedCalls, hfollows.instructions_eq]
    simp only [State.advance, Routine.addInstruction, Array.toList_push, List.filter_append,
      List.map_append, List.filter_singleton, computedCalls]
    cases i.isComputedCall <;> rfl

theorem records_run (order : PopOrder) (table : Table) (s : State) (seen : Array Record) :
    (run order table s seen).records =
      match (step order table s).outcome with
      | .ok (.more t) => (run order table t (seen ++ (step order table s).records)).records
      | _ => (seen ++ (step order table s).records).toList := by
  rw [run]
  split <;> next hstep => rw [hstep]

theorem ignoredCalls_run {seen : Array Record} (h : (run order table s seen).outcome = .ok r)
    (hseen : ignoredCalls seen.toList = computedCalls s.routine) :
    ignoredCalls (run order table s seen).records = computedCalls r := by
  induction hdebt : s.debt using Nat.strongRecOn generalizing s seen with
  | ind k ih =>
    rw [outcome_run] at h
    rw [records_run]
    cases hstep : (step order table s).outcome with
    | error e => rw [hstep] at h; cases h
    | ok next =>
      have hcomputed := computedCalls_of_step hstep
      have hrecords : ignoredCalls (seen ++ (step order table s).records).toList =
          computedCalls next.routine := by
        rw [Array.toList_appendList, ignoredCalls_append, hseen, hcomputed]
      rw [hstep] at h
      cases next with
      | finished r' => cases h; exact hrecords
      | more t => exact ih t.debt (hdebt ▸ debt_lt hstep) h hrecords rfl

/-- The log of a reading that succeeds names the computed calls of the routine, in the order of
the instructions. -/
theorem ignoredCalls_of_read (h : (Routine.read order table c address p).outcome = .ok r) :
    ignoredCalls (Routine.read order table c address p).records = computedCalls r := by
  rw [outcome_read] at h
  cases hseek : c.seek address with
  | error e => rw [hseek] at h; cases h
  | ok d =>
    rw [hseek] at h
    have hrecords : (Routine.read order table c address p).records =
        (note "Reading routine" "address" address).records ++
          (run order table { cursor := d, flags := p, routine := { address } } #[]).records := by
      simp only [Routine.read, hseek]
      rfl
    rw [hrecords, ignoredCalls_append, quiet_note _ _ (by decide), List.nil_append]
    exact ignoredCalls_run h rfl

theorem Reads.ignoredCall {d : Cursor} {i : Instruction} {found all : List Instruction}
    {pending : List Address} (hnew : ∀ j ∈ found, j.address ≠ c.tell)
    (hd : Instruction.decode table p c = .ok (i, d)) (hi : i.handling = .call)
    (ht : i.target = .ok none)
    (h : Reads order table d (p.update i.opcode i.operand.value) (found ++ [i])
      (pending.filter (· != i.address)) all) :
    Reads order table c p found pending all := by
  intro s hs
  obtain ⟨f, hknown, hf, hs'⟩ := hs.advance hnew hd
  refine of_step ?_ hs' h
  rw [step_of_decode hknown hf, follow_eq, hi]
  dsimp only
  rw [followCall_eq ht, during_ok]
  rfl

end Runs

end Reader

end CartFlow
