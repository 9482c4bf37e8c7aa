import CartFlow.Counting
import CartFlow.Log
import CartFlow.Routine.Basic
import CartFlow.Routine.Decode

/-!
# Reading a routine

The reader decodes everything that control can reach from an entry address without
following calls. It keeps a cursor, the processor flags and the routine found so far,
and proceeds in steps: where the code at the cursor is known, or returns, it goes on
at a pending address; otherwise it decodes one instruction and follows it. An
instruction counts as call, return, branch or jump, in this order.

Each step either decodes a place of the image that was not decoded before or strikes
a pending address, which is why reading ends for every image and every table.
-/
namespace CartFlow

open Processor Cartridge

namespace Reader

structure State where
  cursor : Cursor
  flags : Flags
  routine : Routine

inductive Next
  | more (s : State)
  | finished (r : Routine)

def note (message key : String) (address : Address) : Traced Unit :=
  Traced.report { level := .debug, message, fields := [(key, .address address)] }

/-- Goes on at a pending address, or finishes if there is none. -/
def resume (order : PopOrder) (s : State) : Traced Next :=
  match order.next s.routine with
  | none => return .finished s.routine
  | some address => do
    note "Continue at pending target" "address" address
    let cursor ← Traced.ofExcept (during (.seeking address) (s.cursor.seek address))
    return .more { s with cursor, routine := s.routine.dropPending address }

/-- Goes on behind a call, which is recorded unless its target is computed. -/
def followCall (i : Instruction) (s : State) : Traced Next := do
  match ← Traced.ofExcept i.target with
  | some target => return .more { s with routine := s.routine.addCall target s.flags }
  | none =>
    note "Ignore computed call" "address" i.address
    return .more s

/-- Goes on behind a branch, with its target pending. -/
def followBranch (i : Instruction) (s : State) : Traced Next := do
  let target ← Traced.ofExcept i.staticTarget
  note (if s.routine.isKnown target then "Branch target ignored" else "Branch target pending")
    "target" target
  return .more { s with routine := s.routine.addPending target }

/-- Goes on at the target of a jump, or behind the jump if the target is known already. -/
def followJump (i : Instruction) (s : State) : Traced Next := do
  let target ← Traced.ofExcept i.staticTarget
  if s.routine.isKnown target then
    note "Jump target ignored" "target" target
    return .more s
  else
    note "Jump" "target" target
    let cursor ← Traced.ofExcept (during (.jumping target) (s.cursor.seek target))
    return .more { s with cursor, routine := s.routine.addPending target }

def follow (order : PopOrder) (i : Instruction) (s : State) : Traced Next :=
  if i.has .call then followCall i s
  else if i.has .ret then resume order s
  else if i.has .branch then followBranch i s
  else if i.has .jump then followJump i s
  else return .more s

def State.advance (s : State) (i : Instruction) (cursor : Cursor) : State where
  cursor := cursor
  flags := s.flags.update i.opcode i.operand.value
  routine := s.routine.addInstruction i

def step (order : PopOrder) (table : Table) (s : State) : Traced Next :=
  if s.routine.isKnown s.cursor.tell then do
    note "Reached decoded code" "address" s.cursor.tell
    resume order s
  else
    Traced.during (.readingRoutine s.routine.address) do
      let (i, cursor) ← Traced.ofExcept (Instruction.decode table s.flags s.cursor)
      follow order i (s.advance i cursor)

/-- The number of places of the image that were not decoded yet. -/
def State.unread (s : State) : Nat :=
  (List.range s.cursor.image.size).countP fun (offset : Nat) =>
    !s.routine.isKnown (s.cursor.mapping.toAddress offset)

/-- What resuming keeps, and that it strikes a pending address. -/
theorem resume_more {order : PopOrder} {s t : State}
    (h : (resume order s).outcome = .ok (.more t)) :
    t.routine.known = s.routine.known ∧ t.cursor.image = s.cursor.image ∧
      t.cursor.mapping = s.cursor.mapping ∧
      t.routine.pending.length < s.routine.pending.length := by
  unfold resume at h
  split at h
  · simp at h
  · next address hnext =>
    simp only [note, Traced.outcome_bind, Traced.outcome_report, Traced.outcome_ofExcept,
      Traced.outcome_pure] at h
    cases hseek : s.cursor.seek address with
    | error e => rw [hseek] at h; cases h
    | ok c =>
      rw [hseek] at h
      cases h
      obtain ⟨h₁, h₂, -, -⟩ := Cursor.seek_eq_ok hseek
      refine ⟨rfl, h₁, h₂, ?_⟩
      exact List.length_filter_lt_length_iff_exists.2
        ⟨address, order.mem_pending hnext, by simp⟩

/-- Following an instruction neither decodes nor changes the image. -/
theorem follow_more {order : PopOrder} {i : Instruction} {s t : State}
    (h : (follow order i s).outcome = .ok (.more t)) :
    t.routine.known = s.routine.known ∧ t.cursor.image = s.cursor.image ∧
      t.cursor.mapping = s.cursor.mapping := by
  unfold follow at h
  split at h
  · unfold followCall at h
    simp only [Traced.outcome_bind, Traced.outcome_ofExcept] at h
    cases ht : i.target with
    | error e => rw [ht] at h; cases h
    | ok target =>
      rw [ht] at h
      cases target with
      | none => cases h; exact ⟨rfl, rfl, rfl⟩
      | some target =>
        cases h
        refine ⟨?_, rfl, rfl⟩
        simp only [Routine.addCall]
        split <;> rfl
  split at h
  · obtain ⟨h₁, h₂, h₃, -⟩ := resume_more h
    exact ⟨h₁, h₂, h₃⟩
  have pending (target : Address) : (s.routine.addPending target).known = s.routine.known := by
    simp only [Routine.addPending]
    split <;> rfl
  split at h
  · unfold followBranch at h
    simp only [note, Traced.outcome_bind, Traced.outcome_ofExcept, Traced.outcome_report] at h
    cases ht : i.staticTarget with
    | error e => rw [ht] at h; cases h
    | ok target => rw [ht] at h; cases h; exact ⟨pending target, rfl, rfl⟩
  split at h
  · unfold followJump at h
    simp only [Traced.outcome_bind, Traced.outcome_ofExcept] at h
    cases ht : i.staticTarget with
    | error e => rw [ht] at h; cases h
    | ok target =>
      rw [ht] at h
      change (if s.routine.isKnown target then _ else _ : Traced Next).outcome = _ at h
      split at h
      · cases h; exact ⟨rfl, rfl, rfl⟩
      · simp only [note, Traced.outcome_bind, Traced.outcome_report,
          Traced.outcome_ofExcept] at h
        cases hseek : s.cursor.seek target with
        | error e => rw [hseek] at h; cases h
        | ok c =>
          rw [hseek] at h
          cases h
          obtain ⟨h₁, h₂, -, -⟩ := Cursor.seek_eq_ok hseek
          exact ⟨pending target, h₁, h₂⟩
  · cases h; exact ⟨rfl, rfl, rfl⟩

/-- Every step that goes on decodes a new place or strikes a pending address. -/
theorem step_more {order : PopOrder} {table : Table} {s t : State}
    (h : (step order table s).outcome = .ok (.more t)) :
    Prod.Lex (· < ·) (· < ·) (t.unread, t.routine.pending.length)
      (s.unread, s.routine.pending.length) := by
  unfold step at h
  split at h
  · simp only [note, Traced.outcome_bind, Traced.outcome_report] at h
    obtain ⟨h₁, h₂, h₃, h₄⟩ := resume_more h
    have : t.unread = s.unread := by simp only [State.unread, Routine.isKnown, h₁, h₂, h₃]
    rw [this]
    exact Prod.Lex.right _ h₄
  · next hknown =>
    rw [Traced.outcome_during, during_eq_ok] at h
    simp only [Traced.outcome_bind, Traced.outcome_ofExcept] at h
    cases hd : Instruction.decode table s.flags s.cursor with
    | error e => rw [hd] at h; cases h
    | ok r =>
      obtain ⟨i, c⟩ := r
      rw [hd] at h
      obtain ⟨h₁, h₂, h₃⟩ := follow_more h
      obtain ⟨g₁, g₂, g₃, g₄, -⟩ := Instruction.decode_eq_ok hd
      apply Prod.Lex.left
      simp only [State.unread, Routine.isKnown, h₁, h₂, h₃, State.advance,
        Routine.addInstruction, g₃, g₄, g₁]
      refine countP_lt_countP (List.mem_range.2 g₂) ?_ ?_ ?_
      · intro b hb
        simp only [Std.HashSet.contains_insert, Bool.not_or, Bool.and_eq_true] at hb
        exact hb.2
      · simpa [Routine.isKnown, Cursor.tell] using hknown
      · simp [Cursor.tell]

/-- Runs the reader to its end; `seen` is what it has reported so far. -/
def run (order : PopOrder) (table : Table) (s : State) (seen : Array Record) : Traced Routine :=
  match _h : step order table s with
  | ⟨records, .error e⟩ => ⟨(seen ++ records).toList, .error e⟩
  | ⟨records, .ok (.finished r)⟩ => ⟨(seen ++ records).toList, .ok r⟩
  | ⟨records, .ok (.more t)⟩ => run order table t (seen ++ records)
termination_by (s.unread, s.routine.pending.length)
decreasing_by exact step_more (by rw [_h])

end Reader

namespace Routine

def read (order : PopOrder) (table : Table) (c : Cursor) (address : Address) (p : Flags) :
    Traced Routine := do
  Reader.note "Reading routine" "address" address
  let cursor ← Traced.ofExcept (during (.readingRoutine address) (c.seek address))
  Reader.run order table { cursor, flags := p, routine := { address } } #[]

end Routine

end CartFlow
