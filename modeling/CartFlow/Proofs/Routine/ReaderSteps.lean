import CartFlow.Routine.Reader
import Mathlib.Data.List.Nodup

/-!
# What a step of the reader does

A step is taken apart once: it goes on at a pending address or finishes, where the code at
the cursor is known, and otherwise it decodes an instruction and follows it as call,
return, branch, jump or none of these. Everything about whole runs is derived from this
case distinction. The first results are that the routine stays tidy, whatever the order in
which pending addresses are taken, and that a run has at most twice as many steps as the
image has bytes: a decoded place is paid with two steps, and may leave one pending address
behind, which is paid with one.
-/
namespace CartFlow

open Processor Cartridge

inductive Handling
  | call
  | ret
  | branch
  | jump
  | plain
  deriving DecidableEq, Repr

namespace Instruction

/-- An instruction counts as call, return, branch or jump, in this order. -/
def handling (i : Instruction) : Handling :=
  if i.has .call then .call
  else if i.has .ret then .ret
  else if i.has .branch then .branch
  else if i.has .jump then .jump
  else .plain

end Instruction

namespace Routine

/-- The addresses of the instructions are distinct, they are the known ones, and no pending
address is among them. -/
structure Tidy (r : Routine) : Prop where
  nodup_addresses : (r.instructions.toList.map (·.address)).Nodup
  isKnown_iff : ∀ a, r.isKnown a = true ↔ ∃ i ∈ r.instructions, i.address = a
  nodup_pending : r.pending.Nodup
  not_isKnown : ∀ a ∈ r.pending, r.isKnown a = false

section Operations

variable {r : Routine} {a b : Address} {i : Instruction}

@[simp] theorem isKnown_addInstruction :
    (r.addInstruction i).isKnown a = (i.address == a || r.isKnown a) := by
  simp [addInstruction, isKnown]

@[simp] theorem isKnown_addPending : (r.addPending b).isKnown a = r.isKnown a := by
  unfold addPending
  split <;> rfl

@[simp] theorem isKnown_dropPending : (r.dropPending b).isKnown a = r.isKnown a := rfl

@[simp] theorem instructions_addPending : (r.addPending b).instructions = r.instructions := by
  unfold addPending
  split <;> rfl

@[simp] theorem mem_pending_addInstruction :
    a ∈ (r.addInstruction i).pending ↔ a ∈ r.pending ∧ a ≠ i.address := by
  simp [addInstruction]

@[simp] theorem mem_pending_dropPending :
    a ∈ (r.dropPending b).pending ↔ a ∈ r.pending ∧ a ≠ b := by
  simp [dropPending]

theorem mem_pending_addPending :
    a ∈ (r.addPending b).pending ↔ a ∈ r.pending ∨ (a = b ∧ r.isKnown b = false) := by
  unfold addPending
  cases hknown : r.isKnown b with
  | true => simp
  | false =>
    by_cases hb : b ∈ r.pending
    · simp only [Bool.false_or, List.contains_eq_mem, hb, decide_true, if_true, and_true]
      constructor
      · exact .inl
      · rintro (ha | rfl)
        · exact ha
        · exact hb
    · simp [hb]

theorem length_pending_addPending_le : (r.addPending b).pending.length ≤ r.pending.length + 1 := by
  unfold addPending
  split
  · exact Nat.le_succ _
  · simp

namespace Tidy

theorem addInstruction (hr : r.Tidy) (hi : r.isKnown i.address = false) :
    (r.addInstruction i).Tidy where
  nodup_addresses := by
    simp only [Routine.addInstruction, Array.toList_push, List.map_append, List.map_cons,
      List.map_nil]
    rw [List.nodup_append]
    refine ⟨hr.nodup_addresses, List.nodup_singleton _, ?_⟩
    intro a ha b hb hab
    obtain ⟨j, hj, rfl⟩ := List.mem_map.1 ha
    rw [List.mem_singleton.1 hb] at hab
    have hknown : r.isKnown i.address = true :=
      (hr.isKnown_iff _).2 ⟨j, Array.mem_toList_iff.1 hj, hab⟩
    simp [hknown] at hi
  isKnown_iff a := by
    rw [isKnown_addInstruction, Bool.or_eq_true, beq_iff_eq, hr.isKnown_iff]
    simp only [Routine.addInstruction, Array.mem_push]
    constructor
    · rintro (rfl | ⟨j, hj, rfl⟩)
      · exact ⟨i, .inr rfl, rfl⟩
      · exact ⟨j, .inl hj, rfl⟩
    · rintro ⟨j, hj | rfl, rfl⟩
      · exact .inr ⟨j, hj, rfl⟩
      · exact .inl rfl
  nodup_pending := hr.nodup_pending.filter _
  not_isKnown a ha := by
    obtain ⟨ha, hne⟩ := mem_pending_addInstruction.1 ha
    simp [hr.not_isKnown a ha, Ne.symm hne]

theorem addPending (hr : r.Tidy) (a : Address) : (r.addPending a).Tidy where
  nodup_addresses := by rw [instructions_addPending]; exact hr.nodup_addresses
  isKnown_iff b := by
    rw [isKnown_addPending, instructions_addPending]
    exact hr.isKnown_iff b
  nodup_pending := by
    unfold Routine.addPending
    split
    · exact hr.nodup_pending
    · next hno =>
      rw [List.nodup_append]
      refine ⟨hr.nodup_pending, List.nodup_singleton _, ?_⟩
      rintro b hb c hc rfl
      rw [List.mem_singleton.1 hc] at hb
      simp [hb] at hno
  not_isKnown b hb := by
    rw [isKnown_addPending]
    rcases mem_pending_addPending.1 hb with hb | ⟨rfl, hb⟩
    · exact hr.not_isKnown b hb
    · exact hb

theorem dropPending (hr : r.Tidy) (a : Address) : (r.dropPending a).Tidy where
  nodup_addresses := hr.nodup_addresses
  isKnown_iff := hr.isKnown_iff
  nodup_pending := hr.nodup_pending.filter _
  not_isKnown b hb := hr.not_isKnown b (mem_pending_dropPending.1 hb).1

theorem withCalls (hr : r.Tidy) (calls : List CalledRoutine) : ({ r with calls } : Routine).Tidy :=
  ⟨hr.nodup_addresses, hr.isKnown_iff, hr.nodup_pending, hr.not_isKnown⟩

theorem start (address : Address) : ({ address } : Routine).Tidy where
  nodup_addresses := List.nodup_nil
  isKnown_iff a := by simp [isKnown]
  nodup_pending := List.nodup_nil
  not_isKnown a ha := absurd ha List.not_mem_nil

end Tidy

end Operations

end Routine

namespace Reader

inductive Resumes (s : State) : Next → Prop
  | finish : s.routine.pending = [] → Resumes s (.finished s.routine)
  | resume {address : Address} {cursor : Cursor} : address ∈ s.routine.pending →
      s.cursor.seek address = .ok cursor →
      Resumes s (.more { s with cursor, routine := s.routine.dropPending address })

inductive Follows (i : Instruction) (s : State) : Next → Prop
  | call {calls : List CalledRoutine} : i.handling = .call →
      Follows i s (.more { s with routine := { s.routine with calls } })
  | ret {next : Next} : i.handling = .ret → Resumes s next → Follows i s next
  | branch {target : Address} : i.handling = .branch → i.staticTarget = .ok target →
      Follows i s (.more { s with routine := s.routine.addPending target })
  | ignoredJump {target : Address} : i.handling = .jump → i.staticTarget = .ok target →
      s.routine.isKnown target = true → Follows i s (.more s)
  | jump {target : Address} {cursor : Cursor} : i.handling = .jump →
      i.staticTarget = .ok target → s.cursor.seek target = .ok cursor →
      Follows i s (.more { s with cursor, routine := s.routine.addPending target })
  | plain : i.handling = .plain → Follows i s (.more s)

inductive Steps (table : Table) (s : State) : Next → Prop
  | known {next : Next} : s.routine.isKnown s.cursor.tell = true → Resumes s next →
      Steps table s next
  | decode {i : Instruction} {d : Cursor} {next : Next} :
      s.routine.isKnown s.cursor.tell = false →
      Instruction.decode table s.flags s.cursor = .ok (i, d) →
      Follows i (s.advance i d) next → Steps table s next

section Inversion

variable {order : PopOrder} {table : Table} {i : Instruction} {s : State} {next : Next}

theorem resumes_of_resume (h : (resume order s).outcome = .ok next) : Resumes s next := by
  unfold resume at h
  split at h
  · next hnone =>
    cases h
    apply Resumes.finish
    by_contra hne
    have hsome := order.isSome_next hne
    simp [hnone] at hsome
  · next address hsome =>
    simp only [note, Traced.outcome_bind, Traced.outcome_report, Traced.outcome_ofExcept,
      Traced.outcome_pure] at h
    obtain ⟨-, -, h⟩ := bind_eq_ok.1 h
    obtain ⟨cursor, hseek, h⟩ := bind_eq_ok.1 h
    cases h
    exact .resume (order.mem_pending hsome) (during_eq_ok.1 hseek)

theorem follows_of_followCall (hi : i.handling = .call) (h : (followCall i s).outcome = .ok next) :
    Follows i s next := by
  unfold followCall at h
  simp only [Traced.outcome_bind, Traced.outcome_ofExcept] at h
  obtain ⟨target, -, h⟩ := bind_eq_ok.1 h
  cases target with
  | none => cases h; exact .call hi
  | some target =>
    cases h
    have hcall : ∃ calls, s.routine.addCall target s.flags = { s.routine with calls } := by
      unfold Routine.addCall
      split
      · exact ⟨s.routine.calls, rfl⟩
      · exact ⟨_, rfl⟩
    obtain ⟨calls, hcalls⟩ := hcall
    rw [hcalls]
    exact .call hi

theorem follows_of_followBranch (hi : i.handling = .branch)
    (h : (followBranch i s).outcome = .ok next) : Follows i s next := by
  unfold followBranch at h
  simp only [note, Traced.outcome_bind, Traced.outcome_ofExcept, Traced.outcome_report] at h
  obtain ⟨target, ht, h⟩ := bind_eq_ok.1 h
  cases h
  exact .branch hi ht

theorem follows_of_followJump (hi : i.handling = .jump) (h : (followJump i s).outcome = .ok next) :
    Follows i s next := by
  unfold followJump at h
  simp only [Traced.outcome_bind, Traced.outcome_ofExcept] at h
  obtain ⟨target, ht, h⟩ := bind_eq_ok.1 h
  split at h
  · next hknown => cases h; exact .ignoredJump hi ht hknown
  · simp only [note, Traced.outcome_bind, Traced.outcome_report, Traced.outcome_ofExcept] at h
    obtain ⟨-, -, h⟩ := bind_eq_ok.1 h
    obtain ⟨cursor, hseek, h⟩ := bind_eq_ok.1 h
    cases h
    exact .jump hi ht (during_eq_ok.1 hseek)

theorem follows_of_follow (h : (follow order i s).outcome = .ok next) : Follows i s next := by
  unfold follow at h
  split at h
  · next hcall => exact follows_of_followCall (by simp [Instruction.handling, hcall]) h
  split at h
  · next hcall hret =>
    exact .ret (by simp [Instruction.handling, hcall, hret]) (resumes_of_resume h)
  split at h
  · next hcall hret hbranch =>
    exact follows_of_followBranch (by simp [Instruction.handling, hcall, hret, hbranch]) h
  split at h
  · next hcall hret hbranch hjump =>
    exact follows_of_followJump (by simp [Instruction.handling, hcall, hret, hbranch, hjump]) h
  · next hcall hret hbranch hjump =>
    cases h
    exact .plain (by simp [Instruction.handling, hcall, hret, hbranch, hjump])

theorem steps_of_step (h : (step order table s).outcome = .ok next) : Steps table s next := by
  unfold step at h
  split at h
  · next hknown =>
    simp only [note, Traced.outcome_bind, Traced.outcome_report] at h
    exact .known hknown (resumes_of_resume h)
  · next hknown =>
    rw [Traced.outcome_during, during_eq_ok] at h
    simp only [Traced.outcome_bind, Traced.outcome_ofExcept] at h
    obtain ⟨⟨i, d⟩, hd, h⟩ := bind_eq_ok.1 h
    exact .decode (by simpa using hknown) hd (follows_of_follow h)

end Inversion

def Next.routine : Next → Routine
  | .more s => s.routine
  | .finished r => r

section Keeps

variable {table : Table} {i : Instruction} {s t : State} {r : Routine} {next : Next}

theorem Resumes.tidy (h : Resumes s next) (hs : s.routine.Tidy) : next.routine.Tidy := by
  cases h with
  | finish _ => exact hs
  | resume _ _ => exact hs.dropPending _

theorem Follows.tidy (h : Follows i s next) (hs : s.routine.Tidy) : next.routine.Tidy := by
  cases h with
  | call _ => exact hs.withCalls _
  | ret _ h => exact h.tidy hs
  | branch _ _ => exact hs.addPending _
  | ignoredJump _ _ _ => exact hs
  | jump _ _ _ => exact hs.addPending _
  | plain _ => exact hs

theorem Steps.tidy (h : Steps table s next) (hs : s.routine.Tidy) : next.routine.Tidy := by
  cases h with
  | known _ h => exact h.tidy hs
  | decode hknown hd h =>
    apply h.tidy
    apply hs.addInstruction
    rw [(Instruction.decode_eq_ok hd).1]
    exact hknown

theorem Resumes.pending_eq_nil (h : Resumes s (.finished r)) : r.pending = [] := by
  cases h with
  | finish hnil => exact hnil

theorem Steps.pending_eq_nil (h : Steps table s (.finished r)) : r.pending = [] := by
  cases h with
  | known _ h => exact h.pending_eq_nil
  | decode _ _ h =>
    cases h with
    | ret _ h => exact h.pending_eq_nil

theorem Resumes.length_pending_le (h : Resumes s (.more t)) :
    t.routine.pending.length ≤ s.routine.pending.length := by
  cases h with
  | resume _ _ => exact List.length_filter_le _ _

theorem Steps.length_pending_le (h : Steps table s (.more t)) :
    t.routine.pending.length ≤ s.routine.pending.length + 1 := by
  cases h with
  | known _ h => exact Nat.le_succ_of_le h.length_pending_le
  | @decode i d _ _ _ h =>
    have hadd : (s.advance i d).routine.pending.length ≤ s.routine.pending.length :=
      List.length_filter_le _ _
    have hpend : ∀ a, ((s.advance i d).routine.addPending a).pending.length ≤
        (s.advance i d).routine.pending.length + 1 := fun _ => Routine.length_pending_addPending_le
    cases h with
    | call _ => exact Nat.le_succ_of_le hadd
    | ret _ h => exact Nat.le_succ_of_le (Nat.le_trans h.length_pending_le hadd)
    | branch _ _ => exact Nat.le_trans (hpend _) (Nat.succ_le_succ hadd)
    | ignoredJump _ _ _ => exact Nat.le_succ_of_le hadd
    | jump _ _ _ => exact Nat.le_trans (hpend _) (Nat.succ_le_succ hadd)
    | plain _ => exact Nat.le_succ_of_le hadd

end Keeps

/-- The states that reading a routine passes through, with the number of steps before. -/
inductive ReachedAfter (order : PopOrder) (table : Table) (c : Cursor) (address : Address)
    (p : Flags) : Nat → State → Prop
  | start {d : Cursor} : c.seek address = .ok d →
      ReachedAfter order table c address p 0 { cursor := d, flags := p, routine := { address } }
  | step {n : Nat} {s t : State} : ReachedAfter order table c address p n s →
      (step order table s).outcome = .ok (.more t) → ReachedAfter order table c address p (n + 1) t

section Runs

variable {order : PopOrder} {table : Table} {c : Cursor} {address : Address} {p : Flags}
  {n : Nat} {s t : State} {r : Routine}

theorem ReachedAfter.tidy (h : ReachedAfter order table c address p n s) : s.routine.Tidy := by
  induction h with
  | start _ => exact .start address
  | step _ hstep ih => exact (steps_of_step hstep).tidy ih

/-- What is left to be paid: two for each place that is not decoded, one for each pending
address. -/
def State.debt (s : State) : Nat :=
  2 * s.unread + s.routine.pending.length

theorem debt_lt (h : (step order table s).outcome = .ok (.more t)) : t.debt < s.debt := by
  have hpending := (steps_of_step h).length_pending_le
  have hless := step_more h
  rw [Prod.lex_def] at hless
  unfold State.debt
  omega

theorem ReachedAfter.add_debt_le (h : ReachedAfter order table c address p n s) :
    n + s.debt ≤ 2 * c.image.size := by
  induction h with
  | @start d hseek =>
    have hunread : State.unread { cursor := d, flags := p, routine := { address } } ≤
        c.image.size := by
      rw [← (Cursor.seek_eq_ok hseek).1]
      exact Nat.le_trans List.countP_le_length (Nat.le_of_eq List.length_range)
    simp only [State.debt, List.length_nil]
    omega
  | step _ hstep ih =>
    have := debt_lt hstep
    omega

theorem outcome_run (order : PopOrder) (table : Table) (s : State) (seen : Array Record) :
    (run order table s seen).outcome =
      match (step order table s).outcome with
      | .error e => .error e
      | .ok (.finished r) => .ok r
      | .ok (.more t) => (run order table t (seen ++ (step order table s).records)).outcome := by
  rw [run]
  split <;> next hstep => rw [hstep]

/-- A run ends with a step that does not go on, and with its outcome. -/
theorem run_ends (h : ReachedAfter order table c address p n s) (seen : Array Record) :
    ∃ m t, ReachedAfter order table c address p m t ∧
      ((∃ e, (step order table t).outcome = .error e ∧
          (run order table s seen).outcome = .error e) ∨
        ∃ r, (step order table t).outcome = .ok (.finished r) ∧
          (run order table s seen).outcome = .ok r) := by
  induction hdebt : s.debt using Nat.strongRecOn generalizing n s seen with
  | ind k ih =>
    cases hstep : (step order table s).outcome with
    | error e =>
      refine ⟨n, s, h, .inl ⟨e, hstep, ?_⟩⟩
      rw [outcome_run, hstep]
    | ok next =>
      cases next with
      | finished r =>
        refine ⟨n, s, h, .inr ⟨r, hstep, ?_⟩⟩
        rw [outcome_run, hstep]
      | more t =>
        have hmore := ih t.debt (hdebt ▸ debt_lt hstep) (.step h hstep)
          (seen ++ (step order table s).records) rfl
        rw [outcome_run, hstep]
        exact hmore

theorem outcome_read (order : PopOrder) (table : Table) (c : Cursor) (address : Address)
    (p : Flags) :
    (Routine.read order table c address p).outcome =
      match c.seek address with
      | .error e => .error (e.within (.readingRoutine address))
      | .ok d =>
        (run order table { cursor := d, flags := p, routine := { address } } #[]).outcome := by
  simp only [Routine.read, note, Traced.outcome_bind, Traced.outcome_report,
    Traced.outcome_ofExcept]
  cases c.seek address <;> rfl

theorem read_eq_ok (h : (Routine.read order table c address p).outcome = .ok r) :
    ∃ n s, ReachedAfter order table c address p n s ∧
      (step order table s).outcome = .ok (.finished r) := by
  rw [outcome_read] at h
  split at h
  · cases h
  · next d hseek =>
    obtain ⟨m, t, ht, ⟨e, -, herror⟩ | ⟨r', hfinish, hok⟩⟩ :=
      run_ends (.start hseek) #[]
    · rw [herror] at h
      cases h
    · rw [hok] at h
      cases h
      exact ⟨m, t, ht, hfinish⟩

theorem tidy_of_read (h : (Routine.read order table c address p).outcome = .ok r) :
    r.Tidy ∧ r.pending = [] := by
  obtain ⟨n, s, hs, hfinish⟩ := read_eq_ok h
  have hsteps := steps_of_step hfinish
  exact ⟨hsteps.tidy hs.tidy, hsteps.pending_eq_nil⟩

/-- Reading ends, for every order of the pending addresses: each state on the way is tidy and
reached by at most two steps for each byte of the image, reading fails or succeeds with the
last of them, and a routine that is read successfully is tidy with nothing pending. -/
theorem read_ends_tidy (order : PopOrder) (table : Table) (c : Cursor) (address : Address)
    (p : Flags) :
    (∀ n s, ReachedAfter order table c address p n s →
      s.routine.Tidy ∧ n ≤ 2 * c.image.size) ∧
    ((∃ e, c.seek address = .error e ∧
        ∃ f, (Routine.read order table c address p).outcome = .error f) ∨
      ∃ n s, ReachedAfter order table c address p n s ∧
        ((∃ e, (step order table s).outcome = .error e ∧
            (Routine.read order table c address p).outcome = .error e) ∨
          ∃ r, (step order table s).outcome = .ok (.finished r) ∧
            (Routine.read order table c address p).outcome = .ok r)) ∧
    ∀ r, (Routine.read order table c address p).outcome = .ok r → r.Tidy ∧ r.pending = [] := by
  refine ⟨?_, ?_, ?_⟩
  · intro n s h
    exact ⟨h.tidy, by have := h.add_debt_le; omega⟩
  · rw [outcome_read]
    cases hseek : c.seek address with
    | error e => exact .inl ⟨e, rfl, _, rfl⟩
    | ok d => exact .inr (run_ends (.start hseek) #[])
  · intro r h
    exact tidy_of_read h

end Runs

end Reader

end CartFlow
