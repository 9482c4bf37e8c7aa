import CartFlow.Proofs.Routine.FlagTracking
import Mathlib.Data.List.Sort

/-!
# Reading does not depend on the order of pending addresses

If no opcode jumps or changes flags, the flags stay those of the entry, so what is decoded at a
place depends on the place alone. The places that a successful reading decoded are then closed:
each of them can be decoded, and control goes on to places among them. A reading in another
order starts in these places and each of its steps stays in them, hence it cannot fail, and it
finds no other instructions. The same holds with the two orders exchanged.

Calls are noted with the flags of the entry, once for each target of a call instruction, so
the instructions determine the sorted calls.
-/
namespace CartFlow

open Processor Cartridge

/-- No opcode of the table jumps or changes flags. -/
def Processor.Table.Calm (table : Table) : Prop :=
  ∀ value op, table.find? value = some op →
    op.has .jump = false ∧ op.has .clearsFlags = false ∧ op.has .setsFlags = false

namespace Routine

/-- Notes a call, unless its target is computed. -/
def noteCall (r : Routine) (flags : Flags) : Option Address → Routine
  | some target => r.addCall target flags
  | none => r

section Calls

variable {r : Routine} {target : Option Address} {flags : Flags}

theorem addCall_eq (r : Routine) (a : Address) (flags : Flags) :
    r.addCall a flags = { r with calls := (r.addCall a flags).calls } := by
  unfold addCall
  split <;> rfl

@[simp] theorem instructions_noteCall :
    (r.noteCall flags target).instructions = r.instructions := by
  cases target with
  | none => rfl
  | some a => rw [noteCall, addCall_eq]

@[simp] theorem pending_noteCall : (r.noteCall flags target).pending = r.pending := by
  cases target with
  | none => rfl
  | some a => rw [noteCall, addCall_eq]

theorem calls_noteCall_congr {s : Routine} (h : s.calls = r.calls) :
    (s.noteCall flags target).calls = (r.noteCall flags target).calls := by
  cases target with
  | none => exact h
  | some a =>
    have hcall : s.call? a = r.call? a := by rw [call?, call?, h]
    rw [noteCall, noteCall, addCall, addCall, hcall]
    by_cases hsome : (r.call? a).isSome = true
    · rw [if_pos hsome, if_pos hsome, h]
    · rw [if_neg hsome, if_neg hsome, h]

theorem mem_calls_addCall {a : Address} {called : CalledRoutine} :
    called ∈ (r.addCall a flags).calls ↔
      called ∈ r.calls ∨ called = ⟨a, flags⟩ ∧ ∀ x ∈ r.calls, x.address ≠ a := by
  unfold addCall call?
  split
  · next hsome =>
    obtain ⟨x, hx, ha⟩ := List.find?_isSome.1 hsome
    constructor
    · exact .inl
    · rintro (h | ⟨-, hnone⟩)
      · exact h
      · exact absurd (beq_iff_eq.1 ha) (hnone x hx)
  · next hnone =>
    have hfree : ∀ x ∈ r.calls, x.address ≠ a := by simpa using hnone
    rw [List.mem_append, List.mem_singleton, and_iff_left hfree]

/-- Among calls with the same flags a call is noted if its target is known. -/
theorem mem_calls_noteCall {called : CalledRoutine} (h : ∀ x ∈ r.calls, x.flags = flags) :
    called ∈ (r.noteCall flags target).calls ↔
      called ∈ r.calls ∨ called.flags = flags ∧ target = some called.address := by
  cases target with
  | none => simp [noteCall]
  | some a =>
    rw [noteCall, mem_calls_addCall]
    constructor
    · rintro (hmem | ⟨rfl, -⟩)
      · exact .inl hmem
      · exact .inr ⟨rfl, rfl⟩
    · rintro (hmem | ⟨hflags, ha⟩)
      · exact .inl hmem
      · obtain ⟨b, q⟩ := called
        cases ha
        dsimp only at hflags
        subst hflags
        by_cases hfree : ∀ x ∈ r.calls, x.address ≠ b
        · exact .inr ⟨rfl, hfree⟩
        · -- the target was called before, with the same flags
          push Not at hfree
          obtain ⟨x, hx, rfl⟩ := hfree
          left
          rw [← h x hx]
          exact hx

theorem nodup_calls_noteCall (h : (r.calls.map (·.address)).Nodup) :
    ((r.noteCall flags target).calls.map (·.address)).Nodup := by
  cases target with
  | none => exact h
  | some a =>
    rw [noteCall, addCall, call?]
    split
    · exact h
    · next hnone =>
      have hfree : ∀ x ∈ r.calls, x.address ≠ a := by simpa using hnone
      rw [List.map_append, List.map_singleton, List.nodup_append]
      refine ⟨h, List.nodup_singleton a, ?_⟩
      intro b hb b' hb'
      obtain ⟨x, hx, rfl⟩ := List.mem_map.1 hb
      rw [List.mem_singleton.1 hb']
      exact hfree x hx

end Calls

/-- The calls are the known targets of the call instructions, each once and with the given
flags. -/
structure CallsNoted (p : Flags) (r : Routine) : Prop where
  nodup_addresses : (r.calls.map (·.address)).Nodup
  mem_iff : ∀ called, called ∈ r.calls ↔ called.flags = p ∧
    ∃ i ∈ r.instructions, i.handling = .call ∧ i.target = .ok (some called.address)

section CallsNoted

variable {p : Flags} {r s : Routine} {i : Instruction} {target : Option Address}

theorem CallsNoted.push (h : r.CallsNoted p)
    (hinstructions : s.instructions = r.instructions.push i)
    (hcalls : s.calls = (r.noteCall p target).calls)
    (hcall : i.handling = .call → i.target = .ok target)
    (hother : i.handling ≠ .call → target = none) : s.CallsNoted p where
  nodup_addresses := by
    rw [hcalls]
    exact nodup_calls_noteCall h.nodup_addresses
  mem_iff called := by
    have hnew : target = some called.address ↔
        i.handling = .call ∧ i.target = .ok (some called.address) := by
      by_cases hi : i.handling = .call
      · simp [hi, hcall hi]
      · simp [hi, hother hi]
    have hflags : ∀ x ∈ r.calls, x.flags = p := fun x hx => ((h.mem_iff x).1 hx).1
    rw [hcalls, mem_calls_noteCall hflags, h.mem_iff, hinstructions, hnew, ← and_or_left]
    simp only [Array.mem_push, or_and_right, exists_or, exists_eq_left]

theorem CallsNoted.sortedCalls_eq (hr : r.CallsNoted p) (hs : s.CallsNoted p)
    (hsame : ∀ i, i ∈ r.instructions ↔ i ∈ s.instructions) : r.sortedCalls = s.sortedCalls := by
  have hmem : ∀ called, called ∈ r.calls ↔ called ∈ s.calls := by
    intro called
    simp only [hr.mem_iff, hs.mem_iff, hsame]
  have hperm : r.calls.Perm s.calls :=
    (List.perm_ext_iff_of_nodup hr.nodup_addresses.of_map hs.nodup_addresses.of_map).2 hmem
  have hsorted : ∀ l : List CalledRoutine,
      (l.mergeSort fun a b => a.address ≤ b.address).Pairwise fun a b => a.address ≤ b.address := by
    intro l
    refine (List.pairwise_mergeSort ?_ ?_ l).imp of_decide_eq_true
    · intro a b c hab hbc
      exact decide_eq_true (UInt32.le_trans (of_decide_eq_true hab) (of_decide_eq_true hbc))
    · intro a b
      simpa using UInt32.le_total a.address b.address
  have hperm' : r.sortedCalls.Perm s.sortedCalls :=
    (List.mergeSort_perm _ _).trans (hperm.trans (List.mergeSort_perm _ _).symm)
  refine hperm'.eq_of_pairwise ?_ (hsorted _) (hsorted _)
  intro a b ha hb hab hba
  have ha' : a ∈ s.calls := (hmem a).1 ((List.mergeSort_perm _ _).mem_iff.1 ha)
  have hb' : b ∈ s.calls := (List.mergeSort_perm _ _).mem_iff.1 hb
  exact List.inj_on_of_nodup_map hs.nodup_addresses ha' hb' (UInt32.le_antisymm hab hba)

end CallsNoted

end Routine

namespace Reader

theorem followCall_eq {i : Instruction} {s : State} {target : Option Address}
    (h : i.target = .ok target) :
    (followCall i s).outcome =
      .ok (.more { s with routine := s.routine.noteCall s.flags target }) := by
  cases target <;>
  · simp only [followCall, note, Traced.outcome_bind, Traced.outcome_ofExcept, h]
    rfl

section Calm

variable {order : PopOrder} {table : Table} {c d : Cursor} {address : Address} {p : Flags}
  {n : Nat} {s : State} {i : Instruction} {r : Routine}

theorem handling_ne_jump (htable : table.Calm) (hd : Instruction.decode table p c = .ok (i, d)) :
    i.handling ≠ .jump := by
  obtain ⟨value, hop⟩ := Instruction.exists_find?_of_decode hd
  have hjump : i.has .jump = false := (htable value i.opcode hop).1
  grind [Instruction.handling]

theorem update_eq_self (htable : table.Calm) (hd : Instruction.decode table p c = .ok (i, d))
    (q : Flags) : q.update i.opcode i.operand.value = q := by
  obtain ⟨value, hop⟩ := Instruction.exists_find?_of_decode hd
  obtain ⟨-, hclears, hsets⟩ := htable value i.opcode hop
  simp [Flags.update, hclears, hsets]

theorem ReachedAfter.flags_eq (h : ReachedAfter order table c address p n s)
    (htable : table.Calm) : s.flags = p := by
  obtain ⟨htracked, hflags⟩ := h.tracked
  rw [hflags]
  apply flagsAfter_eq_self
  intro i hi q
  obtain ⟨k, hk⟩ := Array.getElem?_of_mem (Array.mem_toList_iff.1 hi)
  obtain ⟨e, f, hd⟩ := htracked k i hk
  exact update_eq_self htable hd q

end Calm

/-- The places that a routine decoded are closed: wherever a place is known, decoding it with
the flags succeeds with an instruction of the routine, which can be followed to known places. -/
structure Closed (table : Table) (c : Cursor) (p : Flags) (r : Routine) : Prop where
  decode : ∀ d, c.SameImage d → d.offset ≤ c.image.size → r.isKnown d.tell = true →
    ∃ i e, Instruction.decode table p d = .ok (i, e) ∧ i ∈ r.instructions ∧
      (i.handling ≠ .ret → r.isKnown e.tell = true) ∧
      (i.handling = .branch → ∃ t, i.staticTarget = .ok t ∧
        ∃ f, c.seek t = .ok f ∧ r.isKnown f.tell = true) ∧
      (i.handling = .call → ∃ t, i.target = .ok t)

section Closed

variable {order : PopOrder} {table : Table} {c d : Cursor} {address : Address} {p : Flags}
  {n : Nat} {s : State} {i : Instruction} {r : Routine} {next : Next}

theorem Decodes.exists_target (h : Decodes order table c address p i d)
    (hr : (Routine.read order table c address p).outcome = .ok r) (hi : i.handling = .call) :
    ∃ t, i.target = .ok t := by
  obtain ⟨n, s, hs, hknown, hd⟩ := h
  obtain ⟨next, hstep, -⟩ := hs.covered hr
  rw [step_of_decode hknown hd, during_eq_ok, follow_eq, hi] at hstep
  simp only [followCall, Traced.outcome_bind, Traced.outcome_ofExcept] at hstep
  obtain ⟨t, ht, -⟩ := bind_eq_ok.1 hstep
  exact ⟨t, ht⟩

theorem Found.exists_seek {t : Address} (h : Found c r t) (hfits : c.Fits)
    (hr : (Routine.read order table c address p).outcome = .ok r) :
    ∃ f, c.seek t = .ok f ∧ r.isKnown f.tell = true := by
  rcases h with h | h
  · obtain ⟨i, hi, rfl⟩ := ((tidy_of_read hr).1.isKnown_iff t).1 h
    obtain ⟨d, n, s, hs, -, hd⟩ := (stems_of_read hr).instructions i hi
    obtain ⟨haddress, hlt, -⟩ := Instruction.decode_eq_ok hd
    have hsame := hs.stems.sameImage
    rw [hsame.image_eq] at hlt
    rw [haddress, Cursor.tell, hsame.mapping_eq] at h ⊢
    exact ⟨_, hfits.seek_toAddress hlt, h⟩
  · exact h

theorem closed_of_read (hr : (Routine.read order table c address p).outcome = .ok r)
    (hfits : c.Fits) (htable : table.Calm) : Closed table c p r where
  decode d hsame hle hknown := by
    obtain ⟨i, hi, haddress⟩ := ((tidy_of_read hr).1.isKnown_iff _).1 hknown
    obtain ⟨e, hdecodes⟩ := (stems_of_read hr).instructions i hi
    obtain ⟨-, hcontinued⟩ := hdecodes.continued hr
    obtain ⟨n, s, hs, -, hd⟩ := id hdecodes
    have hsame' := hs.stems.sameImage
    -- the address determines the place, and the flags are those of the entry
    have hoffset : d.offset = s.cursor.offset := by
      obtain ⟨htell, hlt, -⟩ := Instruction.decode_eq_ok hd
      rw [haddress, Cursor.tell, Cursor.tell, hsame.mapping_eq, hsame'.mapping_eq] at htell
      rw [hsame'.image_eq] at hlt
      exact hfits.toAddress_inj hle (Nat.le_of_lt hlt) htell
    rw [hs.flags_eq htable] at hd
    obtain ⟨f, hf, hsame_f, hoffset_f⟩ :=
      Instruction.decode_congr (hsame'.symm.trans hsame) hoffset hd
    refine ⟨i, f, hf, hi, ?_, ?_, hdecodes.exists_target hr⟩
    · intro hret
      have htell : f.tell = e.tell := by
        rw [Cursor.tell, Cursor.tell, hsame_f.mapping_eq, hoffset_f]
      rw [htell]
      exact hcontinued.behind hret (handling_ne_jump htable hd)
    · intro hbranch
      obtain ⟨t, ht, hfound⟩ := hcontinued.target (.inl hbranch)
      obtain ⟨-, -, himage, hmapping, -⟩ := Instruction.decode_eq_ok hd
      have hback : e.SameImage c := (hsame'.trans ⟨himage, hmapping⟩).symm
      exact ⟨t, ht, (hfound.congr hback).exists_seek hfits hr⟩

end Closed

/-- What a state has found and what is pending is among the places of a routine. -/
structure Within (c : Cursor) (p : Flags) (r : Routine) (s : State) : Prop where
  sameImage : c.SameImage s.cursor
  flags_eq : s.flags = p
  instructions : ∀ i ∈ s.routine.instructions, i ∈ r.instructions
  pending : ∀ a ∈ s.routine.pending, ∃ f, c.seek a = .ok f ∧ r.isKnown f.tell = true

structure Inside (c : Cursor) (p : Flags) (r : Routine) (s : State) : Prop
    extends Within c p r s where
  offset_le : s.cursor.offset ≤ c.image.size
  cursor : r.isKnown s.cursor.tell = true

def Next.Inside (c : Cursor) (p : Flags) (r : Routine) : Next → Prop
  | .more t => Reader.Inside c p r t
  | .finished r' => ∀ i ∈ r'.instructions, i ∈ r.instructions

section Steps

variable {order : PopOrder} {table : Table} {c d : Cursor} {address : Address} {p : Flags}
  {s : State} {i : Instruction} {r : Routine} {seen : Array Record}

theorem Within.resume (h : Within c p r s) (order : PopOrder) :
    ∃ next, (resume order s).outcome = .ok next ∧ next.Inside c p r := by
  cases hnext : order.next s.routine with
  | none =>
    refine ⟨.finished s.routine, ?_, h.instructions⟩
    rw [Reader.resume, hnext]
    rfl
  | some a =>
    obtain ⟨e, he, hknown⟩ := h.pending a (order.mem_pending hnext)
    obtain ⟨f, hf, hsame, hoffset⟩ := Cursor.seek_congr h.sameImage he
    obtain ⟨-, -, hlt, -⟩ := Cursor.seek_eq_ok he
    refine ⟨_, resume_of_next hnext hf, ⟨?_, h.flags_eq, h.instructions, ?_⟩, ?_, ?_⟩
    · exact (Cursor.sameImage_seek he).trans hsame
    · intro b hb
      exact h.pending b (Routine.mem_pending_dropPending.1 hb).1
    · dsimp only
      rw [hoffset]
      exact Nat.le_of_lt hlt
    · rw [Cursor.tell_congr hsame hoffset]
      exact hknown

theorem Within.advance (h : Within c p r s) (htable : table.Calm)
    (hd : Instruction.decode table p s.cursor = .ok (i, d)) (hi : i ∈ r.instructions) :
    Within c p r (s.advance i d) where
  sameImage := by
    obtain ⟨-, -, himage, hmapping, -⟩ := Instruction.decode_eq_ok hd
    exact h.sameImage.trans ⟨himage, hmapping⟩
  flags_eq := (update_eq_self htable hd s.flags).trans h.flags_eq
  instructions j hj := by
    rcases Array.mem_push.1 hj with hj | rfl
    · exact h.instructions j hj
    · exact hi
  pending a ha := h.pending a (Routine.mem_pending_addInstruction.1 ha).1

/-- From a state inside closed places a step is possible and stays inside. -/
theorem Inside.step (h : Inside c p r s) (hclosed : Closed table c p r) (htable : table.Calm)
    (order : PopOrder) :
    ∃ next, (Reader.step order table s).outcome = .ok next ∧ next.Inside c p r := by
  cases hknown : s.routine.isKnown s.cursor.tell with
  | true =>
    rw [step_of_known hknown]
    exact h.toWithin.resume order
  | false =>
    obtain ⟨i, d, hd, hi, hbehind, hbranch, hcall⟩ :=
      hclosed.decode s.cursor h.sameImage h.offset_le h.cursor
    have hadvance := h.toWithin.advance htable hd hi
    have hle := Instruction.offset_le_of_decode hd
    rw [h.sameImage.image_eq] at hle
    rw [step_of_decode hknown (h.flags_eq ▸ hd), follow_eq]
    cases hhandling : i.handling with
    | call =>
      obtain ⟨target, ht⟩ := hcall hhandling
      dsimp only
      rw [followCall_eq ht, during_ok]
      refine ⟨_, rfl, ⟨hadvance.sameImage, hadvance.flags_eq, ?_, ?_⟩, hle,
        hbehind (by simp [hhandling])⟩
      · rw [Routine.instructions_noteCall]
        exact hadvance.instructions
      · rw [Routine.pending_noteCall]
        exact hadvance.pending
    | ret =>
      obtain ⟨next, hresume, hnext⟩ := hadvance.resume order
      exact ⟨next, by rw [hresume, during_ok], hnext⟩
    | branch =>
      obtain ⟨t, ht, hseek⟩ := hbranch hhandling
      dsimp only
      rw [followBranch_eq ht, during_ok]
      refine ⟨_, rfl, ⟨hadvance.sameImage, hadvance.flags_eq, ?_, ?_⟩, hle,
        hbehind (by simp [hhandling])⟩
      · rw [Routine.instructions_addPending]
        exact hadvance.instructions
      · intro a ha
        rcases Routine.mem_pending_addPending.1 ha with ha | ⟨rfl, -⟩
        · exact hadvance.pending a ha
        · exact hseek
    | jump => exact absurd hhandling (handling_ne_jump htable hd)
    | plain => exact ⟨_, rfl, hadvance, hle, hbehind (by simp [hhandling])⟩

theorem Inside.run (h : Inside c p r s) (hclosed : Closed table c p r) (htable : table.Calm) :
    ∃ r', (Reader.run order table s seen).outcome = .ok r' ∧
      ∀ i ∈ r'.instructions, i ∈ r.instructions := by
  induction hdebt : s.debt using Nat.strongRecOn generalizing s seen with
  | ind k ih =>
    obtain ⟨next, hstep, hnext⟩ := h.step hclosed htable order
    rw [outcome_run, hstep]
    cases next with
    | finished r' => exact ⟨r', rfl, hnext⟩
    | more t => exact ih t.debt (hdebt ▸ debt_lt hstep) hnext rfl

/-- Where reading succeeds, it succeeds in every other order, without more instructions. -/
theorem exists_read_of_read (h : (Routine.read order table c address p).outcome = .ok r)
    (hfits : c.Fits) (htable : table.Calm) (other : PopOrder) :
    ∃ r', (Routine.read other table c address p).outcome = .ok r' ∧
      ∀ i ∈ r'.instructions, i ∈ r.instructions := by
  obtain ⟨d, hseek, i, hi, haddress⟩ := startsAt_of_read h
  have hknown : r.isKnown d.tell = true :=
    ((tidy_of_read h).1.isKnown_iff _).2 ⟨i, Array.mem_of_getElem? hi, haddress⟩
  have hstart : Inside c p r ⟨d, p, { address }⟩ := by
    refine ⟨⟨Cursor.sameImage_seek hseek, rfl, ?_, ?_⟩, ?_, hknown⟩
    · simp
    · simp
    · exact Nat.le_of_lt (Cursor.seek_eq_ok hseek).2.2.1
  rw [outcome_read, hseek]
  exact hstart.run (closed_of_read h hfits htable) htable

end Steps

section Calls

variable {order : PopOrder} {table : Table} {c : Cursor} {address : Address} {p : Flags}
  {n : Nat} {s : State} {i : Instruction} {r : Routine} {next : Next}

theorem Resumes.calls_eq (h : Resumes s next) : next.routine.calls = s.routine.calls := by
  cases h with
  | finish _ => rfl
  | resume _ _ => rfl

/-- Following an instruction notes a call with a known target and no other. -/
theorem calls_of_follow (h : (follow order i s).outcome = .ok next) :
    ∃ target, next.routine.calls = (s.routine.noteCall s.flags target).calls ∧
      (i.handling = .call → i.target = .ok target) ∧ (i.handling ≠ .call → target = none) := by
  by_cases hi : i.handling = .call
  · rw [follow_eq, hi] at h
    cases ht : i.target with
    | error e =>
      simp only [followCall, Traced.outcome_bind, Traced.outcome_ofExcept, ht] at h
      cases h
    | ok target =>
      dsimp only at h
      rw [followCall_eq ht] at h
      cases h
      exact ⟨target, rfl, fun _ => rfl, fun hno => absurd hi hno⟩
  · refine ⟨none, ?_, fun hyes => absurd hyes hi, fun _ => rfl⟩
    cases follows_of_follow h with
    | call hyes => exact absurd hyes hi
    | ret _ h => exact h.calls_eq
    | branch _ _ => simp only [Next.routine, Routine.addPending]; split <;> rfl
    | ignoredJump _ _ _ => rfl
    | jump _ _ _ => simp only [Next.routine, Routine.addPending]; split <;> rfl
    | plain _ => rfl

theorem callsNoted_of_step (hs : s.routine.CallsNoted p) (hflags : s.flags = p)
    (htable : table.Calm) (h : (step order table s).outcome = .ok next) :
    next.routine.CallsNoted p := by
  cases steps_of_step h with
  | known _ hresumes =>
    refine ⟨?_, fun called => ?_⟩
    · rw [hresumes.calls_eq]
      exact hs.nodup_addresses
    · rw [hresumes.calls_eq, hresumes.instructions_eq]
      exact hs.mem_iff called
  | @decode i d _ hknown hd hfollows =>
    rw [step_of_decode hknown hd, during_eq_ok] at h
    obtain ⟨target, hcalls, hcall, hother⟩ := calls_of_follow h
    refine hs.push hfollows.instructions_eq ?_ hcall hother
    have hflags' : (s.advance i d).flags = p := (update_eq_self htable hd s.flags).trans hflags
    rw [hcalls, hflags']
    exact Routine.calls_noteCall_congr rfl

theorem ReachedAfter.callsNoted (h : ReachedAfter order table c address p n s)
    (htable : table.Calm) : s.routine.CallsNoted p := by
  induction h with
  | start _ => exact ⟨List.nodup_nil, by simp⟩
  | step hs hstep ih => exact callsNoted_of_step ih (hs.flags_eq htable) htable hstep

theorem callsNoted_of_read (h : (Routine.read order table c address p).outcome = .ok r)
    (htable : table.Calm) : r.CallsNoted p := by
  obtain ⟨n, s, hs, hfinish⟩ := read_eq_ok h
  exact callsNoted_of_step (hs.callsNoted htable) (hs.flags_eq htable) htable hfinish

end Calls

/-- If no opcode jumps or changes flags, the order in which pending addresses are taken makes no
difference: reading fails in both orders, or it succeeds in both with the same instructions and
the same sorted calls. -/
theorem read_independent {table : Table} (htable : table.Calm) {c : Cursor} (hfits : c.Fits)
    (address : Address) (p : Flags) (order other : PopOrder) :
    (∃ e f, (Routine.read order table c address p).outcome = .error e ∧
      (Routine.read other table c address p).outcome = .error f) ∨
    ∃ r s, (Routine.read order table c address p).outcome = .ok r ∧
      (Routine.read other table c address p).outcome = .ok s ∧
      (∀ i, i ∈ r.instructions ↔ i ∈ s.instructions) ∧ r.sortedCalls = s.sortedCalls := by
  cases hread : (Routine.read order table c address p).outcome with
  | error e =>
    cases hread' : (Routine.read other table c address p).outcome with
    | error f => exact .inl ⟨e, f, rfl, rfl⟩
    | ok s =>
      obtain ⟨r, hr, -⟩ := exists_read_of_read hread' hfits htable order
      rw [hread] at hr
      cases hr
  | ok r =>
    obtain ⟨s, hs, hsub⟩ := exists_read_of_read hread hfits htable other
    obtain ⟨r', hr', hsub'⟩ := exists_read_of_read hs hfits htable order
    rw [hread] at hr'
    cases hr'
    have hsame : ∀ i, i ∈ r.instructions ↔ i ∈ s.instructions := fun i => ⟨hsub' i, hsub i⟩
    refine .inr ⟨r, s, rfl, hs, hsame, ?_⟩
    exact (callsNoted_of_read hread htable).sortedCalls_eq (callsNoted_of_read hs htable) hsame

namespace TwoBranches

/-! Two branches, the targets of which are pending together. -/

def table : Table where
  slots := ((Vector.replicate 256 none).setIfInBounds 0xF0 (some .beq)).setIfInBounds 0x60
    (some .rts)
  count := 2

def cursor : Cursor :=
  { image := #[0xF0, 0x03, 0xF0, 0x02, 0x60, 0x60, 0x60], mapping := .hiRom }

def first : Instruction := ⟨0xC00000, .beq, ⟨3, 1⟩⟩

def second : Instruction := ⟨0xC00002, .beq, ⟨2, 1⟩⟩

def ret (a : Address) : Instruction := ⟨a, .rts, {}⟩

theorem find?_beq : table.find? 0xF0 = some .beq := by
  rw [Table.find?_eq_getElem _ (by decide)]
  simp [table]

theorem find?_rts : table.find? 0x60 = some .rts := by
  rw [Table.find?_eq_getElem _ (by decide)]
  simp [table]

theorem calm : table.Calm := by
  intro value op h
  have hop : op = .beq ∨ op = .rts := by
    rw [Table.find?_eq_getElem _ value.toNat_lt, table, Vector.getElem_setIfInBounds,
      Vector.getElem_setIfInBounds, Vector.getElem_replicate] at h
    split at h
    · exact .inr (Option.some.inj h).symm
    · split at h
      · exact .inl (Option.some.inj h).symm
      · cases h
  rcases hop with rfl | rfl <;> decide

theorem fits : cursor.Fits := .inl ⟨rfl, by decide⟩

theorem read_oldest :
    ∃ r, (Routine.read .oldest table cursor 0xC00000 {}).outcome = .ok r ∧
      r.instructions.toList =
        [first, second, ret 0xC00004, ret 0xC00005, ret 0xC00006] := by
  apply Reads.read (d := cursor) (by simp [Cursor.seek, Mapping.toOffset?, cursor])
  refine .branch (i := first) (d := { cursor with offset := 2 }) (t := 0xC00005) (by decide)
    (Instruction.decode_of_parts rfl find?_beq rfl) (by decide) (by decide +kernel) (by decide)
    (by decide) ?_
  refine .branch (i := second) (d := { cursor with offset := 4 }) (t := 0xC00006) (by decide)
    (Instruction.decode_of_parts rfl find?_beq rfl) (by decide) (by decide +kernel) (by decide)
    (by decide) ?_
  refine .ret (i := ret 0xC00004) (d := { cursor with offset := 5 }) (t := 0xC00005)
    (e := { cursor with offset := 5 }) (by decide) (Instruction.decode_of_parts rfl find?_rts rfl)
    (by decide) (fun _ hr => congrArg List.head? hr)
    (by simp [Cursor.seek, Mapping.toOffset?, cursor]) ?_
  refine .ret (i := ret 0xC00005) (d := { cursor with offset := 6 }) (t := 0xC00006)
    (e := { cursor with offset := 6 }) (by decide) (Instruction.decode_of_parts rfl find?_rts rfl)
    (by decide) (fun _ hr => congrArg List.head? hr)
    (by simp [Cursor.seek, Mapping.toOffset?, cursor]) ?_
  exact .lastRet (i := ret 0xC00006) (d := { cursor with offset := 7 }) (by decide)
    (Instruction.decode_of_parts rfl find?_rts rfl) (by decide) (by decide)

end TwoBranches

/-- Taking the newest address first leads to the instructions that are found from the oldest. -/
theorem read_independent_twoBranches :
    ∃ r, (Routine.read .newest TwoBranches.table TwoBranches.cursor 0xC00000 {}).outcome = .ok r ∧
      ∀ i, i ∈ r.instructions ↔ i ∈ [TwoBranches.first, TwoBranches.second,
        TwoBranches.ret 0xC00004, TwoBranches.ret 0xC00005, TwoBranches.ret 0xC00006] := by
  obtain ⟨r, hr, hall⟩ := TwoBranches.read_oldest
  rcases read_independent TwoBranches.calm TwoBranches.fits 0xC00000 {} .oldest .newest with
    ⟨e, f, he, -⟩ | ⟨r', s, hr', hs, hsame, -⟩
  · rw [hr] at he
    cases he
  · rw [hr] at hr'
    cases hr'
    refine ⟨s, hs, fun i => ?_⟩
    rw [← hall, ← hsame, Array.mem_toList_iff]

end Reader

end CartFlow
