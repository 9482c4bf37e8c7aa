import CartFlow.Proofs.Routine.Evaluation
import CartFlow.Proofs.Routine.Execution

/-!
# The flags that instructions are decoded with

The reader has one pair of flags. It is changed by every instruction in the order in which the
instructions are found, and it is not put back where reading goes on at a pending address. The
operand of an immediate instruction is therefore as long as the flags behind all instructions
found before it ask for. These need not be the flags of any path of control to it. They are if
every instruction is led to by one found before it that left the flags it was decoded with,
and in particular if no instruction changes flags.
-/
namespace CartFlow

open Processor Cartridge

namespace Reader

/-- The flags behind instructions that are taken one after the other. -/
def flagsAfter (p : Flags) (l : List Instruction) : Flags :=
  l.foldl (fun q i => q.update i.opcode i.operand.value) p

theorem flagsAfter_concat (p : Flags) (l : List Instruction) (i : Instruction) :
    flagsAfter p (l ++ [i]) = (flagsAfter p l).update i.opcode i.operand.value := by
  simp [flagsAfter]

theorem flagsAfter_eq_self {p : Flags} {l : List Instruction}
    (h : ∀ i ∈ l, ∀ q : Flags, q.update i.opcode i.operand.value = q) : flagsAfter p l = p := by
  induction l with
  | nil => rfl
  | cons i l ih =>
    rw [flagsAfter, List.foldl_cons, h i List.mem_cons_self]
    exact ih fun j hj => h j (List.mem_cons_of_mem i hj)

section Steps

variable {table : Table} {i : Instruction} {s t : State} {next : Next}

theorem Resumes.instructions_eq (h : Resumes s next) :
    next.routine.instructions = s.routine.instructions := by
  cases h with
  | finish _ => rfl
  | resume _ _ => rfl

theorem Resumes.flags_eq (h : Resumes s (.more t)) : t.flags = s.flags := by
  cases h with
  | resume _ _ => rfl

theorem Follows.instructions_eq (h : Follows i s next) :
    next.routine.instructions = s.routine.instructions := by
  cases h with
  | call _ => rfl
  | ret _ h => exact h.instructions_eq
  | branch _ _ => exact Routine.instructions_addPending
  | ignoredJump _ _ _ => rfl
  | jump _ _ _ => exact Routine.instructions_addPending
  | plain _ => rfl

theorem Follows.flags_eq (h : Follows i s (.more t)) : t.flags = s.flags := by
  cases h with
  | call _ => rfl
  | ret _ h => exact h.flags_eq
  | branch _ _ => rfl
  | ignoredJump _ _ _ => rfl
  | jump _ _ _ => rfl
  | plain _ => rfl

/-- A step finds an instruction, which changes the flags, or it changes neither. -/
theorem Steps.finds (h : Steps table s next) :
    (s.routine.isKnown s.cursor.tell = true ∧
        next.routine.instructions = s.routine.instructions ∧
        ∀ t, next = .more t → t.flags = s.flags) ∨
      ∃ i d, Instruction.decode table s.flags s.cursor = .ok (i, d) ∧
        next.routine.instructions = s.routine.instructions.push i ∧
        ∀ t, next = .more t → t.flags = s.flags.update i.opcode i.operand.value := by
  cases h with
  | known hknown h =>
    refine .inl ⟨hknown, h.instructions_eq, ?_⟩
    rintro t rfl
    exact h.flags_eq
  | @decode i d _ _ hd h =>
    refine .inr ⟨i, d, hd, h.instructions_eq, ?_⟩
    rintro t rfl
    exact h.flags_eq

end Steps

/-- Every instruction was decoded with the flags behind those found before it. -/
def Tracked (table : Table) (p : Flags) (r : Routine) : Prop :=
  ∀ (k : Nat) i, r.instructions[k]? = some i →
    ∃ c d, Instruction.decode table (flagsAfter p (r.instructions.toList.take k)) c = .ok (i, d)

section Tracking

variable {order : PopOrder} {table : Table} {c : Cursor} {address : Address} {p : Flags}
  {n : Nat} {s : State} {r : Routine} {next : Next}

theorem Steps.tracked (h : Steps table s next) (hs : Tracked table p s.routine)
    (hflags : s.flags = flagsAfter p s.routine.instructions.toList) :
    Tracked table p next.routine ∧
      ∀ t, next = .more t → t.flags = flagsAfter p next.routine.instructions.toList := by
  rcases h.finds with ⟨-, hsame, hkept⟩ | ⟨i, d, hd, hpush, hupdate⟩
  · refine ⟨?_, fun t ht => ?_⟩
    · intro k j hj
      rw [hsame] at hj ⊢
      exact hs k j hj
    · rw [hkept t ht, hflags, hsame]
  · refine ⟨?_, fun t ht => ?_⟩
    · intro k j hj
      rw [hpush, Array.getElem?_push] at hj
      rw [hpush, Array.toList_push]
      split at hj
      · next hk =>
        -- the instruction that was just found
        cases hj
        rw [hk, ← Array.length_toList, List.take_left, ← hflags]
        exact ⟨_, _, hd⟩
      · have hlt : k < s.routine.instructions.size := (Array.getElem?_eq_some_iff.1 hj).1
        rw [List.take_append_of_le_length (by simpa using Nat.le_of_lt hlt)]
        exact hs k j hj
    · rw [hupdate t ht, hpush, Array.toList_push, flagsAfter_concat, hflags]

theorem ReachedAfter.tracked (h : ReachedAfter order table c address p n s) :
    Tracked table p s.routine ∧ s.flags = flagsAfter p s.routine.instructions.toList := by
  induction h with
  | start _ => exact ⟨fun k i hi => by simp at hi, rfl⟩
  | @step n s t _ hstep ih =>
    obtain ⟨htracked, hflags⟩ := (steps_of_step hstep).tracked ih.1 ih.2
    exact ⟨htracked, hflags t rfl⟩

theorem tracked_of_read (h : (Routine.read order table c address p).outcome = .ok r) :
    Tracked table p r := by
  obtain ⟨n, s, hs, hfinish⟩ := read_eq_ok h
  exact ((steps_of_step hfinish).tracked hs.tracked.1 hs.tracked.2).1

/-- The flags of an instruction decide the length of its immediate operand. -/
theorem Tracked.length_eq (h : Tracked table p r) {k : Nat} {i : Instruction}
    (hi : r.instructions[k]? = some i) (hmode : i.opcode.mode = .immediate) :
    i.operand.length =
      immediateLength i.opcode (flagsAfter p (r.instructions.toList.take k)) := by
  obtain ⟨d, e, hd⟩ := h k i hi
  obtain ⟨hlength, hnonneg⟩ := Instruction.operandLength_of_decode hd
  rw [Opcode.operandLength, hmode] at hlength
  have hnat := Except.ok.inj hlength
  omega

end Tracking

def StartsAt (a : Address) (r : Routine) : Prop :=
  ∃ i, r.instructions[0]? = some i ∧ i.address = a

section Entry

variable {order : PopOrder} {table : Table} {c : Cursor} {address a : Address} {p : Flags}
  {n : Nat} {s : State} {r : Routine} {next : Next}

theorem Steps.startsAt (h : Steps table s next) (hs : s.routine.Tidy)
    (hfirst : s.routine.instructions = #[] ∧ s.cursor.tell = a ∨ StartsAt a s.routine) :
    StartsAt a next.routine := by
  rcases h.finds with ⟨hknown, hsame, -⟩ | ⟨i, d, hd, hpush, -⟩
  · rw [StartsAt, hsame]
    rcases hfirst with ⟨hnil, -⟩ | hfirst
    · obtain ⟨i, hi, -⟩ := (hs.isKnown_iff _).1 hknown
      rw [hnil] at hi
      exact absurd hi (Array.not_mem_empty i)
    · exact hfirst
  · rw [StartsAt, hpush, Array.getElem?_push]
    rcases hfirst with ⟨hnil, htell⟩ | ⟨j, hj, haddress⟩
    · refine ⟨i, by simp [hnil], ?_⟩
      rw [(Instruction.decode_eq_ok hd).1, htell]
    · have hlt : 0 < s.routine.instructions.size := (Array.getElem?_eq_some_iff.1 hj).1
      exact ⟨j, by rw [if_neg (Nat.ne_of_lt hlt), hj], haddress⟩

theorem ReachedAfter.startsAt (h : ReachedAfter order table c address p n s) :
    ∃ d, c.seek address = .ok d ∧
      (s.routine.instructions = #[] ∧ s.cursor.tell = d.tell ∨ StartsAt d.tell s.routine) := by
  induction h with
  | @start d hseek => exact ⟨d, hseek, .inl ⟨rfl, rfl⟩⟩
  | @step n s t hs hstep ih =>
    obtain ⟨d, hseek, hfirst⟩ := ih
    exact ⟨d, hseek, .inr ((steps_of_step hstep).startsAt hs.tidy hfirst)⟩

theorem Resumes.address_eq (h : Resumes s next) : next.routine.address = s.routine.address := by
  cases h with
  | finish _ => rfl
  | resume _ _ => rfl

theorem address_addPending (r : Routine) (a : Address) :
    (r.addPending a).address = r.address := by
  unfold Routine.addPending
  split <;> rfl

theorem Steps.address_eq (h : Steps table s next) :
    next.routine.address = s.routine.address := by
  cases h with
  | known _ h => exact h.address_eq
  | decode _ _ h =>
    cases h with
    | call _ => rfl
    | ret _ h => exact h.address_eq
    | branch _ _ => exact address_addPending _ _
    | ignoredJump _ _ _ => rfl
    | jump _ _ _ => exact address_addPending _ _
    | plain _ => rfl

theorem ReachedAfter.address_eq (h : ReachedAfter order table c address p n s) :
    s.routine.address = address := by
  induction h with
  | start _ => rfl
  | step _ hstep ih => exact (steps_of_step hstep).address_eq.trans ih

theorem address_of_read (h : (Routine.read order table c address p).outcome = .ok r) :
    r.address = address := by
  obtain ⟨n, s, hs, hfinish⟩ := read_eq_ok h
  exact (steps_of_step hfinish).address_eq.trans hs.address_eq

theorem startsAt_of_read (h : (Routine.read order table c address p).outcome = .ok r) :
    ∃ d, c.seek address = .ok d ∧ StartsAt d.tell r := by
  obtain ⟨n, s, hs, hfinish⟩ := read_eq_ok h
  obtain ⟨d, hseek, hfirst⟩ := hs.startsAt
  exact ⟨d, hseek, (steps_of_step hfinish).startsAt hs.tidy hfirst⟩

end Entry

/-- Where control goes from a decoded instruction that has a cursor behind it: behind it unless
it is a return, and to its target if it is a branch or a jump. -/
inductive Onward (c : Cursor) (i : Instruction) (d : Cursor) : Address → Prop
  | behind : i.handling ≠ .ret → Onward c i d d.tell
  | target {t a : Address} : i.handling = .branch ∨ i.handling = .jump →
      i.staticTarget = .ok t → c.Names t a → Onward c i d a

/-- Control leads from the entry over a list of decoded instructions to an instruction. -/
inductive Leads (c : Cursor) (address : Address) (D : Instruction → Cursor → Prop) :
    List Instruction → Instruction → Prop
  | entry {d e : Cursor} {i : Instruction} : c.seek address = .ok d → D i e →
      i.address = d.tell → Leads c address D [] i
  | onward {l : List Instruction} {i j : Instruction} {d e : Cursor} :
      Leads c address D l i → D i d → D j e → Onward c i d j.address →
      Leads c address D (l ++ [i]) j

/-- Every instruction but the first is led to by one found before it that left the flags with
which it was decoded. Where reading did not go on at a pending address, this is the one found
just before. -/
def Steady (c : Cursor) (D : Instruction → Cursor → Prop) (p : Flags) (r : Routine) : Prop :=
  ∀ (k : Nat) j, r.instructions[k]? = some j → k = 0 ∨
    ∃ m i d, m < k ∧ r.instructions[m]? = some i ∧ D i d ∧ Onward c i d j.address ∧
      flagsAfter p (r.instructions.toList.take (m + 1)) =
        flagsAfter p (r.instructions.toList.take k)

section Paths

variable {order : PopOrder} {table : Table} {c d : Cursor} {address : Address} {p : Flags}
  {n : Nat} {s : State} {r : Routine} {i : Instruction} {l : List Instruction}
  {D : Instruction → Cursor → Prop}

theorem Leads.mem (h : Leads c address D l i) : ∀ j ∈ l, ∃ d, D j d := by
  induction h with
  | entry _ _ _ => exact fun j hj => absurd hj List.not_mem_nil
  | onward _ hi _ _ ih =>
    intro j hj
    rcases List.mem_append.1 hj with hj | hj
    · exact ih j hj
    · rw [List.mem_singleton.1 hj]
      exact ⟨_, hi⟩

/-- Control leads to an instruction whose address stems from one that control leads to. -/
theorem Origin.exists_leads
    (h : Origin c address (fun i d => D i d ∧ ∃ l, Leads c address D l i) i.address)
    (hi : D i d) : ∃ l, Leads c address D l i := by
  generalize haddress : i.address = a at h
  cases h with
  | entry hseek => exact ⟨[], .entry hseek hi haddress⟩
  | @behind j e hj hret =>
    obtain ⟨hj, l, hl⟩ := hj
    refine ⟨l ++ [j], .onward hl hj hi ?_⟩
    rw [haddress]
    exact .behind hret
  | @target j e f t hj hhandling ht hseek =>
    obtain ⟨hj, l, hl⟩ := hj
    refine ⟨l ++ [j], .onward hl hj hi ?_⟩
    rw [haddress]
    exact .target hhandling ht (.inr ⟨f, hseek, rfl⟩)

theorem ReachedAfter.leads (h : ReachedAfter order table c address p n s) :
    StemsAt c address (fun i d => Decodes order table c address p i d ∧
      ∃ l, Leads c address (Decodes order table c address p) l i) s := by
  induction h with
  | start hseek =>
    refine ⟨⟨?_, ?_, ?_⟩, .entry hseek, Cursor.sameImage_seek hseek⟩
    · simp
    · simp [Routine.isKnown]
    · simp
  | @step n s t hs hstep ih =>
    refine (steps_of_step hstep).stems ih fun i d hknown hd => ?_
    have hi : Decodes order table c address p i d := ⟨n, s, hs, hknown, hd⟩
    refine ⟨hi, Origin.exists_leads ?_ hi⟩
    rw [(Instruction.decode_eq_ok hd).1]
    exact ih.cursor

/-- Control leads to every instruction of a routine, over instructions of the routine. -/
theorem exists_leads_of_read (h : (Routine.read order table c address p).outcome = .ok r)
    (hi : i ∈ r.instructions) :
    ∃ l, Leads c address (Decodes order table c address p) l i ∧ ∀ j ∈ l, j ∈ r.instructions := by
  obtain ⟨d, n, s, hs, hknown, hd⟩ := (stems_of_read h).instructions i hi
  have hdecodes : Decodes order table c address p i d := ⟨n, s, hs, hknown, hd⟩
  have horigin := hs.leads.cursor
  rw [← (Instruction.decode_eq_ok hd).1] at horigin
  obtain ⟨l, hl⟩ := horigin.exists_leads hdecodes
  refine ⟨l, hl, fun j hj => ?_⟩
  obtain ⟨e, he⟩ := hl.mem j hj
  exact (he.continued h).1

/-- Where flags are steady, each instruction is decoded with the flags of a path to it. -/
theorem exists_leads_of_steady (h : (Routine.read order table c address p).outcome = .ok r)
    (hsteady : Steady c (Decodes order table c address p) p r) (k : Nat)
    (hi : r.instructions[k]? = some i) :
    ∃ l, Leads c address (Decodes order table c address p) l i ∧
      flagsAfter p l = flagsAfter p (r.instructions.toList.take k) := by
  induction k using Nat.strongRecOn generalizing i with
  | ind k ih =>
    obtain ⟨e, he⟩ := (stems_of_read h).instructions i (Array.mem_of_getElem? hi)
    rcases hsteady k i hi with rfl | ⟨m, j, d, hm, hj, hd, honward, hflags⟩
    · obtain ⟨d, hseek, first, hfirst, haddress⟩ := startsAt_of_read h
      rw [hi] at hfirst
      cases hfirst
      exact ⟨[], .entry hseek he haddress, rfl⟩
    · obtain ⟨l, hl, hfl⟩ := ih m hm hj
      refine ⟨l ++ [j], .onward hl hd he honward, ?_⟩
      have htake : r.instructions.toList.take (m + 1) = r.instructions.toList.take m ++ [j] := by
        rw [List.take_add_one, Array.getElem?_toList, hj]
        rfl
      rw [flagsAfter_concat, hfl, ← flagsAfter_concat, ← htake, hflags]

theorem Decodes.tell_eq (h : Decodes order table c address p i d) (hmapping : c.mapping = .hiRom) :
    d.tell = i.nextAddress := by
  obtain ⟨n, s, hs, -, hd⟩ := h
  exact Instruction.tell_of_decode_hiRom (hs.stems.sameImage.mapping_eq.trans hmapping) hd

/-- Flags are steady if each instruction is found at the place behind the one before. -/
theorem steady_of_sequential (h : (Routine.read order table c address p).outcome = .ok r)
    (hmapping : c.mapping = .hiRom)
    (hchain : r.instructions.toList.IsChain fun i j =>
      i.handling ≠ .ret ∧ j.address = i.nextAddress) :
    Steady c (Decodes order table c address p) p r := by
  intro k j hj
  cases k with
  | zero => exact .inl rfl
  | succ m =>
    obtain ⟨hlt, hj⟩ := Array.getElem?_eq_some_iff.1 hj
    obtain ⟨hret, hnext⟩ := List.isChain_iff_getElem.1 hchain m (by simpa using hlt)
    simp only [Array.getElem_toList, hj] at hret hnext
    have hi : r.instructions[m] ∈ r.instructions := Array.getElem_mem _
    obtain ⟨d, hd⟩ := (stems_of_read h).instructions _ hi
    refine .inr ⟨m, _, d, m.lt_succ_self, Array.getElem?_eq_getElem _, hd, ?_, rfl⟩
    rw [hnext, ← hd.tell_eq hmapping]
    exact .behind hret

/-- The operand of an immediate instruction is as long as the flags behind all instructions
found before it ask for. Where flags are steady, or where no instruction changes them, these
are the flags of a path of control to the instruction. -/
theorem immediate_length_of_read (h : (Routine.read order table c address p).outcome = .ok r) :
    (∀ (k : Nat) i, r.instructions[k]? = some i → i.opcode.mode = .immediate →
      i.operand.length =
        immediateLength i.opcode (flagsAfter p (r.instructions.toList.take k))) ∧
    ((Steady c (Decodes order table c address p) p r ∨
        ∀ i ∈ r.instructions, ∀ q : Flags, q.update i.opcode i.operand.value = q) →
      ∀ i ∈ r.instructions, i.opcode.mode = .immediate →
        ∃ l, Leads c address (Decodes order table c address p) l i ∧
          i.operand.length = immediateLength i.opcode (flagsAfter p l)) := by
  have htracked := tracked_of_read h
  refine ⟨fun k i hi hmode => htracked.length_eq hi hmode, ?_⟩
  intro hcase i hi hmode
  obtain ⟨k, hk⟩ := Array.getElem?_of_mem hi
  have hlength := htracked.length_eq hk hmode
  rcases hcase with hsteady | hconstant
  · obtain ⟨l, hl, hflags⟩ := exists_leads_of_steady h hsteady k hk
    exact ⟨l, hl, by rw [hlength, hflags]⟩
  · obtain ⟨l, hl, hmem⟩ := exists_leads_of_read h hi
    refine ⟨l, hl, ?_⟩
    rw [hlength, flagsAfter_eq_self fun j hj => hconstant j (hmem j hj), flagsAfter_eq_self]
    intro j hj
    exact hconstant j (Array.mem_toList_iff.1 (List.mem_of_mem_take hj))

end Paths

namespace Widths

/-! Two pieces of code with a branch over a change of flags. In the first one, control is found
in the order in which it goes on, so the flags are those of a path. In the second one, the
change is behind the branch and a return ends it: at the target of the branch the reader still
has the changed flags, although control comes there from the branch alone. -/

def merging : Cursor :=
  { image := #[0xE2, 0x20, 0xF0, 0x01, 0xEA, 0xA9, 0x60, 0x60], mapping := .hiRom }

def merged : List Instruction :=
  [⟨0xC00000, .sep, ⟨0x20, 1⟩⟩, ⟨0xC00002, .beq, ⟨1, 1⟩⟩, ⟨0xC00004, .nop, {}⟩,
    ⟨0xC00005, .lda, ⟨0x60, 1⟩⟩, ⟨0xC00007, .rts, {}⟩]

def splitting : Cursor :=
  { image := #[0xF0, 0x03, 0xE2, 0x20, 0x60, 0xA9, 0x60, 0x60, 0x60], mapping := .hiRom }

def split : List Instruction :=
  [⟨0xC00000, .beq, ⟨3, 1⟩⟩, ⟨0xC00002, .sep, ⟨0x20, 1⟩⟩, ⟨0xC00004, .rts, {}⟩,
    ⟨0xC00005, .lda, ⟨0x60, 1⟩⟩, ⟨0xC00007, .rts, {}⟩]

theorem read_merging (order : PopOrder) :
    ∃ r, (Routine.read order Table.standard merging 0xC00000 {}).outcome = .ok r ∧
      r.instructions.toList = merged := by
  apply Reads.read (d := merging) (by simp [Cursor.seek, Mapping.toOffset?, merging])
  refine .plain (i := ⟨0xC00000, .sep, ⟨0x20, 1⟩⟩) (d := { merging with offset := 2 })
    (by decide) (Instruction.decode_of_parts rfl Opcode.find?_sep rfl) (by decide) ?_
  refine .branch (i := ⟨0xC00002, .beq, ⟨1, 1⟩⟩) (d := { merging with offset := 4 })
    (t := 0xC00005) (by decide) (Instruction.decode_of_parts rfl Opcode.find?_beq rfl) (by decide)
    (by decide +kernel) (by decide) (by decide) ?_
  refine .plain (i := ⟨0xC00004, .nop, {}⟩) (d := { merging with offset := 5 })
    (by decide) (Instruction.decode_of_parts rfl Opcode.find?_nop rfl) (by decide) ?_
  refine .plain (i := ⟨0xC00005, .lda, ⟨0x60, 1⟩⟩) (d := { merging with offset := 7 })
    (by decide) (Instruction.decode_of_parts rfl Opcode.find?_lda rfl) (by decide) ?_
  exact .lastRet (i := ⟨0xC00007, .rts, {}⟩) (d := { merging with offset := 8 })
    (by decide) (Instruction.decode_of_parts rfl Opcode.find?_rts rfl) (by decide) (by decide)

theorem seek_splitting : splitting.seek 0xC00000 = .ok splitting := by
  simp [Cursor.seek, Mapping.toOffset?, splitting]

theorem seek_load : splitting.seek 0xC00005 = .ok { splitting with offset := 5 } := by
  simp [Cursor.seek, Mapping.toOffset?, splitting]

theorem read_splitting (order : PopOrder) :
    ∃ r, (Routine.read order Table.standard splitting 0xC00000 {}).outcome = .ok r ∧
      r.instructions.toList = split := by
  apply Reads.read seek_splitting
  refine .branch (i := ⟨0xC00000, .beq, ⟨3, 1⟩⟩) (d := { splitting with offset := 2 })
    (t := 0xC00005) (by decide) (Instruction.decode_of_parts rfl Opcode.find?_beq rfl) (by decide)
    (by decide +kernel) (by decide) (by decide) ?_
  refine .plain (i := ⟨0xC00002, .sep, ⟨0x20, 1⟩⟩) (d := { splitting with offset := 4 })
    (by decide) (Instruction.decode_of_parts rfl Opcode.find?_sep rfl) (by decide) ?_
  refine .ret (i := ⟨0xC00004, .rts, {}⟩) (d := { splitting with offset := 5 }) (t := 0xC00005)
    (e := { splitting with offset := 5 }) (by decide)
    (Instruction.decode_of_parts rfl Opcode.find?_rts rfl) (by decide)
    (fun r hr => next_of_singleton order hr) seek_load ?_
  refine .plain (i := ⟨0xC00005, .lda, ⟨0x60, 1⟩⟩) (d := { splitting with offset := 7 })
    (by decide) (Instruction.decode_of_parts rfl Opcode.find?_lda rfl) (by decide) ?_
  exact .lastRet (i := ⟨0xC00007, .rts, {}⟩) (d := { splitting with offset := 8 })
    (by decide) (Instruction.decode_of_parts rfl Opcode.find?_rts rfl) (by decide) (by decide)

theorem names_load {a : Address} (h : splitting.Names 0xC00005 a) : a = 0xC00005 := by
  rcases h with rfl | ⟨d, hd, rfl⟩
  · rfl
  · rw [seek_load] at hd
    cases hd
    rfl

theorem onward_splitting {i : Instruction} {d : Cursor} {a : Address} (hi : i ∈ split)
    (hd : d.tell = i.nextAddress) (h : Onward splitting i d a) :
    a ≠ 0xC00000 ∧ (a = 0xC00005 → i = ⟨0xC00000, .beq, ⟨3, 1⟩⟩) := by
  cases h with
  | behind hret =>
    have hbehind : ∀ i ∈ split, i.handling ≠ .ret →
        i.nextAddress ≠ 0xC00000 ∧ i.nextAddress ≠ 0xC00005 := by decide +kernel
    obtain ⟨hentry, hload⟩ := hbehind i hi hret
    rw [hd]
    exact ⟨hentry, fun heq => absurd heq hload⟩
  | target hhandling ht hnames =>
    have hbranch : ∀ i ∈ split, i.handling = .branch ∨ i.handling = .jump →
        i = ⟨0xC00000, .beq, ⟨3, 1⟩⟩ := by decide +kernel
    have htarget : (⟨0xC00000, .beq, ⟨3, 1⟩⟩ : Instruction).staticTarget = .ok 0xC00005 := by
      decide +kernel
    rw [hbranch i hi hhandling, htarget] at ht
    cases ht
    rw [names_load hnames]
    exact ⟨by decide, fun _ => hbranch i hi hhandling⟩

/-- Control comes to the load from the branch alone, and to the branch from nowhere. -/
theorem leads_load {order : PopOrder} {r : Routine} {l : List Instruction}
    (h : (Routine.read order Table.standard splitting 0xC00000 {}).outcome = .ok r)
    (hall : r.instructions.toList = split)
    (hl : Leads splitting 0xC00000 (Decodes order Table.standard splitting 0xC00000 {}) l
      ⟨0xC00005, .lda, ⟨0x60, 1⟩⟩) :
    l = [⟨0xC00000, .beq, ⟨3, 1⟩⟩] := by
  have honward : ∀ {i d a}, Decodes order Table.standard splitting 0xC00000 {} i d →
      Onward splitting i d a →
      a ≠ 0xC00000 ∧ (a = 0xC00005 → i = ⟨0xC00000, .beq, ⟨3, 1⟩⟩) := by
    intro i d a hd
    apply onward_splitting _ (hd.tell_eq rfl)
    rw [← hall, Array.mem_toList_iff]
    exact (hd.continued h).1
  cases hl with
  | entry hseek _ haddress =>
    rw [seek_splitting] at hseek
    cases hseek
    exact absurd haddress (by decide)
  | onward hl hd _ hgo =>
    have hbranch := (honward hd hgo).2 rfl
    subst hbranch
    cases hl with
    | entry _ _ _ => rfl
    | onward _ hd _ hgo => exact absurd rfl (honward hd hgo).1

end Widths

/-- Behind a change of flags both ways of a branch lead to a load of one byte. -/
theorem immediate_length_merging :
    ∃ r, (Routine.read .oldest Table.standard Widths.merging 0xC00000 {}).outcome = .ok r ∧
      r.instructions.toList = Widths.merged ∧
      ∀ i ∈ r.instructions, i.opcode.mode = .immediate →
        ∃ l, Leads Widths.merging 0xC00000
            (Decodes .oldest Table.standard Widths.merging 0xC00000 {}) l i ∧
          i.operand.length = immediateLength i.opcode (flagsAfter {} l) := by
  obtain ⟨r, hread, hall⟩ := Widths.read_merging .oldest
  refine ⟨r, hread, hall, (immediate_length_of_read hread).2 (.inl ?_)⟩
  apply steady_of_sequential hread rfl
  rw [hall]
  decide

/-- A load whose operand is shorter than on the only path to it. -/
theorem immediate_length_splitting :
    ∃ r, (Routine.read .oldest Table.standard Widths.splitting 0xC00000 {}).outcome = .ok r ∧
      ∃ i ∈ r.instructions, i.opcode.mode = .immediate ∧
        ∀ l, Leads Widths.splitting 0xC00000
            (Decodes .oldest Table.standard Widths.splitting 0xC00000 {}) l i →
          i.operand.length ≠ immediateLength i.opcode (flagsAfter {} l) := by
  obtain ⟨r, hread, hall⟩ := Widths.read_splitting .oldest
  refine ⟨r, hread, ⟨0xC00005, .lda, ⟨0x60, 1⟩⟩, ?_, rfl, fun l hl => ?_⟩
  · rw [← Array.mem_toList_iff, hall]
    decide
  · rw [Widths.leads_load hread hall hl]
    decide

end Reader

end CartFlow
