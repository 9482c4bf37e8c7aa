import CartFlow.Proofs.Routine.ReaderSteps

/-!
# What the reader promises and where it goes

Looking forward from a state of a successful run, everything it promises is kept: the
place at the cursor and each pending address will have been decoded in the end, the latter
possibly under the name that the mapping prefers. What following an instruction promises is
therefore kept as well. Looking backward, the cursor and the pending addresses of a state
stem from instructions that were decoded before, and so does every known address.
-/
namespace CartFlow

open Processor Cartridge

namespace Cartridge.Cursor

structure SameImage (c d : Cursor) : Prop where
  image_eq : d.image = c.image
  mapping_eq : d.mapping = c.mapping

variable {c d e : Cursor} {address : Address}

theorem SameImage.trans (h : SameImage c d) (h' : SameImage d e) : SameImage c e :=
  ⟨h'.image_eq.trans h.image_eq, h'.mapping_eq.trans h.mapping_eq⟩

theorem SameImage.symm (h : SameImage c d) : SameImage d c :=
  ⟨h.image_eq.symm, h.mapping_eq.symm⟩

theorem sameImage_seek (h : c.seek address = .ok d) : SameImage c d :=
  ⟨(seek_eq_ok h).1, (seek_eq_ok h).2.1⟩

theorem SameImage.seek (h : SameImage c e) (hseek : c.seek address = .ok d) :
    ∃ d', e.seek address = .ok d' ∧ d'.tell = d.tell := by
  obtain ⟨-, hmapping, hlt, hoffset⟩ := seek_eq_ok hseek
  refine ⟨{ e with offset := d.offset }, ?_, ?_⟩
  · rw [Cursor.seek, h.mapping_eq, hoffset, h.image_eq]
    exact if_pos hlt
  · rw [tell, tell, hmapping, h.mapping_eq]

end Cartridge.Cursor

namespace Reader

/-- An address that was decoded, under its own name or the one that the mapping prefers. -/
def Found (c : Cursor) (r : Routine) (a : Address) : Prop :=
  r.isKnown a = true ∨ ∃ d, c.seek a = .ok d ∧ r.isKnown d.tell = true

/-- What a routine makes of the routine found so far. -/
structure Kept (s : State) (r : Routine) : Prop where
  instructions : ∀ i ∈ s.routine.instructions, i ∈ r.instructions
  known : ∀ a, s.routine.isKnown a = true → r.isKnown a = true
  pending : ∀ a ∈ s.routine.pending, Found s.cursor r a

/-- What a routine makes of a state: the place at its cursor is decoded as well. -/
structure Covered (s : State) (r : Routine) : Prop extends Kept s r where
  cursor : r.isKnown s.cursor.tell = true

def Next.Covered (r : Routine) : Next → Prop
  | .more t => Reader.Covered t r
  | .finished r' => r' = r

/-- Control is followed behind an instruction. -/
structure Continued (i : Instruction) (d : Cursor) (r : Routine) : Prop where
  behind : i.handling ≠ .ret → i.handling ≠ .jump → r.isKnown d.tell = true
  target : i.handling = .branch ∨ i.handling = .jump → ∃ t, i.staticTarget = .ok t ∧ Found d r t

section Forward

variable {order : PopOrder} {table : Table} {i : Instruction} {s t : State} {r : Routine}
  {next : Next} {c d : Cursor}

theorem Found.congr {a : Address} (h : Found c r a) (hsame : c.SameImage d) : Found d r a := by
  rcases h with h | ⟨e, he, hknown⟩
  · exact .inl h
  · obtain ⟨e', he', htell⟩ := hsame.seek he
    exact .inr ⟨e', he', by rwa [htell]⟩

theorem Resumes.kept (h : Resumes s next) (hnext : next.Covered r) : Kept s r := by
  cases h with
  | finish hnil =>
    cases hnext
    refine ⟨fun _ hi => hi, fun _ ha => ha, fun a ha => ?_⟩
    rw [hnil] at ha
    exact absurd ha List.not_mem_nil
  | @resume address cursor _ hseek =>
    refine ⟨hnext.instructions, hnext.known, ?_⟩
    intro a ha
    by_cases heq : a = address
    · subst heq
      exact .inr ⟨cursor, hseek, hnext.cursor⟩
    · have hleft : a ∈ (s.routine.dropPending address).pending :=
        Routine.mem_pending_dropPending.2 ⟨ha, heq⟩
      exact (hnext.pending a hleft).congr (Cursor.sameImage_seek hseek).symm

theorem Kept.of_addPending {target : Address}
    (h : Kept { s with routine := s.routine.addPending target } r) :
    Kept s r ∧ Found s.cursor r target := by
  refine ⟨⟨?_, ?_, ?_⟩, ?_⟩
  · intro j hj
    exact h.instructions j (by rwa [Routine.instructions_addPending])
  · intro a ha
    exact h.known a (by rwa [Routine.isKnown_addPending])
  · intro a ha
    exact h.pending a (Routine.mem_pending_addPending.2 (.inl ha))
  · cases hknown : s.routine.isKnown target with
    | true => exact .inl (h.known target (by rwa [Routine.isKnown_addPending]))
    | false => exact h.pending target (Routine.mem_pending_addPending.2 (.inr ⟨rfl, hknown⟩))

/-- What following an instruction promises is kept. -/
theorem Follows.kept (h : Follows i s next) (hnext : next.Covered r) :
    Kept s r ∧ Continued i s.cursor r := by
  cases h with
  | call hi =>
    refine ⟨⟨hnext.instructions, hnext.known, hnext.pending⟩, fun _ _ => hnext.cursor, ?_⟩
    simp [hi]
  | ret hi h => exact ⟨h.kept hnext, by simp [hi], by simp [hi]⟩
  | branch hi ht =>
    obtain ⟨hkept, hfound⟩ := hnext.toKept.of_addPending
    exact ⟨hkept, fun _ _ => hnext.cursor, fun _ => ⟨_, ht, hfound⟩⟩
  | ignoredJump hi ht hknown =>
    exact ⟨hnext.toKept, by simp [hi], fun _ => ⟨_, ht, .inl (hnext.known _ hknown)⟩⟩
  | @jump target cursor hi ht hseek =>
    have hsame := (Cursor.sameImage_seek hseek).symm
    obtain ⟨hkept, -⟩ := hnext.toKept.of_addPending (s := { s with cursor })
    refine ⟨⟨hkept.instructions, hkept.known, fun a ha => (hkept.pending a ha).congr hsame⟩,
      by simp [hi], fun _ => ⟨target, ht, .inr ⟨cursor, hseek, hnext.cursor⟩⟩⟩
  | plain hi => exact ⟨hnext.toKept, fun _ _ => hnext.cursor, by simp [hi]⟩

/-- What a state of a successful run promises is kept, step by step from the end. -/
theorem Steps.covered (h : Steps table s next) (hnext : next.Covered r) : Covered s r := by
  cases h with
  | known hknown h =>
    have hkept := h.kept hnext
    exact ⟨hkept, hkept.known _ hknown⟩
  | @decode i d _ _ hd h =>
    obtain ⟨hkept, -⟩ := h.kept hnext
    obtain ⟨haddress, -, himage, hmapping, -⟩ := Instruction.decode_eq_ok hd
    have hhere : r.isKnown i.address = true :=
      hkept.known i.address (by simp [State.advance])
    refine ⟨⟨?_, ?_, ?_⟩, by rwa [← haddress]⟩
    · intro j hj
      exact hkept.instructions j (Array.mem_push_of_mem i hj)
    · intro a ha
      exact hkept.known a (by simp [State.advance, ha])
    · intro a ha
      by_cases heq : a = i.address
      · subst heq
        exact .inl hhere
      · have hleft := hkept.pending a (Routine.mem_pending_addInstruction.2 ⟨ha, heq⟩)
        exact hleft.congr ⟨himage.symm, hmapping.symm⟩

/-- What is decoded in a successful run belongs to the routine, and control is followed
behind it. -/
theorem Steps.continued (h : Steps table s next) (hnext : next.Covered r)
    (hknown : s.routine.isKnown s.cursor.tell = false)
    (hd : Instruction.decode table s.flags s.cursor = .ok (i, d)) :
    i ∈ r.instructions ∧ Continued i d r := by
  cases h with
  | known hyes _ => rw [hknown] at hyes; cases hyes
  | decode _ hd' h =>
    rw [hd] at hd'
    cases hd'
    obtain ⟨hkept, hcontinued⟩ := h.kept hnext
    exact ⟨hkept.instructions i Array.mem_push_self, hcontinued⟩

/-- Each step of a successful run leads to something that the routine covers. -/
theorem covered_of_run {seen : Array Record} (h : (run order table s seen).outcome = .ok r) :
    ∃ next, (step order table s).outcome = .ok next ∧ next.Covered r := by
  induction hdebt : s.debt using Nat.strongRecOn generalizing s seen with
  | ind k ih =>
    rw [outcome_run] at h
    cases hstep : (step order table s).outcome with
    | error e => rw [hstep] at h; cases h
    | ok next =>
      refine ⟨next, rfl, ?_⟩
      rw [hstep] at h
      cases next with
      | finished r' => cases h; rfl
      | more t =>
        obtain ⟨next, hnext, hcovered⟩ := ih t.debt (hdebt ▸ debt_lt hstep) h rfl
        exact (steps_of_step hnext).covered hcovered

end Forward

section Runs

variable {order : PopOrder} {table : Table} {c d : Cursor} {address : Address} {p : Flags}
  {n : Nat} {s : State} {i : Instruction} {r : Routine}

/-- A successful reading goes on from each of its states to the routine it returns. -/
theorem ReachedAfter.run_eq_ok (h : ReachedAfter order table c address p n s)
    (hr : (Routine.read order table c address p).outcome = .ok r) :
    ∃ seen, (run order table s seen).outcome = .ok r := by
  induction h with
  | start hseek =>
    rw [outcome_read, hseek] at hr
    exact ⟨#[], hr⟩
  | step _ hstep ih =>
    obtain ⟨seen, hrun⟩ := ih
    rw [outcome_run, hstep] at hrun
    exact ⟨_, hrun⟩

theorem ReachedAfter.covered (h : ReachedAfter order table c address p n s)
    (hr : (Routine.read order table c address p).outcome = .ok r) :
    ∃ next, (Reader.step order table s).outcome = .ok next ∧ next.Covered r := by
  obtain ⟨seen, hrun⟩ := h.run_eq_ok hr
  exact covered_of_run hrun

/-- Reading decodes an instruction at some state, with the cursor behind it. -/
def Decodes (order : PopOrder) (table : Table) (c : Cursor) (address : Address) (p : Flags)
    (i : Instruction) (d : Cursor) : Prop :=
  ∃ n s, ReachedAfter order table c address p n s ∧
    s.routine.isKnown s.cursor.tell = false ∧
    Instruction.decode table s.flags s.cursor = .ok (i, d)

theorem Decodes.continued (h : Decodes order table c address p i d)
    (hr : (Routine.read order table c address p).outcome = .ok r) :
    i ∈ r.instructions ∧ Continued i d r := by
  obtain ⟨n, s, hs, hknown, hd⟩ := h
  obtain ⟨next, hstep, hnext⟩ := hs.covered hr
  exact (steps_of_step hstep).continued hnext hknown hd

end Runs

/-- Where a decoded address comes from: the entry, the place behind a decoded instruction or
the target of one, under the name that the mapping prefers. -/
inductive Origin (c : Cursor) (address : Address) (D : Instruction → Cursor → Prop) :
    Address → Prop
  | entry {d : Cursor} : c.seek address = .ok d → Origin c address D d.tell
  | behind {i : Instruction} {d : Cursor} : D i d → i.handling ≠ .ret → Origin c address D d.tell
  | target {i : Instruction} {d e : Cursor} {t : Address} : D i d →
      i.handling = .branch ∨ i.handling = .jump → i.staticTarget = .ok t → c.seek t = .ok e →
      Origin c address D e.tell

structure Stems (c : Cursor) (address : Address) (D : Instruction → Cursor → Prop)
    (r : Routine) : Prop where
  instructions : ∀ i ∈ r.instructions, ∃ d, D i d
  known : ∀ a, r.isKnown a = true → Origin c address D a
  pending : ∀ a ∈ r.pending, ∃ i d, D i d ∧
    (i.handling = .branch ∨ i.handling = .jump) ∧ i.staticTarget = .ok a

structure StemsAt (c : Cursor) (address : Address) (D : Instruction → Cursor → Prop)
    (s : State) : Prop where
  routine : Stems c address D s.routine
  cursor : Origin c address D s.cursor.tell
  sameImage : c.SameImage s.cursor

def Next.Stems (c : Cursor) (address : Address) (D : Instruction → Cursor → Prop) : Next → Prop
  | .more t => StemsAt c address D t
  | .finished r => Reader.Stems c address D r

section Backward

variable {table : Table} {c d : Cursor} {address : Address} {D : Instruction → Cursor → Prop}
  {s : State} {r : Routine} {i : Instruction} {next : Next}

theorem Stems.dropPending (h : Stems c address D r) (a : Address) :
    Stems c address D (r.dropPending a) where
  instructions := h.instructions
  known := h.known
  pending b hb := h.pending b (Routine.mem_pending_dropPending.1 hb).1

theorem Stems.addPending {t : Address} (h : Stems c address D r) (hi : D i d)
    (hhandling : i.handling = .branch ∨ i.handling = .jump) (ht : i.staticTarget = .ok t) :
    Stems c address D (r.addPending t) where
  instructions j hj := h.instructions j (by rwa [Routine.instructions_addPending] at hj)
  known a ha := h.known a (by rwa [Routine.isKnown_addPending] at ha)
  pending a ha := by
    rcases Routine.mem_pending_addPending.1 ha with ha | ⟨rfl, -⟩
    · exact h.pending a ha
    · exact ⟨i, d, hi, hhandling, ht⟩

theorem Stems.addInstruction (h : Stems c address D r) (hi : D i d)
    (haddress : Origin c address D i.address) : Stems c address D (r.addInstruction i) where
  instructions j hj := by
    rcases Array.mem_push.1 hj with hj | rfl
    · exact h.instructions j hj
    · exact ⟨d, hi⟩
  known a ha := by
    rw [Routine.isKnown_addInstruction, Bool.or_eq_true, beq_iff_eq] at ha
    rcases ha with rfl | ha
    · exact haddress
    · exact h.known a ha
  pending a ha := h.pending a (Routine.mem_pending_addInstruction.1 ha).1

theorem Resumes.stems (h : Resumes s next) (hs : Stems c address D s.routine)
    (hsame : c.SameImage s.cursor) : next.Stems c address D := by
  cases h with
  | finish _ => exact hs
  | resume hmem hseek =>
    obtain ⟨i, d, hi, hhandling, ht⟩ := hs.pending _ hmem
    obtain ⟨e, hseek', htell⟩ := hsame.symm.seek hseek
    refine ⟨hs.dropPending _, ?_, hsame.trans (Cursor.sameImage_seek hseek)⟩
    rw [← htell]
    exact .target hi hhandling ht hseek'

theorem Follows.stems (h : Follows i s next) (hs : Stems c address D s.routine)
    (hsame : c.SameImage s.cursor) (hi : D i s.cursor) : next.Stems c address D := by
  cases h with
  | call hh =>
    exact ⟨⟨hs.instructions, hs.known, hs.pending⟩, .behind hi (by simp [hh]), hsame⟩
  | ret _ h => exact h.stems hs hsame
  | branch hh ht =>
    exact ⟨hs.addPending hi (.inl hh) ht, .behind hi (by simp [hh]), hsame⟩
  | ignoredJump hh _ _ => exact ⟨hs, .behind hi (by simp [hh]), hsame⟩
  | jump hh ht hseek =>
    obtain ⟨e, hseek', htell⟩ := hsame.symm.seek hseek
    refine ⟨hs.addPending hi (.inr hh) ht, ?_, hsame.trans (Cursor.sameImage_seek hseek)⟩
    rw [← htell]
    exact .target hi (.inr hh) ht hseek'
  | plain hh => exact ⟨hs, .behind hi (by simp [hh]), hsame⟩

theorem Steps.stems (h : Steps table s next) (hs : StemsAt c address D s)
    (hD : ∀ i d, s.routine.isKnown s.cursor.tell = false →
      Instruction.decode table s.flags s.cursor = .ok (i, d) → D i d) :
    next.Stems c address D := by
  cases h with
  | known _ h => exact h.stems hs.routine hs.sameImage
  | @decode i d _ hknown hd h =>
    obtain ⟨haddress, -, himage, hmapping, -⟩ := Instruction.decode_eq_ok hd
    have hi := hD i d hknown hd
    have hsame : c.SameImage d := hs.sameImage.trans ⟨himage, hmapping⟩
    apply h.stems (hs.routine.addInstruction hi ?_) hsame hi
    rw [haddress]
    exact hs.cursor

end Backward

section Read

variable {order : PopOrder} {table : Table} {c : Cursor} {address : Address} {p : Flags}
  {n : Nat} {s : State} {r : Routine}

theorem ReachedAfter.stems (h : ReachedAfter order table c address p n s) :
    StemsAt c address (Decodes order table c address p) s := by
  induction h with
  | start hseek =>
    refine ⟨⟨?_, ?_, ?_⟩, .entry hseek, Cursor.sameImage_seek hseek⟩
    · simp
    · simp [Routine.isKnown]
    · simp
  | step hs hstep ih =>
    exact (steps_of_step hstep).stems ih fun i d hknown hd => ⟨_, _, hs, hknown, hd⟩

theorem stems_of_read (h : (Routine.read order table c address p).outcome = .ok r) :
    Stems c address (Decodes order table c address p) r := by
  obtain ⟨n, s, hs, hfinish⟩ := read_eq_ok h
  exact (steps_of_step hfinish).stems hs.stems fun i d hknown hd => ⟨n, s, hs, hknown, hd⟩

end Read

end Reader

end CartFlow
