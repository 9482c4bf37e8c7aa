import CartFlow.Proofs.Processor.OpcodeTable
import CartFlow.Proofs.Report.Inversion
import CartFlow.Proofs.Routine.FirstCalls

/-!
# The profile of a routine that was read

Reading a routine and taking its profile look at the same instructions with different tests. The
reader asks for the target of a call and records it if it is known; the profile asks for the
addressing mode, looks the target up among the recorded calls and fails if it is not there. The two
agree: only the mode of calls through a table has no target, and every target that is known was
recorded. A jump is different if it is also a return, because the reader never asks for the target
of a return; tables with such opcodes are left out.
-/
namespace CartFlow

open Processor Cartridge

/-- No opcode of the table is a return and a jump. -/
def Processor.Table.KeepsReturnsApart (table : Table) : Prop :=
  ∀ value op, table.find? value = some op → op.has .ret = true → op.has .jump = false

theorem Processor.Table.keepsReturnsApart_standard : standard.KeepsReturnsApart := by
  have hcatalogue : ∀ g ∈ Catalogue.groups, ∀ d ∈ g.opcodes,
      (g.opcode d).has .ret = true → (g.opcode d).has .jump = false := by decide +kernel
  intro value op hop
  obtain ⟨g, hg, d, hd, -, rfl⟩ := find?_standard.1 hop
  exact hcatalogue g hg d hd

namespace Instruction

variable {i : Instruction} {t : Address} {target : Option Address}

theorem target_of_knownTarget? (h : i.knownTarget? = some t) : i.target = .ok (some t) := by
  unfold knownTarget? at h
  split at h
  · next heq => rw [heq, h]
  · cases h

theorem target_eq_none_iff (h : i.target = .ok target) :
    target = none ↔ i.opcode.mode = .absoluteIndexedIndirect := by
  unfold Instruction.target at h
  split at h
  · rw [during_eq_ok] at h
    cases hmode : i.opcode.mode <;> rw [hmode] at h <;> cases h <;> simp
  · cases h

/-- The test of the addressing mode is the test of the target. -/
theorem isIndexedCall_eq (h : i.target = .ok target) : i.isIndexedCall = i.isComputedCall := by
  have hmode := target_eq_none_iff h
  rw [isIndexedCall, isComputedCall, h]
  cases target with
  | none => simp [hmode.1 rfl, Except.toOption]
  | some t =>
    have hother : i.opcode.mode ≠ .absoluteIndexedIndirect := by simpa using hmode
    simp [hother, Except.toOption]

end Instruction

namespace Reader

variable {order : PopOrder} {table : Table} {c : Cursor} {address : Address} {p : Flags}
  {i : Instruction} {r : Routine}

theorem exists_target_of_read (hread : (Routine.read order table c address p).outcome = .ok r)
    (hi : i ∈ r.instructions) (hcall : i.has .call = true) : ∃ target, i.target = .ok target := by
  obtain ⟨d, hd⟩ := (stems_of_read hread).instructions i hi
  exact hd.exists_target hread (Instruction.handling_eq_call_iff.2 hcall)

theorem exists_staticTarget_of_read (htable : table.KeepsReturnsApart)
    (hread : (Routine.read order table c address p).outcome = .ok r) (hi : i ∈ r.instructions)
    (hcall : i.has .call = false) (hjump : i.has .jump = true) : ∃ t, i.staticTarget = .ok t := by
  obtain ⟨d, hd⟩ := (stems_of_read hread).instructions i hi
  have hhandling : i.handling = .branch ∨ i.handling = .jump := by
    obtain ⟨n, s, -, -, hdecode⟩ := hd
    obtain ⟨value, hop⟩ := Instruction.exists_find?_of_decode hdecode
    have hret : i.has .ret = false := by
      cases hret : i.has .ret with
      | false => rfl
      | true => exact absurd (hjump.symm.trans (htable value i.opcode hop hret)) (by decide)
    simp only [Instruction.handling, hcall, hret, hjump]
    cases i.has .branch <;> simp
  obtain ⟨t, ht, -⟩ := (hd.continued hread).2.target hhandling
  exact ⟨t, ht⟩

end Reader

namespace Profile

variable {p : Profile} {i : Instruction} {r : Routine}

/-- An instruction can be added if it has a target whenever it calls or jumps, and the routine
records its calls. -/
theorem exists_add (hcalls : p.routine.RecordsCalls) (hi : i ∈ p.routine.instructions)
    (htarget : i.has .call = true ∨ i.has .jump = true → ∃ target, i.target = .ok target) :
    ∃ q, p.add i = .ok q := by
  unfold add
  by_cases hcall : i.has .call = true
  · rw [if_pos hcall]
    obtain ⟨target, ht⟩ := htarget (.inl hcall)
    split
    · exact ⟨_, rfl⟩
    · next hindexed =>
      cases target with
      | none =>
        refine absurd ?_ hindexed
        simp [Instruction.isIndexedCall, hcall, (Instruction.target_eq_none_iff ht).1 rfl]
      | some t =>
        have hsome := Routine.isSome_call?
          (hcalls i hi (Instruction.handling_eq_call_iff.2 hcall) t ht)
        obtain ⟨called, hcalled⟩ := Option.isSome_iff_exists.1 hsome
        rw [Instruction.staticTarget, ht]
        dsimp only [bind, Except.bind]
        rw [hcalled]
        exact ⟨_, rfl⟩
  · rw [if_neg hcall]
    split
    · next hjump =>
      obtain ⟨target, ht⟩ := htarget (.inr hjump)
      rw [ht]
      exact ⟨_, rfl⟩
    · exact ⟨p, rfl⟩

theorem exists_ofRoutine (hcalls : r.RecordsCalls)
    (htargets : ∀ i ∈ r.instructions, i.has .call = true ∨ i.has .jump = true →
      ∃ target, i.target = .ok target) : ∃ p, ofRoutine r = .ok p := by
  have hfold : ∀ (is : List Instruction) (q : Profile), (∀ i ∈ is, i ∈ r.instructions) →
      q.routine = r → ∃ p, is.foldlM add q = .ok p := by
    intro is
    induction is with
    | nil => exact fun q _ _ => ⟨q, rfl⟩
    | cons i is ih =>
      intro q hmem hq
      rw [List.forall_mem_cons] at hmem
      obtain ⟨next, hadd⟩ := exists_add (p := q) (hq ▸ hcalls) (hq ▸ hmem.1)
        (htargets i hmem.1)
      obtain ⟨p, hp⟩ := ih next hmem.2 ((adds_of_add hadd).routine_eq.trans hq)
      exact ⟨p, by rw [List.foldlM_cons]; exact bind_eq_ok.2 ⟨next, hadd, hp⟩⟩
  exact hfold _ _ (fun i hi => Array.mem_toList_iff.1 hi) rfl

section Reading

variable {order : PopOrder} {table : Table} {c : Cursor} {address : Address} {flags : Flags}

theorem exists_ofRoutine_of_read (htable : table.KeepsReturnsApart)
    (hread : (Routine.read order table c address flags).outcome = .ok r) :
    ∃ p, ofRoutine r = .ok p := by
  apply exists_ofRoutine (Reader.recordsCalls_of_read hread)
  intro i hi htransfer
  cases hcall : i.has .call with
  | true => exact Reader.exists_target_of_read hread hi hcall
  | false =>
    have hjump : i.has .jump = true := by simpa [hcall] using htransfer
    obtain ⟨t, ht⟩ := Reader.exists_staticTarget_of_read htable hread hi hcall hjump
    exact ⟨some t, Instruction.target_of_knownTarget? (Instruction.knownTarget?_of_staticTarget ht)⟩

theorem calls_of_ofRoutine (hok : ofRoutine r = .ok p) :
    p.calls.map (fun call => (call.caller, call.site, call.target.address)) =
      r.instructions.toList.filterMap fun i =>
        i.calledRoutine?.map fun t => (r.address, i.address, t) := by
  have hlists := lists_of_ofRoutine hok
  calc p.calls.map (fun call => (call.caller, call.site, call.target.address))
      = (p.calls.map fun call => (call.site, call.target.address)).map (r.address, ·) := by
        rw [List.map_map]
        refine List.map_congr_left fun call hcall => ?_
        rw [(hlists.recorded call hcall).1, hlists.routine_eq]
        rfl
    _ = r.instructions.toList.filterMap fun i =>
          i.calledRoutine?.map fun t => (r.address, i.address, t) := by
        rw [hlists.calls_eq, List.map_filterMap]
        simp only [Option.map_map]
        rfl

/-- The direct calls of a profile have the flags behind the first calls of their routines. -/
theorem firstCall_of_mem_calls (hread : (Routine.read order table c address flags).outcome = .ok r)
    (hok : ofRoutine r = .ok p) {call : DirectCall} (hcall : call ∈ p.calls) :
    Reader.FirstCall order table c address flags call.target := by
  have hlists := lists_of_ofRoutine hok
  have hrecorded := (hlists.recorded call hcall).2
  rw [hlists.routine_eq] at hrecorded
  exact Reader.firstCall_of_read hread _ (List.mem_of_find?_eq_some hrecorded)

theorem indexedCalls_of_read (hread : (Routine.read order table c address flags).outcome = .ok r)
    (hok : ofRoutine r = .ok p) : p.indexedCalls = Reader.computedCalls r := by
  rw [(lists_of_ofRoutine hok).indexedCalls_eq, Reader.computedCalls]
  congr 1
  refine List.filter_congr fun i hi => ?_
  cases hcall : i.has .call with
  | true =>
    obtain ⟨target, ht⟩ := Reader.exists_target_of_read hread (Array.mem_toList_iff.1 hi) hcall
    exact Instruction.isIndexedCall_eq ht
  | false => simp [Instruction.isIndexedCall, Instruction.isComputedCall, hcall]

theorem target_of_mem_jumps (htable : table.KeepsReturnsApart)
    (hread : (Routine.read order table c address flags).outcome = .ok r)
    (hok : ofRoutine r = .ok p) {jump : JumpSite} (hjump : jump ∈ p.jumps) :
    jump.target ≠ none := by
  rw [(lists_of_ofRoutine hok).jumps_eq, List.mem_filterMap] at hjump
  obtain ⟨i, hi, hsite⟩ := hjump
  unfold Instruction.jumpSite? at hsite
  split at hsite
  · cases hsite
  split at hsite
  · next hcall hyes =>
    cases hsite
    obtain ⟨t, ht⟩ := Reader.exists_staticTarget_of_read htable hread
      (Array.mem_toList_iff.1 hi) (by simpa using hcall) hyes
    simp [Instruction.knownTarget?_of_staticTarget ht]
  · cases hsite

end Reading

/-- A routine that is read has a profile. Its direct calls are, in order, the instructions handled
as calls whose target is known, each with this target and the flags behind the first call of it;
its calls through a table are the calls that the reader ignored as computed; and the target of
every jump is known. -/
theorem profile_of_read :
    Table.standard.KeepsReturnsApart ∧
    ∀ (order : PopOrder) (table : Table) (c : Cursor) (address : Address) (flags : Flags)
      (r : Routine), table.KeepsReturnsApart →
      (Routine.read order table c address flags).outcome = .ok r →
      ∃ profile, ofRoutine r = .ok profile ∧
        profile.calls.map (fun call => (call.caller, call.site, call.target.address)) =
          (r.instructions.toList.filterMap fun i =>
            i.calledRoutine?.map fun t => (address, i.address, t)) ∧
        (∀ call ∈ profile.calls, Reader.FirstCall order table c address flags call.target) ∧
        profile.indexedCalls = Reader.computedCalls r ∧
        Reader.ignoredCalls (Routine.read order table c address flags).records =
          Reader.computedCalls r ∧
        ∀ jump ∈ profile.jumps, jump.target ≠ none := by
  refine ⟨Table.keepsReturnsApart_standard, ?_⟩
  intro order table c address flags r htable hread
  obtain ⟨profile, hok⟩ := exists_ofRoutine_of_read htable hread
  refine ⟨profile, hok, ?_, ?_, indexedCalls_of_read hread hok,
    Reader.ignoredCalls_of_read hread, ?_⟩
  · have hcalls := calls_of_ofRoutine hok
    rwa [Reader.address_of_read hread] at hcalls
  · exact fun call hcall => firstCall_of_mem_calls hread hok hcall
  · exact fun jump hjump => target_of_mem_jumps htable hread hok hjump

namespace Dispatch

/-! A routine that calls another one directly and then some routine of a table. -/

def cursor : Cursor where
  image := #[0xE2, 0x20, 0x20, 0x00, 0x80, 0xFC, 0x00, 0x90, 0x60]
  mapping := .hiRom

def throughTable : Opcode := ⟨0xFC, "JSL", .absoluteIndexedIndirect, .call ∪ .indexedX⟩

theorem find?_throughTable : Table.standard.find? 0xFC = some throughTable :=
  Table.find?_standard.2 (by decide +kernel)

theorem read_routine :
    ∃ r, (Routine.read .oldest Table.standard cursor 0xC00000 {}).outcome = .ok r ∧
      r.instructions.toList = [⟨0xC00000, .sep, ⟨0x20, 1⟩⟩, ⟨0xC00002, .jsr, ⟨0x8000, 2⟩⟩,
        ⟨0xC00005, throughTable, ⟨0x9000, 2⟩⟩, ⟨0xC00008, .rts, {}⟩] := by
  apply Reader.Reads.read (d := cursor) (by simp [Cursor.seek, Mapping.toOffset?, cursor])
  refine .plain (i := ⟨0xC00000, .sep, ⟨0x20, 1⟩⟩) (d := { cursor with offset := 2 })
    (by decide) (Instruction.decode_of_parts rfl Opcode.find?_sep rfl) (by decide) ?_
  refine .call (i := ⟨0xC00002, .jsr, ⟨0x8000, 2⟩⟩) (d := { cursor with offset := 5 })
    (t := 0xC08000) (by decide) (Instruction.decode_of_parts rfl Opcode.find?_jsr rfl) (by decide)
    (by decide) ?_
  refine .ignoredCall (i := ⟨0xC00005, throughTable, ⟨0x9000, 2⟩⟩)
    (d := { cursor with offset := 8 }) (by decide)
    (Instruction.decode_of_parts rfl find?_throughTable rfl) (by decide) (by decide) ?_
  exact .lastRet (i := ⟨0xC00008, .rts, {}⟩) (d := { cursor with offset := 9 })
    (by decide) (Instruction.decode_of_parts rfl Opcode.find?_rts rfl) (by decide) (by decide)

end Dispatch

theorem profile_of_dispatch :
    ∃ r profile,
      (Routine.read .oldest Table.standard Dispatch.cursor 0xC00000 {}).outcome = .ok r ∧
      ofRoutine r = .ok profile ∧
      profile.calls.map (fun call => (call.caller, call.site, call.target.address)) =
        [(0xC00000, 0xC00002, 0xC08000)] ∧
      profile.indexedCalls = [0xC00005] := by
  obtain ⟨r, hread, hall⟩ := Dispatch.read_routine
  obtain ⟨profile, hok, hcalls, -, hindexed, -⟩ :=
    profile_of_read.2 _ _ _ _ _ r Table.keepsReturnsApart_standard hread
  rw [hall] at hcalls
  rw [Reader.computedCalls, hall] at hindexed
  exact ⟨r, profile, hread, hok, hcalls.trans (by decide), hindexed.trans (by decide)⟩

end Profile

end CartFlow
