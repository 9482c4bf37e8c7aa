import CartFlow.Proofs.Flow.ShownFlow
import CartFlow.Proofs.Report.CallsInLoops

/-!
# Handlers that call the tracked routine once

A handler that is fine and calls the tracked routine need not call it exactly once whenever it
returns. Only where the blocks show the flow of control does the verdict say something about runs,
and what it says is that no call is left out; whether a call is followed by another is not asked.
-/
namespace CartFlow

open Processor Cartridge

namespace Handler

variable {a : Analyzer} {address : Address} {result : Analysis}

/-- A handler below which nothing calls the tracked routine is reported with its calls and the
verdict on them. -/
theorem ofAnalysis_of_no_callers (hf : result.Found a address)
    (hcallers : callers result.callGraph a.track = [])
    (hindexed : ∀ i ∈ result.root.routine.instructions, i.isIndexedCall = false) :
    ∃ h, ofAnalysis result a.track = .ok h ∧
      h.calls = result.root.routine.instructions.toList.countP (·.callsRoutine a.track) ∧
      h.status = verdict h.calls 0 [] result.conditional result.inLoop := by
  have hnone : result.root.indexedCalls = [] := by
    rw [(Profile.lists_of_ofRoutine hf.profile_eq).indexedCalls_eq, List.map_eq_nil_iff,
      List.filter_eq_nil_iff]
    intro i hi
    simp [hindexed i (Array.mem_toList_iff.1 hi)]
  rw [ofAnalysis, subroutinesOf, hcallers]
  refine ⟨_, rfl, Profile.callCount_eq hf.profile_eq a.track, ?_⟩
  dsimp only
  rw [hnone]
  rfl

/-- For a handler that is fine and calls the tracked routine, and whose blocks show the flow of
control, a run to a return makes every call that can be made. So every run to a return makes
exactly one call exactly if, should a return be reached at all, some call can be made, and no call
is followed by another on the way to a return. If all calls can be made and cycles with calls have
dominating blocks, a run to a return makes as many calls as the report says. -/
theorem calls_once_iff_of_ok {order : PopOrder} {table : Table} {c : Cursor} {track : Address}
    {limit : Int} {address : Address} {result : Analysis} {h : Handler}
    (hresult : (Analyzer.analyze ⟨Routine.read order table c, track, limit⟩ address).outcome =
      .ok result)
    (hhandler : Handler.ofAnalysis result track = .ok h) (hstatus : h.status = .ok)
    (hcalls : 0 < h.calls) :
    (Routine.read order table c address {}).outcome = .ok result.root.routine ∧
    (BlockGraph.Shows c result.root.routine result.blocks →
      (∀ p i, Routine.Returns c result.root.routine p →
        Routine.Live c result.root.routine i → i.callsRoutine track = true → i ∈ p) ∧
      ((∀ p, Routine.Returns c result.root.routine p → p.countP (·.callsRoutine track) = 1) ↔
        ((∃ p, Routine.Returns c result.root.routine p) →
          ∃ i, Routine.Live c result.root.routine i ∧ i.callsRoutine track = true) ∧
        ¬ Routine.Repeats c result.root.routine (·.callsRoutine track)) ∧
      ((∀ id, ∀ i ∈ result.blocks.instructionsAt id, i.callsRoutine track = true →
          result.blocks.Headed id) →
        (∀ i ∈ result.root.routine.instructions, i.callsRoutine track = true →
          Routine.Live c result.root.routine i) →
        ∀ p, Routine.Returns c result.root.routine p →
          p.countP (·.callsRoutine track) = h.calls)) := by
  have hf := Analyzer.analyze_eq_ok hresult
  obtain ⟨hcount, hconditional, hinLoop⟩ := findings_of_ok hhandler hstatus hcalls
  have hread : (Routine.read order table c address {}).outcome = .ok result.root.routine :=
    hf.source_eq
  refine ⟨hread, fun hshows => ⟨?_, ?_, ?_⟩⟩
  · intro p i hp hi hcall
    exact hf.mem_of_returns hconditional hshows hp hi hcall
  · rw [Routine.forall_countP_eq_one_iff, hf.not_escapes_iff hconditional hshows]
  · intro hheaded hlive p hp
    have htidy := (Reader.tidy_of_read hread).1
    rw [hcount, Profile.callCount_eq hf.profile_eq]
    exact hf.countP_of_returns htidy hconditional hinLoop hshows hheaded hlive hp

end Handler

namespace Waiting

/-! A loop that a branch leaves at its beginning or at its end, and a call behind it. -/

def cursor : Cursor :=
  { image := #[0xF0, 0x03, 0xEA, 0xD0, 0xFB, 0x20, 0x00, 0x80, 0x60], mapping := .hiRom }

def check : Instruction := ⟨0xC00000, .beq, ⟨3, 1⟩⟩

def wait : Instruction := ⟨0xC00002, .nop, {}⟩

def back : Instruction := ⟨0xC00003, .bne, ⟨0xFB, 1⟩⟩

def call : Instruction := ⟨0xC00005, .jsr, ⟨0x8000, 2⟩⟩

def ret : Instruction := ⟨0xC00008, .rts, {}⟩

def routine : Routine where
  address := 0xC00000
  instructions := #[check, wait, back, call, ret]

theorem read_eq (order : PopOrder) :
    ∃ r, (Routine.read order Table.standard cursor 0xC00000 {}).outcome = .ok r ∧
      r.instructions.toList = routine.instructions.toList := by
  apply Reader.Reads.read (d := cursor) (by simp [Cursor.seek, Mapping.toOffset?, cursor])
  refine .branch (i := check) (d := { cursor with offset := 2 })
    (t := 0xC00005) (by decide) (Instruction.decode_of_parts rfl Opcode.find?_beq rfl) (by decide)
    (by decide) (by decide) (by decide) ?_
  refine .plain (i := wait) (d := { cursor with offset := 3 })
    (by decide) (Instruction.decode_of_parts rfl Opcode.find?_nop rfl) (by decide) ?_
  refine .branchBack (i := back) (d := { cursor with offset := 5 })
    (t := 0xC00000) (by decide) (Instruction.decode_of_parts rfl Opcode.find?_bne rfl) (by decide)
    (by decide) (by decide) ?_
  refine .call (i := call) (d := { cursor with offset := 8 }) (t := 0xC08000)
    (by decide) (Instruction.decode_of_parts rfl Opcode.find?_jsr rfl) (by decide)
    (by decide) ?_
  exact .lastRet (i := ret) (d := { cursor with offset := 9 })
    (by decide) (Instruction.decode_of_parts rfl Opcode.find?_rts rfl) (by decide) (by decide)

theorem inFlow : BlockGraph.InFlow routine :=
  BlockGraph.inFlow_of_behind (by decide) (by decide) (by decide)

section Runs

variable {order : PopOrder} {r : Routine} {g : BlockGraph} {i : Instruction}

theorem instructions_eq
    (hread : (Routine.read order Table.standard cursor 0xC00000 {}).outcome = .ok r) :
    r.instructions = routine.instructions := by
  rcases read_eq order with ⟨s, hs, hall⟩
  rw [hread] at hs
  cases hs
  exact Array.toList_inj.1 hall

/-- No address is written in two ways, so the blocks show the flow of control. -/
theorem shows_blocks
    (hread : (Routine.read order Table.standard cursor 0xC00000 {}).outcome = .ok r)
    (hok : (BlockGraph.ofRoutine r).outcome = .ok g) : BlockGraph.Shows cursor r g := by
  have hall := instructions_eq hread
  have hjumps : ∀ i ∈ r.instructions, i.has .jump = false := by
    rw [hall]
    decide
  have hplaces : ∀ i ∈ r.instructions, (i.nextAddress :: i.knownTarget?.toList).all
      (fun a => (cursor.mapping.toOffset? a).map cursor.mapping.toAddress == some a) = true := by
    rw [hall]
    decide
  apply BlockGraph.shows_of_inFlow hread hjumps hok
    (inFlow.congr (Reader.address_of_read hread) hall)
  intro i hi j _ hpass
  have hplace := List.all_eq_true.1 (hplaces i hi)
  refine hpass.passesTo (hjumps i hi) (fun b hb => ?_) (fun t b ht hb => ?_)
  · exact hb.eq (beq_iff_eq.1 (hplace _ List.mem_cons_self))
  · have hknown := Instruction.knownTarget?_of_staticTarget ht
    exact hb.eq (beq_iff_eq.1 (hplace t (by simp [hknown])))

theorem mem_instructions (hall : r.instructions = routine.instructions) :
    ∀ i ∈ [check, wait, back, call, ret], i ∈ r.instructions := by
  rw [hall]
  exact fun i hi => Array.mem_toList_iff.1 hi

theorem live_call (hall : r.instructions = routine.instructions) :
    Routine.Live cursor r call := by
  have hmem := mem_instructions hall
  refine ⟨check, [check, call], by rw [hall]; rfl, ?_⟩
  exact .pass (hmem check (by decide))
    (.target (t := 0xC00005) (.inl (by decide)) (by decide) (.inl rfl))
    (.here (hmem call (by decide)))

/-- A run that goes round the loop. -/
theorem returns_around (hall : r.instructions = routine.instructions) :
    Routine.Returns cursor r [check, wait, back, check, call, ret] := by
  have hmem := mem_instructions hall
  refine ⟨check, ret, by rw [hall]; rfl, ?_, by decide⟩
  refine .pass (j := wait) (hmem check (by decide)) ?_ (.pass (j := back) (hmem wait (by decide)) ?_
    (.pass (j := check) (hmem back (by decide)) ?_ (.pass (j := call) (hmem check (by decide)) ?_
      (.pass (j := ret) (hmem call (by decide)) ?_ (.here (hmem ret (by decide)))))))
  · exact .behind (.inr (.inr (by decide))) (.inl (by decide))
  · exact .behind (.inr (.inl (by decide))) (.inl (by decide))
  · exact .target (t := 0xC00000) (.inl (by decide)) (by decide) (.inl rfl)
  · exact .target (t := 0xC00005) (.inl (by decide)) (by decide) (.inl rfl)
  · exact .behind (.inl (by decide)) (.inl (by decide))

theorem eq_call (hall : r.instructions = routine.instructions) (hi : i ∈ r.instructions)
    (hcall : i.callsRoutine 0xC08000 = true) : i = call := by
  have honly : ∀ i ∈ routine.instructions, i.callsRoutine 0xC08000 = true → i = call := by
    decide
  rw [hall] at hi
  exact honly i hi hcall

end Runs

section Blocks

variable {g : BlockGraph} {id v : String}

theorem eq_of_callsAt (hg : BlockGraph.Depicts g (BlockGraph.sketchOf routine))
    (hcalls : g.CallsAt 0xC08000 id) : id = Block.idOf 0xC00005 := by
  have honly : ∀ e ∈ (BlockGraph.sketchOf routine).placed,
      e.2.callsRoutine 0xC08000 = true → e.1 = 0xC00005 := by
    decide
  rcases hg.exists_placed hcalls with ⟨e, he, rfl, hcall⟩
  rw [honly e he hcall]

theorem not_linked (hg : BlockGraph.Depicts g (BlockGraph.sketchOf routine)) :
    ¬ g.Linked (Block.idOf 0xC00005) v := by
  intro hlink
  have hno : ∀ l ∈ (BlockGraph.sketchOf routine).links, l.source ≠ 0xC00005 := by
    decide
  rcases hg.linked_iff.1 hlink with ⟨l, hl, hsource, -⟩
  exact hno l hl (Block.idOf_inj.1 hsource).symm

theorem exists_way (hg : BlockGraph.Depicts g (BlockGraph.sketchOf routine)) (hid : id ∈ g.ids) :
    ∃ p, g.Way (Block.idOf 0xC00000) id p := by
  have hopened : (BlockGraph.sketchOf routine).opened ⊆ [0xC00000, 0xC00002, 0xC00005] := by
    decide
  rw [hg.built.consistent.mem_ids, hg.contains_iff] at hid
  rcases hid with ⟨a, ha, rfl⟩
  have hcases := hopened ha
  simp only [List.mem_cons, List.not_mem_nil, or_false] at hcases
  rcases hcases with rfl | rfl | rfl
  · exact ⟨_, .here _⟩
  · exact ⟨_, .step (hg.linked_of_mem (by decide)) (.here _)⟩
  · exact ⟨_, .step (hg.linked_of_mem (by decide)) (.here _)⟩

end Blocks

section Findings

variable {a : Analyzer} {result : Analysis} (hf : result.Found a 0xC00000)
  (htrack : a.track = 0xC08000)
  (hnodup : (result.root.routine.instructions.toList.map (·.address)).Nodup)
  (hentry : result.blocks.entry = some (Block.idOf 0xC00000))
  (hg : BlockGraph.Depicts result.blocks (BlockGraph.sketchOf routine))
include hf htrack hnodup hentry hg

theorem not_conditional : result.conditional = false := by
  rw [← Bool.not_eq_true]
  intro hyes
  have hmem : result.blocks.contains (Block.idOf 0xC00005) = true :=
    hg.contains_idOf.2 (by decide)
  have hexit := BlockGraph.exit_of_not_linked hf.blocks_eq hmem fun v => not_linked hg
  rcases exists_way hg (hg.built.consistent.mem_ids.2 hmem) with ⟨q, hq⟩
  rcases Analysis.exists_not_onEveryWay_of_conditional hg.built.consistent hentry hf.tree_eq hexit
    (hyes ▸ hf.conditional_eq) hq with ⟨id, b, hb, hmakes, hleft⟩
  have hcalls := hf.callsAt_of_makesCall hnodup hb hmakes
  rw [htrack] at hcalls
  rw [eq_of_callsAt hg hcalls] at hleft
  exact hleft (.refl _ _ _)

theorem not_inLoop : result.inLoop = false := by
  rw [← Bool.not_eq_true, hf.inLoop_iff hnodup, htrack]
  rintro ⟨id, hcalls, hloop⟩
  rcases hloop.onHeadedCycle hg.built.consistent hentry hf.tree_eq
    (fun id hid => exists_way hg hid) with ⟨v, p, hlink, -⟩
  rw [eq_of_callsAt hg hcalls] at hlink
  exact not_linked hg hlink

end Findings

end Waiting

open Waiting in
/-- Whether it waits or not, the handler calls the tracked routine once. -/
theorem Handler.calls_once_waiting :
    ∃ result h, (Analyzer.analyze ⟨Routine.read .oldest Table.standard cursor, 0xC08000, 0⟩
        0xC00000).outcome = .ok result ∧
      Handler.ofAnalysis result 0xC08000 = .ok h ∧ h.status = .ok ∧ h.calls = 1 ∧
      BlockGraph.Shows cursor result.root.routine result.blocks ∧
      Routine.Returns cursor result.root.routine [check, wait, back, check, call, ret] ∧
      ∀ p, Routine.Returns cursor result.root.routine p →
        p.countP (·.callsRoutine 0xC08000) = 1 := by
  rcases Analyzer.exists_analyze_of_sketch 0xC08000 (s := routine) (read_eq .oldest) (by decide)
    (by decide) (by decide) (by decide) with ⟨result, hresult, hentry, hg, hcallers⟩
  have hf := Analyzer.analyze_eq_ok hresult
  have hread := hf.source_eq
  have hall := instructions_eq hread
  have hnodup := (Reader.tidy_of_read hread).1.nodup_addresses
  rcases ofAnalysis_of_no_callers hf hcallers (by rw [hall]; decide) with
    ⟨h, hhandler, hcount, hstatus⟩
  have hcalls : h.calls = 1 := by
    rw [hcount, hall]
    decide
  rw [hcalls, not_conditional hf rfl hnodup hentry hg, not_inLoop hf rfl hnodup hentry hg]
    at hstatus
  have hshows := shows_blocks hread hf.blocks_eq
  refine ⟨result, h, hresult, hhandler, hstatus, hcalls, hshows, returns_around hall, ?_⟩
  rw [← hcalls]
  apply ((calls_once_iff_of_ok hresult hhandler hstatus (by rw [hcalls]; decide)).2 hshows).2.2
  · -- the block with the call is on no cycle at all
    intro id i hi hcall entry v p _ hlink
    rw [eq_of_callsAt hg ⟨i, hi, hcall⟩] at hlink
    exact absurd hlink (not_linked hg)
  · intro i hi hcall
    rw [eq_call hall hi hcall]
    exact live_call hall

end CartFlow
