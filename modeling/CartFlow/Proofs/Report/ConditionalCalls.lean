import CartFlow.Proofs.Report.Evaluation
import CartFlow.Proofs.Report.Verdict

/-!
# Calls that are not made on every way

A call counts as conditional if its block does not dominate the exit in the dominator tree. For
blocks that the entry leads to this is a statement about ways: some way from the entry to the exit
leaves out a block with a call. The recorded calls are matched with blocks by addresses, so the
addresses of the instructions have to be distinct.
-/
namespace CartFlow

open Cartridge Processor

def BlockGraph.CallsAt (g : BlockGraph) (track : Address) (id : String) : Prop :=
  ∃ i ∈ g.instructionsAt id, i.callsRoutine track = true

theorem BlockGraph.contains_of_callsAt {g : BlockGraph} (hg : g.Consistent) {track : Address}
    {id : String} (h : g.CallsAt track id) : g.contains id = true := by
  obtain ⟨i, hi, -⟩ := h
  exact contains_of_mem_instructionsAt hg hi

namespace Analysis

theorem exists_of_anyM {α : Type} {f : α → Except Failure Bool} {l : List α}
    (h : l.anyM f = .ok true) : ∃ a ∈ l, f a = .ok true := by
  induction l with
  | nil => cases h
  | cons a l ih =>
    rw [List.anyM] at h
    obtain ⟨answer, hanswer, h⟩ := bind_eq_ok.1 h
    cases answer with
    | true => exact ⟨a, List.mem_cons_self, hanswer⟩
    | false =>
      obtain ⟨b, hb, hbanswer⟩ := ih h
      exact ⟨b, List.mem_cons_of_mem a hb, hbanswer⟩

section Findings

variable {calls : List DirectCall} {blocks tree : BlockGraph} {entry exit id : String} {limit : Int}

theorem nodeMakesCall_eq_ok {g : BlockGraph} {answer : Bool}
    (h : nodeMakesCall calls g id = .ok answer) :
    ∃ b, g.data? id = some b ∧ makesCall calls b = answer := by
  rw [nodeMakesCall, Graph.node] at h
  cases hnode : g.node? id with
  | none =>
    rw [hnode] at h
    cases h
  | some n =>
    rw [hnode] at h
    exact ⟨n.data, by rw [Graph.data?, hnode]; rfl, Except.ok.inj h⟩

/-- If some call is conditional, a calling block is left out by a way to the exit. -/
theorem exists_not_onEveryWay_of_conditional (hg : blocks.Consistent)
    (hentry : blocks.entry = some entry)
    (htree : (blocks.dominatorTree limit).outcome = .ok tree) (hexit : blocks.exit = some exit)
    (hyes : hasConditionalCalls calls blocks tree = .ok true) {q : List String}
    (hq : blocks.Way entry exit q) :
    ∃ id b, blocks.data? id = some b ∧ makesCall calls b = true ∧
      ¬ blocks.OnEveryWay entry id exit := by
  obtain ⟨sets, -, hlinks⟩ := Graph.dominatorTree_eq_ok hg hentry htree
  unfold hasConditionalCalls at hyes
  split at hyes
  · cases hyes
  · obtain ⟨id, -, hanswer⟩ := exists_of_anyM hyes
    obtain ⟨calling, hcalling, hanswer⟩ := bind_eq_ok.1 hanswer
    obtain ⟨b, hb, rfl⟩ := nodeMakesCall_eq_ok hcalling
    rw [hlinks.data_eq] at hb
    cases hcall : makesCall calls b with
    | false =>
      rw [hcall] at hanswer
      cases hanswer
    | true =>
      have hid : blocks.contains id = true := by
        rw [← hg.data?_isSome, hb]
        rfl
      obtain ⟨answer, hdominates, hiff⟩ := Graph.exists_dominates_iff hg hentry htree hid hq
      refine ⟨id, b, hb, hcall, fun hdom => ?_⟩
      rw [hcall, hexit, Option.getD_some, hdominates, hiff.2 hdom] at hanswer
      cases hanswer

end Findings

section Calls

variable {a : Analyzer} {address : Address} {result : Analysis} {id : String} {b : Block}

/-- Where the addresses of the instructions are distinct, a block that makes one of the recorded
calls has a call of the tracked routine. -/
theorem Found.callsAt_of_makesCall (hf : result.Found a address)
    (hnodup : (result.root.routine.instructions.toList.map (·.address)).Nodup)
    (hb : result.blocks.data? id = some b)
    (hmakes : makesCall (result.root.callsOf a.track) b = true) :
    result.blocks.CallsAt a.track id := by
  obtain ⟨hbuilt, -, hperm⟩ := BlockGraph.ofRoutine_spec hf.blocks_eq
  obtain ⟨call, hcall, hcontains⟩ := List.any_eq_true.1 hmakes
  rw [Block.contains, Array.any_eq_true'] at hcontains
  obtain ⟨i, hi, hsite⟩ := hcontains
  have hat : i ∈ result.blocks.instructionsAt id := by
    simpa [BlockGraph.instructionsAt, hb] using hi
  have hmem : i ∈ result.root.routine.instructions.toList :=
    hperm.mem_iff.1 (BlockGraph.mem_code hbuilt.consistent hat)
  -- the site is the address of a call, and no other instruction has this address
  have hsites : call.site ∈ (result.root.callsOf a.track).map (·.site) := List.mem_map_of_mem hcall
  rw [(Profile.ofRoutine_eq_ok hf.profile_eq a.track).2] at hsites
  obtain ⟨j, hj, haddress⟩ := List.mem_map.1 hsites
  obtain ⟨hjmem, hjcall⟩ := List.mem_filter.1 hj
  have heq : i.address = j.address := (beq_iff_eq.1 hsite).trans haddress.symm
  rw [← List.inj_on_of_nodup_map hnodup hmem hjmem heq] at hjcall
  exact ⟨i, hat, hjcall⟩

theorem Found.nodeMakesCall_iff (hf : result.Found a address)
    (hnodup : (result.root.routine.instructions.toList.map (·.address)).Nodup) :
    nodeMakesCall (result.root.callsOf a.track) result.blocks id = .ok true ↔
      result.blocks.CallsAt a.track id := by
  constructor
  · intro h
    obtain ⟨b, hb, hmakes⟩ := nodeMakesCall_eq_ok h
    exact hf.callsAt_of_makesCall hnodup hb hmakes
  · rintro ⟨i, hi, hcall⟩
    obtain ⟨b, hb, hmakes⟩ := hf.exists_makesCall hi hcall
    rw [nodeMakesCall_eq hb, hmakes]

/-- If the addresses of the instructions are distinct and the entry leads to all blocks, some call
is conditional exactly if a way from the entry to the exit leaves out a block with a call of the
tracked routine. -/
theorem conditional_iff_exists_way (hresult : (a.analyze address).outcome = .ok result)
    (hnodup : (result.root.routine.instructions.toList.map (·.address)).Nodup)
    (hreach : ∀ entry, result.blocks.entry = some entry →
      ∀ id ∈ result.blocks.ids, ∃ p, result.blocks.Way entry id p) :
    (a.source address {}).outcome = .ok result.root.routine ∧
    (BlockGraph.ofRoutine result.root.routine).outcome = .ok result.blocks ∧
    ∃ entry exit, result.blocks.entry = some entry ∧ result.blocks.exit = some exit ∧
      (result.conditional = true ↔
        ∃ id p, result.blocks.CallsAt a.track id ∧ result.blocks.Way entry exit p ∧
          id ∉ p) := by
  have hf := Analyzer.analyze_eq_ok hresult
  obtain ⟨hbuilt, hentry, -⟩ := BlockGraph.ofRoutine_spec hf.blocks_eq
  obtain ⟨exit, hexit⟩ := BlockGraph.exists_exit_of_ofRoutine hf.blocks_eq
  have hg := hbuilt.consistent
  have hways := hreach _ hentry
  refine ⟨hf.source_eq, hf.blocks_eq, _, exit, hentry, hexit, ?_, ?_⟩
  · intro hconditional
    obtain ⟨q, hq⟩ := hways exit (hg.mem_ids.2 (hg.exit_mem exit hexit))
    obtain ⟨id, b, hb, hmakes, hleft⟩ := exists_not_onEveryWay_of_conditional hg hentry
      hf.tree_eq hexit (hconditional ▸ hf.conditional_eq) hq
    rw [Graph.OnEveryWay] at hleft
    push Not at hleft
    obtain ⟨p, hp, hout⟩ := hleft
    exact ⟨id, p, hf.callsAt_of_makesCall hnodup hb hmakes, hp, hout⟩
  · rintro ⟨id, p, hcalls, hp, hout⟩
    by_contra hno
    rw [Bool.not_eq_true] at hno
    obtain ⟨q, hq⟩ := hways id (hg.mem_ids.2 (BlockGraph.contains_of_callsAt hg hcalls))
    obtain ⟨i, hi, hcall⟩ := hcalls
    obtain ⟨b, hb, hmakes⟩ := hf.exists_makesCall hi hcall
    have hdom := onEveryWay_of_not_conditional hg hentry hf.tree_eq hexit
      (hno ▸ hf.conditional_eq) hb hmakes hq hp
    exact hout (hdom p hp)

end Calls

namespace Crossing

/-! Two blocks that lead to each other, the first with a call, and a branch in front that leads to
either of them. -/

def cursor : Cursor :=
  { image := #[0xF0, 0x03, 0x20, 0x00, 0x80, 0xEA, 0xD0, 0xFA, 0x60], mapping := .hiRom }

def call : Instruction := ⟨0xC00002, .jsr, ⟨0x8000, 2⟩⟩

def routine : Routine where
  address := 0xC00000
  instructions := #[⟨0xC00000, .beq, ⟨3, 1⟩⟩, call, ⟨0xC00005, .nop, {}⟩,
    ⟨0xC00006, .bne, ⟨0xFA, 1⟩⟩, ⟨0xC00008, .rts, {}⟩]

theorem read_eq (order : PopOrder) :
    ∃ r, (Routine.read order Table.standard cursor 0xC00000 {}).outcome = .ok r ∧
      r.instructions.toList = routine.instructions.toList := by
  apply Reader.Reads.read (d := cursor) (by simp [Cursor.seek, Mapping.toOffset?, cursor])
  refine .branch (i := ⟨0xC00000, .beq, ⟨3, 1⟩⟩) (d := { cursor with offset := 2 })
    (t := 0xC00005) (by decide) (Instruction.decode_of_parts rfl Opcode.find?_beq rfl) (by decide)
    (by decide) (by decide) (by decide) ?_
  refine .call (i := call) (d := { cursor with offset := 5 }) (t := 0xC08000)
    (by decide) (Instruction.decode_of_parts rfl Opcode.find?_jsr rfl) (by decide)
    (by decide) ?_
  refine .plain (i := ⟨0xC00005, .nop, {}⟩) (d := { cursor with offset := 6 })
    (by decide) (Instruction.decode_of_parts rfl Opcode.find?_nop rfl) (by decide) ?_
  refine .branchBack (i := ⟨0xC00006, .bne, ⟨0xFA, 1⟩⟩) (d := { cursor with offset := 8 })
    (t := 0xC00002) (by decide) (Instruction.decode_of_parts rfl Opcode.find?_bne rfl) (by decide)
    (by decide) (by decide) ?_
  exact .lastRet (i := ⟨0xC00008, .rts, {}⟩) (d := { cursor with offset := 9 })
    (by decide) (Instruction.decode_of_parts rfl Opcode.find?_rts rfl) (by decide) (by decide)

theorem exists_analysis (order : PopOrder) :
    ∃ result,
      (Analyzer.analyze ⟨Routine.read order Table.standard cursor, 0xC08000, 0⟩
        0xC00000).outcome = .ok result ∧
      result.blocks.entry = some (Block.idOf 0xC00000) ∧
      BlockGraph.Depicts result.blocks (BlockGraph.sketchOf routine) := by
  rcases Analyzer.exists_analyze_of_sketch 0xC08000 (s := routine) (read_eq order) (by decide)
    (by decide) (by decide) (by decide) with ⟨result, hresult, hentry, hg, -⟩
  exact ⟨result, hresult, hentry, hg⟩

section Blocks

variable {g : BlockGraph}

theorem call_mem (hg : BlockGraph.Depicts g (BlockGraph.sketchOf routine)) :
    call ∈ g.instructionsAt (Block.idOf 0xC00002) := by
  rw [hg.instructionsAt_eq]
  decide

theorem exists_way (hg : BlockGraph.Depicts g (BlockGraph.sketchOf routine)) {id : String}
    (hid : id ∈ g.ids) : ∃ p, g.Way (Block.idOf 0xC00000) id p := by
  have hopened : (BlockGraph.sketchOf routine).opened.all
      ([0xC00000, 0xC00002, 0xC00005, 0xC00008].contains ·) = true := by
    decide
  have hfirst : g.Linked (Block.idOf 0xC00000) (Block.idOf 0xC00002) :=
    hg.linked_of_mem (by decide)
  have hmiddle : g.Linked (Block.idOf 0xC00000) (Block.idOf 0xC00005) :=
    hg.linked_of_mem (by decide)
  have hlast : g.Linked (Block.idOf 0xC00005) (Block.idOf 0xC00008) :=
    hg.linked_of_mem (by decide)
  rw [hg.built.consistent.mem_ids, hg.contains_iff] at hid
  rcases hid with ⟨a, ha, rfl⟩
  have hblock : a ∈ [0xC00000, 0xC00002, 0xC00005, 0xC00008] :=
    List.contains_iff_mem.1 (List.all_eq_true.1 hopened a ha)
  simp only [List.mem_cons, List.not_mem_nil, or_false] at hblock
  rcases hblock with rfl | rfl | rfl | rfl
  · exact ⟨_, .here _⟩
  · exact ⟨_, .step hfirst (.here _)⟩
  · exact ⟨_, .step hmiddle (.here _)⟩
  · exact ⟨_, .step hmiddle (.step hlast (.here _))⟩

theorem exit_eq {r : Routine} (hok : (BlockGraph.ofRoutine r).outcome = .ok g)
    (hg : BlockGraph.Depicts g (BlockGraph.sketchOf routine)) :
    g.exit = some (Block.idOf 0xC00008) := by
  apply BlockGraph.exit_of_not_linked hok
  · exact hg.contains_idOf.2 (by decide)
  · intro v hlink
    have hno : ∀ l ∈ (BlockGraph.sketchOf routine).links, l.source ≠ 0xC00008 := by
      decide
    rcases hg.linked_iff.1 hlink with ⟨l, hl, hsource, -⟩
    exact hno l hl (Block.idOf_inj.1 hsource).symm

end Blocks

end Crossing

open Crossing in
/-- The call between the two branches is left out on the way that takes the first branch. -/
theorem conditional_crossing :
    ∃ result, (Analyzer.analyze ⟨Routine.read .oldest Table.standard cursor, 0xC08000, 0⟩
        0xC00000).outcome = .ok result ∧
      (result.root.routine.instructions.toList.map (·.address)).Nodup ∧
      (∀ id ∈ result.blocks.ids, ∃ p, result.blocks.Way (Block.idOf 0xC00000) id p) ∧
      result.conditional = true := by
  rcases exists_analysis .oldest with ⟨result, hresult, hentry, hg⟩
  have hf := Analyzer.analyze_eq_ok hresult
  have hnodup := (Reader.tidy_of_read hf.source_eq).1.nodup_addresses
  have hreach : ∀ id ∈ result.blocks.ids, ∃ p, result.blocks.Way (Block.idOf 0xC00000) id p :=
    fun id hid => exists_way hg hid
  have hiff := conditional_iff_exists_way hresult hnodup (by
    intro entry hsome
    rw [hentry] at hsome
    cases hsome
    exact hreach)
  refine ⟨result, hresult, hnodup, hreach, ?_⟩
  rcases hiff with ⟨-, -, entry, exit, hsome, hexit, hiff⟩
  rw [hentry] at hsome
  cases hsome
  rw [exit_eq hf.blocks_eq hg] at hexit
  cases hexit
  have hway : result.blocks.Way (Block.idOf 0xC00000) (Block.idOf 0xC00008)
      [Block.idOf 0xC00000, Block.idOf 0xC00005, Block.idOf 0xC00008] :=
    .step (hg.linked_of_mem (by decide))
      (.step (hg.linked_of_mem (by decide)) (.here _))
  apply hiff.2
  refine ⟨Block.idOf 0xC00002, _, ⟨call, call_mem hg, by decide⟩, hway, ?_⟩
  simp [Block.idOf_inj]

end Analysis

end CartFlow
