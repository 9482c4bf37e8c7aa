import CartFlow.Proofs.Report.ConditionalCalls

/-!
# Calls that are made in a loop

A call counts as made in a loop if its block is in one of the loops that are found: it has an edge
to itself, or it is in the natural loop of an edge that leads back to a dominator. This is less
than being on a cycle, since a cycle need not have a dominating block, and it is more, since a
natural loop also has blocks that the entry does not lead to. Where the entry leads to all blocks,
the blocks in loops are those on cycles with a dominating block.
-/
namespace CartFlow

open Cartridge Processor

namespace Graph

variable {α : Type} {g tree : Graph α} {entry id header tail : String} {s : List String}

/-- A node has an edge to itself, or it is in the natural loop of an edge that leads back to
another node which dominates its source in the tree. -/
def InNaturalLoop (g tree : Graph α) (id : String) : Prop :=
  g.Linked id id ∨ ∃ tail header, g.Linked tail header ∧ tail ≠ header ∧
    tree.dominates header tail = .ok true ∧ (id = header ∨ g.Around tail header id)

/-- A node is on a cycle, and one of the nodes of the cycle dominates all of them. -/
def OnHeadedCycle (g : Graph α) (entry id : String) : Prop :=
  ∃ v p, g.Linked id v ∧ g.Way v id p ∧ ∃ header ∈ p, ∀ u ∈ p, g.OnEveryWay entry header u

/-- The nodes of the loops that are found are those in natural loops. -/
theorem exists_mem_loops_iff (hg : g.Consistent) (hentry : g.entry = some entry) {limit : Int}
    (htree : (g.dominatorTree limit).outcome = .ok tree) {found : List Loop}
    (hok : g.loops tree = .ok found) :
    (∃ l ∈ found, id ∈ l.nodes) ↔ g.InNaturalLoop tree id := by
  constructor
  · rintro ⟨l, hl, hid⟩
    rcases exists_loops hg hentry htree with ⟨others, hothers, hnatural⟩
    rw [hok] at hothers
    cases hothers
    rcases List.mem_append.1 hl with hself | hback
    · rcases List.mem_map.1 hself with ⟨u, hu, rfl⟩
      have hedge := (List.mem_filter.1 hu).2
      rw [hasEdge, List.contains_iff_mem] at hedge
      rw [List.mem_singleton.1 hid]
      exact .inl (hg.mem_successorIds.1 hedge)
    · rcases exists_left_of_forall₂ hnatural hback with ⟨e, he, hloop⟩
      rcases List.mem_filter.1 he with ⟨he, hcloses⟩
      simp only [closesLoop, decide_eq_true_eq] at hcloses
      exact .inr ⟨e.source, e.target, ⟨e, Array.mem_toList_iff.1 he, rfl, rfl⟩, hcloses.1,
        hcloses.2, ((mem_naturalLoop_iff hg hcloses.1 hloop).2 id).1 hid⟩
  · rintro (hself | ⟨tail, header, ⟨e, he, rfl, rfl⟩, hne, hdom, hid⟩)
    · exact exists_loop_of_linked_self hg hok hself
    · rcases loops_eq_ok hok with ⟨others, hothers, rfl⟩
      rcases mem_loopsOfEdges hothers (Array.mem_toList_iff.2 he) hne hdom with ⟨l, hl, hloop⟩
      exact ⟨l, List.mem_append_right _ hl, ((mem_naturalLoop_iff hg hne hloop).2 id).2 hid⟩

/-- A way that an edge closes may be read from any of its nodes on. -/
theorem Way.exists_cycle (hway : g.Way header tail (header :: s)) (hback : g.Linked tail header)
    (hid : id ∈ header :: s) :
    ∃ v p, g.Linked id v ∧ g.Way v id p ∧ header ∈ p ∧ ∀ u ∈ p, u ∈ header :: s := by
  rcases hway.split hid with ⟨q, r, heq, hq, hr⟩
  have hround : g.Way id id (id :: (r ++ (q ++ [id]))) := hr.append (.step hback hq)
  generalize hp : r ++ (q ++ [id]) = p at hround
  cases hround with
  | here => simp at hp
  | @step _ v _ _ hlink hround =>
    refine ⟨v, p, hlink, hround, ?_, ?_⟩
    · rw [← hp]
      exact List.mem_append_right r hq.source_mem
    · intro u hu
      rw [← hp] at hu
      rw [heq]
      simp only [List.mem_append, List.mem_cons, List.not_mem_nil, or_false] at hu ⊢
      tauto

/-- Where the entry leads to all nodes, a node in a natural loop is on a cycle that the header of
the loop dominates. -/
theorem InNaturalLoop.onHeadedCycle (hg : g.Consistent) (hentry : g.entry = some entry)
    {limit : Int} (htree : (g.dominatorTree limit).outcome = .ok tree)
    (hreach : ∀ id ∈ g.ids, ∃ p, g.Way entry id p) (h : g.InNaturalLoop tree id) :
    g.OnHeadedCycle entry id := by
  rcases h with hself | ⟨tail, header, hback, -, hdominates, hid⟩
  · refine ⟨id, [id], hself, .here id, id, List.mem_singleton_self id, ?_⟩
    intro u hu
    rw [List.mem_singleton.1 hu]
    exact .refl g entry id
  · rcases hg.contains_of_linked hback with ⟨htail, hheader⟩
    rcases hreach tail (hg.mem_ids.2 htail) with ⟨p, hp⟩
    have hdom : g.OnEveryWay entry header tail := by
      rcases exists_dominates_iff hg hentry htree hheader hp with ⟨answer, hanswer, hiff⟩
      rw [hdominates] at hanswer
      exact hiff.1 (Except.ok.inj hanswer).symm
    have hmem : g.contains id = true := by
      rcases hid with rfl | ⟨q, hq, -⟩
      · exact hheader
      · cases hq with
        | here => exact htail
        | step hlink _ => exact (hg.contains_of_linked hlink).1
    rcases hreach id (hg.mem_ids.2 hmem) with ⟨q, hq⟩
    rcases exists_arc hdom hp hq hid with ⟨s, hway, hno, hs⟩
    rcases hway.exists_cycle hback hs with ⟨v, r, hlink, hr, hheaderMem, hsub⟩
    refine ⟨v, r, hlink, hr, header, hheaderMem, fun u hu => ?_⟩
    rcases List.mem_cons.1 (hsub u hu) with rfl | hu
    · exact .refl g entry u
    · exact (around_of_mem_way hway hno hu).onEveryWay hdom

end Graph

namespace BlockGraph

/-- In a graph that looks like a sketch, a block with a call is where the call was placed. -/
theorem Depicts.exists_placed {g : BlockGraph} {s : Sketch} (h : Depicts g s) {track : Address}
    {id : String} (hcalls : g.CallsAt track id) :
    ∃ e ∈ s.placed, id = Block.idOf e.1 ∧ e.2.callsRoutine track = true := by
  rcases (h.contains_iff id).1 (contains_of_callsAt h.built.consistent hcalls) with ⟨a, -, rfl⟩
  rcases hcalls with ⟨i, hi, hcall⟩
  rw [h.instructionsAt_eq, List.mem_map] at hi
  rcases hi with ⟨e, he, rfl⟩
  rcases List.mem_filter.1 he with ⟨he, ha⟩
  exact ⟨e, he, by rw [of_decide_eq_true ha], hcall⟩

end BlockGraph

namespace Analysis

section Calls

variable {a : Analyzer} {address : Address} {result : Analysis} {entry id : String}

theorem eq_true_iff_of_anyM {β : Type} {f : β → Except Failure Bool} {l : List β} {answer : Bool}
    (h : l.anyM f = .ok answer) : answer = true ↔ ∃ b ∈ l, f b = .ok true := by
  cases answer with
  | true => exact ⟨fun _ => exists_of_anyM h, fun _ => rfl⟩
  | false =>
    constructor
    · intro hfalse
      cases hfalse
    · rintro ⟨b, hb, hanswer⟩
      rw [eq_false_of_anyM h b hb] at hanswer
      cases hanswer

theorem Found.inLoop_iff (hf : result.Found a address)
    (hnodup : (result.root.routine.instructions.toList.map (·.address)).Nodup) :
    result.inLoop = true ↔
      ∃ id, result.blocks.CallsAt a.track id ∧ result.blocks.InNaturalLoop result.tree id := by
  obtain ⟨hbuilt, hentry, -⟩ := BlockGraph.ofRoutine_spec hf.blocks_eq
  rw [eq_true_iff_of_anyM hf.inLoop_eq]
  apply exists_congr
  intro id
  rw [hf.nodeMakesCall_iff hnodup, List.mem_flatMap,
    Graph.exists_mem_loops_iff hbuilt.consistent hentry hf.tree_eq hf.loops_eq, and_comm]

/-- A call in a block that the entry leads to is found to be in a loop if the block is on a cycle
with a dominating block. -/
theorem Found.inLoop_of_onHeadedCycle (hf : result.Found a address)
    (hentry : result.blocks.entry = some entry) (hcalls : result.blocks.CallsAt a.track id)
    {q : List String} (hq : result.blocks.Way entry id q)
    (hcycle : result.blocks.OnHeadedCycle entry id) : result.inLoop = true := by
  obtain ⟨hbuilt, -, -⟩ := BlockGraph.ofRoutine_spec hf.blocks_eq
  rcases hcycle with ⟨v, p, hlink, hp, header, hheader, hdom⟩
  rcases Graph.exists_loop_of_cycle hbuilt.consistent hentry hf.tree_eq hf.loops_eq hq hlink hp
    hheader hdom with ⟨l, hl, hid⟩
  rcases hcalls with ⟨i, hi, hcall⟩
  rcases hf.exists_makesCall hi hcall with ⟨b, hb, hmakes⟩
  apply (eq_true_iff_of_anyM hf.inLoop_eq).2
  exact ⟨id, List.mem_flatMap.2 ⟨l, hl, hid⟩, by rw [nodeMakesCall_eq hb, hmakes]⟩

/-- For a handler that was read, some call is made in a loop exactly if a block with a call of the
tracked routine is in a natural loop. This is so for each block with a call that the entry leads
to and that is on a cycle with a dominating block. If the entry leads to all blocks, it is so
exactly if there is such a block, and hence, if all cycles of blocks with calls have dominating
blocks, exactly if a block with a call is on a cycle. -/
theorem inLoop_iff_inNaturalLoop {order : PopOrder} {table : Table} {c : Cursor} {track : Address}
    {limit : Int} {address : Address} {result : Analysis}
    (hresult : (Analyzer.analyze ⟨Routine.read order table c, track, limit⟩ address).outcome =
      .ok result) :
    (Routine.read order table c address {}).outcome = .ok result.root.routine ∧
    (BlockGraph.ofRoutine result.root.routine).outcome = .ok result.blocks ∧
    (result.inLoop = true ↔
      ∃ id, result.blocks.CallsAt track id ∧ result.blocks.InNaturalLoop result.tree id) ∧
    ∃ entry, result.blocks.entry = some entry ∧
      (∀ id q, result.blocks.CallsAt track id → result.blocks.Way entry id q →
        result.blocks.OnHeadedCycle entry id → result.inLoop = true) ∧
      ((∀ id ∈ result.blocks.ids, ∃ p, result.blocks.Way entry id p) →
        (result.inLoop = true ↔
          ∃ id, result.blocks.CallsAt track id ∧ result.blocks.OnHeadedCycle entry id) ∧
        ((∀ id, result.blocks.CallsAt track id → result.blocks.Headed id) →
          (result.inLoop = true ↔
            ∃ id, result.blocks.CallsAt track id ∧
              ∃ v p, result.blocks.Linked id v ∧ result.blocks.Way v id p))) := by
  have hf := Analyzer.analyze_eq_ok hresult
  have hread : (Routine.read order table c address {}).outcome = .ok result.root.routine :=
    hf.source_eq
  obtain ⟨hbuilt, hentry, -⟩ := BlockGraph.ofRoutine_spec hf.blocks_eq
  have hg := hbuilt.consistent
  have hiff := hf.inLoop_iff (Reader.tidy_of_read hread).1.nodup_addresses
  refine ⟨hread, hf.blocks_eq, hiff, _, hentry, ?_, fun hreach => ?_⟩
  · intro id q hcalls hq hcycle
    exact hf.inLoop_of_onHeadedCycle hentry hcalls hq hcycle
  have hcycles : result.inLoop = true ↔ ∃ id, result.blocks.CallsAt track id ∧
      result.blocks.OnHeadedCycle (Block.idOf result.root.routine.address) id := by
    constructor
    · intro hyes
      rcases hiff.1 hyes with ⟨id, hcalls, hnatural⟩
      exact ⟨id, hcalls, hnatural.onHeadedCycle hg hentry hf.tree_eq hreach⟩
    · rintro ⟨id, hcalls, hcycle⟩
      rcases hreach id (hg.mem_ids.2 (BlockGraph.contains_of_callsAt hg hcalls)) with ⟨q, hq⟩
      exact hf.inLoop_of_onHeadedCycle hentry hcalls hq hcycle
  refine ⟨hcycles, fun hheaded => hcycles.trans ⟨?_, ?_⟩⟩
  · rintro ⟨id, hcalls, v, p, hlink, hp, -⟩
    exact ⟨id, hcalls, v, p, hlink, hp⟩
  · rintro ⟨id, hcalls, v, p, hlink, hp⟩
    exact ⟨id, hcalls, v, p, hlink, hp, hheaded id hcalls _ v p hentry hlink hp⟩

end Calls

namespace Polling

/-! A branch out of a loop, a call, and a branch back. -/

def cursor : Cursor :=
  { image := #[0xF0, 0x05, 0x20, 0x00, 0x80, 0x80, 0xF9, 0x60], mapping := .hiRom }

def call : Instruction := ⟨0xC00002, .jsr, ⟨0x8000, 2⟩⟩

def routine : Routine where
  address := 0xC00000
  instructions := #[⟨0xC00000, .beq, ⟨5, 1⟩⟩, call, ⟨0xC00005, .bra, ⟨0xF9, 1⟩⟩,
    ⟨0xC00007, .rts, {}⟩]

theorem read_eq (order : PopOrder) :
    ∃ r, (Routine.read order Table.standard cursor 0xC00000 {}).outcome = .ok r ∧
      r.instructions.toList = routine.instructions.toList := by
  apply Reader.Reads.read (d := cursor) (by simp [Cursor.seek, Mapping.toOffset?, cursor])
  refine .branch (i := ⟨0xC00000, .beq, ⟨5, 1⟩⟩) (d := { cursor with offset := 2 })
    (t := 0xC00007) (by decide) (Instruction.decode_of_parts rfl Opcode.find?_beq rfl) (by decide)
    (by decide) (by decide) (by decide) ?_
  refine .call (i := call) (d := { cursor with offset := 5 }) (t := 0xC08000)
    (by decide) (Instruction.decode_of_parts rfl Opcode.find?_jsr rfl) (by decide)
    (by decide) ?_
  refine .branchBack (i := ⟨0xC00005, .bra, ⟨0xF9, 1⟩⟩) (d := { cursor with offset := 7 })
    (t := 0xC00000) (by decide) (Instruction.decode_of_parts rfl Opcode.find?_bra rfl) (by decide)
    (by decide) (by decide) ?_
  exact .lastRet (i := ⟨0xC00007, .rts, {}⟩) (d := { cursor with offset := 8 })
    (by decide) (Instruction.decode_of_parts rfl Opcode.find?_rts rfl) (by decide) (by decide)

end Polling

open Polling in
/-- The block with the call and the branch back is on a cycle that the entry dominates. -/
theorem inLoop_polling :
    ∃ result, (Analyzer.analyze ⟨Routine.read .oldest Table.standard cursor, 0xC08000, 0⟩
        0xC00000).outcome = .ok result ∧
      (∃ id, result.blocks.CallsAt 0xC08000 id ∧
        result.blocks.InNaturalLoop result.tree id) ∧ result.inLoop = true := by
  rcases Analyzer.exists_analyze_of_sketch 0xC08000 (s := routine) (read_eq .oldest)
    (by decide) (by decide) (by decide) (by decide) with
    ⟨result, hresult, hentry, hg, -⟩
  rcases inLoop_iff_inNaturalLoop hresult with ⟨-, -, hiff, entry, hsome, hcycle, -⟩
  rw [hentry] at hsome
  cases hsome
  have hcalls : result.blocks.CallsAt 0xC08000 (Block.idOf 0xC00002) := by
    refine ⟨call, ?_, by decide⟩
    rw [hg.instructionsAt_eq]
    decide
  have hlink : result.blocks.Linked (Block.idOf 0xC00000) (Block.idOf 0xC00002) :=
    hg.linked_of_mem (by decide)
  have hback : result.blocks.Linked (Block.idOf 0xC00002) (Block.idOf 0xC00000) :=
    hg.linked_of_mem (by decide)
  have hyes : result.inLoop = true := by
    apply hcycle _ _ hcalls (.step hlink (.here _))
    refine ⟨_, _, hback, .step hlink (.here _), _, List.mem_cons_self, ?_⟩
    intro u _
    exact .entry_left _ _ u
  exact ⟨result, hresult, hiff.1 hyes, hyes⟩

namespace Feeding

/-! A loop of two blocks, and code behind the first of them that nothing leads to. The call is in
that code, in front of the second block. -/

def cursor : Cursor :=
  { image := #[0x80, 0x05, 0xD0, 0xFE, 0x20, 0x00, 0x80, 0xD0, 0xF7, 0x60], mapping := .hiRom }

def call : Instruction := ⟨0xC00004, .jsr, ⟨0x8000, 2⟩⟩

def routine : Routine where
  address := 0xC00000
  instructions := #[⟨0xC00000, .bra, ⟨5, 1⟩⟩, ⟨0xC00002, .bne, ⟨0xFE, 1⟩⟩, call,
    ⟨0xC00007, .bne, ⟨0xF7, 1⟩⟩, ⟨0xC00009, .rts, {}⟩]

theorem read_eq (order : PopOrder) :
    ∃ r, (Routine.read order Table.standard cursor 0xC00000 {}).outcome = .ok r ∧
      r.instructions.toList = routine.instructions.toList := by
  apply Reader.Reads.read (d := cursor) (by simp [Cursor.seek, Mapping.toOffset?, cursor])
  refine .branch (i := ⟨0xC00000, .bra, ⟨5, 1⟩⟩) (d := { cursor with offset := 2 })
    (t := 0xC00007) (by decide) (Instruction.decode_of_parts rfl Opcode.find?_bra rfl) (by decide)
    (by decide) (by decide) (by decide) ?_
  refine .branchBack (i := ⟨0xC00002, .bne, ⟨0xFE, 1⟩⟩) (d := { cursor with offset := 4 })
    (t := 0xC00002) (by decide) (Instruction.decode_of_parts rfl Opcode.find?_bne rfl) (by decide)
    (by decide) (by decide) ?_
  refine .call (i := call) (d := { cursor with offset := 7 }) (t := 0xC08000)
    (by decide) (Instruction.decode_of_parts rfl Opcode.find?_jsr rfl) (by decide)
    (by decide) ?_
  refine .branchBack (i := ⟨0xC00007, .bne, ⟨0xF7, 1⟩⟩) (d := { cursor with offset := 9 })
    (t := 0xC00000) (by decide) (Instruction.decode_of_parts rfl Opcode.find?_bne rfl) (by decide)
    (by decide) (by decide) ?_
  exact .lastRet (i := ⟨0xC00009, .rts, {}⟩) (d := { cursor with offset := 10 })
    (by decide) (Instruction.decode_of_parts rfl Opcode.find?_rts rfl) (by decide) (by decide)

theorem not_way {g : BlockGraph} (hg : BlockGraph.Depicts g (BlockGraph.sketchOf routine))
    {v : String} {p : List String} (hlink : g.Linked (Block.idOf 0xC00004) v) :
    ¬ g.Way v (Block.idOf 0xC00004) p := by
  intro hp
  -- the blocks of the loop and the one behind it are left by no edge
  have hclosed : ∀ l ∈ (BlockGraph.sketchOf routine).links,
      l.source ∈ [0xC00004, 0xC00000, 0xC00007, 0xC00009] →
      l.target ∈ [0xC00000, 0xC00007, 0xC00009] := by
    decide
  have hnext : ∀ u w, u ∈ [0xC00004, 0xC00000, 0xC00007, 0xC00009].map Block.idOf →
      g.Linked u w → w ∈ [0xC00000, 0xC00007, 0xC00009].map Block.idOf := by
    intro u w hu hl
    rcases hg.linked_iff.1 hl with ⟨l, hmem, rfl, rfl⟩
    rcases List.mem_map.1 hu with ⟨a, ha, heq⟩
    rw [Block.idOf_inj.1 heq] at ha
    exact List.mem_map_of_mem (hclosed l hmem ha)
  have hlast := hp.mem_of_closed (l := [0xC00000, 0xC00007, 0xC00009].map Block.idOf)
    (fun u hu w => hnext u w (List.mem_cons_of_mem _ hu)) (hnext _ v List.mem_cons_self hlink)
  rcases List.mem_map.1 hlast with ⟨a, ha, heq⟩
  rw [Block.idOf_inj.1 heq] at ha
  exact absurd ha (by decide)

/-- The block with the call leads around the entry to the end of the loop. -/
theorem exists_inNaturalLoop {result : Analysis} {a : Analyzer} (hf : result.Found a 0xC00000)
    (hentry : result.blocks.entry = some (Block.idOf 0xC00000))
    (hg : BlockGraph.Depicts result.blocks (BlockGraph.sketchOf routine)) :
    ∃ id, result.blocks.CallsAt 0xC08000 id ∧ result.blocks.InNaturalLoop result.tree id := by
  have hcons := hg.built.consistent
  have hcall : call ∈ result.blocks.instructionsAt (Block.idOf 0xC00004) := by
    rw [hg.instructionsAt_eq]
    decide
  have hfirst : result.blocks.Linked (Block.idOf 0xC00000) (Block.idOf 0xC00007) :=
    hg.linked_of_mem (by decide)
  have hback : result.blocks.Linked (Block.idOf 0xC00007) (Block.idOf 0xC00000) :=
    hg.linked_of_mem (by decide)
  have hinto : result.blocks.Linked (Block.idOf 0xC00004) (Block.idOf 0xC00007) :=
    hg.linked_of_mem (by decide)
  have hdominates : result.tree.dominates (Block.idOf 0xC00000) (Block.idOf 0xC00007) =
      .ok true := by
    rcases Graph.exists_dominates_iff hcons hentry hf.tree_eq (hcons.entry_mem _ hentry)
      (.step hfirst (.here _)) with ⟨answer, hanswer, hiff⟩
    rw [hanswer, hiff.2 (.entry_left _ _ _)]
  refine ⟨Block.idOf 0xC00004, ⟨call, hcall, by decide⟩, .inr ⟨Block.idOf 0xC00007,
    Block.idOf 0xC00000, hback, ?_, hdominates, .inr ⟨_, .step hinto (.here _), ?_⟩⟩⟩
  · simp [Block.idOf_inj]
  · simp [Block.idOf_inj]

end Feeding

theorem Crossing.not_inNaturalLoop {result : Analysis} {a : Analyzer}
    (hf : result.Found a 0xC00000) (hentry : result.blocks.entry = some (Block.idOf 0xC00000))
    (hg : BlockGraph.Depicts result.blocks (BlockGraph.sketchOf routine)) (id : String) :
    ¬ result.blocks.InNaturalLoop result.tree id := by
  -- an edge from the entry or from a node behind it leads to a third node
  have hlinks : ∀ l ∈ (BlockGraph.sketchOf routine).links, l.target ≠ l.source ∧
      l.target ≠ 0xC00000 ∧ (l.source = 0xC00000 ∨
        ∃ m ∈ (BlockGraph.sketchOf routine).links, m.source = 0xC00000 ∧ m.target = l.source) := by
    decide
  rintro (hself | ⟨tail, header, hlink, -, hdominates, -⟩)
  · rcases hg.linked_iff.1 hself with ⟨l, hl, hsource, htarget⟩
    exact (hlinks l hl).1 (Block.idOf_inj.1 (htarget.symm.trans hsource))
  · have hheader := (hg.built.consistent.contains_of_linked hlink).2
    rcases hg.linked_iff.1 hlink with ⟨l, hl, rfl, rfl⟩
    rcases hlinks l hl with ⟨hne, hfirst, hnear⟩
    have hway : ∃ p, result.blocks.Way (Block.idOf 0xC00000) (Block.idOf l.source) p ∧
        Block.idOf l.target ∉ p := by
      rcases hnear with heq | hm
      · rw [heq]
        exact ⟨_, .here _, by simp [Block.idOf_inj, hfirst]⟩
      · exact ⟨_, .step (hg.linked_of_mem hm) (.here _), by simp [Block.idOf_inj, hfirst, hne]⟩
    rcases hway with ⟨p, hp, hout⟩
    rcases Graph.exists_dominates_iff hg.built.consistent hentry hf.tree_eq hheader hp with
      ⟨answer, hanswer, hiff⟩
    rw [hdominates] at hanswer
    exact hout (hiff.1 (Except.ok.inj hanswer).symm p hp)

/-- A block with a call may be on a cycle and in no loop: two blocks lead to each other, and
neither dominates the other. It may also be in a loop and on no cycle: nothing leads to it from
the entry, but it leads into the loop. -/
theorem inLoop_crossing_feeding :
    (∃ result, (Analyzer.analyze ⟨Routine.read .oldest Table.standard Crossing.cursor, 0xC08000, 0⟩
        0xC00000).outcome = .ok result ∧ result.inLoop = false ∧
      ∃ id, result.blocks.CallsAt 0xC08000 id ∧
        ∃ v p, result.blocks.Linked id v ∧ result.blocks.Way v id p) ∧
    ∃ result, (Analyzer.analyze ⟨Routine.read .oldest Table.standard Feeding.cursor, 0xC08000, 0⟩
        0xC00000).outcome = .ok result ∧ result.inLoop = true ∧
      ∀ id, result.blocks.CallsAt 0xC08000 id →
        ∀ v p, result.blocks.Linked id v → ¬ result.blocks.Way v id p := by
  constructor
  · rcases Crossing.exists_analysis .oldest with ⟨result, hresult, hentry, hg⟩
    have hf := Analyzer.analyze_eq_ok hresult
    have hno : ¬ result.inLoop = true := by
      rw [hf.inLoop_iff (Reader.tidy_of_read hf.source_eq).1.nodup_addresses]
      rintro ⟨id, -, hloop⟩
      exact Crossing.not_inNaturalLoop hf hentry hg id hloop
    have hlink : result.blocks.Linked (Block.idOf 0xC00002) (Block.idOf 0xC00005) :=
      hg.linked_of_mem (by decide)
    have hback : result.blocks.Linked (Block.idOf 0xC00005) (Block.idOf 0xC00002) :=
      hg.linked_of_mem (by decide)
    exact ⟨result, hresult, Bool.eq_false_iff.2 hno, Block.idOf 0xC00002,
      ⟨Crossing.call, Crossing.call_mem hg, by decide⟩, Block.idOf 0xC00005, _, hlink,
      .step hback (.here _)⟩
  · rcases Analyzer.exists_analyze_of_sketch 0xC08000 (s := Feeding.routine)
      (Feeding.read_eq .oldest) (by decide) (by decide) (by decide)
      (by decide) with ⟨result, hresult, hentry, hg, -⟩
    have hf := Analyzer.analyze_eq_ok hresult
    refine ⟨result, hresult, ?_, ?_⟩
    · rw [hf.inLoop_iff (Reader.tidy_of_read hf.source_eq).1.nodup_addresses]
      exact Feeding.exists_inNaturalLoop hf hentry hg
    · intro id hcalls v p hlink
      have honly : ∀ e ∈ (BlockGraph.sketchOf Feeding.routine).placed,
          e.2.callsRoutine 0xC08000 = true → e.1 = 0xC00004 := by
        decide
      rcases hg.exists_placed hcalls with ⟨e, he, rfl, hcall⟩
      rw [honly e he hcall] at hlink ⊢
      exact Feeding.not_way hg hlink

end Analysis

end CartFlow
