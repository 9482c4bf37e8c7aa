import CartFlow.Proofs.Flow.ControlFlow
import CartFlow.Proofs.Graph.Loops
import CartFlow.Proofs.Graph.Outline
import CartFlow.Proofs.Report.Inversion
import Mathlib.Data.List.Count

/-!
# What a verdict says about executions

The verdict on a handler that calls the tracked routine is about the blocks: the blocks with calls
that the entry leads to are on every way to the exit, and on no cycle that one of its blocks
dominates. Where the blocks show the flow of control, a run to a return therefore makes every call
that can be made at all, and without other cycles makes each of them once.
-/
namespace CartFlow

open Cartridge Processor

namespace Analysis

theorem eq_false_of_anyM {α : Type} {f : α → Except Failure Bool} {l : List α}
    (h : l.anyM f = .ok false) : ∀ a ∈ l, f a = .ok false := by
  induction l with
  | nil => simp
  | cons a l ih =>
    rw [List.anyM] at h
    obtain ⟨answer, hanswer, h⟩ := bind_eq_ok.1 h
    cases answer with
    | true => cases h
    | false =>
      intro b hb
      rcases List.mem_cons.1 hb with rfl | hb
      · exact hanswer
      · exact ih h b hb

section Findings

variable {calls : List DirectCall} {blocks tree : BlockGraph} {loops : List Loop}
  {entry exit id : String} {b : Block} {limit : Int}

theorem nodeMakesCall_eq {g : BlockGraph} (hb : g.data? id = some b) :
    nodeMakesCall calls g id = .ok (makesCall calls b) := by
  obtain ⟨n, hn, rfl⟩ := Option.map_eq_some_iff.1 hb
  rw [nodeMakesCall, Graph.node, hn]
  rfl

/-- Without conditional calls, a calling block that the entry leads to is on every way to the
exit. -/
theorem onEveryWay_of_not_conditional (hg : blocks.Consistent) (hentry : blocks.entry = some entry)
    (htree : (blocks.dominatorTree limit).outcome = .ok tree) (hexit : blocks.exit = some exit)
    (hno : hasConditionalCalls calls blocks tree = .ok false) (hb : blocks.data? id = some b)
    (hcall : makesCall calls b = true) {p q : List String} (hp : blocks.Way entry id p)
    (hq : blocks.Way entry exit q) : blocks.OnEveryWay entry id exit := by
  have hmem := hg.entry_mem entry hentry
  have hid := hp.contains_of_mem hg hmem id hp.target_mem
  have hout := hq.contains_of_mem hg hmem exit hq.target_mem
  unfold hasConditionalCalls at hno
  split at hno
  · next hsize =>
    -- there is only one block
    have hone : blocks.ids.length = 1 := by simpa [Graph.ids, Graph.size] using hsize
    obtain ⟨only, honly⟩ := List.length_eq_one_iff.1 hone
    have hid := hg.mem_ids.2 hid
    have hout := hg.mem_ids.2 hout
    rw [honly, List.mem_singleton] at hid hout
    rw [hid, hout]
    exact Graph.OnEveryWay.refl blocks entry only
  · obtain ⟨sets, -, hlinks⟩ := Graph.dominatorTree_eq_ok hg hentry htree
    have hanswer := eq_false_of_anyM hno id
      (Graph.mem_outline_dominatorTree hg hentry htree hp)
    rw [nodeMakesCall_eq ((hlinks.data_eq id).trans hb), hcall, hexit] at hanswer
    obtain ⟨answer, hdominates, hiff⟩ := Graph.exists_dominates_iff hg hentry htree hid hq
    apply hiff.1
    simpa [hdominates, bind, Except.bind, pure, Except.pure] using hanswer

/-- Without calls in loops, a calling block that the entry leads to is on no cycle that has a
dominating block. -/
theorem not_way_of_not_inLoop (hg : blocks.Consistent) (hentry : blocks.entry = some entry)
    (htree : (blocks.dominatorTree limit).outcome = .ok tree)
    (hloops : blocks.loops tree = .ok loops) (hno : hasCallsInLoops calls blocks loops = .ok false)
    (hb : blocks.data? id = some b) (hcall : makesCall calls b = true) {q : List String}
    (hq : blocks.Way entry id q) (hheaded : blocks.Headed id) (v : String) (p : List String)
    (hl : blocks.Linked id v) : ¬ blocks.Way v id p := by
  intro hp
  obtain ⟨header, hheader, hdom⟩ := hheaded entry v p hentry hl hp
  obtain ⟨l, hmem, hid⟩ :=
    Graph.exists_loop_of_cycle hg hentry htree hloops hq hl hp hheader hdom
  have hanswer := eq_false_of_anyM hno id (List.mem_flatMap.2 ⟨l, hmem, hid⟩)
  rw [nodeMakesCall_eq hb, hcall] at hanswer
  cases hanswer

end Findings

section Executions

variable {a : Analyzer} {address : Address} {result : Analysis} {c : Cursor} {i : Instruction}
  {p : List Instruction} {id : String}

theorem Found.exists_makesCall (hf : result.Found a address)
    (hi : i ∈ result.blocks.instructionsAt id) (hcall : i.callsRoutine a.track = true) :
    ∃ b, result.blocks.data? id = some b ∧
      makesCall (result.root.callsOf a.track) b = true := by
  obtain ⟨hbuilt, -, hperm⟩ := BlockGraph.ofRoutine_spec hf.blocks_eq
  have hg := hbuilt.consistent
  cases hb : result.blocks.data? id with
  | none => simp [BlockGraph.instructionsAt, hb] at hi
  | some b =>
    refine ⟨b, rfl, ?_⟩
    have hmem := hperm.mem_iff.1 (BlockGraph.mem_code hg hi)
    have hsite : i.address ∈ (result.root.callsOf a.track).map (·.site) := by
      rw [(Profile.ofRoutine_eq_ok hf.profile_eq a.track).2]
      exact List.mem_map_of_mem (List.mem_filter.2 ⟨hmem, hcall⟩)
    obtain ⟨call, hcalls, hsite⟩ := List.mem_map.1 hsite
    have hblock : i ∈ b.instructions := by
      simpa [BlockGraph.instructionsAt, hb] using hi
    rw [makesCall, List.any_eq_true]
    refine ⟨call, hcalls, ?_⟩
    rw [Block.contains, Array.any_eq_true']
    exact ⟨i, hblock, by simp [hsite]⟩

/-- Where the blocks show the flow of control and no call is conditional, a run to a return
makes every call that can be made. -/
theorem Found.mem_of_returns (hf : result.Found a address) (hno : result.conditional = false)
    (hshows : BlockGraph.Shows c result.root.routine result.blocks)
    (hp : Routine.Returns c result.root.routine p) (hi : Routine.Live c result.root.routine i)
    (hcall : i.callsRoutine a.track = true) : i ∈ p := by
  obtain ⟨hbuilt, -, -⟩ := BlockGraph.ofRoutine_spec hf.blocks_eq
  obtain ⟨entry, exit, ids, hentry, hexit, hway, rfl⟩ := hshows.returns_eq_flatMap hp
  obtain ⟨entry', id, q, hentry', hq, hmem⟩ := hshows.exists_way_of_live hi
  obtain rfl : entry = entry' := by
    rw [hentry] at hentry'
    exact Option.some.inj hentry'
  obtain ⟨b, hb, hmakes⟩ := hf.exists_makesCall hmem hcall
  have hdom := onEveryWay_of_not_conditional hbuilt.consistent hentry hf.tree_eq hexit
    (hno ▸ hf.conditional_eq) hb hmakes hq hway
  exact List.mem_flatMap.2 ⟨id, hdom ids hway, hmem⟩

/-- If moreover a return can be reached, then not around the calls if some call can be made. -/
theorem Found.not_escapes_iff (hf : result.Found a address) (hno : result.conditional = false)
    (hshows : BlockGraph.Shows c result.root.routine result.blocks) :
    ¬ Routine.Escapes c result.root.routine (·.callsRoutine a.track) ↔
      ((∃ p, Routine.Returns c result.root.routine p) →
        ∃ i, Routine.Live c result.root.routine i ∧ i.callsRoutine a.track = true) := by
  constructor
  · rintro hescapes ⟨p, hp⟩
    by_contra hnone
    push Not at hnone
    exact hescapes ⟨p, hp, fun i hi => Bool.eq_false_iff.2 (hnone i (hp.live i hi))⟩
  · rintro hsome ⟨p, hp, hnone⟩
    obtain ⟨i, hi, hcall⟩ := hsome ⟨p, hp⟩
    have hother : i.callsRoutine a.track = false :=
      hnone i (hf.mem_of_returns hno hshows hp hi hcall)
    rw [hcall] at hother
    cases hother

/-- Without calls in loops, a way from the entry visits a block with a call at most once if
cycles through this block have dominating blocks. -/
theorem Found.count_le_one (hf : result.Found a address) (hno : result.inLoop = false)
    {entry exit : String} {ids : List String} (hentry : result.blocks.entry = some entry)
    (hway : result.blocks.Way entry exit ids) (hi : i ∈ result.blocks.instructionsAt id)
    (hcall : i.callsRoutine a.track = true) (hheaded : result.blocks.Headed id) :
    ids.count id ≤ 1 := by
  obtain ⟨hbuilt, -, -⟩ := BlockGraph.ofRoutine_spec hf.blocks_eq
  by_cases hid : id ∈ ids
  · obtain ⟨b, hb, hmakes⟩ := hf.exists_makesCall hi hcall
    obtain ⟨q, r, -, hq, -⟩ := hway.split hid
    exact hway.count_le_one (not_way_of_not_inLoop hbuilt.consistent hentry hf.tree_eq hf.loops_eq
      (hno ▸ hf.inLoop_eq) hb hmakes hq hheaded)
  · rw [List.count_eq_zero_of_not_mem hid]
    exact Nat.zero_le 1

/-- If moreover every call can be made, and cycles of blocks with calls have dominating blocks,
a run to a return makes each call once. -/
theorem Found.countP_of_returns (hf : result.Found a address)
    (htidy : result.root.routine.Tidy) (hconditional : result.conditional = false)
    (hinLoop : result.inLoop = false)
    (hshows : BlockGraph.Shows c result.root.routine result.blocks)
    (hheaded : ∀ id, ∀ i ∈ result.blocks.instructionsAt id, i.callsRoutine a.track = true →
      result.blocks.Headed id)
    (hlive : ∀ i ∈ result.root.routine.instructions, i.callsRoutine a.track = true →
      Routine.Live c result.root.routine i)
    (hp : Routine.Returns c result.root.routine p) :
    p.countP (·.callsRoutine a.track) =
      result.root.routine.instructions.toList.countP (·.callsRoutine a.track) := by
  obtain ⟨hbuilt, -, hperm⟩ := BlockGraph.ofRoutine_spec hf.blocks_eq
  have hg := hbuilt.consistent
  have hnodup : result.blocks.code.Nodup :=
    hperm.nodup_iff.2 (List.Nodup.of_map _ htidy.nodup_addresses)
  obtain ⟨entry, exit, ids, hentry, hexit, hway, rfl⟩ := hshows.returns_eq_flatMap hp
  have hcontains := hway.contains_of_mem hg (hg.entry_mem entry hentry)
  rw [← hperm.countP_eq, BlockGraph.code_eq_flatMap hg, BlockGraph.countP_flatMap_filter,
    BlockGraph.countP_flatMap_filter _ _ result.blocks.ids]
  apply List.Perm.countP_eq
  apply List.Perm.flatMap_right
  -- the blocks with calls on the way are all blocks with calls, each once
  rw [List.perm_ext_iff_of_nodup _ (hg.nodup_ids.filter _)]
  · intro id
    simp only [List.mem_filter]
    constructor
    · rintro ⟨hid, hany⟩
      exact ⟨hg.mem_ids.2 (hcontains id hid), hany⟩
    · rintro ⟨-, hany⟩
      refine ⟨?_, hany⟩
      obtain ⟨i, hi, hcall⟩ := List.any_eq_true.1 hany
      have hmem := Array.mem_toList_iff.1 (hperm.mem_iff.1 (BlockGraph.mem_code hg hi))
      have hrun := hf.mem_of_returns hconditional hshows hp (hlive i hmem hcall) hcall
      obtain ⟨other, hother, hi'⟩ := List.mem_flatMap.1 hrun
      rwa [BlockGraph.eq_of_mem_instructionsAt hg hnodup hi hi']
  · rw [List.nodup_iff_count_le_one]
    intro id
    by_cases hany : (result.blocks.instructionsAt id).any (·.callsRoutine a.track) = true
    · obtain ⟨i, hi, hcall⟩ := List.any_eq_true.1 hany
      rw [List.count_filter
        (p := fun id => (result.blocks.instructionsAt id).any (·.callsRoutine a.track)) hany]
      exact hf.count_le_one hinLoop hentry hway hi hcall (hheaded id i hi hcall)
    · rw [List.count_eq_zero_of_not_mem]
      · exact Nat.zero_le 1
      · intro hmem
        exact hany (List.mem_filter.1 hmem).2

end Executions

end Analysis

end CartFlow
