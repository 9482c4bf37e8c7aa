import CartFlow.Proofs.Flow.BlockRuns
import CartFlow.Proofs.Processor.OpcodeTable

/-!
# The structure of block graphs

Nothing is asked of a routine here but that its graph is built. Each of its instructions then has
one block, which lists it once and in the order of the routine. An edge enters every block but the
entry: a block is opened for a branch, and the branch is linked with it, be it before or behind
the instruction that the walk found there. At most one block is left by no edge, and it is the
exit. The search for the exit passes over the entry, but while no edge leaves the entry the walk
stays in it and opens no other block.
-/
namespace CartFlow.BlockGraph

/-- Each instruction of a routine has a home, and the blocks list the instructions whose home they
are, in the order of the routine. -/
structure Houses (g : BlockGraph) (r : Routine) (homes : List String) : Prop where
  length_eq : homes.length = r.instructions.size
  home_mem : ∀ id ∈ homes, id ∈ g.ids
  nodup_ids : g.ids.Nodup
  instructions_eq : ∀ n ∈ g.nodes, n.data.instructions.toList =
    ((homes.zip r.instructions.toList).filter (·.1 = n.id)).map (·.2)

def exits (g : BlockGraph) : List String :=
  g.ids.filter fun id => (g.successors id).isEmpty

section Homes

variable {r : Routine} {g : BlockGraph}

theorem houses_of_ofRoutine (hok : (ofRoutine r).outcome = .ok g) :
    g.Houses r ((visitsOf r).map fun v =>
      Block.idOf (v.home (targets r.instructions.toList))) := by
  obtain ⟨hg, hadmitted⟩ := depicts_of_ofRoutine hok
  have hconsistent := hg.built.consistent
  constructor
  · rw [List.length_map, ← Array.length_toList, ← map_instruction_visitsOf, List.length_map]
  · intro id hid
    obtain ⟨v, hv, rfl⟩ := List.mem_map.1 hid
    rw [hconsistent.mem_ids, hg.contains_idOf, mem_opened_sketchOf hadmitted]
    exact starts_home hadmitted hv
  · exact hconsistent.nodup_ids
  · intro n hn
    have hid : n.id ∈ g.ids := List.mem_map_of_mem (Array.mem_toList_iff.2 hn)
    obtain ⟨a, -, ha⟩ := (hg.contains_iff n.id).1 (hconsistent.mem_ids.1 hid)
    rw [← instructionsAt_node hconsistent hn, ha, instructionsAt_of_depicts hg, blockAt,
      ← map_instruction_visitsOf, List.zip_map', List.filter_map, List.map_map]
    simp [Function.comp_def, Block.idOf_inj]

end Homes

section Entering

variable {r : Routine} {g : BlockGraph} {a : Address} {id : String}

theorem exists_link_to_start
    (hadmitted : AllAdmitted (targets r.instructions.toList) [r.address] (visitsOf r))
    (hstarts : Starts r a) (hne : a ≠ r.address) :
    ∃ l ∈ (visitsOf r).flatMap (·.links (targets r.instructions.toList)), l.target = a := by
  obtain ⟨i, hi, hbranch, hlead⟩ := hstarts.resolve_left hne
  obtain ⟨t, ht⟩ := hadmitted.exists_target i (Array.mem_toList_iff.2 hi) hbranch
  rw [← Array.mem_toList_iff, ← map_instruction_visitsOf] at hi
  obtain ⟨v, hv, rfl⟩ := List.mem_map.1 hi
  have hmem : a ∈ (branchLinks (v.home (targets r.instructions.toList)) v.instruction).map
      (·.target) := by
    rw [mem_branchLinks_target _ hbranch ht]
    rw [ht, Except.ok.injEq, eq_comm] at hlead
    exact hlead
  obtain ⟨l, hl, rfl⟩ := List.mem_map.1 hmem
  exact ⟨l, List.mem_flatMap.2 ⟨v, hv, List.mem_append_right _ hl⟩, rfl⟩

theorem exists_linked_of_ofRoutine (hok : (ofRoutine r).outcome = .ok g)
    (hid : g.contains id = true) (hne : id ≠ Block.idOf r.address) : ∃ u, g.Linked u id := by
  obtain ⟨hg, hadmitted⟩ := depicts_of_ofRoutine hok
  obtain ⟨a, ha, rfl⟩ := (hg.contains_iff id).1 hid
  rw [Ne, Block.idOf_inj] at hne
  obtain ⟨l, hl, rfl⟩ :=
    exists_link_to_start hadmitted ((mem_opened_sketchOf hadmitted).1 ha) hne
  refine ⟨Block.idOf l.source, l.edge, ?_, rfl, rfl⟩
  rw [← Array.mem_toList_iff, edges_of_depicts hg]
  exact List.mem_map_of_mem hl

end Entering

section Leaving

variable {r : Routine} {g h : BlockGraph} {id : String}

/-- While no link leaves its block, the walk stays in it and opens no other. -/
theorem eq_of_mem_opened {labels seen : List Address} {entry : Address} {is : List Instruction}
    (hadmitted : AllAdmitted labels seen (visits labels (some entry) is))
    (hfree : ∀ v ∈ visits labels (some entry) is, ∀ l ∈ v.links labels, l.source ≠ entry) :
    ∀ v ∈ visits labels (some entry) is, ∀ a ∈ v.opened labels, a = entry := by
  induction is generalizing seen with
  | nil => simp [visits]
  | cons i rest ih =>
    rw [visits, List.forall_mem_cons] at hfree
    obtain ⟨hfirst, hrest⟩ := hfree
    have hlabel : i.address ∈ labels → i.address = entry := by
      intro hmem
      by_contra hne
      apply hfirst ⟨entry, i.address, 0⟩ _ rfl
      simp [Visit.links, Visit.entering, hmem, Ne.symm hne]
    have hhome : Visit.home labels ⟨some entry, i⟩ = entry := by
      by_cases hmem : i.address ∈ labels
      · rw [home_of_label hmem]
        exact hlabel hmem
      · simp [Visit.home, hmem]
    -- a branch would leave the block
    have hbranch : i.has .branch = false := by
      by_contra hbranch
      rw [Bool.not_eq_false] at hbranch
      obtain ⟨t, ht⟩ := hadmitted.1.exists_target hbranch
      obtain ⟨l, hl, -⟩ := List.mem_map.1
        ((mem_branchLinks_target entry (a := t) hbranch ht).2 (.inl rfl))
      apply hfirst l _ (source_of_mem_branchLinks hl)
      rw [Visit.links, hhome]
      exact List.mem_append_right _ hl
    have hbehind : blockBehind (Visit.home labels ⟨some entry, i⟩) i = some entry := by
      simp [blockBehind, hbranch, hhome]
    have hadmitted := hadmitted.2
    rw [hbehind] at hadmitted hrest
    rw [visits, hbehind, List.forall_mem_cons]
    refine ⟨?_, ih hadmitted hrest⟩
    intro a ha
    rw [Visit.opened, branchLinks_of_not_branch hbranch, List.map_nil, List.append_nil] at ha
    split at ha
    · next hmem => rw [List.mem_singleton.1 ha, hlabel hmem]
    · cases ha

theorem ids_eq_of_successors_eq_nil (hok : (ofRoutine r).outcome = .ok g)
    (hfree : g.successors (Block.idOf r.address) = []) : g.ids = [Block.idOf r.address] := by
  obtain ⟨hg, hadmitted⟩ := depicts_of_ofRoutine hok
  have hconsistent := hg.built.consistent
  rw [hconsistent.successors_eq, edges_of_depicts hg, List.filter_eq_nil_iff] at hfree
  have hlinks : ∀ v ∈ visitsOf r, ∀ l ∈ v.links (targets r.instructions.toList),
      l.source ≠ r.address := by
    intro v hv l hl heq
    have hmem := List.mem_flatMap.2 ⟨v, hv, hl⟩
    exact hfree l.edge (List.mem_map_of_mem hmem) (by simp [Link.edge, heq])
  have hopened := eq_of_mem_opened hadmitted hlinks
  have hall : ∀ id, id ∈ g.ids ↔ id = Block.idOf r.address := by
    intro id
    rw [hconsistent.mem_ids, hg.contains_iff, sketchOf, Sketch.addAll]
    constructor
    · rintro ⟨a, ha, rfl⟩
      rcases List.mem_append.1 ha with ha | ha
      · rw [List.mem_singleton.1 ha]
      · obtain ⟨v, hv, ha⟩ := List.mem_flatMap.1 ha
        rw [hopened v hv a ha]
    · rintro rfl
      exact ⟨r.address, List.mem_append_left _ (List.mem_singleton_self _), rfl⟩
  exact List.perm_singleton.1 ((List.perm_ext_iff_of_nodup hconsistent.nodup_ids
    (List.nodup_singleton _)).2 fun id => (hall id).trans List.mem_singleton.symm)

theorem successors_node_isEmpty (hg : g.Consistent) {n : Node Block} (hn : n ∈ g.nodes) :
    (g.successors n.id).isEmpty = n.outgoing.isEmpty := by
  have hedges := g.edgesAt_edgeNumbers _ _ (hg.outgoing_eq n hn)
  rw [← hg.successors_eq] at hedges
  rw [Bool.eq_iff_iff, List.isEmpty_iff, Array.isEmpty_iff]
  constructor
  · intro hnil
    have hnone : ∀ e ∈ g.edges, e.source ≠ n.id := by
      intro e he heq
      rw [hg.successors_eq, List.filter_eq_nil_iff] at hnil
      exact hnil e (Array.mem_toList_iff.2 he) (by simpa using heq)
    rw [← Array.toList_eq_nil_iff, hg.outgoing_eq n hn]
    exact Graph.Consistent.edgeNumbers_eq_nil hnone
  · intro hnil
    rw [← hedges, hnil]
    rfl

/-- The dead ends of the graph of a routine determine its exit. -/
theorem exit_of_ofRoutine (hok : (ofRoutine r).outcome = .ok g) :
    deadEnds g = [] ∧ g.exit = g.entry ∨ ∃ n, deadEnds g = [n] ∧ g.exit = some n.id := by
  rw [ofRoutine, Traced.outcome_during, during_eq_ok] at hok
  simp only [Traced.outcome_bind, Traced.outcome_ofExcept] at hok
  obtain ⟨set, -, hok⟩ := bind_eq_ok.1 hok
  obtain ⟨w, -, hok⟩ := bind_eq_ok.1 hok
  unfold chooseExit at hok
  split at hok
  · next hends =>
    cases hok
    exact .inl ⟨hends, rfl⟩
  · next n hends =>
    cases hok
    exact .inr ⟨n, hends, rfl⟩
  · cases hok

theorem exits_eq_map_deadEnds (hg : g.Consistent)
    (hentry : ∀ id, g.entry = some id → g.successors id ≠ []) :
    g.exits = (deadEnds g).map (·.id) := by
  rw [exits, deadEnds, Graph.ids, List.filter_map]
  congr 1
  apply List.filter_congr
  intro n hn
  rw [Function.comp_apply, successors_node_isEmpty hg (Array.mem_toList_iff.1 hn)]
  cases hout : n.outgoing.isEmpty with
  | false => rfl
  | true =>
    rw [← successors_node_isEmpty hg (Array.mem_toList_iff.1 hn), List.isEmpty_iff] at hout
    have hne : g.entry ≠ some n.id := fun heq => hentry n.id heq hout
    simpa using hne

/-- At most one block is left by no edge. It is the exit, and otherwise the entry is. -/
theorem exits_of_ofRoutine (hok : (ofRoutine r).outcome = .ok g) :
    g.exits = [] ∧ g.exit = g.entry ∨ ∃ id, g.exits = [id] ∧ g.exit = some id := by
  obtain ⟨hbuilt, hentry, -⟩ := ofRoutine_spec hok
  by_cases hfree : g.successors (Block.idOf r.address) = []
  · have hids := ids_eq_of_successors_eq_nil hok hfree
    have hends : deadEnds g = [] := by
      rw [deadEnds, List.filter_eq_nil_iff]
      intro n hn
      have hid : n.id ∈ g.ids := List.mem_map_of_mem hn
      rw [hids, List.mem_singleton] at hid
      simp [hid, hentry]
    refine .inr ⟨Block.idOf r.address, ?_, ?_⟩
    · rw [exits, hids]
      simp [hfree]
    · rcases exit_of_ofRoutine hok with ⟨-, hexit⟩ | ⟨n, hn, -⟩
      · rw [hexit, hentry]
      · rw [hends] at hn
        cases hn
  · have hexits : g.exits = (deadEnds g).map (·.id) := by
      apply exits_eq_map_deadEnds hbuilt.consistent
      intro id hid
      rw [hentry] at hid
      cases hid
      exact hfree
    rw [hexits]
    rcases exit_of_ofRoutine hok with ⟨hends, hexit⟩ | ⟨n, hends, hexit⟩
    · exact .inl ⟨by rw [hends, List.map_nil], hexit⟩
    · exact .inr ⟨n.id, by rw [hends, List.map_cons, List.map_nil], hexit⟩

theorem exit_of_not_linked (hok : (ofRoutine r).outcome = .ok g) {id : String}
    (hid : g.contains id = true) (hno : ∀ v, ¬ g.Linked id v) : g.exit = some id := by
  obtain ⟨hbuilt, -, -⟩ := ofRoutine_spec hok
  have hg := hbuilt.consistent
  have hfree : g.successors id = [] := by
    rw [List.eq_nil_iff_forall_not_mem]
    intro e he
    exact hno e.target (hg.mem_successorIds.1 (List.mem_map_of_mem he))
  have hmem : id ∈ g.exits := List.mem_filter.2 ⟨hg.mem_ids.2 hid, by rw [hfree]; rfl⟩
  rcases exits_of_ofRoutine hok with ⟨hnone, -⟩ | ⟨exit, hone, hexit⟩
  · rw [hnone] at hmem
    cases hmem
  · rw [hone, List.mem_singleton] at hmem
    rw [hexit, hmem]

end Leaving

/-- Whatever the instructions of a routine, if its graph is built then each of them is in one block
once, in the order of the routine, an edge enters every block but the entry, and at most one block
is left by no edge: that block is the exit, and if there is none the entry is. -/
theorem structure_of_ofRoutine {r : Routine} {g : BlockGraph}
    (hok : (ofRoutine r).outcome = .ok g) :
    (∃ homes, g.Houses r homes) ∧ g.entry = some (Block.idOf r.address) ∧
      (∀ id ∈ g.ids, g.entry ≠ some id → g.predecessors id ≠ []) ∧
      (g.exits = [] ∧ g.exit = g.entry ∨ ∃ id, g.exits = [id] ∧ g.exit = some id) := by
  obtain ⟨hbuilt, hentry, -⟩ := ofRoutine_spec hok
  have hg := hbuilt.consistent
  refine ⟨⟨_, houses_of_ofRoutine hok⟩, hentry, ?_, exits_of_ofRoutine hok⟩
  intro id hid hne hnil
  rw [hentry, Ne, Option.some.injEq, eq_comm] at hne
  obtain ⟨u, hu⟩ := exists_linked_of_ofRoutine hok (hg.mem_ids.1 hid) hne
  have hpred := hg.mem_predecessorIds.2 hu
  rw [Graph.predecessorIds, hnil] at hpred
  cases hpred

namespace Rewind

/-! An unconditional branch over an instruction, and a conditional branch back to it. The walk
opens the block of the instruction before any edge leads there. -/

def routine : Routine where
  address := 0xC00000
  instructions := #[⟨0xC00000, .bra, ⟨1, 1⟩⟩, ⟨0xC00002, .nop, {}⟩, ⟨0xC00003, .beq, ⟨0xFD, 1⟩⟩,
    ⟨0xC00005, .rts, {}⟩]

theorem exists_graph : ∃ g, (ofRoutine routine).outcome = .ok g := by
  apply exists_ofRoutine
  · decide +kernel
  · decide +kernel

end Rewind

/-- The block that is skipped at first is entered by an edge, and the return is in the exit. -/
theorem structure_of_rewind :
    ∃ g homes, (ofRoutine Rewind.routine).outcome = .ok g ∧ g.Houses Rewind.routine homes ∧
      g.predecessors (Block.idOf 0xC00002) ≠ [] ∧ g.exit = some (Block.idOf 0xC00005) := by
  obtain ⟨g, hg⟩ := Rewind.exists_graph
  obtain ⟨⟨homes, hhomes⟩, hentry, hentered, hexits⟩ := structure_of_ofRoutine hg
  obtain ⟨hdepicts, -⟩ := depicts_of_ofRoutine hg
  have hconsistent := hdepicts.built.consistent
  have hskipped : Block.idOf 0xC00002 ∈ g.ids := by
    rw [hconsistent.mem_ids, hdepicts.contains_idOf]
    decide +kernel
  have hlast : Block.idOf 0xC00005 ∈ g.exits := by
    rw [exits, List.mem_filter, hconsistent.mem_ids, hdepicts.contains_idOf,
      hconsistent.successors_eq, hdepicts.edges_eq]
    decide +kernel
  have hne : g.entry ≠ some (Block.idOf 0xC00002) := by
    rw [hentry, Ne, Option.some.injEq, Block.idOf_inj]
    decide
  refine ⟨g, homes, hg, hhomes, hentered _ hskipped hne, ?_⟩
  rcases hexits with ⟨hnil, -⟩ | ⟨id, hone, hexit⟩
  · rw [hnil] at hlast
    cases hlast
  · rw [hone, List.mem_singleton] at hlast
    rw [hexit, hlast]

end CartFlow.BlockGraph
