import CartFlow.Flow.BlockGraph
import CartFlow.Proofs.Graph.Data
import Mathlib.Data.List.Basic

/-!
# What the walk over the instructions builds

Each stage of the walk is taken apart once into the graph operations it makes. The graph is
therefore built by the operations of graphs, and every instruction that was taken is in
exactly one block, exactly once: new blocks are empty, edges change no block, and an
instruction is added at the end of one block.
-/
namespace CartFlow.BlockGraph

def code (g : BlockGraph) : List Instruction :=
  g.datas.flatMap (·.instructions.toList)

section Operations

variable {g h : BlockGraph} {id other : String} {i : Instruction}

theorem code_addBlock (g : BlockGraph) (address : Address) :
    (addBlock g address).code = g.code := by
  cases hid : g.contains (Block.idOf address) with
  | true => rw [addBlock, Graph.insert_of_contains hid]
  | false => simp [code, addBlock, Graph.datas_insert hid]

theorem code_addEdge {label : UInt8} (hok : g.addEdge id other label = .ok h) :
    h.code = g.code := by
  rw [code, Graph.datas_addEdge hok, code]

theorem perm_flatMap_modify (blocks : List Block) (k : Nat) (hk : k < blocks.length)
    (i : Instruction) :
    ((blocks.modify k (·.push i)).flatMap (·.instructions.toList)).Perm
      (blocks.flatMap (·.instructions.toList) ++ [i]) := by
  induction blocks generalizing k with
  | nil => exact absurd hk (Nat.not_lt_zero k)
  | cons b rest ih =>
    cases k with
    | zero =>
      simp only [List.modify_zero_cons, List.flatMap_cons, Block.push, Array.toList_push,
        List.append_assoc]
      exact List.perm_append_comm.append_left _
    | succ k =>
      simp only [List.modify_succ_cons, List.flatMap_cons, List.append_assoc]
      exact (ih k (Nat.lt_of_succ_lt_succ hk)).append_left _

theorem perm_code_modify (hg : g.Consistent) (hid : g.contains id = true) (i : Instruction) :
    (code (g.modify id (·.push i))).Perm (g.code ++ [i]) := by
  obtain ⟨k, hk⟩ := Graph.contains_iff.1 hid
  rw [code, Graph.datas_modify hk]
  apply perm_flatMap_modify
  simpa [Graph.datas] using hg.lt_size_of_index hk

theorem entry_addBlock (address : Address) : (addBlock g address).entry = g.entry :=
  Graph.entry_insert

theorem contains_addBlock (address : Address) :
    (addBlock g address).contains other = (Block.idOf address == other || g.contains other) :=
  Graph.contains_insert g _ _ _

end Operations

namespace Walk

section Inversion

variable {w w' : Walk} {i : Instruction} {address : Address} {id : String}
  {labels : Std.HashSet Address}

theorem enterLabel_eq_ok (hok : w.enterLabel address = .ok w') :
    w'.current = some (Block.idOf address) ∧
      (w'.graph = addBlock w.graph address ∨
        ∃ above, w.current = some above ∧ above ≠ Block.idOf address ∧
          (addBlock w.graph address).addEdge above (Block.idOf address) 0 = .ok w'.graph) := by
  obtain ⟨g, current⟩ := w
  cases current with
  | none => cases hok; exact ⟨rfl, .inl rfl⟩
  | some above =>
    simp only [enterLabel] at hok
    split at hok
    · cases hok
      exact ⟨rfl, .inl rfl⟩
    · next hne =>
      obtain ⟨h, hadd, hok⟩ := bind_eq_ok.1 hok
      cases hok
      exact ⟨rfl, .inr ⟨above, rfl, hne, hadd⟩⟩

theorem append_eq_ok (hg : w.graph.Consistent) (hok : w.append i = .ok (w', id)) :
    w' = ⟨w.graph.modify id (·.push i), some id⟩ ∧
      (w.current = some id ∨
        w.current = none ∧ id = Block.idOf i.address ∧ w.graph.contains id = true) := by
  unfold append blockOf at hok
  cases hcurrent : w.current with
  | some above =>
    rw [hcurrent] at hok
    cases hok
    exact ⟨rfl, .inl rfl⟩
  | none =>
    rw [hcurrent] at hok
    cases hid : w.graph.contains (Block.idOf i.address) with
    | false =>
      rw [Graph.node, Graph.Consistent.node?_eq_none hid] at hok
      cases hok
    | true =>
      obtain ⟨n, -, hn, hnid⟩ := hg.node?_eq_some hid
      rw [Graph.node, hn] at hok
      cases hok
      dsimp only
      rw [hnid]
      exact ⟨rfl, .inr ⟨rfl, rfl, hid⟩⟩

theorem endBlock_eq_ok (hok : w.endBlock i = .ok w') :
    ∃ v id target, w.append i = .ok (v, id) ∧ i.staticTarget = .ok target ∧
      ((i.has .unconditional = true ∧ w'.current = none ∧
          (addBlock v.graph target).addEdge id (Block.idOf target) 0 = .ok w'.graph) ∨
        (i.has .unconditional = false ∧ w'.current = some (Block.idOf i.nextAddress) ∧
          ∃ g, (addBlock (addBlock v.graph i.nextAddress) target).addEdge id
              (Block.idOf i.nextAddress) Edge.notTaken = .ok g ∧
            g.addEdge id (Block.idOf target) Edge.taken = .ok w'.graph)) := by
  unfold endBlock at hok
  obtain ⟨⟨v, id⟩, happ, hok⟩ := bind_eq_ok.1 hok
  obtain ⟨target, ht, hok⟩ := bind_eq_ok.1 hok
  refine ⟨v, id, target, happ, ht, ?_⟩
  split at hok
  · next huncond =>
    obtain ⟨h, hadd, hok⟩ := bind_eq_ok.1 hok
    cases hok
    exact .inl ⟨huncond, rfl, hadd⟩
  · next huncond =>
    obtain ⟨g, hadd, hok⟩ := bind_eq_ok.1 hok
    obtain ⟨h, hadd', hok⟩ := bind_eq_ok.1 hok
    cases hok
    exact .inr ⟨by simpa using huncond, rfl, g, hadd, hadd'⟩

theorem feed_eq_ok (hok : w.feed labels i = .ok w') :
    ∃ v, (v = w ∨ w.enterLabel i.address = .ok v) ∧
      (i.has .branch = true ∧ v.endBlock i = .ok w' ∨
        i.has .branch = false ∧ ∃ id, v.append i = .ok (w', id)) := by
  have hrest : ∀ v : Walk,
      (if i.has .branch then v.endBlock i else (v.append i).map (·.1)) = .ok w' →
      (i.has .branch = true ∧ v.endBlock i = .ok w' ∨
        i.has .branch = false ∧ ∃ id, v.append i = .ok (w', id)) := by
    intro v hv
    split at hv
    · next hbranch => exact .inl ⟨hbranch, hv⟩
    · next hbranch =>
      cases happ : v.append i with
      | error e => rw [happ] at hv; cases hv
      | ok p =>
        rw [happ] at hv
        cases hv
        exact .inr ⟨by simpa using hbranch, p.2, rfl⟩
  unfold feed at hok
  by_cases hlabel : labels.contains i.address = true
  · simp only [hlabel, if_true] at hok
    cases hv : w.enterLabel i.address with
    | error e =>
      rw [hv] at hok
      split at hok <;> cases hok
    | ok v =>
      rw [hv] at hok
      exact ⟨v, .inr rfl, hrest v hok⟩
  · simp only [hlabel] at hok
    exact ⟨w, .inl rfl, hrest w hok⟩

end Inversion

/-- What holds during the walk: the graph is built from its operations, the walk stands in a
block of it, and the blocks have the instructions that were taken. -/
structure Holds (w : Walk) (entry : String) (taken : List Instruction) : Prop where
  built : w.graph.Built
  entry_eq : w.graph.entry = some entry
  current_mem : ∀ id, w.current = some id → w.graph.contains id = true
  perm_code : (code w.graph).Perm taken

section Keeps

variable {w w' : Walk} {i : Instruction} {address : Address} {id entry : String}
  {taken : List Instruction} {labels : Std.HashSet Address}

theorem Holds.start (address : Address) :
    (BlockGraph.start address).Holds (Block.idOf address) [] := by
  have hmem : (addBlock .empty address).contains (Block.idOf address) = true := by
    simp [contains_addBlock]
  refine ⟨.setEntry (.insert _ _ .empty) (if_pos hmem), rfl, ?_, ?_⟩
  · rintro id ⟨rfl⟩
    exact hmem
  · have hcode : code (BlockGraph.start address).graph = [] := code_addBlock .empty address
    rw [hcode]

theorem Holds.enterLabel (h : w.Holds entry taken) (hok : w.enterLabel address = .ok w') :
    w'.Holds entry taken := by
  obtain ⟨hcurrent, hgraph⟩ := enterLabel_eq_ok hok
  have hbuilt : (addBlock w.graph address).Built := .insert _ _ h.built
  have hhere : (addBlock w.graph address).contains (Block.idOf address) = true := by
    simp [contains_addBlock]
  rcases hgraph with hgraph | ⟨above, -, -, hadd⟩
  · refine ⟨hgraph ▸ hbuilt, ?_, ?_, ?_⟩
    · rw [hgraph, entry_addBlock, h.entry_eq]
    · rintro id hid
      rw [hcurrent] at hid
      cases hid
      rw [hgraph, hhere]
    · rw [hgraph, code_addBlock]
      exact h.perm_code
  · obtain ⟨-, -, -, -, -, -, hentry, -⟩ := Graph.addEdge_eq_ok hadd
    refine ⟨.addEdge hbuilt hadd, ?_, ?_, ?_⟩
    · rw [hentry, entry_addBlock, h.entry_eq]
    · rintro id hid
      rw [hcurrent] at hid
      cases hid
      rw [Graph.contains_of_addEdge hadd, hhere]
    · rw [code_addEdge hadd, code_addBlock]
      exact h.perm_code

theorem Holds.append (h : w.Holds entry taken) (hok : w.append i = .ok (w', id)) :
    w'.Holds entry (taken ++ [i]) := by
  obtain ⟨rfl, hid⟩ := append_eq_ok h.built.consistent hok
  have hmem : w.graph.contains id = true := by
    rcases hid with hid | ⟨-, -, hid⟩
    · exact h.current_mem id hid
    · exact hid
  refine ⟨Graph.Built.modify id (·.push i) h.built, ?_, ?_, ?_⟩
  · rw [Graph.entry_modify, h.entry_eq]
  · rintro other ⟨rfl⟩
    rw [Graph.contains_modify, hmem]
  · exact (perm_code_modify h.built.consistent hmem i).trans (h.perm_code.append_right [i])

theorem Holds.endBlock (h : w.Holds entry taken) (hok : w.endBlock i = .ok w') :
    w'.Holds entry (taken ++ [i]) := by
  obtain ⟨v, id, target, happ, -, hends⟩ := endBlock_eq_ok hok
  have hv := h.append happ
  rcases hends with ⟨-, hcurrent, hadd⟩ | ⟨-, hcurrent, g, hadd, hadd'⟩
  · obtain ⟨-, -, -, -, -, -, hentry, -⟩ := Graph.addEdge_eq_ok hadd
    refine ⟨.addEdge (.insert _ _ hv.built) hadd, ?_, ?_, ?_⟩
    · rw [hentry, entry_addBlock, hv.entry_eq]
    · intro id hid
      rw [hcurrent] at hid
      cases hid
    · rw [code_addEdge hadd, code_addBlock]
      exact hv.perm_code
  · obtain ⟨-, -, -, -, -, -, hentry, -⟩ := Graph.addEdge_eq_ok hadd
    obtain ⟨-, -, -, -, -, -, hentry', -⟩ := Graph.addEdge_eq_ok hadd'
    refine ⟨.addEdge (.addEdge (.insert _ _ (.insert _ _ hv.built)) hadd) hadd', ?_, ?_, ?_⟩
    · rw [hentry', hentry, entry_addBlock, entry_addBlock, hv.entry_eq]
    · intro id hid
      rw [hcurrent] at hid
      cases hid
      rw [Graph.contains_of_addEdge hadd', Graph.contains_of_addEdge hadd]
      simp [contains_addBlock]
    · rw [code_addEdge hadd', code_addEdge hadd, code_addBlock, code_addBlock]
      exact hv.perm_code

theorem Holds.feed (h : w.Holds entry taken) (hok : w.feed labels i = .ok w') :
    w'.Holds entry (taken ++ [i]) := by
  obtain ⟨v, hv, hrest⟩ := feed_eq_ok hok
  have hv : v.Holds entry taken := by
    rcases hv with rfl | hv
    · exact h
    · exact h.enterLabel hv
  rcases hrest with ⟨-, hends⟩ | ⟨-, id, happ⟩
  · exact hv.endBlock hends
  · exact hv.append happ

theorem Holds.feedAll (h : w.Holds entry taken) {is : List Instruction}
    (hok : is.foldlM (Walk.feed labels) w = .ok w') : w'.Holds entry (taken ++ is) := by
  induction is generalizing w taken with
  | nil =>
    cases hok
    simpa using h
  | cons i rest ih =>
    rw [List.foldlM_cons] at hok
    obtain ⟨v, hfeed, hok⟩ := bind_eq_ok.1 hok
    simpa using ih (h.feed hfeed) hok

end Keeps

end Walk

theorem chooseExit_eq_ok {g h : BlockGraph} (hok : chooseExit g = .ok h) :
    ∃ id, h = { g with exit := id } ∧
      (id = g.entry ∨ ∃ n ∈ g.nodes, id = some n.id ∧ n.outgoing = #[]) := by
  unfold chooseExit at hok
  split at hok
  · cases hok
    exact ⟨_, rfl, .inl rfl⟩
  · next n hends =>
    cases hok
    have hmem : n ∈ deadEnds g := by rw [hends]; exact List.mem_singleton_self n
    obtain ⟨hmem, hfree⟩ := List.mem_filter.1 hmem
    rw [Bool.and_eq_true] at hfree
    exact ⟨_, rfl, .inr ⟨n, Array.mem_toList_iff.1 hmem, rfl, by simpa using hfree.1⟩⟩
  · cases hok

/-- The graph of a routine is built from the operations of graphs, it is entered at the
address of the routine, and its blocks have the instructions of the routine, each once. -/
theorem ofRoutine_spec {r : Routine} {g : BlockGraph} (hok : (ofRoutine r).outcome = .ok g) :
    g.Built ∧ g.entry = some (Block.idOf r.address) ∧ g.code.Perm r.instructions.toList := by
  rw [ofRoutine, Traced.outcome_during, during_eq_ok] at hok
  simp only [Traced.outcome_bind, Traced.outcome_ofExcept, Walk.outcome_feedAll] at hok
  obtain ⟨names, -, hok⟩ := bind_eq_ok.1 hok
  obtain ⟨w, hwalk, hok⟩ := bind_eq_ok.1 hok
  have hw := (Walk.Holds.start r.address).feedAll hwalk
  rw [List.nil_append] at hw
  obtain ⟨id, rfl, hid⟩ := chooseExit_eq_ok hok
  refine ⟨?_, hw.entry_eq, hw.perm_code⟩
  obtain ⟨exit, rfl, hmem⟩ : ∃ exit, id = some exit ∧ w.graph.contains exit = true := by
    rcases hid with rfl | ⟨n, hn, rfl, -⟩
    · exact ⟨_, hw.entry_eq, hw.built.consistent.entry_mem _ hw.entry_eq⟩
    · exact ⟨n.id, rfl, hw.built.consistent.mem_ids.1
        (List.mem_map_of_mem (Array.mem_toList_iff.2 hn))⟩
  exact .setExit hw.built (if_pos hmem)

section Straight

/-- The graph of one block, which is its entry. -/
def single (address : Address) (instructions : Array Instruction) (exit : Option String) :
    BlockGraph where
  nodes := #[{ id := Block.idOf address, data := { address, instructions } }]
  index := ({} : Std.HashMap String Nat).insert (Block.idOf address) 0
  entry := some (Block.idOf address)
  exit := exit

theorem start_eq (address : Address) :
    start address = ⟨single address #[] none, some (Block.idOf address)⟩ := by
  simp [start, addBlock, Graph.insert, Graph.empty, Graph.contains, single]

theorem feed_single {address : Address} {instructions : Array Instruction} {i : Instruction}
    (hi : i.has .branch = false) :
    Walk.feed {} ⟨single address instructions none, some (Block.idOf address)⟩ i =
      .ok ⟨single address (instructions.push i) none, some (Block.idOf address)⟩ := by
  simp [Walk.feed, hi, Walk.append, Walk.blockOf, Graph.modify, single, Block.push, Except.map,
    bind, Except.bind, pure, Except.pure]

theorem foldlM_feed_single {address : Address} {instructions : Array Instruction}
    {is : List Instruction} (his : ∀ i ∈ is, i.has .branch = false) :
    is.foldlM (Walk.feed {}) ⟨single address instructions none, some (Block.idOf address)⟩ =
      .ok ⟨single address (instructions ++ is) none, some (Block.idOf address)⟩ := by
  induction is generalizing instructions with
  | nil => simp; rfl
  | cons i rest ih =>
    rw [List.foldlM_cons, feed_single (his i List.mem_cons_self)]
    refine (ih fun j hj => his j (List.mem_cons_of_mem i hj)).trans ?_
    simp

theorem ofRoutine_of_no_branch {r : Routine}
    (hr : ∀ i ∈ r.instructions.toList, i.has .branch = false) :
    (ofRoutine r).outcome =
      .ok (single r.address r.instructions (some (Block.idOf r.address))) := by
  have hlabels : labels r.instructions.toList = .ok {} := by
    have hnone : r.instructions.toList.filter (·.has .branch) = [] := by
      rw [List.filter_eq_nil_iff]
      simpa using hr
    rw [labels, hnone]
    rfl
  rw [ofRoutine, Traced.outcome_during, during_eq_ok]
  simp only [Traced.outcome_bind, Traced.outcome_ofExcept, hlabels, Walk.outcome_feedAll, start_eq]
  rw [bind_eq_ok]
  refine ⟨_, rfl, ?_⟩
  rw [foldlM_feed_single hr]
  simp [bind, Except.bind, chooseExit, deadEnds, single]

end Straight

end CartFlow.BlockGraph
