import CartFlow.Output.Listing
import CartFlow.Proofs.Computations
import CartFlow.Proofs.Flow.BlockNames
import CartFlow.Proofs.Flow.Structure
import CartFlow.Proofs.Graph.Outline
import CartFlow.Report.Analysis

/-!
# The stages behind a block graph

Once the graph of a routine is built, nothing but a limit of passes keeps the later stages from
their results. An edge enters every block but the entry, so the dominators are found, and each
block but the entry has one other than itself, if only because the entry is on every way to it.
The tree has the blocks of the graph. Its outline, the loops and the exit therefore name blocks
only, also those that no way from the entry leads to, and no look-up fails.
-/
namespace CartFlow

theorem Document.failure_concat {ds : List Document} (h : ∀ d ∈ ds, d.failure = none) :
    (concat ds).failure = none := by
  induction ds with
  | nil => rfl
  | cons d ds ih =>
    rw [List.forall_mem_cons] at h
    change (append d (concat ds)).failure = none
    rw [append, h.1]
    exact ih h.2

section Answers

variable (calls : List DirectCall) {blocks tree : BlockGraph} {loops : List Loop}
  {entry exit id : String} {limit : Int}

theorem Analysis.exists_nodeMakesCall {g : BlockGraph} (hg : g.Consistent)
    (hid : g.contains id = true) : ∃ answer, nodeMakesCall calls g id = .ok answer := by
  obtain ⟨n, hn⟩ := hg.node_eq_ok hid
  exact ⟨makesCall calls n.data, by rw [nodeMakesCall, hn]; rfl⟩

/-- Whether there are conditional calls is answered for a graph with an exit. -/
theorem Analysis.exists_hasConditionalCalls (hg : blocks.Consistent)
    (hentry : blocks.entry = some entry) (hexit : blocks.exit = some exit)
    (htree : (blocks.dominatorTree limit).outcome = .ok tree) :
    ∃ answer, hasConditionalCalls calls blocks tree = .ok answer := by
  have hf := Graph.Frame.fits_ofGraph hg (hg.entry_mem entry hentry)
  obtain ⟨sets, -, hlinks⟩ := Graph.dominatorTree_eq_ok hg hentry htree
  have hout : tree.contains exit = true := by
    rw [hlinks.contains_eq]
    exact hg.exit_mem exit hexit
  unfold hasConditionalCalls
  split
  · exact ⟨false, rfl⟩
  · apply exists_anyM
    intro id hid
    have hid := (hlinks.rooted hf).contains_of_mem_outline hlinks.entry_eq hid
    obtain ⟨calling, hcalling⟩ := exists_nodeMakesCall calls hlinks.consistent hid
    rw [hcalling, hexit, Option.getD_some, Graph.dominates_eq hlinks.consistent hid hout]
    cases calling with
    | true => exact ⟨_, rfl⟩
    | false => exact ⟨_, rfl⟩

/-- Whether there are calls in loops is answered if the loops have nodes of the graph only. -/
theorem Analysis.exists_hasCallsInLoops (hg : blocks.Consistent)
    (hloops : ∀ l ∈ loops, ∀ id ∈ l.nodes, blocks.contains id = true) :
    ∃ answer, hasCallsInLoops calls blocks loops = .ok answer := by
  apply exists_anyM
  intro id hid
  obtain ⟨l, hl, hid⟩ := List.mem_flatMap.1 hid
  exact exists_nodeMakesCall calls hg (hloops l hl id hid)

end Answers

section Listings

variable {g tree : BlockGraph} {loops : List Loop}

theorem Listing.failure_tree (htree : tree.Consistent)
    (houtline : ∀ id ∈ tree.outline.map (·.1), tree.contains id = true) :
    (Listing.tree tree).failure = none := by
  apply Document.failure_concat
  intro d hd
  obtain ⟨⟨id, depth⟩, hmem, rfl⟩ := List.mem_map.1 hd
  obtain ⟨n, hn⟩ := htree.node_eq_ok (houtline id (List.mem_map_of_mem hmem))
  dsimp only
  rw [hn]
  rfl

theorem Listing.failure_loops (hg : g.Consistent)
    (hloops : ∀ l ∈ loops, ∀ id ∈ l.listed, g.contains id = true) :
    (Listing.loops g loops).failure = none := by
  unfold Listing.loops
  split
  · rfl
  · apply Document.failure_concat
    intro d hd
    obtain ⟨⟨l, k⟩, hmem, rfl⟩ := List.mem_map.1 hd
    have hl := hloops l (List.fst_mem_of_mem_zipIdx hmem)
    have hnodes : ∃ nodes, l.listed.mapM (fun id => during (.loopNumber k) (g.node id)) =
        .ok nodes := by
      apply exists_mapM
      intro id hid
      obtain ⟨n, hn⟩ := hg.node_eq_ok (hl id hid)
      exact ⟨n, by rw [hn, during_ok]⟩
    obtain ⟨nodes, hnodes⟩ := hnodes
    dsimp only
    rw [Listing.loop, hnodes]
    rfl

end Listings

section Cancelling

variable {α β : Type}

theorem Traced.outcome_bind_of_ok {x : Traced α} {a : α} (hx : x.outcome = .ok a)
    (f : α → Traced β) : (x >>= f).outcome = (f a).outcome := by
  rw [outcome_bind, hx]
  rfl

/-- Only whoever is not always told to go on is told to stop, which is a cancellation. -/
theorem Patience.ask_eq_error {p : Patience} {e : Failure} (h : p.ask = .error e) :
    e.cause = .cancelled ∧ p.remaining ≠ none := by
  unfold ask at h
  split at h
  · cases h
  · next hzero =>
    cases h
    exact ⟨rfl, by simp [hzero]⟩
  · cases h

/-- A computation that asks first fails by a cancellation, or behind the question. -/
theorem Patience.fails_behind_ask {p : Patience} {f : Patience → Traced α} {e : Failure}
    (he : (Traced.ofExcept p.ask >>= f).outcome = .error e) :
    e.cause = .cancelled ∨ ∃ q, (f q).outcome = .error e := by
  rw [Traced.outcome_bind, Traced.outcome_ofExcept] at he
  cases hask : p.ask with
  | ok q =>
    rw [hask] at he
    exact .inr ⟨q, he⟩
  | error reason =>
    rw [hask] at he
    cases he
    exact .inl (ask_eq_error hask).1

end Cancelling

namespace BlockGraph

/-- The stages behind a dominator tree have their results, and the listings are written out in
full on a device that refuses nothing. The walk from the entry down the tree ends with no node left
on its stack. -/
structure Completes (g tree : BlockGraph) (entry : String) (loops : List Loop) : Prop where
  loops_eq : g.loops tree = .ok loops
  walk : tree.Taken entry (tree.outline.map (·.1)) []
  exists_exit : ∃ exit, g.exit = some exit ∧ tree.contains exit = true
  exists_conditional : ∀ calls, ∃ answer, Analysis.hasConditionalCalls calls g tree = .ok answer
  exists_inLoop : ∀ calls, ∃ answer, Analysis.hasCallsInLoops calls g loops = .ok answer
  deliver_tree : (Listing.tree tree).deliver (fun _ => true) = ((Listing.tree tree).text, none)
  deliver_loops :
    (Listing.loops g loops).deliver (fun _ => true) = ((Listing.loops g loops).text, none)

section Stages

variable {r : Routine} {g tree : BlockGraph} {limit : Int}

theorem exists_exit_of_ofRoutine (hok : (ofRoutine r).outcome = .ok g) :
    ∃ exit, g.exit = some exit := by
  obtain ⟨-, hentry, -⟩ := ofRoutine_spec hok
  rcases exits_of_ofRoutine hok with ⟨-, hexit⟩ | ⟨id, -, hexit⟩
  · exact ⟨_, hexit.trans hentry⟩
  · exact ⟨id, hexit⟩

theorem exists_completes (hok : (ofRoutine r).outcome = .ok g)
    (htree : (g.dominatorTree limit).outcome = .ok tree) :
    ∃ loops, g.Completes tree (Block.idOf r.address) loops := by
  obtain ⟨hbuilt, hentry, -⟩ := ofRoutine_spec hok
  have hg := hbuilt.consistent
  have hf := Graph.Frame.fits_ofGraph hg (hg.entry_mem _ hentry)
  obtain ⟨sets, -, hlinks⟩ := Graph.dominatorTree_eq_ok hg hentry htree
  obtain ⟨exit, hexit⟩ := exists_exit_of_ofRoutine hok
  obtain ⟨found, hfound, -⟩ := Graph.exists_loops hg hentry htree
  have hloops := Graph.contains_of_mem_loops hg hentry htree hfound
  have hlisted : ∀ l ∈ g.selfLoops ++ found, ∀ id ∈ l.listed, g.contains id = true := by
    intro l hl id hid
    rw [listed_of_mem_loops hok htree hfound hl] at hid
    exact hloops l hl id (List.mem_mergeSort.1 hid)
  have hrooted := hlinks.rooted hf
  refine ⟨g.selfLoops ++ found, hfound, hrooted.taken_outline hlinks.entry_eq, ?_, ?_, ?_, ?_, ?_⟩
  · exact ⟨exit, hexit, by rw [hlinks.contains_eq]; exact hg.exit_mem exit hexit⟩
  · intro calls
    exact Analysis.exists_hasConditionalCalls calls hg hentry hexit htree
  · intro calls
    exact Analysis.exists_hasCallsInLoops calls hg hloops
  · rw [Document.deliver_all, Listing.failure_tree hlinks.consistent
      fun id hid => hrooted.contains_of_mem_outline hlinks.entry_eq hid]
  · rw [Document.deliver_all, Listing.failure_loops hg hlisted]

/-- Nothing but a limit keeps the dominator tree of the graph of a routine from being found. -/
theorem dominatorTree_of_ofRoutine (hok : (ofRoutine r).outcome = .ok g) (limit : Int) :
    (∃ tree, (g.dominatorTree limit).outcome = .ok tree) ∨
      0 < limit ∧ (g.dominatorTree limit).outcome = fail (.passLimit limit) := by
  obtain ⟨hbuilt, hentry, -⟩ := ofRoutine_spec hok
  apply Graph.dominatorTree_cases limit hbuilt.consistent hentry
  intro id hid hne
  exact exists_linked_of_ofRoutine hok hid hne

/-- Once the graph of a routine is built, the stages are ended by a cancellation or by the limit of
passes only. -/
theorem cause_of_upTo (hok : (ofRoutine r).outcome = .ok g) {read : Traced Routine}
    (hread : read.outcome = .ok r) {last : Stage} {patience : Patience} {e : Failure}
    (he : (Findings.upTo last read limit patience).outcome = .error e) :
    e.cause = .cancelled ∨ 0 < limit ∧ e.cause = .passLimit limit := by
  -- each stage asks before it starts, and a run may end behind each of them
  unfold Findings.upTo at he
  rcases Patience.fails_behind_ask he with hcause | ⟨patience, he⟩
  · exact .inl hcause
  rw [Traced.outcome_bind_of_ok hread] at he
  split at he
  · cases he
  rcases Patience.fails_behind_ask he with hcause | ⟨patience, he⟩
  · exact .inl hcause
  rw [Traced.outcome_bind_of_ok hok] at he
  split at he
  · cases he
  rcases Patience.fails_behind_ask he with hcause | ⟨patience, he⟩
  · exact .inl hcause
  rcases dominatorTree_of_ofRoutine hok limit with ⟨tree, htree⟩ | ⟨hlimit, hfail⟩
  · have hnamed : ((g.dominatorTree limit).during .buildingTree).outcome = .ok tree := by
      rw [Traced.outcome_during, htree, during_ok]
    rw [Traced.outcome_bind_of_ok hnamed] at he
    split at he
    · cases he
    rcases Patience.fails_behind_ask he with hcause | ⟨patience, he⟩
    · exact .inl hcause
    obtain ⟨loops, hloops⟩ := exists_completes hok htree
    rw [hloops.loops_eq, during_ok] at he
    cases he
  · rw [Traced.outcome_bind, Traced.outcome_during, hfail] at he
    cases he
    exact .inr ⟨hlimit, rfl⟩

/-- Behind the graph of a routine no stage fails: without a limit of passes there is a dominator
tree, with one nothing but the limit keeps it from being found, and with the tree all stages have
their results. Among the failures of the stages are therefore none of a look-up. -/
theorem stages_of_ofRoutine (hok : (ofRoutine r).outcome = .ok g) (limit : Int) :
    (limit ≤ 0 → ∃ tree, (g.dominatorTree limit).outcome = .ok tree) ∧
      (∀ tree, (g.dominatorTree limit).outcome = .ok tree →
        ∃ loops, g.Completes tree (Block.idOf r.address) loops) ∧
      ∀ (read : Traced Routine) (last : Stage) (patience : Patience) (e : Failure),
        read.outcome = .ok r → (Findings.upTo last read limit patience).outcome = .error e →
          e.cause = .cancelled ∨ 0 < limit ∧ e.cause = .passLimit limit := by
  refine ⟨?_, fun tree htree => exists_completes hok htree, ?_⟩
  · intro hlimit
    apply (dominatorTree_of_ofRoutine hok limit).resolve_right
    rintro ⟨hpos, -⟩
    omega
  · intro read last patience e hread he
    exact cause_of_upTo hok hread he

end Stages

namespace Apart

/-! Two branches, each to itself: no edge leads from the entry to the second block. -/

def routine : Routine where
  address := 0xC00000
  instructions := #[⟨0xC00000, .bra, ⟨0xFE, 1⟩⟩, ⟨0xC00002, .bra, ⟨0xFE, 1⟩⟩]

theorem exists_graph : ∃ g, (ofRoutine routine).outcome = .ok g := by
  apply exists_ofRoutine
  · decide +kernel
  · decide +kernel

theorem eq_of_linked {g : BlockGraph} (hg : (ofRoutine routine).outcome = .ok g) {u v : String}
    (hlink : g.Linked u v) : u = v := by
  obtain ⟨l, hl, rfl, rfl⟩ := (depicts_of_ofRoutine hg).1.linked_iff.1 hlink
  have hself : ∀ l ∈ (sketchOf routine).links, l.source = l.target := by decide +kernel
  exact congrArg Block.idOf (hself l hl)

theorem linked_second {g : BlockGraph} (hg : (ofRoutine routine).outcome = .ok g) :
    g.Linked (Block.idOf 0xC00002) (Block.idOf 0xC00002) :=
  (depicts_of_ofRoutine hg).1.linked_of_mem (by decide +kernel)

end Apart

/-- The second block has no way from the entry, and is in a loop of its own. -/
theorem stages_of_apart :
    ∃ g tree loops, (ofRoutine Apart.routine).outcome = .ok g ∧
      (g.dominatorTree 0).outcome = .ok tree ∧
      g.Completes tree (Block.idOf 0xC00000) loops ∧
      (∃ l ∈ loops, Block.idOf 0xC00002 ∈ l.nodes) ∧
      ∀ p, ¬ g.Way (Block.idOf 0xC00000) (Block.idOf 0xC00002) p := by
  obtain ⟨g, hg⟩ := Apart.exists_graph
  obtain ⟨hexists, hstages, -⟩ := stages_of_ofRoutine hg 0
  obtain ⟨tree, htree⟩ := hexists (Int.le_refl 0)
  obtain ⟨loops, hloops⟩ := hstages tree htree
  refine ⟨g, tree, loops, hg, htree, hloops, ?_, ?_⟩
  · obtain ⟨hbuilt, -, -⟩ := ofRoutine_spec hg
    exact Graph.exists_loop_of_linked_self hbuilt.consistent hloops.loops_eq
      (Apart.linked_second hg)
  · intro p hp
    have hmem := hp.mem_of_closed (l := [Block.idOf 0xC00000])
      (fun u hu v hlink => Apart.eq_of_linked hg hlink ▸ hu) (List.mem_singleton_self _)
    rw [List.mem_singleton, Block.idOf_inj] at hmem
    exact absurd hmem (by decide)

end BlockGraph

end CartFlow
