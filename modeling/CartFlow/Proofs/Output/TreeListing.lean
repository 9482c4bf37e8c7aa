import CartFlow.Proofs.Flow.BlockNames
import CartFlow.Proofs.Output.RoutineListing
import CartFlow.Proofs.Report.LaterStages

/-!
# The listing of a dominator tree

The walk that writes a dominator tree keeps no record of the blocks it has written. It ends
nevertheless, for every graph with a dominator tree: an edge enters no block twice and the entry
not at all, so no block comes back. The blocks that the entry leads to are among those written,
each indented by its dominators, and each behind its parent. A line shows the address of its block;
the blocks of a routine have different ones.
-/
namespace CartFlow

open Text

/-- A line with the address of a block, two blanks in front of it for each step of the depth. -/
def BlockGraph.ShowsBlock (g : BlockGraph) (line : String) : String × Nat → Prop
  | (id, depth) => ∃ b, g.data? id = some b ∧
      line = String.ofList (List.replicate (2 * depth) ' ') ++ hexAddress b.address ++ "\n"

theorem Listing.deliver_tree {g tree : BlockGraph} (htree : tree.Consistent)
    (hdata : ∀ id, tree.data? id = g.data? id)
    (houtline : ∀ id ∈ tree.outline.map (·.1), tree.contains id = true) :
    ∃ lines, List.Forall₂ g.ShowsBlock lines tree.outline ∧
      (Listing.tree tree).deliver (fun _ => true) = (String.join lines, none) := by
  apply Document.deliver_concat_map
  rintro ⟨id, depth⟩ hmem
  obtain ⟨n, -, hn, -⟩ := htree.node?_eq_some (houtline id (List.mem_map_of_mem hmem))
  have hnode : tree.node id = .ok n := by rw [Graph.node, hn]
  refine ⟨_, ?_, n.data, ?_, rfl⟩
  · dsimp only
    rw [hnode]
    exact Document.deliver_part "tree node" _
  · rw [← hdata, Graph.data?, hn]
    rfl

namespace BlockGraph

/-- The addresses of some blocks, each once. -/
def Addresses (g : BlockGraph) (ids : List String) (addresses : List Address) : Prop :=
  addresses.map Block.idOf = ids ∧ addresses.Nodup ∧
    ∀ a ∈ addresses, ∃ b, g.data? (Block.idOf a) = some b ∧ b.address = a

theorem Named.exists_addresses {g : BlockGraph} (hnamed : g.Named) {ids : List String}
    (hnodup : ids.Nodup) (hids : ∀ id ∈ ids, ∃ b, g.data? id = some b) :
    ∃ addresses, g.Addresses ids addresses := by
  have hrange : ids ∈ Set.range (List.map Block.idOf) := by
    rw [Set.range_list_map]
    intro id hid
    obtain ⟨b, hb⟩ := hids id hid
    exact ⟨b.address, (hnamed id b hb).symm⟩
  obtain ⟨addresses, rfl⟩ := hrange
  refine ⟨addresses, rfl, hnodup.of_map, fun a ha => ?_⟩
  obtain ⟨b, hb⟩ := hids _ (List.mem_map_of_mem ha)
  exact ⟨b, hb, (Block.idOf_inj.1 (hnamed _ b hb)).symm⟩

/-- What is written of the dominator tree of a graph. The walk ends, and everything it took is
written, a block at most once, and no address twice if blocks are named by their addresses. Every
block that the entry leads to is among it, indented by its other dominators, and every block but
the entry stands behind its parent. -/
structure ListsDominators (g tree : BlockGraph) (entry : String) : Prop where
  walk : tree.Unfolds [(entry, 0)] tree.outline
  written : ∃ lines, List.Forall₂ g.ShowsBlock lines tree.outline ∧
    (Listing.tree tree).deliver (fun _ => true) = (String.join lines, none)
  nodup : (tree.outline.map (·.1)).Nodup
  addresses : g.Named → ∃ addresses, g.Addresses (tree.outline.map (·.1)) addresses
  reached : ∀ b p, g.Way entry b p → ∃ others : Finset String,
    (∀ a, a ∈ others ↔ a ≠ b ∧ g.OnEveryWay entry a b) ∧ (b, others.card) ∈ tree.outline
  behind_parent : ∀ before b after, tree.outline.map (·.1) = before ++ b :: after → b ≠ entry →
    ∃ u ∈ before, tree.predecessorIds b = [u]

variable {g tree : BlockGraph} {entry : String} {limit : Int}

theorem listsDominators_of_dominatorTree (hg : g.Consistent) (hentry : g.entry = some entry)
    (htree : (g.dominatorTree limit).outcome = .ok tree) : g.ListsDominators tree entry := by
  have hf := Graph.Frame.fits_ofGraph hg (hg.entry_mem entry hentry)
  obtain ⟨sets, -, hlinks⟩ := Graph.dominatorTree_eq_ok hg hentry htree
  have hrooted := hlinks.rooted hf
  have houtline : ∀ id ∈ tree.outline.map (·.1), tree.contains id = true :=
    fun id hid => hrooted.contains_of_mem_outline hlinks.entry_eq hid
  have hnodup : (tree.outline.map (·.1)).Nodup := by
    simpa using (hrooted.taken_outline hlinks.entry_eq).nodup
  refine ⟨hrooted.unfolds_outline hlinks.entry_eq,
    Listing.deliver_tree hlinks.consistent hlinks.data_eq houtline, hnodup, ?_, ?_, ?_⟩
  · intro hnamed
    refine hnamed.exists_addresses hnodup fun id hid => ?_
    obtain ⟨n, -, hn, -⟩ := hlinks.consistent.node?_eq_some (houtline id hid)
    exact ⟨n.data, by rw [← hlinks.data_eq, Graph.data?, hn]; rfl⟩
  · intro b p hp
    exact Graph.exists_mem_outline hg hentry htree hp
  · intro before b after hout hne
    obtain ⟨u, hu, hlink⟩ := hrooted.exists_linked_before hlinks.entry_eq hout hne
    obtain ⟨e, he, rfl⟩ := hrooted.predecessors_of_linked hlink
    exact ⟨e.source, hu, by rw [Graph.predecessorIds, he]; rfl⟩

/-- A graph with a dominator tree has an entry. The tree spans the graph, and its listing is written
in full. The blocks of a routine are named by their addresses. -/
theorem listing_of_dominatorTree (hg : g.Built)
    (htree : (g.dominatorTree limit).outcome = .ok tree) :
    ∃ entry, g.entry = some entry ∧ g.Spans tree entry ∧ g.ListsDominators tree entry ∧
      ∀ r, (ofRoutine r).outcome = .ok g → g.Named := by
  have hg := hg.consistent
  cases hentry : g.entry with
  | none =>
    rw [Graph.dominatorTree, hentry] at htree
    cases htree
  | some entry =>
    have hf := Graph.Frame.fits_ofGraph hg (hg.entry_mem entry hentry)
    obtain ⟨sets, -, hlinks⟩ := Graph.dominatorTree_eq_ok hg hentry htree
    exact ⟨entry, rfl, hlinks.spans hg hf, listsDominators_of_dominatorTree hg hentry htree,
      fun _ => named_of_ofRoutine⟩

/-- In the listing of a graph whose blocks are named by their addresses, a block has a line with its
address. -/
theorem ListsDominators.exists_line (h : g.ListsDominators tree entry) (hnamed : g.Named)
    {a : Address} {depth : Nat} (hmem : (Block.idOf a, depth) ∈ tree.outline) :
    ∃ lines, (Listing.tree tree).deliver (fun _ => true) = (String.join lines, none) ∧
      String.ofList (List.replicate (2 * depth) ' ') ++ hexAddress a ++ "\n" ∈ lines := by
  obtain ⟨lines, hlines, hdeliver⟩ := h.written
  refine ⟨lines, hdeliver, ?_⟩
  obtain ⟨hlength, hshows⟩ := List.forall₂_iff_get.1 hlines
  obtain ⟨k, hk, hget⟩ := List.mem_iff_getElem.1 hmem
  have hline := hshows k (hlength ▸ hk) hk
  rw [List.get_eq_getElem, List.get_eq_getElem, hget] at hline
  obtain ⟨b, hb, heq⟩ := hline
  obtain rfl : a = b.address := Block.idOf_inj.1 (hnamed _ b hb)
  exact heq ▸ List.getElem_mem _

namespace Detached

/-! A branch over another one to a loop. Behind the loop two blocks lead to each other. -/

def routine : Routine where
  address := 0xC00000
  instructions := #[⟨0xC00000, .bne, ⟨0x02, 1⟩⟩, ⟨0xC00002, .bra, ⟨0x00, 1⟩⟩,
    ⟨0xC00004, .bra, ⟨0xFE, 1⟩⟩, ⟨0xC00006, .bra, ⟨0x00, 1⟩⟩, ⟨0xC00008, .bra, ⟨0xFC, 1⟩⟩]

def links : List (Address × Address) :=
  [(0xC00000, 0xC00002), (0xC00000, 0xC00004), (0xC00002, 0xC00004), (0xC00004, 0xC00004),
    (0xC00006, 0xC00008), (0xC00008, 0xC00006)]

theorem exists_graph : ∃ g, (ofRoutine routine).outcome = .ok g := by
  apply exists_ofRoutine
  · decide +kernel
  · decide +kernel

theorem linked_iff {g : BlockGraph} (hg : (ofRoutine routine).outcome = .ok g) {u v : String} :
    g.Linked u v ↔ ∃ l ∈ links, u = Block.idOf l.1 ∧ v = Block.idOf l.2 := by
  have hlinks : (sketchOf routine).links.map (fun l => (l.source, l.target)) = links := by
    decide +kernel
  rw [← hlinks, (depicts_of_ofRoutine hg).1.linked_iff]
  simp only [List.mem_map, exists_exists_and_eq_and]

/-- The blocks in front of the loop and the loop are not left. -/
theorem mem_of_way {g : BlockGraph} (hg : (ofRoutine routine).outcome = .ok g) {v : String}
    {p : List String} (hp : g.Way (Block.idOf 0xC00000) v p) :
    v ∈ [0xC00000, 0xC00002, 0xC00004].map Block.idOf := by
  apply hp.mem_of_closed _ (by simp)
  intro u hu v hlink
  obtain ⟨l, hl, rfl, rfl⟩ := (linked_iff hg).1 hlink
  simp only [List.mem_map, Block.idOf_inj, exists_eq_right] at hu ⊢
  simp only [links, List.mem_cons, List.not_mem_nil, or_false] at hl
  revert hu
  rcases hl with rfl | rfl | rfl | rfl | rfl | rfl <;> decide

end Detached

/-- One block in front of the loop dominates it, the other does not, so its line begins with two
blanks. The blocks behind the loop are on a cycle that no way from the entry leads to. -/
theorem listing_of_detached :
    ∃ g tree lines, (ofRoutine Detached.routine).outcome = .ok g ∧ g.Named ∧
      (g.dominatorTree 0).outcome = .ok tree ∧ g.Spans tree (Block.idOf 0xC00000) ∧
      g.ListsDominators tree (Block.idOf 0xC00000) ∧ (Block.idOf 0xC00004, 1) ∈ tree.outline ∧
      (Listing.tree tree).deliver (fun _ => true) = (String.join lines, none) ∧
      "  C00004\n" ∈ lines ∧
      g.Linked (Block.idOf 0xC00006) (Block.idOf 0xC00008) ∧
      g.Linked (Block.idOf 0xC00008) (Block.idOf 0xC00006) ∧
      ∀ p, ¬ g.Way (Block.idOf 0xC00000) (Block.idOf 0xC00006) p := by
  obtain ⟨g, hg⟩ := Detached.exists_graph
  obtain ⟨hbuilt, hentry, -⟩ := ofRoutine_spec hg
  obtain ⟨tree, htree⟩ : ∃ tree, (g.dominatorTree 0).outcome = .ok tree :=
    (dominatorTree_of_ofRoutine hg 0).resolve_right (by simp)
  obtain ⟨entry, heq, hspans, hlists, hnamed⟩ := listing_of_dominatorTree hbuilt htree
  obtain rfl : Block.idOf 0xC00000 = entry := Option.some.inj (hentry.symm.trans heq)
  have hlink : ∀ l ∈ Detached.links, g.Linked (Block.idOf l.1) (Block.idOf l.2) :=
    fun l hl => (Detached.linked_iff hg).2 ⟨l, hl, rfl, rfl⟩
  have hloop : (Block.idOf 0xC00004, 1) ∈ tree.outline := by
    have hover : g.Way (Block.idOf 0xC00000) (Block.idOf 0xC00004) _ :=
      .step (hlink (0xC00000, 0xC00004) (by decide)) (.here _)
    obtain ⟨others, hothers, hmem⟩ := hlists.reached _ _ hover
    have hsingle : others = {Block.idOf 0xC00000} := by
      ext a
      rw [hothers, Finset.mem_singleton]
      constructor
      · rintro ⟨hne, ha⟩
        simpa [hne] using ha _ hover
      · rintro rfl
        refine ⟨?_, Graph.OnEveryWay.entry_left _ _ _⟩
        rw [Ne, Block.idOf_inj]
        decide
    rwa [hsingle, Finset.card_singleton] at hmem
  have hnamed := hnamed _ hg
  obtain ⟨lines, hdeliver, hline⟩ := hlists.exists_line hnamed hloop
  have htext : String.ofList (List.replicate (2 * 1) ' ') ++ hexAddress 0xC00004 ++ "\n" =
      "  C00004\n" := by decide +kernel
  refine ⟨g, tree, lines, hg, hnamed, htree, hspans, hlists, hloop, hdeliver, htext ▸ hline,
    hlink (0xC00006, 0xC00008) (by decide), hlink (0xC00008, 0xC00006) (by decide), ?_⟩
  intro p hp
  have hmem := Detached.mem_of_way hg hp
  simp only [List.mem_map, Block.idOf_inj, exists_eq_right] at hmem
  revert hmem
  decide

end BlockGraph

end CartFlow
