import CartFlow.Proofs.Output.TreeListing
import Mathlib.Data.List.Sort

/-!
# The listing of loops

The line of a loop is made from its text: the identifiers of its blocks are sorted, joined, taken
apart again and looked up. Nothing is lost on the way. Each block of the loop is in the line once,
and the blocks are in the order of their addresses, although the identifiers are sorted as texts
and have no leading zeros.
-/
namespace CartFlow

open Text

namespace BlockGraph

/-- The line of a loop with the number that it has. The blocks in it are those of the loop, in
ascending order, and its text can be taken apart into the same blocks. -/
def ShowsLoop (g : BlockGraph) (line : String) : Loop × Nat → Prop
  | (l, k) => ∃ addresses : List Address, addresses.Pairwise (· < ·) ∧
      (addresses.map Block.idOf).Perm l.nodes ∧
      split ", " l.text = addresses.map Block.idOf ∧
      (∀ a ∈ addresses, ∃ b, g.data? (Block.idOf a) = some b ∧ b.address = a) ∧
      line = "loop " ++ toString k ++ ": back edge " ++ l.tail ++ " -> " ++ l.header ++ ": " ++
        ", ".intercalate (addresses.map hexAddress) ++ "\n"

variable {r : Routine} {g tree : BlockGraph} {limit : Int} {loops : List Loop} {l : Loop}

/-- Sorted by their identifiers, the blocks of a loop are in the order of their addresses. -/
theorem exists_sorted_addresses (hok : (ofRoutine r).outcome = .ok g)
    (htree : (g.dominatorTree limit).outcome = .ok tree) (hloops : g.loops tree = .ok loops)
    (hl : l ∈ loops) :
    ∃ addresses : List Address, addresses.Pairwise (· < ·) ∧
      l.sorted = addresses.map Block.idOf := by
  obtain ⟨hbuilt, hentry, -⟩ := ofRoutine_spec hok
  obtain ⟨-, hnodup⟩ := Graph.nodup_of_mem_loops hbuilt.consistent hentry htree hloops l hl
  obtain ⟨found, hfound⟩ := exists_addresses_of_mem_loops hok htree hloops hl
  refine ⟨found.mergeSort fun a b => decide (a ≤ b), ?_, ?_⟩
  · have hsorted : (found.mergeSort fun a b => decide (a ≤ b)).Pairwise (· ≤ ·) :=
      List.pairwise_mergeSort' (· ≤ ·) found
    rw [← hfound] at hnodup
    have hdistinct :=
      (List.mergeSort_perm found fun a b => decide (a ≤ b)).nodup_iff.2 hnodup.of_map
    refine (hsorted.and hdistinct).imp ?_
    rintro a b ⟨hle, hne⟩
    exact UInt32.lt_of_le_of_ne hle hne
  · rw [Loop.sorted, ← hfound]
    exact (List.map_mergeSort fun a _ b _ => (Block.before_idOf a b).symm).symm

theorem exists_mapM_node (activity : Activity) {addresses : List Address}
    (h : ∀ a ∈ addresses, ∃ n, g.node (Block.idOf a) = .ok n ∧ n.data.address = a) :
    ∃ nodes, (addresses.map Block.idOf).mapM (fun id => during activity (g.node id)) = .ok nodes ∧
      nodes.map (·.data.name) = addresses.map hexAddress := by
  induction addresses with
  | nil => exact ⟨[], rfl, rfl⟩
  | cons a addresses ih =>
    rw [List.forall_mem_cons] at h
    obtain ⟨⟨n, hn, ha⟩, h⟩ := h
    obtain ⟨nodes, hnodes, hnames⟩ := ih h
    refine ⟨n :: nodes, ?_, ?_⟩
    · rw [List.map_cons, List.mapM_cons, hn, during_ok, hnodes]
      rfl
    · rw [List.map_cons, List.map_cons, hnames, Block.name, ha]

/-- The blocks of a loop are looked up where the graph has them, so its line is written. -/
theorem exists_loop_line (hok : (ofRoutine r).outcome = .ok g)
    (htree : (g.dominatorTree limit).outcome = .ok tree) (hloops : g.loops tree = .ok loops)
    (hl : l ∈ loops) (k : Nat) :
    ∃ line, (Listing.loop g k l).deliver (fun _ => true) = (line, none) ∧
      g.ShowsLoop line (l, k) := by
  obtain ⟨hbuilt, hentry, -⟩ := ofRoutine_spec hok
  have hg := hbuilt.consistent
  obtain ⟨addresses, hascending, hsorted⟩ := exists_sorted_addresses hok htree hloops hl
  have hperm : (addresses.map Block.idOf).Perm l.nodes := by
    rw [← hsorted]
    exact List.mergeSort_perm l.nodes Loop.before
  have hlisted : l.listed = addresses.map Block.idOf :=
    (listed_of_mem_loops hok htree hloops hl).trans hsorted
  have hblocks : ∀ a ∈ addresses, ∃ n, g.node (Block.idOf a) = .ok n ∧
      g.data? (Block.idOf a) = some n.data ∧ n.data.address = a := by
    intro a ha
    have hmem := Graph.contains_of_mem_loops hg hentry htree hloops l hl _
      (hperm.mem_iff.1 (List.mem_map_of_mem ha))
    obtain ⟨n, -, hn, -⟩ := hg.node?_eq_some hmem
    have hdata : g.data? (Block.idOf a) = some n.data := by rw [Graph.data?, hn]; rfl
    have hname := named_of_ofRoutine hok _ _ hdata
    exact ⟨n, by rw [Graph.node, hn], hdata, (Block.idOf_inj.1 hname).symm⟩
  have hfound : ∀ a ∈ addresses, ∃ n, g.node (Block.idOf a) = .ok n ∧ n.data.address = a := by
    intro a ha
    obtain ⟨n, hn, -, haddress⟩ := hblocks a ha
    exact ⟨n, hn, haddress⟩
  obtain ⟨nodes, hnodes, hnames⟩ := exists_mapM_node (.loopNumber k) hfound
  refine ⟨_, ?_, addresses, hascending, hperm, hlisted, ?_, rfl⟩
  · rw [Listing.loop, hlisted, hnodes, ← hnames]
    exact Document.deliver_part "loop" _
  · intro a ha
    obtain ⟨n, -, hdata, haddress⟩ := hblocks a ha
    exact ⟨n.data, hdata, haddress⟩

/-- What is written of the loops of a graph: a line for each, or a remark if there are none. -/
def ListsLoops (g : BlockGraph) (loops : List Loop) (lines : List String) : Prop :=
  if loops = [] then lines = ["no loops\n"] else List.Forall₂ g.ShowsLoop lines loops.zipIdx

/-- The loops of the graph of a routine are found and written in full, each with its blocks in the
order of their addresses. Blocks have different identifiers, in the same order. -/
theorem listing_of_loops (hok : (ofRoutine r).outcome = .ok g)
    (htree : (g.dominatorTree limit).outcome = .ok tree) :
    Function.Injective Block.idOf ∧
      (∀ a b, Loop.before (Block.idOf a) (Block.idOf b) = decide (a ≤ b)) ∧
      ∃ loops lines, g.loops tree = .ok loops ∧ g.ListsLoops loops lines ∧
        (Listing.loops g loops).deliver (fun _ => true) = (String.join lines, none) := by
  refine ⟨fun a b => Block.idOf_inj.1, Block.before_idOf, ?_⟩
  obtain ⟨loops, hcompletes⟩ := exists_completes hok htree
  have hloops := hcompletes.loops_eq
  by_cases hempty : loops = []
  · refine ⟨loops, ["no loops\n"], hloops, by rw [ListsLoops, if_pos hempty], ?_⟩
    rw [hempty]
    rfl
  · have hlines : ∀ x ∈ loops.zipIdx, ∃ line,
        ((fun (l, k) => Listing.loop g k l) x).deliver (fun _ => true) = (line, none) ∧
          g.ShowsLoop line x := by
      rintro ⟨l, k⟩ hmem
      exact exists_loop_line hok htree hloops (List.fst_mem_of_mem_zipIdx hmem) k
    obtain ⟨lines, hshows, hdeliver⟩ := Document.deliver_concat_map hlines
    refine ⟨loops, lines, hloops, by rwa [ListsLoops, if_neg hempty], ?_⟩
    rw [Listing.loops, if_neg (by rwa [List.isEmpty_iff])]
    exact hdeliver

namespace Crossing

/-! A loop over the end of a bank, so that one of its blocks has a shorter identifier. -/

def routine : Routine where
  address := 0xFFFE
  instructions := #[⟨0xFFFE, .beq, ⟨0x00, 1⟩⟩, ⟨0x10000, .bne, ⟨0xFC, 1⟩⟩, ⟨0x10002, .rts, ⟨0, 0⟩⟩]

theorem exists_graph : ∃ g, (ofRoutine routine).outcome = .ok g := by
  apply exists_ofRoutine
  · decide +kernel
  · decide +kernel

theorem linked {g : BlockGraph} (hg : (ofRoutine routine).outcome = .ok g) :
    g.Linked (Block.idOf 0xFFFE) (Block.idOf 0x10000) ∧
      g.Linked (Block.idOf 0x10000) (Block.idOf 0xFFFE) := by
  have hdepicts := (depicts_of_ofRoutine hg).1
  exact ⟨hdepicts.linked_of_mem (by decide +kernel), hdepicts.linked_of_mem (by decide +kernel)⟩

end Crossing

/-- The block at the start of the bank has the longer identifier and comes last. -/
theorem listing_of_crossing :
    ∃ g tree loops lines, (ofRoutine Crossing.routine).outcome = .ok g ∧
      (g.dominatorTree 0).outcome = .ok tree ∧ g.loops tree = .ok loops ∧
      g.ListsLoops loops lines ∧
      (Listing.loops g loops).deliver (fun _ => true) = (String.join lines, none) ∧
      ∃ l ∈ loops, Block.idOf 0xFFFE ∈ l.nodes ∧ Block.idOf 0x10000 ∈ l.nodes := by
  obtain ⟨g, hg⟩ := Crossing.exists_graph
  obtain ⟨hbuilt, hentry, -⟩ := ofRoutine_spec hg
  obtain ⟨tree, htree⟩ : ∃ tree, (g.dominatorTree 0).outcome = .ok tree :=
    (dominatorTree_of_ofRoutine hg 0).resolve_right (by simp)
  obtain ⟨-, -, loops, lines, hloops, hlists, hdeliver⟩ := listing_of_loops hg htree
  refine ⟨g, tree, loops, lines, hg, htree, hloops, hlists, hdeliver, ?_⟩
  obtain ⟨hforth, hback⟩ := Crossing.linked hg
  obtain ⟨l, hl, hmembers⟩ := Graph.exists_loop_of_back_edge hbuilt.consistent hentry htree hloops
    hback (.step hforth (.here _)) (Graph.OnEveryWay.entry_left _ _ _)
  refine ⟨l, hl, hmembers _ (.inl rfl), hmembers _ (.inr ⟨_, .here _, ?_⟩)⟩
  rw [List.mem_singleton, Block.idOf_inj]
  decide

end BlockGraph

end CartFlow
