import CartFlow.Proofs.Flow.ControlFlow
import CartFlow.Proofs.Text.Hexadecimal

/-!
# Sketches of block graphs

Identifiers of blocks are texts. Different addresses have different texts, so a block graph can
be described by addresses: the blocks that were opened, the instructions with the addresses of
their blocks, and the links, each in the order in which they were added. What the operations of
graphs do to such a sketch is stated here once.
-/
namespace CartFlow

theorem Block.idOf_inj {a b : Address} : Block.idOf a = Block.idOf b ↔ a = b := by
  constructor
  · intro h
    have hdigits := congrArg String.toList h
    rw [idOf, idOf, Text.toList_hex, Text.toList_hex] at hdigits
    exact UInt32.toNat_inj.1 (Text.hexDigits_inj hdigits)
  · exact congrArg Block.idOf

namespace BlockGraph

structure Link where
  source : Address
  target : Address
  label : UInt8
  deriving DecidableEq, Repr

def Link.edge (l : Link) : Edge :=
  ⟨Block.idOf l.source, Block.idOf l.target, l.label⟩

/-- What matters of a graph: the blocks in the order in which they were opened, the instructions
with their blocks, and the links. -/
structure Sketch where
  opened : List Address
  placed : List (Address × Instruction)
  links : List Link
  deriving DecidableEq, Repr

/-- The blocks, the entry apart, that no link leaves. -/
def Sketch.deadEnds (s : Sketch) (entry : Address) : List Address :=
  s.opened.filter fun a => a ≠ entry ∧ ∀ l ∈ s.links, l.source ≠ a

theorem Sketch.mem_deadEnds {s : Sketch} {entry a : Address} :
    a ∈ s.deadEnds entry ↔ a ∈ s.opened ∧ a ≠ entry ∧ ∀ l ∈ s.links, l.source ≠ a := by
  simp [Sketch.deadEnds]

structure Depicts (g : BlockGraph) (s : Sketch) : Prop where
  built : g.Built
  contains_iff : ∀ id, g.contains id = true ↔ ∃ a ∈ s.opened, id = Block.idOf a
  instructionsAt_eq : ∀ a,
    g.instructionsAt (Block.idOf a) = (s.placed.filter (·.1 = a)).map (·.2)
  edges_eq : g.edges.toList = s.links.map Link.edge

namespace Depicts

variable {g : BlockGraph} {s : Sketch} {a b : Address}

theorem contains_idOf (h : Depicts g s) : g.contains (Block.idOf a) = true ↔ a ∈ s.opened := by
  rw [h.contains_iff]
  constructor
  · rintro ⟨b, hb, heq⟩
    rwa [Block.idOf_inj.1 heq]
  · exact fun ha => ⟨a, ha, rfl⟩

theorem linked_iff (h : Depicts g s) {u v : String} :
    g.Linked u v ↔ ∃ l ∈ s.links, u = Block.idOf l.source ∧ v = Block.idOf l.target := by
  rw [Graph.linked_iff_of_edges h.edges_eq]
  constructor
  · rintro ⟨e, he, rfl, rfl⟩
    obtain ⟨l, hl, rfl⟩ := List.mem_map.1 he
    exact ⟨l, hl, rfl, rfl⟩
  · rintro ⟨l, hl, rfl, rfl⟩
    exact ⟨l.edge, List.mem_map_of_mem hl, rfl, rfl⟩

theorem linked_of_mem (h : Depicts g s) (hl : ∃ l ∈ s.links, l.source = a ∧ l.target = b) :
    g.Linked (Block.idOf a) (Block.idOf b) := by
  obtain ⟨l, hl, rfl, rfl⟩ := hl
  exact h.linked_iff.2 ⟨l, hl, rfl, rfl⟩

theorem addBlock (h : Depicts g s) (a : Address) :
    Depicts (BlockGraph.addBlock g a) { s with opened := s.opened ++ [a] } where
  built := .insert _ _ h.built
  contains_iff id := by
    rw [contains_addBlock, Bool.or_eq_true, beq_iff_eq, h.contains_iff]
    simp only [List.mem_append, List.mem_singleton]
    constructor
    · rintro (rfl | ⟨b, hb, rfl⟩)
      · exact ⟨a, .inr rfl, rfl⟩
      · exact ⟨b, .inl hb, rfl⟩
    · rintro ⟨b, hb | rfl, rfl⟩
      · exact .inr ⟨b, hb, rfl⟩
      · exact .inl rfl
  instructionsAt_eq b := by
    rw [← h.instructionsAt_eq]
    unfold instructionsAt BlockGraph.addBlock
    rw [h.built.consistent.data?_insert]
    split
    · next heq =>
      rw [heq]
      cases g.data? (Block.idOf a) <;> rfl
    · rfl
  edges_eq := by
    rw [← h.edges_eq]
    unfold BlockGraph.addBlock Graph.insert
    split <;> rfl

theorem addEdge (h : Depicts g s) (ha : a ∈ s.opened) (hb : b ∈ s.opened) (label : UInt8) :
    ∃ g', g.addEdge (Block.idOf a) (Block.idOf b) label = .ok g' ∧
      Depicts g' { s with links := s.links ++ [⟨a, b, label⟩] } := by
  obtain ⟨g', hg'⟩ := Graph.exists_addEdge (h.contains_idOf.2 ha) (h.contains_idOf.2 hb) label
  refine ⟨g', hg', .addEdge h.built hg', ?_, ?_, ?_⟩
  · intro id
    rw [Graph.contains_of_addEdge hg', h.contains_iff]
  · intro c
    rw [← h.instructionsAt_eq, instructionsAt, instructionsAt, Graph.data?_addEdge hg']
  · obtain ⟨_, _, _, _, hedges, _⟩ := Graph.addEdge_eq_ok hg'
    rw [hedges, Array.toList_push, h.edges_eq, List.map_append]
    rfl

theorem push (h : Depicts g s) (ha : a ∈ s.opened) (i : Instruction) :
    Depicts (g.modify (Block.idOf a) (·.push i)) { s with placed := s.placed ++ [(a, i)] } where
  built := .modify _ _ h.built
  contains_iff id := by rw [Graph.contains_modify, h.contains_iff]
  instructionsAt_eq b := by
    have hsome := h.built.consistent.data?_isSome.trans (h.contains_idOf.2 ha)
    obtain ⟨block, hblock⟩ := Option.isSome_iff_exists.1 hsome
    have hold := h.instructionsAt_eq b
    rw [List.filter_append, List.map_append, ← hold]
    unfold instructionsAt
    rw [h.built.consistent.data?_modify]
    by_cases heq : b = a
    · subst heq
      simp [hblock, Block.push]
    · simp [Block.idOf_inj, heq, Ne.symm heq]
  edges_eq := by
    rw [← h.edges_eq]
    unfold Graph.modify
    split <;> rfl

end Depicts

end BlockGraph

end CartFlow
