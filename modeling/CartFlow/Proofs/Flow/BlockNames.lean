import CartFlow.Proofs.Flow.Layout
import CartFlow.Proofs.Graph.NaturalLoops
import Mathlib.Data.Set.List
import Mathlib.Data.String.Basic

/-!
# The names of blocks

The identifier of a block is the text of its address without leading zeros, and the walk that
builds a block graph keeps to this: every block has the identifier of its own address. Identifiers
consist of digits, so they can be listed with commas between them, and shorter ones first they are
in the order of the addresses.
-/
namespace CartFlow

open Text

namespace Block

theorem comma_not_mem_idOf (a : Address) : ',' ∉ (idOf a).toList := by
  rw [idOf, toList_hex]
  intro hmem
  exact forall_mem_hexDigits (p := (· ≠ ',')) (by decide) _ _ hmem rfl

theorem before_idOf (a b : Address) : Loop.before (idOf a) (idOf b) = decide (a ≤ b) := by
  have htext : hex b.toNat < hex a.toNat ↔ hexDigits b.toNat < hexDigits a.toNat := by
    rw [String.lt_iff_toList_lt, toList_hex, toList_hex]
  unfold Loop.before idOf
  rw [utf8ByteSize_hex, utf8ByteSize_hex, Bool.eq_iff_iff, decide_eq_true_iff,
    UInt32.le_iff_toNat_le]
  rcases Nat.lt_trichotomy a.toNat b.toNat with hlt | heq | hgt
  · rcases hexDigits_lt_of_lt hlt with hshort | ⟨hlength, hless⟩
    · rw [if_neg (Nat.ne_of_lt hshort), decide_eq_true_iff]
      omega
    · rw [if_pos hlength, Bool.not_eq_true', decide_eq_false_iff_not, htext]
      exact iff_of_true (List.lt_asymm hless) (Nat.le_of_lt hlt)
  · rw [heq, if_pos rfl, Bool.not_eq_true', decide_eq_false_iff_not]
    exact iff_of_true (String.lt_irrefl _) (Nat.le_refl _)
  · rcases hexDigits_lt_of_lt hgt with hshort | ⟨hlength, hless⟩
    · rw [if_neg (Nat.ne_of_gt hshort), decide_eq_true_iff]
      omega
    · rw [if_pos hlength.symm, Bool.not_eq_true', decide_eq_false_iff_not, htext]
      exact iff_of_false (not_not_intro hless) (Nat.not_le_of_lt hgt)

end Block

namespace BlockGraph

/-- Every block has the identifier of its address. -/
def Named (g : BlockGraph) : Prop :=
  ∀ id b, g.data? id = some b → id = Block.idOf b.address

section Operations

variable {g h : BlockGraph} {id other : String}

theorem Named.addBlock (hnamed : g.Named) (hg : g.Consistent) (address : Address) :
    (addBlock g address).Named := by
  intro id b hb
  rw [BlockGraph.addBlock, hg.data?_insert] at hb
  split at hb
  · next heq =>
    cases hdata : g.data? (Block.idOf address) with
    | none =>
      rw [hdata] at hb
      cases hb
      exact heq
    | some block =>
      rw [hdata] at hb
      cases hb
      rw [heq]
      exact hnamed _ _ hdata
  · exact hnamed id b hb

theorem Named.addEdge (hnamed : g.Named) {label : UInt8} (hok : g.addEdge id other label = .ok h) :
    h.Named := by
  intro v b hb
  rw [Graph.data?_addEdge hok] at hb
  exact hnamed v b hb

theorem Named.push (hnamed : g.Named) (hg : g.Consistent) (i : Instruction) :
    Named (g.modify id (·.push i)) := by
  intro v b hb
  rw [hg.data?_modify] at hb
  split at hb
  · next heq =>
    obtain ⟨block, hblock, rfl⟩ := Option.map_eq_some_iff.1 hb
    rw [heq]
    exact hnamed id block hblock
  · exact hnamed v b hb

end Operations

namespace Walk

variable {w w' : Walk} {i : Instruction} {address : Address} {id entry : String}
  {taken : List Instruction} {labels : Std.HashSet Address}

theorem named_start (address : Address) : (BlockGraph.start address).graph.Named := by
  have hempty : Named .empty := by
    intro id b hb
    simp [Graph.data?, Graph.node?, Graph.empty] at hb
  exact hempty.addBlock Graph.consistent_empty address

theorem named_enterLabel (h : w.Holds entry taken) (hnamed : w.graph.Named)
    (hok : w.enterLabel address = .ok w') : w'.graph.Named := by
  have hadded := hnamed.addBlock h.built.consistent address
  rcases (enterLabel_eq_ok hok).2 with hgraph | ⟨above, -, -, hadd⟩
  · rwa [hgraph]
  · exact hadded.addEdge hadd

theorem named_append (h : w.Holds entry taken) (hnamed : w.graph.Named)
    (hok : w.append i = .ok (w', id)) : w'.graph.Named := by
  obtain ⟨rfl, -⟩ := append_eq_ok h.built.consistent hok
  exact hnamed.push h.built.consistent i

theorem named_endBlock (h : w.Holds entry taken) (hnamed : w.graph.Named)
    (hok : w.endBlock i = .ok w') : w'.graph.Named := by
  obtain ⟨v, id, target, happ, -, hends⟩ := endBlock_eq_ok hok
  have hv := named_append h hnamed happ
  have hbuilt := (h.append happ).built
  rcases hends with ⟨-, -, hadd⟩ | ⟨-, -, g, hadd, hadd'⟩
  · exact (hv.addBlock hbuilt.consistent target).addEdge hadd
  · have hbelow := hv.addBlock hbuilt.consistent i.nextAddress
    have hbuilt : (addBlock v.graph i.nextAddress).Built := .insert _ _ hbuilt
    exact ((hbelow.addBlock hbuilt.consistent target).addEdge hadd).addEdge hadd'

theorem named_feed (h : w.Holds entry taken) (hnamed : w.graph.Named)
    (hok : w.feed labels i = .ok w') : w'.graph.Named := by
  obtain ⟨v, hv, hrest⟩ := feed_eq_ok hok
  have hkept : v.Holds entry taken ∧ v.graph.Named := by
    rcases hv with rfl | hv
    · exact ⟨h, hnamed⟩
    · exact ⟨h.enterLabel hv, named_enterLabel h hnamed hv⟩
  rcases hrest with ⟨-, hends⟩ | ⟨-, id, happ⟩
  · exact named_endBlock hkept.1 hkept.2 hends
  · exact named_append hkept.1 hkept.2 happ

theorem named_feedAll (h : w.Holds entry taken) (hnamed : w.graph.Named) {is : List Instruction}
    (hok : is.foldlM (Walk.feed labels) w = .ok w') : w'.graph.Named := by
  induction is generalizing w taken with
  | nil =>
    cases hok
    exact hnamed
  | cons i rest ih =>
    rw [List.foldlM_cons] at hok
    obtain ⟨v, hfeed, hok⟩ := bind_eq_ok.1 hok
    exact ih (h.feed hfeed) (named_feed h hnamed hfeed) hok

end Walk

variable {r : Routine} {g tree : BlockGraph} {limit : Int} {loops : List Loop}

theorem named_of_ofRoutine (hok : (ofRoutine r).outcome = .ok g) : g.Named := by
  rw [ofRoutine, Traced.outcome_during, during_eq_ok] at hok
  simp only [Traced.outcome_bind, Traced.outcome_ofExcept, Walk.outcome_feedAll] at hok
  obtain ⟨labels, -, hok⟩ := bind_eq_ok.1 hok
  obtain ⟨w, hwalk, hok⟩ := bind_eq_ok.1 hok
  have hw := Walk.named_feedAll (Walk.Holds.start r.address) (Walk.named_start r.address) hwalk
  obtain ⟨id, rfl, -⟩ := chooseExit_eq_ok hok
  exact hw

theorem exists_addresses_of_mem_loops (hok : (ofRoutine r).outcome = .ok g)
    (htree : (g.dominatorTree limit).outcome = .ok tree) (hloops : g.loops tree = .ok loops)
    {l : Loop} (hl : l ∈ loops) :
    ∃ addresses : List Address, addresses.map Block.idOf = l.nodes := by
  obtain ⟨hbuilt, hentry, -⟩ := ofRoutine_spec hok
  have hmem := Graph.contains_of_mem_loops hbuilt.consistent hentry htree hloops l hl
  have hids : ∀ id ∈ l.nodes, ∃ a, Block.idOf a = id := by
    intro id hid
    obtain ⟨a, -, rfl⟩ := ((depicts_of_ofRoutine hok).1.contains_iff id).1 (hmem id hid)
    exact ⟨a, rfl⟩
  change l.nodes ∈ Set.range (List.map Block.idOf)
  rwa [Set.range_list_map]

theorem listed_of_mem_loops (hok : (ofRoutine r).outcome = .ok g)
    (htree : (g.dominatorTree limit).outcome = .ok tree) (hloops : g.loops tree = .ok loops)
    {l : Loop} (hl : l ∈ loops) : l.listed = l.sorted := by
  obtain ⟨hbuilt, hentry, -⟩ := ofRoutine_spec hok
  obtain ⟨addresses, haddresses⟩ := exists_addresses_of_mem_loops hok htree hloops hl
  apply Loop.listed_eq_sorted
  · exact (Graph.nodup_of_mem_loops hbuilt.consistent hentry htree hloops l hl).1
  · intro id hid
    rw [← haddresses] at hid
    obtain ⟨a, -, rfl⟩ := List.mem_map.1 hid
    exact Block.comma_not_mem_idOf a

end BlockGraph

end CartFlow
