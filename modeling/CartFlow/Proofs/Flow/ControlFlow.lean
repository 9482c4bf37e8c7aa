import CartFlow.Proofs.Flow.BlockWalk
import CartFlow.Proofs.Graph.Ways
import CartFlow.Proofs.Routine.Execution
import Mathlib.Data.List.Nodup
import Mathlib.Data.List.Pairwise

/-!
# Block graphs that show the flow of control

A block graph shows the flow of control of a routine if control passes only from one
instruction of a block to the next, or from the end of a block along an edge to the beginning
of another, and if returns are at the end of the exit. A run from the first instruction to a
return is then the concatenation of the blocks on a way from the entry to the exit.
-/
namespace CartFlow.BlockGraph

open Cartridge

def instructionsAt (g : BlockGraph) (id : String) : List Instruction :=
  ((g.data? id).map (·.instructions.toList)).getD []

/-- The blocks show where control goes. -/
structure Shows (c : Cursor) (r : Routine) (g : BlockGraph) : Prop where
  first : ∀ i, r.instructions[0]? = some i →
    ∃ id, g.entry = some id ∧ (g.instructionsAt id)[0]? = some i
  passes : ∀ (id : String) (k : Nat) i j, (g.instructionsAt id)[k]? = some i →
    j ∈ r.instructions → i.Passes c j →
    (g.instructionsAt id)[k + 1]? = some j ∨
      ((g.instructionsAt id).length = k + 1 ∧
        ∃ next, g.Linked id next ∧ (g.instructionsAt next)[0]? = some j)
  returns : ∀ (id : String) (k : Nat) i, (g.instructionsAt id)[k]? = some i → i.handling = .ret →
    (g.instructionsAt id).length = k + 1 ∧ g.exit = some id

section Runs

variable {c : Cursor} {r : Routine} {g : BlockGraph} {i last : Instruction}
  {p : List Instruction} {id : String} {k : Nat}

theorem drop_eq_cons {l : List Instruction} (hi : l[k]? = some i) :
    l.drop k = i :: l.drop (k + 1) := by
  obtain ⟨hk, rfl⟩ := List.getElem?_eq_some_iff.1 hi
  exact List.drop_eq_getElem_cons hk

theorem drop_eq_singleton {l : List Instruction} (hi : l[k]? = some i) (hlen : l.length = k + 1) :
    l.drop k = [i] := by
  rw [drop_eq_cons hi, List.drop_eq_nil_of_le (Nat.le_of_eq hlen)]

/-- The rest of a run is the rest of the block it is in and the blocks on a way to the exit. -/
theorem Shows.exists_way (h : Shows c r g) (hrun : Routine.Run c r i last p)
    (hret : last.handling = .ret) (hi : (g.instructionsAt id)[k]? = some i) :
    ∃ exit ids, g.exit = some exit ∧ g.Way id exit (id :: ids) ∧
      p = (g.instructionsAt id).drop k ++ ids.flatMap g.instructionsAt := by
  induction hrun generalizing id k with
  | here _ =>
    obtain ⟨hlen, hexit⟩ := h.returns id k _ hi hret
    exact ⟨id, [], hexit, .here id, by simp [drop_eq_singleton hi hlen]⟩
  | @pass i j last p _ hpass hrest ih =>
    obtain ⟨q, rfl⟩ := hrest.exists_eq_cons
    have hj := hrest.mem_instructions j List.mem_cons_self
    rcases h.passes id k i j hi hj hpass with hnext | ⟨hlen, next, hlink, hnext⟩
    · obtain ⟨exit, ids, hexit, hway, heq⟩ := ih hret hnext
      exact ⟨exit, ids, hexit, hway, by rw [heq, drop_eq_cons hi, List.cons_append]⟩
    · obtain ⟨exit, ids, hexit, hway, heq⟩ := ih hret hnext
      refine ⟨exit, next :: ids, hexit, .step hlink hway, ?_⟩
      rw [heq, drop_eq_singleton hi hlen]
      simp

theorem Shows.exists_way_to (h : Shows c r g) (hrun : Routine.Run c r i last p)
    (hi : (g.instructionsAt id)[k]? = some i) :
    ∃ target ids, last ∈ g.instructionsAt target ∧ g.Way id target ids := by
  induction hrun generalizing id k with
  | here _ => exact ⟨id, [id], List.mem_of_getElem? hi, .here id⟩
  | @pass i j last p _ hpass hrest ih =>
    obtain ⟨q, rfl⟩ := hrest.exists_eq_cons
    have hj := hrest.mem_instructions j List.mem_cons_self
    rcases h.passes id k i j hi hj hpass with hnext | ⟨-, next, hlink, hnext⟩
    · exact ih hnext
    · obtain ⟨target, ids, hlast, hway⟩ := ih hnext
      exact ⟨target, id :: ids, hlast, .step hlink hway⟩

/-- A run to a return is the concatenation of the blocks on a way from the entry to the exit. -/
theorem Shows.returns_eq_flatMap (h : Shows c r g) (hp : Routine.Returns c r p) :
    ∃ entry exit ids, g.entry = some entry ∧ g.exit = some exit ∧ g.Way entry exit ids ∧
      p = ids.flatMap g.instructionsAt := by
  obtain ⟨first, last, hfirst, hrun, hret⟩ := hp
  obtain ⟨entry, hentry, hblock⟩ := h.first first hfirst
  obtain ⟨exit, ids, hexit, hway, heq⟩ := h.exists_way hrun hret hblock
  exact ⟨entry, exit, entry :: ids, hentry, hexit, hway, by simpa using heq⟩

theorem Shows.exists_way_of_live (h : Shows c r g) (hi : Routine.Live c r i) :
    ∃ entry target ids, g.entry = some entry ∧ g.Way entry target ids ∧
      i ∈ g.instructionsAt target := by
  obtain ⟨first, p, hfirst, hrun⟩ := hi
  obtain ⟨entry, hentry, hblock⟩ := h.first first hfirst
  obtain ⟨target, ids, hlast, hway⟩ := h.exists_way_to hrun hblock
  exact ⟨entry, target, ids, hentry, hway, hlast⟩

end Runs

section Blocks

variable {g : BlockGraph} {r : Routine} {i : Instruction} {id other : String}

theorem contains_of_mem_instructionsAt (hg : g.Consistent) (hi : i ∈ g.instructionsAt id) :
    g.contains id = true := by
  rw [← hg.data?_isSome]
  cases hd : g.data? id with
  | none => simp [instructionsAt, hd] at hi
  | some b => rfl

theorem instructionsAt_node (hg : g.Consistent) {n : Node Block} (hn : n ∈ g.nodes) :
    g.instructionsAt n.id = n.data.instructions.toList := by
  have hdata := hg.data?_eq_some.2 ⟨n, hn, rfl, rfl⟩
  simp [instructionsAt, hdata]

theorem code_eq_flatMap (hg : g.Consistent) : g.code = g.ids.flatMap g.instructionsAt := by
  have hblock : ∀ n ∈ g.nodes.toList, n.data.instructions.toList = g.instructionsAt n.id :=
    fun n hn => (instructionsAt_node hg (Array.mem_toList_iff.1 hn)).symm
  rw [code, Graph.datas, Graph.ids, List.flatMap_map, List.flatMap_map]
  exact List.flatMap_congr hblock

theorem mem_code (hg : g.Consistent) (hi : i ∈ g.instructionsAt id) : i ∈ g.code := by
  rw [code_eq_flatMap hg, List.mem_flatMap]
  exact ⟨id, hg.mem_ids.2 (contains_of_mem_instructionsAt hg hi), hi⟩

theorem eq_of_mem_instructionsAt (hg : g.Consistent) (hcode : g.code.Nodup)
    (hi : i ∈ g.instructionsAt id) (hi' : i ∈ g.instructionsAt other) : id = other := by
  rw [code_eq_flatMap hg, List.nodup_flatMap] at hcode
  by_contra hne
  have : Std.Symm (Function.onFun List.Disjoint g.instructionsAt) := ⟨fun _ _ h _ hy hx => h hx hy⟩
  have hdisjoint := hcode.2.forall
    (hg.mem_ids.2 (contains_of_mem_instructionsAt hg hi))
    (hg.mem_ids.2 (contains_of_mem_instructionsAt hg hi')) hne
  exact hdisjoint hi hi'

end Blocks

/-- Only the lists with elements of a kind matter when these are counted. -/
theorem countP_flatMap_filter {α β : Type} (f : α → List β) (kind : β → Bool) (l : List α) :
    (l.flatMap f).countP kind = ((l.filter fun a => (f a).any kind).flatMap f).countP kind := by
  induction l with
  | nil => rfl
  | cons a l ih =>
    rw [List.flatMap_cons, List.countP_append, ih, List.filter_cons]
    split
    · rw [List.flatMap_cons, List.countP_append]
    · next hno =>
      have hzero : (f a).countP kind = 0 := by
        rw [List.countP_eq_zero]
        simpa using hno
      rw [hzero, Nat.zero_add]

end CartFlow.BlockGraph
