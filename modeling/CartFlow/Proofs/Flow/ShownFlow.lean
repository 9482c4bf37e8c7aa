import CartFlow.Proofs.Flow.Structure
import CartFlow.Proofs.Flow.Transfers

/-!
# Routines whose blocks show the flow of control

A routine without jumps that was found in the flow of control has blocks that show where control
goes. What is found behind an instruction is what control passes to, so a run that leaves a block
leaves it at its end and along an edge. There is one return, the instruction found last, and no
edge leaves its block, which is therefore the exit. All this is about names: control that passes
to an instruction has to reach it by the address under which it was found.
-/
namespace CartFlow

open Cartridge Processor

/-- Where every address that control passes to is its own name, control passes there directly. -/
theorem Instruction.Passes.passesTo {c : Cursor} {i j : Instruction} (h : i.Passes c j)
    (hjump : i.has .jump = false) (hbehind : ∀ b, c.Names i.nextAddress b → b = i.nextAddress)
    (htarget : ∀ t b, i.staticTarget = .ok t → c.Names t b → b = t) : i.PassesTo j.address := by
  cases h with
  | behind hfalls hnames =>
    rw [hbehind _ hnames]
    exact .behind hfalls
  | target hhandling ht hnames =>
    rw [htarget _ _ ht hnames]
    refine .target (hhandling.resolve_right fun hi => ?_) ht
    grind [Instruction.handling]

/-- An address has no other names if the mapping leads back to it. -/
theorem Cartridge.Cursor.Names.eq {c : Cursor} {a b : Address} (h : c.Names a b)
    (hback : (c.mapping.toOffset? a).map c.mapping.toAddress = some a) : b = a := by
  rcases h with heq | ⟨d, hd, heq⟩
  · exact heq
  · obtain ⟨-, hmapping, -, hoffset⟩ := Cursor.seek_eq_ok hd
    rw [hoffset] at hback
    rw [heq, Cursor.tell, hmapping]
    exact Option.some.inj hback

namespace BlockGraph

theorem length_eq_of_getLast? {l : List Instruction} {i : Instruction} {k : Nat} (hl : l.Nodup)
    (hi : l[k]? = some i) (hlast : l.getLast? = some i) : l.length = k + 1 := by
  have hk := (List.getElem?_eq_some_iff.1 hi).1
  rw [List.getLast?_eq_getElem?] at hlast
  have := (List.getElem?_inj hk hl).1 (hi.trans hlast.symm)
  omega

namespace Drawn

variable {c : Cursor} {r : Routine} {g : BlockGraph} {i j : Instruction} {id : String} {k : Nat}

theorem nodup_instructionsAt (h : Drawn r g) (a : Address) :
    (g.instructionsAt (Block.idOf a)).Nodup := by
  have hnodup := List.Nodup.of_map _ h.tidy.nodup_addresses
  rw [← map_instruction_visitsOf] at hnodup
  rw [instructionsAt_of_depicts h.depicts]
  exact hnodup.sublist (List.filter_sublist.map _)

theorem exists_visit (h : Drawn r g) (hi : (g.instructionsAt id)[k]? = some i) :
    ∃ (m : Nat) (u : Visit), (visitsOf r)[m]? = some u ∧ u.instruction = i ∧
      id = Block.idOf (u.home (targets r.instructions.toList)) := by
  have hmem := List.mem_of_getElem? hi
  have hid := contains_of_mem_instructionsAt h.depicts.built.consistent hmem
  obtain ⟨a, -, rfl⟩ := (h.depicts.contains_iff id).1 hid
  rw [instructionsAt_of_depicts h.depicts] at hmem
  obtain ⟨u, hu, rfl, rfl⟩ := mem_blockAt.1 hmem
  obtain ⟨m, hm⟩ := List.getElem?_of_mem hu
  exact ⟨m, u, hm, rfl, rfl⟩

theorem shows_passes (h : Drawn r g) (hi : (g.instructionsAt id)[k]? = some i)
    (hj : j ∈ r.instructions) (hpass : i.PassesTo j.address) :
    (g.instructionsAt id)[k + 1]? = some j ∨
      ((g.instructionsAt id).length = k + 1 ∧
        ∃ next, g.Linked id next ∧ (g.instructionsAt next)[0]? = some j) := by
  obtain ⟨m, u, hu, rfl, rfl⟩ := h.exists_visit hi
  obtain ⟨n, hn⟩ := Array.getElem?_of_mem hj
  obtain ⟨v, hv, rfl⟩ := BlockGraph.exists_visit hn
  have hnodup := h.nodup_instructionsAt (u.home (targets r.instructions.toList))
  rcases h.carries_of_passesTo hu hv hpass with ⟨before, behind, heq⟩ | ⟨hhead, hlast, hlink⟩
  · left
    have hplace : (before ++ u.instruction :: v.instruction :: behind)[before.length]? =
        some u.instruction := by simp
    rw [heq] at hi hnodup ⊢
    rw [(List.getElem?_inj (List.getElem?_eq_some_iff.1 hi).1 hnodup).1 (hi.trans hplace.symm)]
    simp
  · right
    exact ⟨length_eq_of_getLast? hnodup hi hlast, _, hlink, by rwa [← List.head?_eq_getElem?]⟩

/-- A return is found last and ends the exit. -/
theorem shows_returns (h : Drawn r g) (hok : (ofRoutine r).outcome = .ok g)
    (hi : (g.instructionsAt id)[k]? = some i) (hret : i.handling = .ret) :
    (g.instructionsAt id).length = k + 1 ∧ g.exit = some id := by
  obtain ⟨m, u, hu, rfl, rfl⟩ := h.exists_visit hi
  have hends : EndsBlock (targets r.instructions.toList) (visitsOf r) m u := by
    intro v hv
    rcases h.inFlow.next m _ _ (getElem?_visitsOf hu) (getElem?_visitsOf hv) with
      ⟨hbranch, -⟩ | ⟨hno, -⟩
    · rw [hret] at hbranch
      cases hbranch
    · exact absurd hret hno
  have hlast := h.orderly.getLast?_blockAt hu hends
  rw [← visitsOf, ← instructionsAt_of_depicts h.depicts] at hlast
  refine ⟨length_eq_of_getLast? (h.nodup_instructionsAt _) hi hlast, ?_⟩
  apply exit_of_not_linked hok
  · exact contains_of_mem_instructionsAt h.depicts.built.consistent (List.mem_of_getElem? hi)
  · rintro v ⟨e, he, hsource, -⟩
    obtain ⟨last, -, hend, hno, -⟩ := h.passesTo_of_edge he
    rw [hsource, hlast] at hend
    exact hno (Option.some.inj hend ▸ hret)

theorem shows (h : Drawn r g) (hok : (ofRoutine r).outcome = .ok g)
    (hdirect : ∀ i ∈ r.instructions, ∀ j ∈ r.instructions, i.Passes c j → i.PassesTo j.address) :
    Shows c r g where
  first i hi := by
    obtain ⟨u, hu, rfl⟩ := BlockGraph.exists_visit hi
    have haddress := h.inFlow.first _ hi
    refine ⟨_, (ofRoutine_spec hok).2.1, ?_⟩
    rw [← haddress, ← List.head?_eq_getElem?]
    exact h.head?_of_home hu (h.home_of_opens hu (.inl haddress))
  passes id k i j hi hj hpass := by
    obtain ⟨m, u, hu, rfl, -⟩ := h.exists_visit hi
    have hmem := Array.mem_of_getElem? (getElem?_visitsOf hu)
    exact h.shows_passes hi hj (hdirect _ hmem j hj hpass)
  returns id k i hi hret := h.shows_returns hok hi hret

end Drawn

/-- The blocks of a routine without jumps that was found in the flow of control show it. -/
theorem shows_of_inFlow {order : PopOrder} {c d : Cursor} {address : Address} {p : Flags}
    {r : Routine} {g : BlockGraph}
    (hread : (Routine.read order Table.standard c address p).outcome = .ok r)
    (hjumps : ∀ i ∈ r.instructions, i.has .jump = false) (hok : (ofRoutine r).outcome = .ok g)
    (hflow : InFlow r)
    (hdirect : ∀ i ∈ r.instructions, ∀ j ∈ r.instructions, i.Passes d j → i.PassesTo j.address) :
    Shows d r g :=
  (drawn_of_read hread hjumps hok hflow).shows hok hdirect

end BlockGraph

end CartFlow
