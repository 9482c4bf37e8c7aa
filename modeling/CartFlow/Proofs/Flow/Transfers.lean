import CartFlow.Proofs.Flow.BasicBlocks
import CartFlow.Proofs.Routine.FlagTracking

/-!
# Edges and transfers of control

Control passes from an instruction directly to the one behind it or to the target of a branch.
The walk links the block above with every target of a branch it comes to, whether control passes
there or not: the instruction found before may be a return, or it may have led to code that was
known. Where the instructions were found in the flow of control, returns stand at the end and
the edges are exactly the transfers that leave a block.
-/
namespace CartFlow

open Processor Cartridge

inductive Instruction.PassesTo (i : Instruction) : Address → Prop
  | behind : i.FallsThrough → PassesTo i i.nextAddress
  | target {t : Address} : i.handling = .branch → i.staticTarget = .ok t → PassesTo i t

namespace BlockGraph

/-- An instruction opens a block: it is at the entry, the target of a branch, or found just behind
a branch. -/
def Opens (r : Routine) (j : Instruction) : Prop :=
  j.address = r.address ∨ j.address ∈ targets r.instructions.toList ∨
    ∃ (k : Nat) (i : Instruction), r.instructions[k]? = some i ∧
      r.instructions[k + 1]? = some j ∧ i.handling = .branch

/-- The instructions were found in the flow of control. The first one is at the entry. Behind
each one, unconditional branches apart, the next one is found at the address behind it, and it
is no return. What stands behind the last one was not found before, unless control does not go
there or opens a block there. -/
structure InFlow (r : Routine) : Prop where
  first : ∀ i, r.instructions[0]? = some i → i.address = r.address
  next : ∀ (k : Nat) i j, r.instructions[k]? = some i → r.instructions[k + 1]? = some j →
    i.handling = .branch ∧ i.has .unconditional = true ∨
      i.handling ≠ .ret ∧ j.address = i.nextAddress
  last : ∀ (k : Nat) i j, r.instructions[k]? = some i → r.instructions[k + 1]? = none →
    i.FallsThrough → j ∈ r.instructions → j.address = i.nextAddress →
    i.handling = .branch ∧ Opens r j

/-- A branch of the standard table is neither a call nor a return. -/
theorem handling_eq_branch {i : Instruction} {value : UInt8}
    (hop : Table.standard.find? value = some i.opcode) :
    i.handling = .branch ↔ i.has .branch = true := by
  have hcatalogue : ∀ g ∈ Catalogue.groups, ∀ d ∈ g.opcodes,
      (g.opcode d).has .branch = true →
        (g.opcode d).has .call = false ∧ (g.opcode d).has .ret = false := by decide +kernel
  obtain ⟨g, hg, d, hd, -, heq⟩ := Table.find?_standard.1 hop
  have hbranch : i.has .branch = true → i.has .call = false ∧ i.has .ret = false := by
    have h := hcatalogue g hg d hd
    rwa [heq] at h
  grind [Instruction.handling]

theorem handling_ne_ret_of_passesTo {i : Instruction} {a : Address} (h : i.PassesTo a) :
    i.handling ≠ .ret := by
  intro hret
  cases h with
  | behind hfalls => rcases hfalls with hi | hi | ⟨hi, -⟩ <;> simp [hret] at hi
  | target hi _ => simp [hret] at hi

theorem conditional_of_fallsThrough {i : Instruction} (h : i.FallsThrough)
    (hbranch : i.handling = .branch) : i.has .unconditional = false := by
  rcases h with h | h | ⟨-, h⟩
  · rw [hbranch] at h; cases h
  · rw [hbranch] at h; cases h
  · exact h

/-- Code that goes on behind each instruction until it returns is in the flow of control. -/
theorem inFlow_of_behind {r : Routine}
    (hfirst : ∀ i ∈ r.instructions.toList.head?, i.address = r.address)
    (hnext : ∀ x ∈ r.instructions.toList.zip r.instructions.toList.tail,
      x.1.handling ≠ .ret ∧ x.2.address = x.1.nextAddress)
    (hlast : ∀ i ∈ r.instructions.toList.getLast?, i.handling = .ret) : InFlow r where
  first i hi := by
    apply hfirst
    rw [Option.mem_def, List.head?_eq_getElem?, Array.getElem?_toList, hi]
  next k i j hi hj := by
    have hmem : (i, j) ∈ r.instructions.toList.zip r.instructions.toList.tail := by
      apply List.mem_of_getElem? (i := k)
      rw [List.getElem?_zip_eq_some, List.getElem?_tail, Array.getElem?_toList,
        Array.getElem?_toList]
      exact ⟨hi, hj⟩
    exact .inr (hnext _ hmem)
  last k i j hi hend hfalls := by
    have hk := (Array.getElem?_eq_some_iff.1 hi).1
    have hsize : r.instructions.size - 1 = k := by
      rw [Array.getElem?_eq_none_iff] at hend
      omega
    have hret : i.handling = .ret := by
      apply hlast
      rw [Option.mem_def, List.getLast?_eq_getElem?, Array.getElem?_toList, Array.length_toList,
        hsize, hi]
    exact absurd hret (handling_ne_ret_of_passesTo (.behind hfalls))

/-- A block ends with an instruction and is linked with another block. -/
def Leaves (g : BlockGraph) (a : Address) (i : Instruction) (b : Address) : Prop :=
  (g.instructionsAt (Block.idOf a)).getLast? = some i ∧ g.Linked (Block.idOf a) (Block.idOf b)

/-- A graph carries the transfer of control from an instruction of a block to another one: this is
the next one of the block, or it starts a block that the block leads to at its end. -/
def Carries (g : BlockGraph) (a : Address) (i j : Instruction) : Prop :=
  (∃ before behind, g.instructionsAt (Block.idOf a) = before ++ i :: j :: behind) ∨
    (g.instructionsAt (Block.idOf j.address)).head? = some j ∧ g.Leaves a i j.address

/-- A routine without jumps, found in the flow of control, and its graph. -/
structure Drawn (r : Routine) (g : BlockGraph) : Prop where
  inFlow : InFlow r
  tidy : r.Tidy
  branches : ∀ i ∈ r.instructions, i.handling = .branch ↔ i.has .branch = true
  jumps : ∀ i ∈ r.instructions, i.has .jump = false
  admitted : AllAdmitted (targets r.instructions.toList) [r.address] (visitsOf r)
  depicts : Depicts g (sketchOf r)

namespace Drawn

variable {a : Address} {r : Routine} {g : BlockGraph} {k m : Nat} {u v : Visit} {l : Link}

theorem orderly (h : Drawn r g) : Orderly r.address r.instructions.toList where
  nodup := h.tidy.nodup_addresses
  first i hi := h.inFlow.first i (by simpa using hi)
  next k i j hi hj := by
    rw [Array.getElem?_toList] at hi hj
    rcases h.inFlow.next k i j hi hj with ⟨hbranch, hun⟩ | ⟨-, hnext⟩
    · exact .inl ⟨(h.branches i (Array.mem_of_getElem? hi)).1 hbranch, hun⟩
    · exact .inr hnext

theorem branch_iff (h : Drawn r g) (hu : (visitsOf r)[k]? = some u) :
    u.instruction.handling = .branch ↔ u.instruction.has .branch = true :=
  h.branches _ (Array.mem_of_getElem? (getElem?_visitsOf hu))

theorem exists_target (h : Drawn r g) (hu : (visitsOf r)[k]? = some u)
    (hbranch : u.instruction.has .branch = true) : ∃ t, u.instruction.staticTarget = .ok t :=
  h.admitted.exists_target _
    (Array.mem_toList_iff.2 (Array.mem_of_getElem? (getElem?_visitsOf hu))) hbranch

theorem home_of_opens (h : Drawn r g) (hv : (visitsOf r)[m]? = some v)
    (hopens : Opens r v.instruction) :
    v.home (targets r.instructions.toList) = v.instruction.address := by
  rcases h.orderly.home_cases hv with hhome | ⟨n, u, rfl, hu, hno, hlabel, -⟩
  · exact hhome
  · rcases hopens with hentry | hyes | ⟨k, i, hi, hj, hbranch⟩
    · -- the first instruction is at the entry, and no other one
      have hsize : 0 < r.instructions.size := by
        have := (Array.getElem?_eq_some_iff.1 (getElem?_visitsOf hv)).1
        omega
      obtain ⟨w, hw, -⟩ := exists_visit (Array.getElem?_eq_getElem hsize)
      have haddress := h.orderly.first _ (getElem?_visits hw)
      have := h.orderly.index_eq hv hw (hentry.trans haddress.symm)
      omega
    · exact absurd hyes hlabel
    · -- the branch is the instruction before
      obtain ⟨w, hw, hwj⟩ := exists_visit hj
      have hk := h.orderly.index_eq hv hw (by rw [hwj])
      obtain rfl : n = k := by omega
      rw [getElem?_visitsOf hu, Option.some_inj] at hi
      subst hi
      rw [(h.branch_iff hu).1 hbranch] at hno
      cases hno

theorem head?_of_home (h : Drawn r g) (hv : (visitsOf r)[m]? = some v)
    (hhome : v.home (targets r.instructions.toList) = v.instruction.address) :
    (g.instructionsAt (Block.idOf v.instruction.address)).head? = some v.instruction := by
  rw [instructionsAt_of_depicts h.depicts]
  exact h.orderly.head?_blockAt hv hhome

theorem leaves_of_mem_exitLinks (h : Drawn r g) (hu : (visitsOf r)[k]? = some u)
    (hl : l ∈ exitLinks (targets r.instructions.toList) (visitsOf r) k u) :
    g.Leaves (u.home (targets r.instructions.toList)) u.instruction l.target := by
  refine ⟨?_, l.edge, ?_, ?_, rfl⟩
  · rw [instructionsAt_of_depicts h.depicts]
    exact h.orderly.getLast?_blockAt hu (h.orderly.endsBlock_of_exitLinks hu hl)
  · rw [← Array.mem_toList_iff, edges_of_depicts h.depicts]
    exact List.mem_map_of_mem (h.orderly.mem_links hu hl)
  · rw [← source_of_mem_exitLinks hl]
    rfl

/-- A branch leads to its target and, if it is conditional, to the block behind it. -/
theorem leaves_of_branch (h : Drawn r g) (hu : (visitsOf r)[k]? = some u) {t : Address}
    (hbranch : u.instruction.has .branch = true) (ht : u.instruction.staticTarget = .ok t)
    (ha : a = t ∨ u.instruction.has .unconditional = false ∧ a = u.instruction.nextAddress) :
    g.Leaves (u.home (targets r.instructions.toList)) u.instruction a := by
  obtain ⟨l, hl, rfl⟩ := List.mem_map.1 ((mem_branchLinks_target
    (u.home (targets r.instructions.toList)) hbranch ht).2 ha)
  exact h.leaves_of_mem_exitLinks hu (by simpa [exitLinks, hbranch] using hl)

theorem leaves_behind (h : Drawn r g) (hu : (visitsOf r)[k]? = some u)
    (hbranch : u.instruction.handling = .branch) (hfalls : u.instruction.FallsThrough) :
    g.Leaves (u.home (targets r.instructions.toList)) u.instruction u.instruction.nextAddress := by
  have hyes := (h.branch_iff hu).1 hbranch
  obtain ⟨t, ht⟩ := h.exists_target hu hyes
  exact h.leaves_of_branch hu hyes ht (.inr ⟨conditional_of_fallsThrough hfalls hbranch, rfl⟩)

theorem carries_next (h : Drawn r g) (hu : (visitsOf r)[k]? = some u)
    (hv : (visitsOf r)[k + 1]? = some v) (hfalls : u.instruction.FallsThrough)
    (haddress : v.instruction.address = u.instruction.nextAddress) :
    Carries g (u.home (targets r.instructions.toList)) u.instruction v.instruction := by
  cases hbranch : u.instruction.has .branch with
  | true =>
    have hhome := h.orderly.opens_of_branch hu hv hbranch
    have hleaves := h.leaves_behind hu ((h.branch_iff hu).2 hbranch) hfalls
    rw [← haddress] at hleaves
    exact .inr ⟨h.head?_of_home hv hhome, hleaves⟩
  | false =>
    by_cases hlabel : v.instruction.address ∈ targets r.instructions.toList
    · have hl : ⟨u.home (targets r.instructions.toList), v.instruction.address, 0⟩ ∈
          exitLinks (targets r.instructions.toList) (visitsOf r) k u := by
        simp [exitLinks, hbranch, hv, hlabel]
      exact .inr ⟨h.head?_of_home hv (home_of_label hlabel), h.leaves_of_mem_exitLinks hu hl⟩
    · rw [Carries, instructionsAt_of_depicts h.depicts]
      exact .inl (adjacent_blockAt hu hv (home_succ hu hv hbranch hlabel))

theorem carries_behind (h : Drawn r g) (hu : (visitsOf r)[k]? = some u)
    (hv : (visitsOf r)[m]? = some v) (hfalls : u.instruction.FallsThrough)
    (haddress : v.instruction.address = u.instruction.nextAddress) :
    Carries g (u.home (targets r.instructions.toList)) u.instruction v.instruction := by
  have hi := getElem?_visitsOf hu
  cases hw : (visitsOf r)[k + 1]? with
  | none =>
    -- the code behind the last instruction was found before
    have hj := Array.mem_of_getElem? (getElem?_visitsOf hv)
    obtain ⟨hbranch, hopens⟩ :=
      h.inFlow.last k _ _ hi (getElem?_eq_none_of_visitsOf hw) hfalls hj haddress
    have hleaves := h.leaves_behind hu hbranch hfalls
    rw [← haddress] at hleaves
    exact .inr ⟨h.head?_of_home hv (h.home_of_opens hv hopens), hleaves⟩
  | some w =>
    have hnext : w.instruction.address = u.instruction.nextAddress := by
      rcases h.inFlow.next k _ _ hi (getElem?_visitsOf hw) with ⟨hbranch, hun⟩ | ⟨-, hnext⟩
      · rw [conditional_of_fallsThrough hfalls hbranch] at hun
        cases hun
      · exact hnext
    obtain rfl : k + 1 = m := h.orderly.index_eq hw hv (hnext.trans haddress.symm)
    exact h.carries_next hu hv hfalls haddress

theorem carries_target (h : Drawn r g) (hu : (visitsOf r)[k]? = some u)
    (hv : (visitsOf r)[m]? = some v) (hbranch : u.instruction.handling = .branch)
    (ht : u.instruction.staticTarget = .ok v.instruction.address) :
    Carries g (u.home (targets r.instructions.toList)) u.instruction v.instruction := by
  have hyes := (h.branch_iff hu).1 hbranch
  have hmem := Array.mem_of_getElem? (getElem?_visitsOf hu)
  have hlabel : v.instruction.address ∈ targets r.instructions.toList :=
    mem_targets.2 ⟨_, Array.mem_toList_iff.2 hmem, hyes, ht⟩
  exact .inr ⟨h.head?_of_home hv (home_of_label hlabel),
    h.leaves_of_branch hu hyes ht (.inl rfl)⟩

/-- A transfer of control stays in a block or is an edge to the block it leads to. -/
theorem carries_of_passesTo (h : Drawn r g) (hu : (visitsOf r)[k]? = some u)
    (hv : (visitsOf r)[m]? = some v) (hpass : u.instruction.PassesTo v.instruction.address) :
    Carries g (u.home (targets r.instructions.toList)) u.instruction v.instruction := by
  generalize haddress : v.instruction.address = b at hpass
  cases hpass with
  | behind hfalls => exact h.carries_behind hu hv hfalls haddress
  | target hbranch ht =>
    rw [← haddress] at ht
    exact h.carries_target hu hv hbranch ht

theorem passesTo_of_mem_exitLinks (h : Drawn r g) (hu : (visitsOf r)[k]? = some u)
    (hl : l ∈ exitLinks (targets r.instructions.toList) (visitsOf r) k u) :
    u.instruction.PassesTo l.target := by
  have hi := getElem?_visitsOf hu
  have hbranch := h.branch_iff hu
  cases hyes : u.instruction.has .branch with
  | true =>
    obtain ⟨t, ht⟩ := h.exists_target hu hyes
    simp only [exitLinks, hyes, if_true] at hl
    rcases (mem_branchLinks_target _ hyes ht).1 (List.mem_map_of_mem hl) with heq | ⟨hun, heq⟩
    · rw [heq]
      exact .target (hbranch.2 hyes) ht
    · rw [heq]
      exact .behind (.inr (.inr ⟨hbranch.2 hyes, hun⟩))
  | false =>
    simp only [exitLinks, hyes, Bool.false_eq_true, if_false] at hl
    split at hl
    · next v hv =>
      split at hl
      · rw [List.mem_singleton.1 hl]
        dsimp only
        have hplain : u.instruction.handling ≠ .branch := by
          rw [Ne, hbranch, hyes]
          exact Bool.false_ne_true
        rcases h.inFlow.next k _ _ hi (getElem?_visitsOf hv) with ⟨hh, -⟩ | ⟨hret, hnext⟩
        · exact absurd hh hplain
        · rw [hnext]
          have hjump := h.jumps _ (Array.mem_of_getElem? hi)
          exact .behind (by grind [Instruction.FallsThrough, Instruction.handling])
      · cases hl
    · cases hl

/-- An edge leaves the end of a block from which control passes to where the edge leads. -/
theorem passesTo_of_edge (h : Drawn r g) {e : Edge} (he : e ∈ g.edges) :
    ∃ last b, (g.instructionsAt e.source).getLast? = some last ∧ last.handling ≠ .ret ∧
      e.target = Block.idOf b ∧ last.PassesTo b ∧
      ∀ j, (g.instructionsAt e.target).head? = some j → j.address = b := by
  rw [← Array.mem_toList_iff, edges_of_depicts h.depicts] at he
  obtain ⟨l, hl, rfl⟩ := List.mem_map.1 he
  obtain ⟨k, u, hu, hl⟩ := h.orderly.exists_of_mem_links hl
  have hpass := h.passesTo_of_mem_exitLinks hu hl
  refine ⟨u.instruction, l.target, ?_, handling_ne_ret_of_passesTo hpass, rfl, hpass, ?_⟩
  · rw [Link.edge, source_of_mem_exitLinks hl]
    exact (h.leaves_of_mem_exitLinks hu hl).1
  · intro j hj
    rw [Link.edge, instructionsAt_of_depicts h.depicts] at hj
    exact h.orderly.address_of_head? hj

end Drawn

theorem drawn_of_read {order : PopOrder} {c : Cursor} {address : Address} {p : Flags}
    {r : Routine} {g : BlockGraph}
    (hread : (Routine.read order Table.standard c address p).outcome = .ok r)
    (hjumps : ∀ i ∈ r.instructions, i.has .jump = false) (hok : (ofRoutine r).outcome = .ok g)
    (hflow : InFlow r) : Drawn r g := by
  obtain ⟨hg, hadmitted⟩ := depicts_of_ofRoutine hok
  refine ⟨hflow, (Reader.tidy_of_read hread).1, fun i hi => ?_, hjumps, hadmitted, hg⟩
  obtain ⟨d, n, s, -, -, hd⟩ := (Reader.stems_of_read hread).instructions i hi
  obtain ⟨value, hop⟩ := Instruction.exists_find?_of_decode hd
  exact handling_eq_branch hop

/-- The walk links the block of whatever it found before, a return for one, with each target of a
branch. -/
theorem linked_of_found_before {r : Routine} {g : BlockGraph} {i j : Instruction} {k : Nat}
    (hg : Depicts g (sketchOf r)) (hi : r.instructions[k]? = some i)
    (hj : r.instructions[k + 1]? = some j) (hbranch : i.has .branch = false)
    (hlabel : j.address ∈ targets r.instructions.toList) :
    ∃ a, i ∈ g.instructionsAt (Block.idOf a) ∧
      (a = j.address ∨ g.Linked (Block.idOf a) (Block.idOf j.address)) := by
  obtain ⟨u, hu, rfl⟩ := exists_visit hi
  obtain ⟨v, hv, rfl⟩ := exists_visit hj
  refine ⟨u.home (targets r.instructions.toList), ?_, ?_⟩
  · rw [instructionsAt_of_depicts hg]
    exact mem_blockAt.2 ⟨u, List.mem_of_getElem? hu, rfl, rfl⟩
  · by_cases heq : u.home (targets r.instructions.toList) = v.instruction.address
    · exact .inl heq
    · right
      refine ⟨Link.edge ⟨u.home (targets r.instructions.toList), v.instruction.address, 0⟩, ?_,
        rfl, rfl⟩
      rw [← Array.mem_toList_iff, edges_of_depicts hg]
      apply List.mem_map_of_mem
      rw [List.mem_flatMap]
      refine ⟨v, List.mem_of_getElem? hv, List.mem_append_left _ ?_⟩
      simp [Visit.entering, hlabel, above_succ hu hv, blockBehind, hbranch, heq]

/-- Where the instructions of a routine without jumps were found in the flow of control, its
graph shows the transfers of control: a direct transfer stays in a block or is an edge to the
block that starts with its destination, and an edge leaves the end of a block from which control
passes to its destination, so that no edge leaves a return. In any case the block of an
instruction that is no branch is linked with a target of a branch found just behind it. -/
theorem edges_of_inFlow {order : PopOrder} {c : Cursor} {address : Address} {p : Flags}
    {r : Routine} {g : BlockGraph}
    (hread : (Routine.read order Table.standard c address p).outcome = .ok r)
    (hjumps : ∀ i ∈ r.instructions, i.has .jump = false) (hok : (ofRoutine r).outcome = .ok g) :
    (InFlow r →
      (∀ i ∈ r.instructions, ∀ j ∈ r.instructions, i.PassesTo j.address →
        ∃ a, i ∈ g.instructionsAt (Block.idOf a) ∧
          ((∃ before behind, g.instructionsAt (Block.idOf a) = before ++ i :: j :: behind) ∨
            (g.instructionsAt (Block.idOf j.address)).head? = some j ∧
              g.Linked (Block.idOf a) (Block.idOf j.address))) ∧
      ∀ e ∈ g.edges, ∃ last b, (g.instructionsAt e.source).getLast? = some last ∧
        last.handling ≠ .ret ∧ e.target = Block.idOf b ∧ last.PassesTo b ∧
        ∀ j, (g.instructionsAt e.target).head? = some j → j.address = b) ∧
    ∀ (k : Nat) i j, r.instructions[k]? = some i → r.instructions[k + 1]? = some j →
      i.has .branch = false → j.address ∈ targets r.instructions.toList →
      ∃ a, i ∈ g.instructionsAt (Block.idOf a) ∧
        (a = j.address ∨ g.Linked (Block.idOf a) (Block.idOf j.address)) := by
  have hg := (depicts_of_ofRoutine hok).1
  refine ⟨fun hr => ?_, fun k i j hi hj => linked_of_found_before hg hi hj⟩
  have hdrawn := drawn_of_read hread hjumps hok hr
  refine ⟨fun i hi j hj hpass => ?_, fun e he => hdrawn.passesTo_of_edge he⟩
  obtain ⟨k, hk⟩ := Array.getElem?_of_mem hi
  obtain ⟨m, hm⟩ := Array.getElem?_of_mem hj
  obtain ⟨u, hu, rfl⟩ := exists_visit hk
  obtain ⟨v, hv, rfl⟩ := exists_visit hm
  refine ⟨u.home (targets r.instructions.toList), ?_,
    (hdrawn.carries_of_passesTo hu hv hpass).imp_right fun hcarries =>
      ⟨hcarries.1, hcarries.2.2⟩⟩
  rw [instructionsAt_of_depicts hg]
  exact mem_blockAt.2 ⟨u, List.mem_of_getElem? hu, rfl, rfl⟩

/-- What the graph of a routine looks like depends on its address and instructions alone. -/
theorem exists_graph_of_sketch {r s : Routine} (haddress : r.address = s.address)
    (hall : r.instructions = s.instructions)
    (hadmitted : AllAdmitted (targets s.instructions.toList) [s.address] (visitsOf s))
    (hends : ((sketchOf s).deadEnds s.address).Pairwise (· = ·)) :
    ∃ g, (ofRoutine r).outcome = .ok g ∧ Depicts g (sketchOf s) := by
  have hvisits : visitsOf r = visitsOf s := by rw [visitsOf, visitsOf, haddress, hall]
  have hsketch : sketchOf r = sketchOf s := by rw [sketchOf, sketchOf, hvisits, haddress, hall]
  obtain ⟨g, hg⟩ : ∃ g, (ofRoutine r).outcome = .ok g := by
    apply exists_ofRoutine
    · rw [hvisits, haddress, hall]
      exact hadmitted
    · rw [hsketch, haddress]
      exact hends
  exact ⟨g, hg, hsketch ▸ (depicts_of_ofRoutine hg).1⟩

theorem InFlow.congr {r s : Routine} (haddress : r.address = s.address)
    (hall : r.instructions = s.instructions) (h : InFlow s) : InFlow r where
  first := by rw [hall, haddress]; exact h.first
  next := by rw [hall]; exact h.next
  last k i j := by rw [Opens, hall, haddress]; exact h.last k i j

namespace Skip

def cursor : Cursor := { image := #[0xF0, 0x01, 0xEA, 0x60], mapping := .hiRom }

theorem read_eq (order : PopOrder) :
    ∃ r, (Routine.read order Table.standard cursor 0xC00000 {}).outcome = .ok r ∧
      r.instructions.toList = routine.instructions.toList := by
  apply Reader.Reads.read (d := cursor) (by simp [Cursor.seek, Mapping.toOffset?, cursor])
  refine .branch (i := ⟨0xC00000, .beq, ⟨1, 1⟩⟩) (d := { cursor with offset := 2 })
    (t := 0xC00003) (by decide) (Instruction.decode_of_parts rfl Opcode.find?_beq rfl) (by decide)
    (by decide +kernel) (by decide) (by decide) ?_
  refine .plain (i := ⟨0xC00002, .nop, {}⟩) (d := { cursor with offset := 3 })
    (by decide) (Instruction.decode_of_parts rfl Opcode.find?_nop rfl) (by decide) ?_
  exact .lastRet (i := ⟨0xC00003, .rts, {}⟩) (d := { cursor with offset := 4 })
    (by decide) (Instruction.decode_of_parts rfl Opcode.find?_rts rfl) (by decide) (by decide)

theorem inFlow : InFlow routine := inFlow_of_behind (by decide) (by decide) (by decide)

end Skip

/-- The edges of the branch over an instruction are its transfers. -/
theorem edges_of_skip :
    ∃ r g, (Routine.read .oldest Table.standard Skip.cursor 0xC00000 {}).outcome = .ok r ∧
      (ofRoutine r).outcome = .ok g ∧ InFlow r ∧
      ∀ e ∈ g.edges, ∃ last b, (g.instructionsAt e.source).getLast? = some last ∧
        last.handling ≠ .ret ∧ e.target = Block.idOf b ∧ last.PassesTo b ∧
        ∀ j, (g.instructionsAt e.target).head? = some j → j.address = b := by
  obtain ⟨r, hread, hall⟩ := Skip.read_eq .oldest
  rw [Array.toList_inj] at hall
  have haddress := Reader.address_of_read hread
  obtain ⟨g, hg, -⟩ := exists_graph_of_sketch (s := Skip.routine) haddress hall
    (by decide +kernel) (by decide +kernel)
  have hflow := Skip.inFlow.congr haddress hall
  have hjumps : ∀ i ∈ r.instructions, i.has .jump = false := by
    rw [hall]
    decide
  exact ⟨r, g, hread, hg, hflow, ((edges_of_inFlow hread hjumps hg).1 hflow).2⟩

namespace Detour

/-! A branch to the instruction in front of it, which is found behind the return. -/

def cursor : Cursor := { image := #[0xEA, 0xF0, 0xFD, 0x60], mapping := .hiRom }

def routine : Routine where
  address := 0xC00001
  instructions := #[⟨0xC00001, .beq, ⟨0xFD, 1⟩⟩, ⟨0xC00003, .rts, {}⟩, ⟨0xC00000, .nop, {}⟩]

theorem read_eq (order : PopOrder) :
    ∃ r, (Routine.read order Table.standard cursor 0xC00001 {}).outcome = .ok r ∧
      r.instructions.toList = routine.instructions.toList := by
  apply Reader.Reads.read (d := { cursor with offset := 1 })
    (by simp [Cursor.seek, Mapping.toOffset?, cursor])
  refine .branch (i := ⟨0xC00001, .beq, ⟨0xFD, 1⟩⟩) (d := { cursor with offset := 3 })
    (t := 0xC00000) (by decide) (Instruction.decode_of_parts rfl Opcode.find?_beq rfl) (by decide)
    (by decide +kernel) (by decide) (by decide) ?_
  refine .ret (i := ⟨0xC00003, .rts, {}⟩) (d := { cursor with offset := 4 }) (t := 0xC00000)
    (e := cursor) (by decide) (Instruction.decode_of_parts rfl Opcode.find?_rts rfl) (by decide)
    (fun r hr => Reader.next_of_singleton order hr)
    (by simp [Cursor.seek, Mapping.toOffset?, cursor]) ?_
  refine .plain (i := ⟨0xC00000, .nop, {}⟩) (d := { cursor with offset := 1 })
    (by decide) (Instruction.decode_of_parts rfl Opcode.find?_nop rfl) (by decide) ?_
  exact .known (by decide)

end Detour

/-- An edge leaves a return, and the instruction found behind it, from which control passes to
the branch, has none. -/
theorem edges_of_detour :
    ∃ r g, (Routine.read .oldest Table.standard Detour.cursor 0xC00001 {}).outcome = .ok r ∧
      (∀ i ∈ r.instructions, i.has .jump = false) ∧ (ofRoutine r).outcome = .ok g ∧
      (∃ e ∈ g.edges, ∃ last, (g.instructionsAt e.source).getLast? = some last ∧
        last.handling = .ret) ∧
      (⟨0xC00000, .nop, {}⟩ : Instruction).PassesTo 0xC00001 ∧
      ∀ e ∈ g.edges, e.source ≠ Block.idOf 0xC00000 := by
  obtain ⟨r, hread, hall⟩ := Detour.read_eq .oldest
  rw [Array.toList_inj] at hall
  have haddress := Reader.address_of_read hread
  obtain ⟨g, hg, hdepicts⟩ := exists_graph_of_sketch (s := Detour.routine) haddress hall
    (by decide +kernel) (by decide +kernel)
  have hjumps : ∀ i ∈ r.instructions, i.has .jump = false := by
    rw [hall]
    decide
  refine ⟨r, g, hread, hjumps, hg, ?_, ?_, ?_⟩
  · refine ⟨Link.edge ⟨0xC00003, 0xC00000, 0⟩, ?_, ⟨0xC00003, .rts, {}⟩, ?_, by decide⟩
    · rw [← Array.mem_toList_iff, hdepicts.edges_eq]
      exact List.mem_map_of_mem (by decide +kernel)
    · rw [Link.edge, hdepicts.instructionsAt_eq]
      decide +kernel
  · have hnext : (⟨0xC00000, .nop, {}⟩ : Instruction).nextAddress = 0xC00001 := by decide
    rw [← hnext]
    exact .behind (.inr (.inl (by decide)))
  · intro e he
    rw [← Array.mem_toList_iff, hdepicts.edges_eq] at he
    obtain ⟨l, hl, rfl⟩ := List.mem_map.1 he
    have hsources : ∀ l ∈ (sketchOf Detour.routine).links, l.source ≠ 0xC00000 := by
      decide +kernel
    rw [Link.edge, Ne, Block.idOf_inj]
    exact hsources l hl

end BlockGraph

end CartFlow
