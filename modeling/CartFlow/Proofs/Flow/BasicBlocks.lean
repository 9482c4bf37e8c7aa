import CartFlow.Proofs.Flow.BlockRuns
import CartFlow.Proofs.Processor.OpcodeTable

/-!
# The basic blocks of contiguous code

The instructions of contiguous code stand one behind the other, from the entry on and without a
wrap of addresses. Its graph has a block for each start, which is the entry, the target of a
branch or the address behind a conditional branch. An instruction belongs to the nearest start
at or before it that an instruction stands at, and the edges of a block are determined by its
last instruction and the one that follows it.
-/
namespace CartFlow

/-- The first instruction is at the entry and each one is at the address behind the one before.
Addresses do not wrap: the last instruction may at most end with the address space. -/
structure Routine.Contiguous (r : Routine) : Prop where
  first : ∀ i, r.instructions[0]? = some i → i.address = r.address
  next : ∀ (k : Nat) i j, r.instructions[k]? = some i → r.instructions[k + 1]? = some j →
    j.address = i.nextAddress ∧ i.address < j.address
  last : ∀ (k : Nat) i, r.instructions[k]? = some i → r.instructions[k + 1]? = none →
    i.nextAddress = 0 ∨ i.address < i.nextAddress

namespace BlockGraph

/-- The nearest start at or before an instruction that an instruction stands at. -/
structure NearestStart (r : Routine) (a : Address) (i : Instruction) : Prop where
  starts : Starts r a
  here : ∃ j ∈ r.instructions, j.address = a
  le : a ≤ i.address
  greatest : ∀ b, Starts r b → (∃ j ∈ r.instructions, j.address = b) → b ≤ i.address → b ≤ a

/-- The edges that leave the block at an address, in their order. -/
inductive LeavesBy (r : Routine) (g : BlockGraph) (a : Address) : List Edge → Prop
  | empty : g.instructionsAt (Block.idOf a) = [] → LeavesBy r g a []
  | conditional {last : Instruction} {t : Address} :
      (g.instructionsAt (Block.idOf a)).getLast? = some last → last.has .branch = true →
      last.has .unconditional = false → last.staticTarget = .ok t →
      LeavesBy r g a [⟨Block.idOf a, Block.idOf last.nextAddress, Edge.notTaken⟩,
        ⟨Block.idOf a, Block.idOf t, Edge.taken⟩]
  | unconditional {last : Instruction} {t : Address} :
      (g.instructionsAt (Block.idOf a)).getLast? = some last → last.has .branch = true →
      last.has .unconditional = true → last.staticTarget = .ok t →
      LeavesBy r g a [⟨Block.idOf a, Block.idOf t, 0⟩]
  | behind {last next : Instruction} {b : Address} {k : Nat} :
      (g.instructionsAt (Block.idOf a)).getLast? = some last → last.has .branch = false →
      r.instructions[k]? = some last → r.instructions[k + 1]? = some next →
      next ∈ g.instructionsAt (Block.idOf b) →
      LeavesBy r g a [⟨Block.idOf a, Block.idOf b, 0⟩]
  | finish {last : Instruction} {k : Nat} :
      (g.instructionsAt (Block.idOf a)).getLast? = some last → last.has .branch = false →
      r.instructions[k]? = some last → r.instructions[k + 1]? = none → LeavesBy r g a []

section Contiguous

variable {r : Routine} {g : BlockGraph} {i j : Instruction} {a b : Address} {k m : Nat}
  {v : Visit}

theorem address_lt (hr : r.Contiguous) (hi : r.instructions[k]? = some i)
    (hj : r.instructions[m]? = some j) (hkm : k < m) : i.address < j.address := by
  induction m generalizing j with
  | zero => omega
  | succ m ih =>
    have hlt : m < r.instructions.size := by
      have := (Array.getElem?_eq_some_iff.1 hj).1
      omega
    have hx := Array.getElem?_eq_getElem hlt
    have hstep := (hr.next m _ j hx hj).2
    by_cases heq : k = m
    · subst heq
      rw [hx] at hi
      cases hi
      exact hstep
    · exact UInt32.lt_trans (ih hx (by omega)) hstep

theorem index_le (hr : r.Contiguous) (hi : r.instructions[k]? = some i)
    (hj : r.instructions[m]? = some j) (hle : i.address ≤ j.address) : k ≤ m := by
  by_contra hno
  exact UInt32.not_lt.2 hle (address_lt hr hj hi (by omega))

theorem orderly_of_contiguous (hr : r.Contiguous) :
    Orderly r.address r.instructions.toList where
  nodup := by
    rw [List.Nodup, List.pairwise_map, List.pairwise_iff_getElem]
    intro k m hk hm hkm
    have hlt := address_lt hr (Array.getElem?_eq_getElem (by simpa using hk))
      (Array.getElem?_eq_getElem (by simpa using hm)) hkm
    simpa using UInt32.ne_of_lt hlt
  first i hi := hr.first i (by simpa using hi)
  next k i j hi hj := .inr (hr.next k i j (by simpa using hi) (by simpa using hj)).1

theorem index_eq_of_nextAddress (hr : r.Contiguous) (hi : r.instructions[k]? = some i)
    (hj : r.instructions[m + 1]? = some j) (hnext : j.address = i.nextAddress) : k = m := by
  cases hy : r.instructions[k + 1]? with
  | some y =>
    have haddress : y.address = j.address := (hr.next k i y hi hy).1.trans hnext.symm
    have hle := index_le hr hy hj (UInt32.le_of_eq haddress)
    have hge := index_le hr hj hy (UInt32.le_of_eq haddress.symm)
    omega
  | none =>
    -- the last instruction ends with the address space or behind all instructions
    have hsize := Array.getElem?_eq_none_iff.1 hy
    have hm := (Array.getElem?_eq_some_iff.1 hj).1
    have hx := Array.getElem?_eq_getElem (Nat.lt_of_succ_lt hm)
    have hlt := address_lt hr hx hj (Nat.lt_succ_self m)
    rcases hr.last k i hi hy with hzero | hbehind
    · rw [hnext, hzero] at hlt
      exact absurd hlt UInt32.not_lt_zero
    · rw [← hnext] at hbehind
      have hle := index_le hr hi hj (UInt32.le_of_lt hbehind)
      obtain rfl : k = m + 1 := by omega
      rw [hi] at hj
      cases hj
      exact absurd hbehind (UInt32.lt_irrefl _)

theorem not_starts (hr : r.Contiguous) (hi : r.instructions[k]? = some i)
    (hj : r.instructions[k + 1]? = some j) (hbranch : i.has .branch = false)
    (hlabel : j.address ∉ targets r.instructions.toList) : ¬ Starts r j.address := by
  rintro (hentry | ⟨x, hx, hxbranch, htarget | ⟨-, hnext⟩⟩)
  · have hsize : 0 < r.instructions.size := by
      have := (Array.getElem?_eq_some_iff.1 hi).1
      omega
    have hfirst := Array.getElem?_eq_getElem hsize
    have hle := index_le hr hj hfirst (by rw [hr.first _ hfirst, hentry]; exact UInt32.le_refl _)
    omega
  · exact hlabel (mem_targets.2 ⟨x, Array.mem_toList_iff.2 hx, hxbranch, htarget⟩)
  · obtain ⟨n, hn⟩ := Array.getElem?_of_mem hx
    obtain rfl := index_eq_of_nextAddress hr hn hj hnext
    rw [hi] at hn
    cases hn
    rw [hbranch] at hxbranch
    cases hxbranch

theorem nearestStart_home (hr : r.Contiguous)
    (hadmitted : AllAdmitted (targets r.instructions.toList) [r.address] (visitsOf r))
    (hv : (visitsOf r)[k]? = some v) :
    NearestStart r (v.home (targets r.instructions.toList)) v.instruction := by
  induction k using Nat.strongRecOn generalizing v with
  | ind k ih =>
    have hi := getElem?_visitsOf hv
    rcases (orderly_of_contiguous hr).home_cases hv with
      hopens | ⟨m, u, rfl, hu, hbranch, hlabel, hsame⟩
    · rw [hopens]
      refine ⟨?_, ⟨v.instruction, Array.mem_of_getElem? hi, rfl⟩, UInt32.le_refl _, ?_⟩
      · rw [← hopens]
        exact starts_home hadmitted (List.mem_of_getElem? hv)
      · exact fun b _ _ hb => hb
    · have hj := getElem?_visitsOf hu
      obtain ⟨hstarts, hhere, hle, hgreatest⟩ := ih m (Nat.lt_succ_self m) hu
      have hlt := address_lt hr hj hi (Nat.lt_succ_self m)
      rw [hsame]
      refine ⟨hstarts, hhere, UInt32.le_trans hle (UInt32.le_of_lt hlt), ?_⟩
      rintro b hb ⟨x, hx, rfl⟩ hbi
      obtain ⟨n, hn⟩ := Array.getElem?_of_mem hx
      -- a start at or before the instruction is before it, since it is no start itself
      have hnm : n ≤ m := by
        have hnk := index_le hr hn hi hbi
        by_contra hno
        obtain rfl : n = m + 1 := by omega
        rw [hi] at hn
        cases hn
        exact not_starts hr hj hi hbranch hlabel hb
      apply hgreatest _ hb ⟨x, hx, rfl⟩
      rcases Nat.lt_or_eq_of_le hnm with hless | rfl
      · exact UInt32.le_of_lt (address_lt hr hn hj hless)
      · rw [hj] at hn
        cases hn
        exact UInt32.le_refl _

theorem exists_nearestStart (hr : r.Contiguous)
    (hadmitted : AllAdmitted (targets r.instructions.toList) [r.address] (visitsOf r))
    (hi : i ∈ r.instructions) : ∃ v ∈ visitsOf r, v.instruction = i ∧
      NearestStart r (v.home (targets r.instructions.toList)) i := by
  rw [← Array.mem_toList_iff, ← map_instruction_visitsOf] at hi
  obtain ⟨v, hv, rfl⟩ := List.mem_map.1 hi
  obtain ⟨k, hk⟩ := List.getElem?_of_mem hv
  exact ⟨v, hv, rfl, nearestStart_home hr hadmitted hk⟩

theorem mem_blockAt_iff (hr : r.Contiguous)
    (hadmitted : AllAdmitted (targets r.instructions.toList) [r.address] (visitsOf r)) :
    i ∈ blockAt (targets r.instructions.toList) (visitsOf r) a ↔
      i ∈ r.instructions ∧ NearestStart r a i := by
  rw [mem_blockAt]
  constructor
  · rintro ⟨v, hv, rfl, rfl⟩
    obtain ⟨k, hk⟩ := List.getElem?_of_mem hv
    exact ⟨Array.mem_of_getElem? (getElem?_visitsOf hk), nearestStart_home hr hadmitted hk⟩
  · rintro ⟨hi, hnear⟩
    obtain ⟨v, hv, rfl, hhome⟩ := exists_nearestStart hr hadmitted hi
    refine ⟨v, hv, ?_, rfl⟩
    exact UInt32.le_antisymm (hnear.greatest _ hhome.starts hhome.here hhome.le)
      (hhome.greatest _ hnear.starts hnear.here hnear.le)

/-- No link leaves a block without instructions. -/
theorem filter_links_of_blockAt_eq_nil (horderly : Orderly r.address r.instructions.toList)
    (hnil : blockAt (targets r.instructions.toList) (visitsOf r) a = []) :
    ((visitsOf r).flatMap (·.links (targets r.instructions.toList))).filter (·.source = a) =
      [] := by
  rw [List.filter_eq_nil_iff]
  intro l hl hsource
  obtain ⟨k, u, hu, hl⟩ := horderly.exists_of_mem_links hl
  have hhome := (source_of_mem_exitLinks hl).symm.trans (of_decide_eq_true hsource)
  have hmem : u.instruction ∈ blockAt (targets r.instructions.toList) (visitsOf r) a :=
    mem_blockAt.2 ⟨u, List.mem_of_getElem? hu, hhome, rfl⟩
  rw [hnil] at hmem
  cases hmem

theorem leavesBy (hr : r.Contiguous) (hg : Depicts g (sketchOf r))
    (hadmitted : AllAdmitted (targets r.instructions.toList) [r.address] (visitsOf r))
    (a : Address) :
    LeavesBy r g a (g.edges.toList.filter (·.source == Block.idOf a)) := by
  have horderly := orderly_of_contiguous hr
  have hblock := instructionsAt_of_depicts hg (a := a)
  rw [edges_of_depicts hg, filter_edge_source]
  cases hlast : (blockAt (targets r.instructions.toList) (visitsOf r) a).getLast? with
  | none =>
    have hnil := List.getLast?_eq_none_iff.1 hlast
    rw [filter_links_of_blockAt_eq_nil horderly hnil, List.map_nil]
    exact .empty (hblock.trans hnil)
  | some last =>
    obtain ⟨k, u, hu, rfl, rfl, hends⟩ := exists_of_getLast? horderly hlast
    have hi := getElem?_visitsOf hu
    have hlinks : ((visitsOf r).flatMap (·.links (targets r.instructions.toList))).filter
        (·.source = u.home (targets r.instructions.toList)) =
        exitLinks (targets r.instructions.toList) (visitsOf r) k u :=
      horderly.filter_links hu hends
    rw [← hblock] at hlast
    rw [hlinks, exitLinks]
    cases hbranch : u.instruction.has .branch with
    | true =>
      obtain ⟨t, ht⟩ := hadmitted.exists_target _
        (Array.mem_toList_iff.2 (Array.mem_of_getElem? hi)) hbranch
      cases hun : u.instruction.has .unconditional with
      | true => simpa [branchLinks, hbranch, ht, hun] using .unconditional hlast hbranch hun ht
      | false => simpa [branchLinks, hbranch, ht, hun] using .conditional hlast hbranch hun ht
    | false =>
      cases hv : (visitsOf r)[k + 1]? with
      | none => exact .finish hlast hbranch hi (getElem?_eq_none_of_visitsOf hv)
      | some v =>
        have hlabel : v.instruction.address ∈ targets r.instructions.toList := by
          by_contra hlabel
          exact hends v hv (home_succ hu hv hbranch hlabel)
        have hmem : v.instruction ∈ g.instructionsAt (Block.idOf v.instruction.address) := by
          rw [instructionsAt_of_depicts hg]
          exact mem_blockAt.2 ⟨v, List.mem_of_getElem? hv, home_of_label hlabel, rfl⟩
        simpa [hlabel] using .behind hlast hbranch hi (getElem?_visitsOf hv) hmem

/-- The graph of contiguous code has exactly the basic blocks of the code: its nodes are the
starts, each instruction is in the block of the nearest start, in order, and the edges of each
block are those of its last instruction. -/
theorem basicBlocks_of_contiguous (hr : r.Contiguous) (hok : (ofRoutine r).outcome = .ok g) :
    (∀ id, g.contains id = true ↔ ∃ a, Starts r a ∧ id = Block.idOf a) ∧
    ((∀ i ∈ r.instructions, ∃ a, NearestStart r a i) ∧
      ∀ a, (g.instructionsAt (Block.idOf a)).Sublist r.instructions.toList ∧
        ∀ i, i ∈ g.instructionsAt (Block.idOf a) ↔ i ∈ r.instructions ∧ NearestStart r a i) ∧
    (∀ e ∈ g.edges, ∃ a, Starts r a ∧ e.source = Block.idOf a) ∧
    ∀ a, LeavesBy r g a (g.edges.toList.filter (·.source == Block.idOf a)) := by
  obtain ⟨hg, hadmitted⟩ := depicts_of_ofRoutine hok
  have hcontains : ∀ id, g.contains id = true ↔ ∃ a, Starts r a ∧ id = Block.idOf a := by
    intro id
    simp only [hg.contains_iff, mem_opened_sketchOf hadmitted]
  refine ⟨hcontains, ⟨fun i hi => ?_, fun a => ⟨?_, fun i => ?_⟩⟩, fun e he => ?_,
    leavesBy hr hg hadmitted⟩
  · obtain ⟨v, -, -, hnear⟩ := exists_nearestStart hr hadmitted hi
    exact ⟨_, hnear⟩
  · rw [instructionsAt_of_depicts hg, blockAt, ← map_instruction_visitsOf]
    exact List.filter_sublist.map _
  · rw [instructionsAt_of_depicts hg]
    exact mem_blockAt_iff hr hadmitted
  · exact (hcontains _).1 (hg.built.consistent.source_mem e he)

end Contiguous

namespace Skip

/-! A branch over an instruction. -/

def routine : Routine where
  address := 0xC00000
  instructions := #[⟨0xC00000, .beq, ⟨1, 1⟩⟩, ⟨0xC00002, .nop, {}⟩, ⟨0xC00003, .rts, {}⟩]

theorem contiguous : routine.Contiguous where
  first i hi := by cases hi; rfl
  next k i j hi hj := by
    rcases k with _ | _ | k
    · cases hi
      cases hj
      decide
    · cases hi
      cases hj
      decide
    · simp [routine] at hj
  last k i hi hend := by
    rcases k with _ | _ | _ | k
    · simp [routine] at hend
    · simp [routine] at hend
    · cases hi
      decide
    · simp [routine] at hi

theorem exists_graph : ∃ g, (ofRoutine routine).outcome = .ok g := by
  apply exists_ofRoutine
  · decide +kernel
  · decide +kernel

end Skip

/-- The branch over an instruction has a graph, and it is that of its basic blocks. -/
theorem basicBlocks_of_skip :
    ∃ g, (ofRoutine Skip.routine).outcome = .ok g ∧ Skip.routine.Contiguous ∧
      (∀ id, g.contains id = true ↔ ∃ a, Starts Skip.routine a ∧ id = Block.idOf a) ∧
      (∀ a i, i ∈ g.instructionsAt (Block.idOf a) ↔
        i ∈ Skip.routine.instructions ∧ NearestStart Skip.routine a i) ∧
      ∀ a, LeavesBy Skip.routine g a (g.edges.toList.filter (·.source == Block.idOf a)) := by
  obtain ⟨g, hg⟩ := Skip.exists_graph
  obtain ⟨hnodes, ⟨-, hblocks⟩, -, hedges⟩ := basicBlocks_of_contiguous Skip.contiguous hg
  exact ⟨g, hg, Skip.contiguous, hnodes, fun a => (hblocks a).2, hedges⟩

end BlockGraph

end CartFlow
