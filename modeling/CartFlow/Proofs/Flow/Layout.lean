import CartFlow.Proofs.Flow.Sketch

/-!
# Where the walk puts instructions and edges

The walk over the instructions of a routine is described exactly, for every routine. An
instruction is visited with the block above it, the one that the walk is in. The instruction
belongs to the block at its own address if it is the target of a branch or if there is no block
above, and otherwise to the block above. Targets of branches are linked with the block above
unless this is their own; branches are linked with their targets and, if they are conditional,
with the block behind them. The walk succeeds if it finds the block of each instruction behind
an unconditional branch and the targets of branches are known, and a graph has an exit if at
most one of its blocks, the entry apart, has no successors.
-/
namespace CartFlow.BlockGraph

def targets (is : List Instruction) : List Address :=
  is.filterMap fun i => if i.has .branch then i.staticTarget.toOption else none

/-- The links that leave an instruction of the block `home`: those of a branch. -/
def branchLinks (home : Address) (i : Instruction) : List Link :=
  if i.has .branch then
    match i.staticTarget with
    | .ok t =>
      if i.has .unconditional then [⟨home, t, 0⟩]
      else [⟨home, i.nextAddress, Edge.notTaken⟩, ⟨home, t, Edge.taken⟩]
    | .error _ => []
  else []

/-- The block that the walk is in behind an instruction of the block `home`. -/
def blockBehind (home : Address) (i : Instruction) : Option Address :=
  if i.has .branch then
    if i.has .unconditional then none else some i.nextAddress
  else some home

/-- An instruction that the walk comes to, with the block above it. -/
structure Visit where
  above : Option Address
  instruction : Instruction
  deriving DecidableEq, Repr

namespace Visit

variable (labels : List Address) (v : Visit)

def home : Address :=
  if v.instruction.address ∈ labels then v.instruction.address
  else v.above.getD v.instruction.address

def entering : List Link :=
  if v.instruction.address ∈ labels then
    v.above.elim [] fun a =>
      if a ≠ v.instruction.address then [⟨a, v.instruction.address, 0⟩] else []
  else []

def links : List Link :=
  v.entering labels ++ branchLinks (v.home labels) v.instruction

def opened : List Address :=
  (if v.instruction.address ∈ labels then [v.instruction.address] else []) ++
    (branchLinks (v.home labels) v.instruction).map (·.target)

/-- Whether the walk can take the instruction: its block is among those seen or it is a label,
and the target of a branch is known. -/
def Admitted (seen : List Address) : Prop :=
  (v.instruction.address ∈ labels ∨ v.home labels ∈ seen) ∧
    (v.instruction.has .branch = true → v.instruction.staticTarget.isOk = true)

instance (seen : List Address) : Decidable (v.Admitted labels seen) :=
  inferInstanceAs (Decidable (_ ∧ _))

variable {labels v}

theorem Admitted.exists_target {seen : List Address} (h : v.Admitted labels seen)
    (hbranch : v.instruction.has .branch = true) : ∃ t, v.instruction.staticTarget = .ok t := by
  have hok := h.2 hbranch
  cases ht : v.instruction.staticTarget with
  | ok t => exact ⟨t, rfl⟩
  | error e => rw [ht] at hok; cases hok

end Visit

def Sketch.add (s : Sketch) (labels : List Address) (v : Visit) : Sketch where
  opened := s.opened ++ v.opened labels
  placed := s.placed ++ [(v.home labels, v.instruction)]
  links := s.links ++ v.links labels

/-- A walk has drawn a sketch and is in the block at an address. -/
structure Walk.Draws (w : Walk) (s : Sketch) (above : Option Address) : Prop where
  depicts : Depicts w.graph s
  current_eq : w.current = above.map Block.idOf
  above_mem : ∀ a, above = some a → a ∈ s.opened

namespace Walk.Draws

variable {w w' : Walk} {s : Sketch} {above : Option Address} {labels : List Address}
  {set : Std.HashSet Address} {i : Instruction} {t : Address}

theorem enterLabel (h : w.Draws s above) (a : Address) :
    ∃ w', w.enterLabel a = .ok w' ∧ w'.Draws { s with
      opened := s.opened ++ [a]
      links := s.links ++ above.elim [] fun b => if b ≠ a then [⟨b, a, 0⟩] else [] }
        (some a) := by
  obtain ⟨g, current⟩ := w
  have hadd := h.depicts.addBlock a
  have hcurrent := h.current_eq
  have hmem : ∀ b, some a = some b → b ∈ s.opened ++ [a] := by simp
  dsimp only at hcurrent hadd
  subst hcurrent
  cases above with
  | none =>
    exact ⟨⟨BlockGraph.addBlock g a, some (Block.idOf a)⟩, rfl, by simpa using hadd, rfl, hmem⟩
  | some b =>
    by_cases heq : b = a
    · subst heq
      refine ⟨⟨BlockGraph.addBlock g b, some (Block.idOf b)⟩, ?_, by simpa using hadd, rfl, hmem⟩
      exact if_pos rfl
    · obtain ⟨g', hg', hdepicts⟩ := hadd.addEdge (a := b) (b := a)
        (List.mem_append_left _ (h.above_mem b rfl)) (by simp) 0
      refine ⟨⟨g', some (Block.idOf a)⟩, ?_, by simpa [heq] using hdepicts, rfl, hmem⟩
      simp only [Walk.enterLabel, Option.map_some]
      rw [if_neg (by rwa [Block.idOf_inj])]
      rw [hg']
      rfl

theorem append (h : w.Draws s above) (hmem : above.getD i.address ∈ s.opened) :
    ∃ w', w.append i = .ok (w', Block.idOf (above.getD i.address)) ∧
      w'.Draws { s with placed := s.placed ++ [(above.getD i.address, i)] }
        (some (above.getD i.address)) := by
  have hpush := h.depicts.push hmem i
  refine ⟨⟨w.graph.modify (Block.idOf (above.getD i.address)) (·.push i),
    some (Block.idOf (above.getD i.address))⟩, ?_, hpush, rfl, ?_⟩
  · have hblock : w.blockOf i = .ok (Block.idOf (above.getD i.address)) := by
      unfold blockOf
      rw [h.current_eq]
      cases above with
      | some a => rfl
      | none =>
        obtain ⟨n, -, hn, hid⟩ :=
          h.depicts.built.consistent.node?_eq_some (h.depicts.contains_idOf.2 hmem)
        dsimp only [Option.map_none, Option.getD_none] at hn hid ⊢
        rw [Graph.node, hn]
        exact congrArg Except.ok hid
    rw [Walk.append, hblock]
  · rintro a ⟨rfl⟩
    exact hmem

theorem mem_opened_of_append {x : Walk × String} (h : w.Draws s above)
    (hok : w.append i = .ok x) : above.getD i.address ∈ s.opened := by
  cases above with
  | some a => exact h.above_mem a rfl
  | none =>
    obtain ⟨-, hcurrent | ⟨-, hid, hcontains⟩⟩ := append_eq_ok h.depicts.built.consistent hok
    · rw [h.current_eq] at hcurrent
      cases hcurrent
    · rw [hid, h.depicts.contains_idOf] at hcontains
      exact hcontains

theorem endBlock (h : w.Draws s above) (hmem : above.getD i.address ∈ s.opened)
    (hbranch : i.has .branch = true) (ht : i.staticTarget = .ok t) :
    ∃ w', w.endBlock i = .ok w' ∧ w'.Draws {
      opened := s.opened ++ (branchLinks (above.getD i.address) i).map (·.target)
      placed := s.placed ++ [(above.getD i.address, i)]
      links := s.links ++ branchLinks (above.getD i.address) i }
        (blockBehind (above.getD i.address) i) := by
  obtain ⟨v, hv, hdraws⟩ := h.append hmem
  generalize above.getD i.address = home at *
  unfold Walk.endBlock branchLinks blockBehind
  rw [hv, ht]
  simp only [bind, Except.bind, hbranch, if_true]
  cases hun : i.has .unconditional with
  | true =>
    obtain ⟨g, hg, hdepicts⟩ := (hdraws.depicts.addBlock t).addEdge (a := home) (b := t)
      (List.mem_append_left _ hmem) (by simp) 0
    refine ⟨⟨g, none⟩, ?_, by simpa using hdepicts, rfl, by simp⟩
    simp only [if_true, hg]
    rfl
  | false =>
    have hblocks := (hdraws.depicts.addBlock i.nextAddress).addBlock t
    obtain ⟨g, hg, hdepicts⟩ := hblocks.addEdge (a := home) (b := i.nextAddress)
      (by simp [hmem]) (by simp) Edge.notTaken
    obtain ⟨g', hg', hdepicts'⟩ := hdepicts.addEdge (a := home) (b := t)
      (by simp [hmem]) (by simp) Edge.taken
    refine ⟨⟨g', some (Block.idOf i.nextAddress)⟩, ?_, by simpa using hdepicts', rfl, by simp⟩
    simp only [Bool.false_eq_true, if_false, hg, hg']
    rfl

theorem place (h : w.Draws s above) (hmem : above.getD i.address ∈ s.opened)
    (htarget : i.has .branch = true → ∃ t, i.staticTarget = .ok t) :
    ∃ w', (if i.has .branch then w.endBlock i else (w.append i).map (·.1)) = .ok w' ∧ w'.Draws {
      opened := s.opened ++ (branchLinks (above.getD i.address) i).map (·.target)
      placed := s.placed ++ [(above.getD i.address, i)]
      links := s.links ++ branchLinks (above.getD i.address) i }
        (blockBehind (above.getD i.address) i) := by
  cases hbranch : i.has .branch with
  | true =>
    obtain ⟨t, ht⟩ := htarget hbranch
    obtain ⟨w', hw', hdraws⟩ := h.endBlock hmem hbranch ht
    exact ⟨w', by simpa using hw', hdraws⟩
  | false =>
    obtain ⟨w', hw', hdraws⟩ := h.append hmem
    refine ⟨w', by simp [hw', Except.map], ?_⟩
    simpa [branchLinks, blockBehind, hbranch] using hdraws

theorem feed (h : w.Draws s above) (hset : ∀ a, set.contains a = decide (a ∈ labels))
    (hadmitted : Visit.Admitted labels ⟨above, i⟩ s.opened) :
    ∃ w', w.feed set i = .ok w' ∧ w'.Draws (s.add labels ⟨above, i⟩)
      (blockBehind (Visit.home labels ⟨above, i⟩) i) := by
  have htarget := hadmitted.exists_target
  unfold Walk.feed
  by_cases hlabel : i.address ∈ labels
  · obtain ⟨v, hv, hdraws⟩ := h.enterLabel i.address
    obtain ⟨w', hw', hdraws'⟩ := hdraws.place (i := i) (by simp) htarget
    refine ⟨w', ?_, ?_⟩
    · simp only [hset, hlabel, decide_true, if_true, hv, bind, Except.bind]
      exact hw'
    · simpa [Sketch.add, Visit.opened, Visit.home, Visit.links, Visit.entering, hlabel]
        using hdraws'
  · have hmem : above.getD i.address ∈ s.opened := by
      simpa [Visit.home, hlabel] using hadmitted.1
    obtain ⟨w', hw', hdraws'⟩ := h.place hmem htarget
    refine ⟨w', ?_, ?_⟩
    · simp only [hset, hlabel, decide_false, Bool.false_eq_true, if_false, pure_bind]
      exact hw'
    · simpa [Sketch.add, Visit.opened, Visit.home, Visit.links, Visit.entering, hlabel]
        using hdraws'

theorem admitted_of_feed (h : w.Draws s above)
    (hset : ∀ a, set.contains a = decide (a ∈ labels)) (hok : w.feed set i = .ok w') :
    Visit.Admitted labels ⟨above, i⟩ s.opened := by
  constructor
  · by_cases hlabel : i.address ∈ labels
    · exact .inl hlabel
    · simp only [Walk.feed, hset, hlabel, decide_false, Bool.false_eq_true, if_false,
        pure_bind] at hok
      have happ : ∃ x, w.append i = .ok x := by
        split at hok
        · obtain ⟨v, id, -, happ, -⟩ := endBlock_eq_ok hok
          exact ⟨_, happ⟩
        · cases happ : w.append i with
          | ok x => exact ⟨x, rfl⟩
          | error e => rw [happ] at hok; cases hok
      obtain ⟨x, hx⟩ := happ
      exact .inr (by simpa [Visit.home, hlabel] using h.mem_opened_of_append hx)
  · intro hbranch
    obtain ⟨v, -, ⟨-, hends⟩ | ⟨hno, -⟩⟩ := feed_eq_ok hok
    · obtain ⟨-, -, t, -, ht, -⟩ := endBlock_eq_ok hends
      dsimp only
      rw [ht]
      rfl
    · rw [hbranch] at hno
      cases hno

end Walk.Draws

def visits (labels : List Address) : Option Address → List Instruction → List Visit
  | _, [] => []
  | above, i :: rest =>
    ⟨above, i⟩ :: visits labels (blockBehind (Visit.home labels ⟨above, i⟩) i) rest

def AllAdmitted (labels : List Address) : List Address → List Visit → Prop
  | _, [] => True
  | seen, v :: rest => v.Admitted labels seen ∧ AllAdmitted labels (seen ++ v.opened labels) rest

instance decidableAllAdmitted (labels : List Address) :
    ∀ seen vs, Decidable (AllAdmitted labels seen vs)
  | _, [] => isTrue trivial
  | seen, v :: rest =>
    have := decidableAllAdmitted labels (seen ++ v.opened labels) rest
    inferInstanceAs (Decidable (_ ∧ _))

def Sketch.addAll (s : Sketch) (labels : List Address) (vs : List Visit) : Sketch where
  opened := s.opened ++ vs.flatMap (·.opened labels)
  placed := s.placed ++ vs.map fun v => (v.home labels, v.instruction)
  links := s.links ++ vs.flatMap (·.links labels)

section Walks

variable {w w' : Walk} {s : Sketch} {above : Option Address} {labels : List Address}
  {set : Std.HashSet Address} {is : List Instruction}

theorem addAll_cons (s : Sketch) (v : Visit) (vs : List Visit) :
    s.addAll labels (v :: vs) = (s.add labels v).addAll labels vs := by
  simp [Sketch.addAll, Sketch.add]

theorem Walk.Draws.feedAll (h : w.Draws s above)
    (hset : ∀ a, set.contains a = decide (a ∈ labels))
    (hadmitted : AllAdmitted labels s.opened (visits labels above is)) :
    ∃ w' above', is.foldlM (Walk.feed set) w = .ok w' ∧
      w'.Draws (s.addAll labels (visits labels above is)) above' := by
  induction is generalizing w s above with
  | nil => exact ⟨w, above, rfl, by simpa [visits, Sketch.addAll] using h⟩
  | cons i rest ih =>
    obtain ⟨v, hv, hdraws⟩ := h.feed hset hadmitted.1
    obtain ⟨w', above', hw', hdraws'⟩ := ih hdraws hadmitted.2
    refine ⟨w', above', ?_, ?_⟩
    · rw [List.foldlM_cons, hv]
      exact hw'
    · rw [visits, addAll_cons]
      exact hdraws'

theorem Walk.Draws.allAdmitted_of_feedAll (h : w.Draws s above)
    (hset : ∀ a, set.contains a = decide (a ∈ labels))
    (hok : is.foldlM (Walk.feed set) w = .ok w') :
    AllAdmitted labels s.opened (visits labels above is) := by
  induction is generalizing w s above with
  | nil => trivial
  | cons i rest ih =>
    rw [List.foldlM_cons] at hok
    obtain ⟨v, hv, hok⟩ := bind_eq_ok.1 hok
    have hadmitted := h.admitted_of_feed hset hv
    obtain ⟨v', hv', hdraws⟩ := h.feed hset hadmitted
    rw [hv] at hv'
    cases hv'
    exact ⟨hadmitted, ih hdraws hok⟩

end Walks

section Visits

variable {labels seen : List Address} {above : Option Address} {is : List Instruction}

theorem map_instruction_visits : (visits labels above is).map (·.instruction) = is := by
  induction is generalizing above with
  | nil => rfl
  | cons i rest ih => rw [visits, List.map_cons, ih]

theorem AllAdmitted.home_mem {vs : List Visit} (h : AllAdmitted labels seen vs) {v : Visit}
    (hv : v ∈ vs) :
    v.home labels ∈ labels ∨ v.home labels ∈ seen ++ vs.flatMap (·.opened labels) := by
  induction vs generalizing seen with
  | nil => exact absurd hv List.not_mem_nil
  | cons u rest ih =>
    rw [List.flatMap_cons, ← List.append_assoc]
    rcases List.mem_cons.1 hv with rfl | hv
    · rcases h.1.1 with hlabel | hseen
      · left
        rwa [Visit.home, if_pos hlabel]
      · exact .inr (List.mem_append_left _ (List.mem_append_left _ hseen))
    · exact ih h.2 hv

theorem AllAdmitted.exists_target (h : AllAdmitted labels seen (visits labels above is)) :
    ∀ i ∈ is, i.has .branch = true → ∃ t, i.staticTarget = .ok t := by
  induction is generalizing seen above with
  | nil => simp
  | cons i rest ih =>
    intro j hj
    rcases List.mem_cons.1 hj with rfl | hj
    · exact h.1.exists_target
    · exact ih h.2 j hj

end Visits

section Labels

variable {is : List Instruction} {set : Std.HashSet Address}

theorem mapM_staticTarget_eq_ok {ts : List Address}
    (h : (is.filter (·.has .branch)).mapM (·.staticTarget) = .ok ts) : ts = targets is := by
  induction is generalizing ts with
  | nil => cases h; rfl
  | cons i rest ih =>
    cases hbranch : i.has .branch with
    | false =>
      rw [List.filter_cons_of_neg (by simp [hbranch])] at h
      rw [ih h]
      simp [targets, hbranch]
    | true =>
      rw [List.filter_cons_of_pos (by simpa using hbranch), List.mapM_cons] at h
      obtain ⟨t, ht, h⟩ := bind_eq_ok.1 h
      obtain ⟨ts, hts, h⟩ := bind_eq_ok.1 h
      cases h
      rw [ih hts]
      simp [targets, hbranch, ht, Except.toOption]

theorem contains_labels (h : labels is = .ok set) (a : Address) :
    set.contains a = decide (a ∈ targets is) := by
  obtain ⟨ts, hts, h⟩ := bind_eq_ok.1 h
  cases h
  rw [mapM_staticTarget_eq_ok hts]
  simp

theorem exists_labels
    (h : ∀ i ∈ is, i.has .branch = true → ∃ t, i.staticTarget = .ok t) :
    ∃ set, labels is = .ok set := by
  have hmap : ∃ ts, (is.filter (·.has .branch)).mapM (·.staticTarget) = .ok ts := by
    induction is with
    | nil => exact ⟨[], rfl⟩
    | cons i rest ih =>
      obtain ⟨ts, hts⟩ := ih fun j hj => h j (List.mem_cons_of_mem i hj)
      cases hbranch : i.has .branch with
      | false => exact ⟨ts, by rwa [List.filter_cons_of_neg (by simp [hbranch])]⟩
      | true =>
        obtain ⟨t, ht⟩ := h i List.mem_cons_self hbranch
        refine ⟨t :: ts, ?_⟩
        rw [List.filter_cons_of_pos (by simpa using hbranch), List.mapM_cons, ht, hts]
        rfl
  obtain ⟨ts, hts⟩ := hmap
  exact ⟨_, bind_eq_ok.2 ⟨ts, hts, rfl⟩⟩

end Labels

theorem mem_targets {is : List Instruction} {a : Address} :
    a ∈ targets is ↔ ∃ i ∈ is, i.has .branch = true ∧ i.staticTarget = .ok a := by
  rw [targets, List.mem_filterMap]
  refine exists_congr fun i => and_congr_right fun _ => ?_
  cases i.has .branch <;> cases i.staticTarget <;> simp [Except.toOption]

def visitsOf (r : Routine) : List Visit :=
  visits (targets r.instructions.toList) (some r.address) r.instructions.toList

theorem map_instruction_visitsOf (r : Routine) :
    (visitsOf r).map (·.instruction) = r.instructions.toList :=
  map_instruction_visits

def sketchOf (r : Routine) : Sketch :=
  Sketch.addAll ⟨[r.address], [], []⟩ (targets r.instructions.toList) (visitsOf r)

/-- A block starts at the entry, at the target of a branch and behind a conditional branch. -/
def Starts (r : Routine) (a : Address) : Prop :=
  a = r.address ∨ ∃ i ∈ r.instructions, i.has .branch = true ∧
    (i.staticTarget = .ok a ∨ i.has .unconditional = false ∧ a = i.nextAddress)

section Routines

variable {r : Routine} {g : BlockGraph}

theorem draws_start (address : Address) :
    (start address).Draws ⟨[address], [], []⟩ (some address) := by
  have hempty : Depicts .empty ⟨[], [], []⟩ := by
    refine ⟨.empty, ?_, ?_, rfl⟩
    · simp [Graph.contains, Graph.empty]
    · simp [instructionsAt, Graph.data?, Graph.node?, Graph.empty]
  obtain ⟨-, hcontains, hinstructions, hedges⟩ := hempty.addBlock address
  exact ⟨⟨(Walk.Holds.start address).built, hcontains, hinstructions, hedges⟩, rfl, by simp⟩

theorem depicts_of_ofRoutine (hok : (ofRoutine r).outcome = .ok g) :
    Depicts g (sketchOf r) ∧
      AllAdmitted (targets r.instructions.toList) [r.address] (visitsOf r) := by
  have hbuilt := (ofRoutine_spec hok).1
  rw [ofRoutine, Traced.outcome_during, during_eq_ok] at hok
  simp only [Traced.outcome_bind, Traced.outcome_ofExcept, Walk.outcome_feedAll] at hok
  obtain ⟨set, hset, hok⟩ := bind_eq_ok.1 hok
  obtain ⟨w, hwalk, hok⟩ := bind_eq_ok.1 hok
  have hadmitted :=
    (draws_start r.address).allAdmitted_of_feedAll (contains_labels hset) hwalk
  obtain ⟨w', above, hw', hdraws⟩ :=
    (draws_start r.address).feedAll (contains_labels hset) hadmitted
  rw [hwalk] at hw'
  cases hw'
  obtain ⟨exit, rfl, -⟩ := chooseExit_eq_ok hok
  obtain ⟨-, hcontains, hinstructions, hedges⟩ := hdraws.depicts
  exact ⟨⟨hbuilt, hcontains, hinstructions, hedges⟩, hadmitted⟩

theorem mem_branchLinks_target (home : Address) {a t : Address} {i : Instruction}
    (hbranch : i.has .branch = true) (ht : i.staticTarget = .ok t) :
    a ∈ (branchLinks home i).map (·.target) ↔
      a = t ∨ i.has .unconditional = false ∧ a = i.nextAddress := by
  cases hun : i.has .unconditional <;> simp [branchLinks, hbranch, ht, hun, or_comm]

theorem branchLinks_of_not_branch {home : Address} {i : Instruction}
    (hbranch : i.has .branch = false) : branchLinks home i = [] := by
  simp [branchLinks, hbranch]

theorem mem_opened_sketchOf {a : Address}
    (hadmitted : AllAdmitted (targets r.instructions.toList) [r.address] (visitsOf r)) :
    a ∈ (sketchOf r).opened ↔ Starts r a := by
  have htargets := hadmitted.exists_target
  have hinstruction : ∀ v ∈ visitsOf r, v.instruction ∈ r.instructions := by
    intro v hv
    rw [← Array.mem_toList_iff, ← map_instruction_visitsOf]
    exact List.mem_map_of_mem hv
  simp only [sketchOf, Sketch.addAll, List.mem_append, List.mem_singleton, List.mem_flatMap,
    Visit.opened]
  apply or_congr_right
  constructor
  · rintro ⟨v, hv, hlabel | hlink⟩
    · split at hlabel
      · next hmem =>
        rw [List.mem_singleton.1 hlabel]
        obtain ⟨i, hi, hbranch, ht⟩ := mem_targets.1 hmem
        exact ⟨i, Array.mem_toList_iff.1 hi, hbranch, .inl ht⟩
      · exact absurd hlabel List.not_mem_nil
    · cases hbranch : v.instruction.has .branch with
      | false => rw [branchLinks_of_not_branch hbranch] at hlink; simp at hlink
      | true =>
        obtain ⟨t, ht⟩ := htargets _ (Array.mem_toList_iff.2 (hinstruction v hv)) hbranch
        refine ⟨v.instruction, hinstruction v hv, hbranch, ?_⟩
        rcases (mem_branchLinks_target _ hbranch ht).1 hlink with rfl | hnext
        · exact .inl ht
        · exact .inr hnext
  · rintro ⟨i, hi, hbranch, h⟩
    obtain ⟨t, ht⟩ := htargets i (Array.mem_toList_iff.2 hi) hbranch
    rw [← Array.mem_toList_iff, ← map_instruction_visitsOf] at hi
    obtain ⟨v, hv, rfl⟩ := List.mem_map.1 hi
    refine ⟨v, hv, .inr ((mem_branchLinks_target _ hbranch ht).2 ?_)⟩
    rcases h with h | h
    · rw [ht] at h
      exact .inl (Except.ok.inj h).symm
    · exact .inr h

theorem starts_home
    (hadmitted : AllAdmitted (targets r.instructions.toList) [r.address] (visitsOf r))
    {v : Visit} (hv : v ∈ visitsOf r) : Starts r (v.home (targets r.instructions.toList)) := by
  rcases hadmitted.home_mem hv with hlabel | hopened
  · obtain ⟨i, hi, hbranch, ht⟩ := mem_targets.1 hlabel
    exact .inr ⟨i, Array.mem_toList_iff.1 hi, hbranch, .inl ht⟩
  · exact (mem_opened_sketchOf hadmitted).1 hopened

theorem mem_deadEnds {s : Sketch} (hg : Depicts g s) {entry : Address}
    (hentry : g.entry = some (Block.idOf entry)) {n : Node Block} (hn : n ∈ deadEnds g) :
    ∃ a ∈ s.deadEnds entry, n.id = Block.idOf a := by
  obtain ⟨hmem, hfree⟩ := List.mem_filter.1 hn
  rw [Bool.and_eq_true, bne_iff_ne] at hfree
  have hconsistent := hg.built.consistent
  have hid : n.id ∈ g.ids := List.mem_map_of_mem hmem
  obtain ⟨a, ha, hida⟩ := (hg.contains_iff _).1 (hconsistent.mem_ids.1 hid)
  refine ⟨a, Sketch.mem_deadEnds.2 ⟨ha, ?_, fun l hl hsource => ?_⟩, hida⟩
  · rintro rfl
    exact hfree.2 (hentry.trans (congrArg some hida.symm))
  · have hedges :=
      g.edgesAt_edgeNumbers _ _ (hconsistent.outgoing_eq n (Array.mem_toList_iff.1 hmem))
    have hnil : n.outgoing = #[] := by simpa using hfree.1
    have hedge : l.edge ∈ g.edges.toList := by
      rw [hg.edges_eq]
      exact List.mem_map_of_mem hl
    rw [hnil, Graph.edgesAt, List.filterMap_nil, eq_comm, List.filter_eq_nil_iff] at hedges
    apply hedges l.edge hedge
    rw [hida, ← hsource]
    exact beq_self_eq_true _

/-- A graph whose dead ends, the entry apart, are one block has an exit. -/
theorem exists_chooseExit {s : Sketch} (hg : Depicts g s) {entry : Address}
    (hentry : g.entry = some (Block.idOf entry)) (h : (s.deadEnds entry).Pairwise (· = ·)) :
    ∃ g', chooseExit g = .ok g' := by
  unfold chooseExit
  split
  · exact ⟨_, rfl⟩
  · exact ⟨_, rfl⟩
  · next m n rest hends =>
    have hdistinct : m.id ≠ n.id := by
      have hsub : ((deadEnds g).map (·.id)).Sublist g.ids := List.filter_sublist.map _
      have hnodup := hg.built.consistent.nodup_ids.sublist hsub
      rw [hends, List.map_cons, List.nodup_cons] at hnodup
      intro heq
      exact hnodup.1 (by simp [heq])
    obtain ⟨a, ha, hma⟩ := mem_deadEnds hg hentry (hends ▸ List.mem_cons_self)
    obtain ⟨b, hb, hnb⟩ :=
      mem_deadEnds hg hentry (hends ▸ List.mem_cons_of_mem m List.mem_cons_self)
    have heq : a = b := h.forall_of_forall (fun _ _ => rfl) ha hb
    exact absurd (by rw [hma, hnb, heq]) hdistinct

/-- A routine whose instructions are admitted, and whose dead ends are one block, has a graph. -/
theorem exists_ofRoutine
    (hadmitted : AllAdmitted (targets r.instructions.toList) [r.address] (visitsOf r))
    (hends : ((sketchOf r).deadEnds r.address).Pairwise (· = ·)) :
    ∃ g, (ofRoutine r).outcome = .ok g := by
  obtain ⟨set, hset⟩ := exists_labels hadmitted.exists_target
  obtain ⟨w, above, hw, hdraws⟩ :=
    (draws_start r.address).feedAll (contains_labels hset) hadmitted
  have hentry := ((Walk.Holds.start r.address).feedAll hw).entry_eq
  obtain ⟨g, hg⟩ := exists_chooseExit hdraws.depicts hentry hends
  refine ⟨g, ?_⟩
  rw [ofRoutine, Traced.outcome_during, during_eq_ok]
  simp only [Traced.outcome_bind, Traced.outcome_ofExcept, Walk.outcome_feedAll]
  exact bind_eq_ok.2 ⟨set, hset, bind_eq_ok.2 ⟨w, hw, hg⟩⟩

end Routines

end CartFlow.BlockGraph
