import CartFlow.Proofs.Graph.Data
import CartFlow.Report.Handler

/-!
# What a successful analysis has found

A profile lists the calls and jumps of a routine in the order of the instructions, which is an
invariant of adding one instruction after the other. Following calls only adds to a call graph,
so the profile at its entry is that of the handler. A successful analysis is taken apart into the
results of its stages, and a verdict into the findings it rests on.
-/
namespace CartFlow

open Processor

def Instruction.callsRoutine (i : Instruction) (track : Address) : Bool :=
  i.has .call && i.knownTarget? == some track

def Instruction.calledRoutine? (i : Instruction) : Option Address :=
  if i.has .call then i.knownTarget? else none

/-- The jump that an instruction makes; a call makes none. -/
def Instruction.jumpSite? (i : Instruction) : Option JumpSite :=
  if i.has .call then none
  else if i.has .jump then some ⟨i.address, i.knownTarget?⟩
  else none

namespace Instruction

variable {i : Instruction} {t : Address}

theorem knownTarget?_of_staticTarget (h : i.staticTarget = .ok t) : i.knownTarget? = some t := by
  unfold staticTarget at h
  unfold knownTarget?
  cases ht : i.target with
  | error e => rw [ht] at h; cases h
  | ok target =>
    rw [ht] at h
    cases target with
    | none => cases h
    | some target => cases h; rfl

theorem knownTarget?_of_isIndexedCall (h : i.isIndexedCall = true) : i.knownTarget? = none := by
  have hmode : i.opcode.mode = .absoluteIndexedIndirect := by
    simp only [isIndexedCall, Bool.and_eq_true, beq_iff_eq] at h
    exact h.2
  unfold knownTarget? target
  rw [hmode]
  split
  · next heq =>
    split at heq
    · cases heq; rfl
    · cases heq
  · rfl

end Instruction

namespace Profile

variable {p q : Profile} {i : Instruction} {is rest : List Instruction} {r : Routine}

/-- What adding an instruction does: it lists a call through a table, a direct call as the routine
records it, or a jump. -/
inductive Adds (p : Profile) (i : Instruction) : Profile → Prop
  | indexed : i.has .call = true → i.isIndexedCall = true →
      Adds p i { p with indexedCalls := p.indexedCalls ++ [i.address] }
  | direct {called : CalledRoutine} : i.has .call = true → i.isIndexedCall = false →
      i.staticTarget = .ok called.address → p.routine.call? called.address = some called →
      Adds p i { p with calls := p.calls ++ [⟨p.routine.address, i.address, called⟩] }
  | jump {target : Option Address} : i.has .call = false → i.has .jump = true →
      i.target = .ok target → Adds p i { p with jumps := p.jumps ++ [⟨i.address, target⟩] }
  | other : i.has .call = false → i.has .jump = false → Adds p i p

theorem adds_of_add (hok : p.add i = .ok q) : p.Adds i q := by
  unfold add at hok
  cases hcall : i.has .call with
  | true =>
    rw [if_pos hcall] at hok
    cases hindexed : i.isIndexedCall with
    | true =>
      rw [if_pos hindexed] at hok
      cases hok
      exact .indexed hcall hindexed
    | false =>
      rw [if_neg (by simp [hindexed])] at hok
      obtain ⟨target, htarget, hok⟩ := bind_eq_ok.1 hok
      cases hfound : p.routine.call? target with
      | none => rw [hfound] at hok; cases hok
      | some called =>
        rw [hfound] at hok
        cases hok
        obtain rfl : called.address = target := by simpa using List.find?_some hfound
        exact .direct hcall hindexed htarget hfound
  | false =>
    rw [if_neg (by simp [hcall])] at hok
    cases hjump : i.has .jump with
    | true =>
      rw [if_pos hjump] at hok
      obtain ⟨target, htarget, hok⟩ := bind_eq_ok.1 hok
      cases hok
      exact .jump hcall hjump htarget
    | false =>
      rw [if_neg (by simp [hjump])] at hok
      cases hok
      exact .other hcall hjump

theorem Adds.routine_eq (h : p.Adds i q) : q.routine = p.routine := by
  cases h <;> rfl

/-- The calls of a profile are made by its routine, and recorded there with the same flags. -/
def Recorded (p : Profile) : Prop :=
  ∀ call ∈ p.calls, call.caller = p.routine.address ∧
    p.routine.call? call.target.address = some call.target

/-- A profile of a routine lists what some instructions call and where they jump, in their
order. -/
structure Lists (r : Routine) (is : List Instruction) (p : Profile) : Prop where
  routine_eq : p.routine = r
  recorded : p.Recorded
  calls_eq : p.calls.map (fun call => (call.site, call.target.address)) =
    is.filterMap fun i => i.calledRoutine?.map fun t => (i.address, t)
  indexedCalls_eq : p.indexedCalls = (is.filter (·.isIndexedCall)).map (·.address)
  jumps_eq : p.jumps = is.filterMap (·.jumpSite?)

theorem Lists.adds (h : Lists r is p) (hadds : p.Adds i q) : Lists r (is ++ [i]) q := by
  cases hadds with
  | indexed hcall hindexed =>
    have hnone := Instruction.knownTarget?_of_isIndexedCall hindexed
    refine ⟨h.routine_eq, h.recorded, ?_, ?_, ?_⟩
    · simp [h.calls_eq, Instruction.calledRoutine?, hnone]
    · simp [h.indexedCalls_eq, hindexed]
    · simp [h.jumps_eq, Instruction.jumpSite?, hcall]
  | @direct called hcall hindexed htarget hfound =>
    have hknown := Instruction.knownTarget?_of_staticTarget htarget
    refine ⟨h.routine_eq, ?_, ?_, ?_, ?_⟩
    · intro call hmem
      rcases List.mem_append.1 hmem with hmem | hmem
      · exact h.recorded call hmem
      · rw [List.mem_singleton.1 hmem]
        exact ⟨rfl, hfound⟩
    · simp [h.calls_eq, Instruction.calledRoutine?, hcall, hknown]
    · simp [h.indexedCalls_eq, hindexed]
    · simp [h.jumps_eq, Instruction.jumpSite?, hcall]
  | @jump target hcall hjump htarget =>
    have hindexed : i.isIndexedCall = false := by simp [Instruction.isIndexedCall, hcall]
    refine ⟨h.routine_eq, h.recorded, ?_, ?_, ?_⟩
    · simp [h.calls_eq, Instruction.calledRoutine?, hcall]
    · simp [h.indexedCalls_eq, hindexed]
    · simp [h.jumps_eq, Instruction.jumpSite?, hcall, hjump, Instruction.knownTarget?, htarget]
  | other hcall hjump =>
    have hindexed : i.isIndexedCall = false := by simp [Instruction.isIndexedCall, hcall]
    refine ⟨h.routine_eq, h.recorded, ?_, ?_, ?_⟩
    · simp [h.calls_eq, Instruction.calledRoutine?, hcall]
    · simp [h.indexedCalls_eq, hindexed]
    · simp [h.jumps_eq, Instruction.jumpSite?, hcall, hjump]

theorem Lists.foldlM (h : Lists r is p) (hok : rest.foldlM add p = .ok q) :
    Lists r (is ++ rest) q := by
  induction rest generalizing is p with
  | nil =>
    cases hok
    simpa using h
  | cons i rest ih =>
    rw [List.foldlM_cons] at hok
    obtain ⟨next, hadd, hok⟩ := bind_eq_ok.1 hok
    simpa using ih (h.adds (adds_of_add hadd)) hok

theorem lists_of_ofRoutine (hok : ofRoutine r = .ok p) : Lists r r.instructions.toList p := by
  have hstart : Lists r [] { routine := r } :=
    ⟨rfl, fun call hcall => absurd hcall List.not_mem_nil, rfl, rfl, rfl⟩
  exact hstart.foldlM hok

theorem ofRoutine_eq_ok (hok : ofRoutine r = .ok p) (track : Address) :
    p.routine = r ∧
      (p.callsOf track).map (·.site) =
        (r.instructions.toList.filter (·.callsRoutine track)).map (·.address) := by
  have hlists := lists_of_ofRoutine hok
  refine ⟨hlists.routine_eq, ?_⟩
  calc (p.callsOf track).map (·.site)
      = ((p.calls.map fun call => (call.site, call.target.address)).filter
          (·.2 == track)).map (·.1) := by
        simp [callsOf, List.filter_map, Function.comp_def]
    _ = (r.instructions.toList.filterMap fun i =>
          if i.callsRoutine track then some i.address else none) := by
        rw [hlists.calls_eq, List.filter_filterMap, List.map_filterMap]
        refine List.filterMap_congr fun i _ => ?_
        unfold Instruction.calledRoutine? Instruction.callsRoutine
        cases i.has .call <;> cases i.knownTarget? <;> simp [Option.filter]
    _ = (r.instructions.toList.filter (·.callsRoutine track)).map (·.address) := by
        rw [← List.filterMap_eq_map, List.filterMap_filter]
        rfl

theorem callCount_eq (hok : ofRoutine r = .ok p) (track : Address) :
    p.callCount track = r.instructions.toList.countP (·.callsRoutine track) := by
  have hcalls := congrArg List.length (ofRoutine_eq_ok hok track).2
  rw [List.length_map, List.length_map] at hcalls
  rw [callCount, hcalls, List.countP_eq_length_filter]

end Profile

namespace CallGraph

variable {source : RoutineSource} {track address : Address} {g h : CallGraph}
  {stack : List DirectCall}

theorem outcome_follow_cons (source : RoutineSource) (track : Address) (g : CallGraph)
    (call : DirectCall) (rest : List DirectCall) :
    (follow source track g (call :: rest)).outcome =
      if call.target.address = track ∨ g.contains (idOf call.target.address) = true then
        (follow source track g rest).outcome
      else
        match (profileOf source call.target.address call.target.flags).outcome with
        | .error e => .error e
        | .ok profile =>
          match (g.insert (idOf call.target.address) profile).addEdge (idOf call.caller)
              (idOf call.target.address) 0 with
          | .error e => .error e
          | .ok next => (follow source track next (profile.calls.reverse ++ rest)).outcome := by
  rw [follow]
  split
  · rfl
  · split
    · next hprofile => rw [hprofile]
    · next hprofile =>
      rw [hprofile]
      dsimp only
      split <;> next hadd => rw [hadd]

/-- Following calls keeps the entry and what is known of routines. -/
theorem follow_keeps (hg : g.Built) (hok : (follow source track g stack).outcome = .ok h) :
    h.entry = g.entry ∧ ∀ id data, g.data? id = some data → h.data? id = some data := by
  induction g, stack using follow.induct source track with
  | case1 g =>
    rw [follow] at hok
    cases hok
    exact ⟨rfl, fun _ _ hd => hd⟩
  | case2 g call rest target hseen ih =>
    rw [outcome_follow_cons, if_pos hseen] at hok
    exact ih hg hok
  | case3 g call rest target hseen records e hprofile =>
    rw [outcome_follow_cons, if_neg hseen, hprofile] at hok
    cases hok
  | case4 g call rest target hseen records profile hprofile known e hadd =>
    rw [outcome_follow_cons, if_neg hseen, hprofile] at hok
    dsimp only at hok
    rw [hadd] at hok
    cases hok
  | case5 g call rest target hseen records profile hprofile known next hadd ih =>
    rw [outcome_follow_cons, if_neg hseen, hprofile] at hok
    dsimp only at hok
    rw [hadd] at hok
    obtain ⟨hentry, hdata⟩ := ih (.addEdge (.insert _ _ hg) hadd) hok
    obtain ⟨-, -, -, -, -, -, hentry', -⟩ := Graph.addEdge_eq_ok hadd
    refine ⟨?_, ?_⟩
    · exact hentry.trans (hentry'.trans Graph.entry_insert)
    · intro id data hd
      apply hdata
      rw [Graph.data?_addEdge hadd, hg.consistent.data?_insert]
      split
      · next heq => rw [heq] at hd; rw [hd]; rfl
      · exact hd

theorem build_eq_ok (hok : (build source track address).outcome = .ok g) :
    ∃ profile, (profileOf source address {}).outcome = .ok profile ∧
      g.entryData? = some profile := by
  unfold build at hok
  simp only [Traced.outcome_bind] at hok
  obtain ⟨profile, hprofile, hok⟩ := bind_eq_ok.1 hok
  refine ⟨profile, hprofile, ?_⟩
  have hbuilt : (Graph.empty.insert (idOf address) profile : CallGraph).Built :=
    .insert _ _ .empty
  have hset : (Graph.empty.insert (idOf address) profile : CallGraph).setEntry (idOf address) =
      .ok { (Graph.empty.insert (idOf address) profile : CallGraph) with
        entry := some (idOf address) } := if_pos (by simp)
  obtain ⟨hentry, hdata⟩ := follow_keeps (.setEntry hbuilt hset) hok
  have hroot := hdata (idOf address) profile (by
    change (Graph.empty.insert (idOf address) profile : CallGraph).data? (idOf address) = _
    rw [Graph.consistent_empty.data?_insert]
    simp [Graph.data?, Graph.node?, Graph.empty])
  rw [Graph.entryData?, hentry]
  exact hroot

theorem profileOf_eq_ok {p : Flags} {profile : Profile}
    (hok : (profileOf source address p).outcome = .ok profile) :
    (source address p).outcome = .ok profile.routine ∧
      Profile.ofRoutine profile.routine = .ok profile := by
  unfold profileOf at hok
  simp only [Traced.outcome_bind, Traced.outcome_ofExcept] at hok
  obtain ⟨r, hread, hok⟩ := bind_eq_ok.1 hok
  have hprofile : Profile.ofRoutine r = .ok profile := during_eq_ok.1 hok
  rw [(Profile.ofRoutine_eq_ok hprofile 0).1]
  exact ⟨hread, hprofile⟩

end CallGraph

/-- The results of an analysis are those of its stages, each made from the ones before. -/
structure Analysis.Found (a : Analyzer) (address : Address) (result : Analysis) : Prop where
  source_eq : (a.source address {}).outcome = .ok result.root.routine
  profile_eq : Profile.ofRoutine result.root.routine = .ok result.root
  blocks_eq : (BlockGraph.ofRoutine result.root.routine).outcome = .ok result.blocks
  tree_eq : (result.blocks.dominatorTree a.passLimit).outcome = .ok result.tree
  loops_eq : result.blocks.loops result.tree = .ok result.loops
  conditional_eq : Analysis.hasConditionalCalls (result.root.callsOf a.track) result.blocks
    result.tree = .ok result.conditional
  inLoop_eq : Analysis.hasCallsInLoops (result.root.callsOf a.track) result.blocks
    result.loops = .ok result.inLoop

theorem Analyzer.analyze_stages {a : Analyzer} {address : Address} {result : Analysis}
    (hok : (a.analyze address).outcome = .ok result) :
    result.address = address ∧
      (CallGraph.build a.source a.track address).outcome = .ok result.callGraph ∧
      result.root = result.callGraph.entryData?.getD { routine := { address } } ∧
      (BlockGraph.ofRoutine result.root.routine).outcome = .ok result.blocks ∧
      (result.blocks.dominatorTree a.passLimit).outcome = .ok result.tree ∧
      result.blocks.loops result.tree = .ok result.loops ∧
      Analysis.hasConditionalCalls (result.root.callsOf a.track) result.blocks result.tree =
        .ok result.conditional ∧
      Analysis.hasCallsInLoops (result.root.callsOf a.track) result.blocks result.loops =
        .ok result.inLoop := by
  unfold analyze at hok
  simp only [Traced.outcome_bind, Traced.outcome_report, Traced.outcome_ofExcept,
    Traced.outcome_during, Traced.outcome_pure] at hok
  obtain ⟨-, -, hok⟩ := bind_eq_ok.1 hok
  obtain ⟨callGraph, hgraph, hok⟩ := bind_eq_ok.1 hok
  obtain ⟨blocks, hblocks, hok⟩ := bind_eq_ok.1 hok
  obtain ⟨tree, htree, hok⟩ := bind_eq_ok.1 hok
  obtain ⟨loops, hloops, hok⟩ := bind_eq_ok.1 hok
  obtain ⟨conditional, hconditional, hok⟩ := bind_eq_ok.1 hok
  obtain ⟨inLoop, hinLoop, hok⟩ := bind_eq_ok.1 hok
  cases hok
  exact ⟨rfl, hgraph, rfl, hblocks, during_eq_ok.1 htree, during_eq_ok.1 hloops, hconditional,
    hinLoop⟩

theorem Analyzer.analyze_eq_ok {a : Analyzer} {address : Address} {result : Analysis}
    (hok : (a.analyze address).outcome = .ok result) : result.Found a address := by
  obtain ⟨-, hgraph, hroot, hblocks, htree, hloops, hconditional, hinLoop⟩ := analyze_stages hok
  obtain ⟨profile, hprofile, hentry⟩ := CallGraph.build_eq_ok hgraph
  rw [hentry, Option.getD_some] at hroot
  rw [← hroot] at hprofile
  obtain ⟨hread, hprofile⟩ := CallGraph.profileOf_eq_ok hprofile
  exact ⟨hread, hprofile, hblocks, htree, hloops, hconditional, hinLoop⟩

/-- A handler that is fine and calls the tracked routine does so neither conditionally nor in
a loop. -/
theorem Handler.findings_of_ok {result : Analysis} {track : Address} {h : Handler}
    (hok : Handler.ofAnalysis result track = .ok h) (hstatus : h.status = .ok)
    (hcalls : 0 < h.calls) :
    h.calls = result.root.callCount track ∧ result.conditional = false ∧
      result.inLoop = false := by
  unfold ofAnalysis at hok
  obtain ⟨subroutines, -, hok⟩ := bind_eq_ok.1 hok
  cases hok
  refine ⟨rfl, ?_⟩
  dsimp only at hstatus hcalls
  unfold verdict at hstatus
  split at hstatus
  · cases hstatus
  · next hno =>
    rw [not_or, not_and, not_or] at hno
    simpa using hno.1 hcalls

end CartFlow
