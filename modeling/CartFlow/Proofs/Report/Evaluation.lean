import CartFlow.Proofs.Flow.Transfers
import CartFlow.Proofs.Report.CallProfile
import CartFlow.Proofs.Report.Covered

/-!
# Analysing given code step by step

A routine that was read and makes no jumps has a profile if the targets of its calls are known,
and the profile names these targets in order. Following calls then goes on call by call: a call of
the tracked routine or of a routine in the graph is dropped, any other adds a routine and the edge
to it. For a handler that calls nothing but the tracked routine this leaves the blocks.
-/
namespace CartFlow

theorem Profile.targets_of_ofRoutine {p : Profile} {r : Routine} (hok : ofRoutine r = .ok p) :
    p.calls.map (·.target.address) =
      r.instructions.toList.filterMap (·.calledRoutine?) := by
  have hcalls := congrArg (List.map (·.2)) (lists_of_ofRoutine hok).calls_eq
  simpa [List.map_filterMap, Function.comp_def] using hcalls

namespace CallGraph

variable {source : RoutineSource} {track : Address} {g : CallGraph} {call : DirectCall}
  {stack : List DirectCall}

/-- A routine without jumps that records its calls has a profile if their targets are known. -/
theorem exists_profileOf {s : RoutineSource} {address : Address} {p : Processor.Flags}
    {r : Routine} (hread : (s address p).outcome = .ok r) (hcalls : r.RecordsCalls)
    (htargets : ∀ i ∈ r.instructions, i.has .call = true → i.knownTarget?.isSome = true)
    (hjumps : ∀ i ∈ r.instructions, i.has .jump = false) :
    ∃ profile, (profileOf s address p).outcome = .ok profile ∧
      profile.routine = r ∧ Profile.ofRoutine r = .ok profile := by
  obtain ⟨profile, hprofile⟩ : ∃ profile, Profile.ofRoutine r = .ok profile := by
    apply Profile.exists_ofRoutine hcalls
    intro i hi htransfer
    have hcall : i.has .call = true := by simpa [hjumps i hi] using htransfer
    obtain ⟨t, ht⟩ := Option.isSome_iff_exists.1 (htargets i hi hcall)
    exact ⟨some t, Instruction.target_of_knownTarget? ht⟩
  refine ⟨profile, ?_, (Profile.lists_of_ofRoutine hprofile).routine_eq, hprofile⟩
  rw [profileOf, Traced.outcome_bind, bind_eq_ok]
  exact ⟨r, hread, by rw [Traced.outcome_ofExcept, hprofile, during_ok]⟩

theorem exists_profileOf_read {order : PopOrder} {c : Cartridge.Cursor} {address : Address}
    {p : Processor.Flags} {all : List Instruction}
    (hread : ∃ r, (Routine.read order Processor.Table.standard c address p).outcome = .ok r ∧
      r.instructions.toList = all)
    (htargets : ∀ i ∈ all, i.has .call = true → i.knownTarget?.isSome = true)
    (hjumps : ∀ i ∈ all, i.has .jump = false) :
    ∃ profile,
      (profileOf (Routine.read order Processor.Table.standard c) address p).outcome =
        .ok profile ∧
      profile.calls.map (·.target.address) = all.filterMap (·.calledRoutine?) ∧
      ∀ t, profile.callCount t = all.countP (·.callsRoutine t) := by
  obtain ⟨r, hread, rfl⟩ := hread
  simp only [Array.mem_toList_iff] at htargets hjumps
  obtain ⟨profile, hprofile, -, hroutine⟩ := exists_profileOf
    (s := Routine.read order Processor.Table.standard c) hread
    (Reader.recordsCalls_of_read hread) htargets hjumps
  exact ⟨profile, hprofile, Profile.targets_of_ofRoutine hroutine, Profile.callCount_eq hroutine⟩

theorem outcome_follow_nil (source : RoutineSource) (track : Address) (g : CallGraph) :
    (follow source track g []).outcome = .ok g := by
  rw [follow]
  rfl

theorem outcome_follow_of_seen (hseen : ∀ call ∈ stack,
      call.target.address = track ∨ g.contains (idOf call.target.address) = true) :
    (follow source track g stack).outcome = .ok g := by
  induction stack with
  | nil => exact outcome_follow_nil source track g
  | cons call rest ih =>
    rw [List.forall_mem_cons] at hseen
    rw [outcome_follow_cons, if_pos hseen.1]
    exact ih hseen.2

/-- The target of any other call is read, and its calls come next. -/
theorem exists_outcome_follow (rest : List DirectCall) (hg : g.Built) {profile : Profile}
    (htrack : call.target.address ≠ track)
    (hnew : g.contains (idOf call.target.address) = false)
    (hprofile : (profileOf source call.target.address call.target.flags).outcome = .ok profile)
    (hcaller : g.contains (idOf call.caller) = true) :
    ∃ next, g.Grows next (idOf call.caller) (idOf call.target.address) profile 0 ∧
      (follow source track g (call :: rest)).outcome =
        (follow source track next (profile.calls.reverse ++ rest)).outcome := by
  have hfrom :
      (g.insert (idOf call.target.address) profile).contains (idOf call.caller) = true := by
    rw [Graph.contains_insert, hcaller, Bool.or_true]
  have hto : (g.insert (idOf call.target.address) profile).contains
      (idOf call.target.address) = true := by
    simp [Graph.contains_insert]
  obtain ⟨next, hadd⟩ := Graph.exists_addEdge hfrom hto 0
  refine ⟨next, Graph.grows_of_addEdge hg hnew hadd, ?_⟩
  rw [outcome_follow_cons, if_neg (by simp [htrack, hnew]), hprofile]
  dsimp only
  rw [hadd]

end CallGraph

namespace Analyzer

variable {a : Analyzer} {address : Address} {r : Routine} {blocks : BlockGraph}

/-- The routine and the blocks of an analysis are those of the handler. -/
theorem exists_analyze_of_blocks {g : CallGraph}
    (hgraph : (CallGraph.build a.source a.track address).outcome = .ok g)
    (hread : (a.source address {}).outcome = .ok r)
    (hblocks : (BlockGraph.ofRoutine r).outcome = .ok blocks) (hlimit : a.passLimit ≤ 0) :
    ∃ result, (a.analyze address).outcome = .ok result ∧ result.callGraph = g ∧
      result.root.routine = r ∧ result.blocks = blocks := by
  obtain ⟨profile, hprofile, hroot⟩ := CallGraph.build_eq_ok hgraph
  have hroutine : profile.routine = r := by
    have hsource := (CallGraph.profileOf_eq_ok hprofile).1
    rw [hread] at hsource
    exact (Except.ok.inj hsource).symm
  obtain ⟨tree, htree⟩ : ∃ tree, (blocks.dominatorTree a.passLimit).outcome = .ok tree := by
    rcases BlockGraph.dominatorTree_of_ofRoutine hblocks a.passLimit with htree | ⟨hpos, -⟩
    · exact htree
    · omega
  obtain ⟨result, hresult⟩ := exists_analyze hgraph hroot (hroutine ▸ hblocks) htree
  obtain ⟨-, hbuild, hentry, hown, -⟩ := analyze_stages hresult
  rw [hgraph] at hbuild
  have hsame := Except.ok.inj hbuild
  rw [← hsame, hroot, Option.getD_some] at hentry
  rw [hentry, hroutine, hblocks] at hown
  exact ⟨result, hresult, hsame.symm, by rw [hentry, hroutine], (Except.ok.inj hown).symm⟩

/-- A handler without jumps that calls nothing but the tracked routine is analysed. -/
theorem exists_analyze_of_tracked (hread : (a.source address {}).outcome = .ok r)
    (hcalls : r.RecordsCalls)
    (htargets : ∀ i ∈ r.instructions, i.has .call = true → i.knownTarget? = some a.track)
    (hjumps : ∀ i ∈ r.instructions, i.has .jump = false)
    (hblocks : (BlockGraph.ofRoutine r).outcome = .ok blocks) (hlimit : a.passLimit ≤ 0) :
    ∃ result, (a.analyze address).outcome = .ok result ∧ result.root.routine = r ∧
      result.blocks = blocks ∧ Handler.callers result.callGraph a.track = [] := by
  obtain ⟨profile, hprofile, -, hroutine⟩ := CallGraph.exists_profileOf hread hcalls
    (fun i hi hcall => by rw [htargets i hi hcall]; rfl) hjumps
  have htracked : ∀ call ∈ profile.calls, call.target.address = a.track := by
    intro call hcall
    have hmem : call.target.address ∈ profile.calls.map (·.target.address) :=
      List.mem_map_of_mem hcall
    rw [Profile.targets_of_ofRoutine hroutine, List.mem_filterMap] at hmem
    obtain ⟨i, hi, htarget⟩ := hmem
    unfold Instruction.calledRoutine? at htarget
    split at htarget
    · next hyes =>
      rw [htargets i (Array.mem_toList_iff.1 hi) hyes] at htarget
      exact (Option.some.inj htarget).symm
    · cases htarget
  have hgraph : (CallGraph.build a.source a.track address).outcome =
      .ok (CallGraph.Progress.start address profile).graph := by
    rw [CallGraph.build_of_profile a.track hprofile]
    apply CallGraph.outcome_follow_of_seen
    intro call hcall
    exact .inl (htracked call (List.mem_reverse.1 hcall))
  obtain ⟨result, hresult, hcallGraph, hsame, hown⟩ :=
    exists_analyze_of_blocks hgraph hread hblocks hlimit
  refine ⟨result, hresult, hsame, hown, ?_⟩
  rw [hcallGraph]
  simp [Handler.callers, CallGraph.Progress.start, Graph.insert, Graph.contains, Graph.empty]

/-- For a handler that is read as a given routine, the blocks have the sketch of that routine. -/
theorem exists_analyze_of_sketch (track : Address) {order : PopOrder} {c : Cartridge.Cursor}
    {s : Routine}
    (hread : ∃ r, (Routine.read order Processor.Table.standard c s.address {}).outcome = .ok r ∧
      r.instructions.toList = s.instructions.toList)
    (htargets : ∀ i ∈ s.instructions, i.has .call = true → i.knownTarget? = some track)
    (hjumps : ∀ i ∈ s.instructions, i.has .jump = false)
    (hadmitted : BlockGraph.AllAdmitted (BlockGraph.targets s.instructions.toList) [s.address]
      (BlockGraph.visitsOf s))
    (hends : ((BlockGraph.sketchOf s).deadEnds s.address).Pairwise (· = ·)) :
    ∃ result,
      (analyze ⟨Routine.read order Processor.Table.standard c, track, 0⟩ s.address).outcome =
        .ok result ∧
      result.blocks.entry = some (Block.idOf s.address) ∧
      BlockGraph.Depicts result.blocks (BlockGraph.sketchOf s) ∧
      Handler.callers result.callGraph track = [] := by
  obtain ⟨r, hread, hall⟩ := hread
  rw [Array.toList_inj] at hall
  have haddress := Reader.address_of_read hread
  obtain ⟨g, hg, hdepicts⟩ := BlockGraph.exists_graph_of_sketch haddress hall hadmitted hends
  obtain ⟨-, hentry, -⟩ := BlockGraph.ofRoutine_spec hg
  rw [haddress] at hentry
  obtain ⟨result, hresult, -, rfl, hcallers⟩ :=
    exists_analyze_of_tracked (a := ⟨Routine.read order Processor.Table.standard c, track, 0⟩)
      hread (Reader.recordsCalls_of_read hread) (hall ▸ htargets) (hall ▸ hjumps) hg
      (Int.le_refl 0)
  exact ⟨result, hresult, hentry, hdepicts, hcallers⟩

end Analyzer

end CartFlow
