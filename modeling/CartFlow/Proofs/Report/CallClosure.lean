import CartFlow.Proofs.Flow.Sketch
import CartFlow.Proofs.Graph.Operations
import CartFlow.Proofs.Processor.OpcodeTable
import CartFlow.Proofs.Report.Inversion
import CartFlow.Proofs.Routine.Coverage
import Mathlib.Logic.Relation

/-!
# The routines that a handler leads to

Following calls is taken apart into steps: the topmost call on the stack is dropped if its target
is the tracked routine or in the graph already, and otherwise the target is read and its calls are
put on the stack. Every step either reads a routine that was not read before or leaves fewer calls
on the stack, so there is no endless run, however routines call each other. What a step keeps is
collected in one invariant: each routine was read once, with the flags of a call by the routine
from which the one edge to it comes, and every call of a routine that was read leads to the tracked
routine, into the graph, or is still on the stack. When the stack is empty, the graph therefore
has exactly the routines that chains of calls around the tracked routine lead to.
-/
namespace CartFlow

open Processor

/-- A step relation has no endless run if each step lowers the first of two numbers, or the second
one and not the first. -/
theorem wellFounded_of_lex {σ : Type} {step : σ → σ → Prop} (rank : σ → Nat × Nat)
    (h : ∀ s t, step s t → Prod.Lex (· < ·) (· < ·) (rank t) (rank s)) :
    WellFounded fun t s => step s t := by
  apply Subrelation.wf (fun {t s} hstep => h s t hstep)
  exact InvImage.wf rank (Prod.lex ⟨(· < ·), Nat.lt_wfRel.wf⟩ ⟨(· < ·), Nat.lt_wfRel.wf⟩).wf

theorem Graph.Consistent.contains_of_data? {α : Type} {g : Graph α} (hg : g.Consistent)
    {id : String} {data : α} (hdata : g.data? id = some data) : g.contains id = true := by
  rw [← hg.data?_isSome, hdata]
  rfl

/-- One graph has a node more than another, and the one edge that leads to it. -/
structure Graph.Grows {α : Type} (g h : Graph α) (source id : String) (data : α) (label : UInt8) :
    Prop where
  built : h.Built
  entry_eq : h.entry = g.entry
  ids_eq : h.ids = g.ids ++ [id]
  contains_eq : ∀ other, h.contains other = (id == other || g.contains other)
  data_eq : ∀ other, h.data? other = if other = id then some data else g.data? other
  data_kept : ∀ other old, g.data? other = some old → h.data? other = some old
  predecessors_eq : ∀ other,
    h.predecessors other = if other = id then [⟨source, id, label⟩] else g.predecessors other

theorem Graph.grows_of_addEdge {α : Type} {g h : Graph α} {source id : String} {data : α}
    {label : UInt8} (hg : g.Built) (hnew : g.contains id = false)
    (hok : (g.insert id data).addEdge source id label = .ok h) :
    g.Grows h source id data label := by
  have hbuilt : h.Built := .addEdge (.insert _ _ hg) hok
  have hpicture := picture_addEdge hok
  rw [picture_insert hnew] at hpicture
  have hdata : ∀ other, h.data? other = if other = id then some data else g.data? other := by
    intro other
    have hnone : g.data? id = none := by
      rw [data?, Consistent.node?_eq_none hnew]
      rfl
    rw [data?_addEdge hok, hg.consistent.data?_insert, hnone]
    rfl
  refine
    { built := hbuilt
      entry_eq := congrArg Picture.entry hpicture
      data_eq := hdata
      ids_eq := ?_
      contains_eq := ?_
      data_kept := ?_
      predecessors_eq := ?_ }
  · rw [← ids_picture, hpicture, ← ids_picture, Picture.ids, List.map_append]
    rfl
  · intro other
    rw [contains_of_addEdge hok, contains_insert]
  · intro other old hold
    rw [hdata, if_neg, hold]
    rintro rfl
    exact absurd (hnew ▸ hg.consistent.contains_of_data? hold) Bool.false_ne_true
  · intro other
    have hedges : h.edges.toList = g.edges.toList ++ [⟨source, id, label⟩] :=
      congrArg Picture.edges hpicture
    have hnone : g.predecessors id = [] := by
      rw [predecessors, Consistent.node?_eq_none hnew]
    rw [hbuilt.consistent.predecessors_eq, hedges, List.filter_append,
      ← hg.consistent.predecessors_eq]
    by_cases heq : other = id
    · simp [heq, hnone]
    · simp [heq, Ne.symm heq]

def RoutineSource.Faithful (source : RoutineSource) : Prop :=
  ∀ address p r, (source address p).outcome = .ok r → r.address = address

namespace CallGraph

theorem idOf_inj {a b : Address} : idOf a = idOf b ↔ a = b := by
  constructor
  · intro h
    exact UInt32.toNat_inj.1 (Text.hexPadded_inj h)
  · exact congrArg CallGraph.idOf

/-- One routine calls another, which is not the tracked one, according to what was read of it. -/
def Calls (g : CallGraph) (track a b : Address) : Prop :=
  b ≠ track ∧ ∃ profile, g.data? (idOf a) = some profile ∧
    ∃ call ∈ profile.calls, call.target.address = b

/-- A chain of calls leads from one routine to another around the tracked one. -/
def Leads (g : CallGraph) (track : Address) : Address → Address → Prop :=
  Relation.ReflTransGen (g.Calls track)

/-- How far following calls has come: the graph, the calls on the stack, and the readings so far
with the flags of each. -/
structure Progress where
  graph : CallGraph
  stack : List DirectCall
  reads : List CalledRoutine

/-- A step of following calls: the topmost call is dropped, or its target is read. -/
inductive Advances (source : RoutineSource) (track : Address) : Progress → Progress → Prop
  | drop {g : CallGraph} {call : DirectCall} {rest : List DirectCall}
      {reads : List CalledRoutine} :
      call.target.address = track ∨ g.contains (idOf call.target.address) = true →
      Advances source track ⟨g, call :: rest, reads⟩ ⟨g, rest, reads⟩
  | read {g next : CallGraph} {call : DirectCall} {rest : List DirectCall}
      {reads : List CalledRoutine} {profile : Profile} :
      call.target.address ≠ track → g.contains (idOf call.target.address) = false →
      (profileOf source call.target.address call.target.flags).outcome = .ok profile →
      (g.insert (idOf call.target.address) profile).addEdge (idOf call.caller)
        (idOf call.target.address) 0 = .ok next →
      Advances source track ⟨g, call :: rest, reads⟩
        ⟨next, profile.calls.reverse ++ rest, reads ++ [call.target]⟩

/-- No run goes on for ever: a reading leaves fewer routines unread, and otherwise the stack gets
shorter. -/
theorem wellFounded_advances (source : RoutineSource) (track : Address) :
    WellFounded fun t s => Advances source track s t := by
  apply wellFounded_of_lex fun s => (s.graph.unread, s.stack.length)
  intro s t h
  cases h with
  | drop _ => exact Prod.Lex.right _ (by simp)
  | read _ hnew _ hadd => exact Prod.Lex.left _ _ (unread_lt hnew hadd)

section Invariant

variable {source : RoutineSource} {track handler : Address} {g h : CallGraph}

theorem caller_of_mem_calls (hsource : source.Faithful) {address : Address} {p : Flags}
    {profile : Profile} (hprofile : (profileOf source address p).outcome = .ok profile)
    {call : DirectCall} (hcall : call ∈ profile.calls) : call.caller = address := by
  obtain ⟨hread, hroutine⟩ := profileOf_eq_ok hprofile
  exact ((Profile.lists_of_ofRoutine hroutine).recorded call hcall).1.trans (hsource _ _ _ hread)

theorem Calls.mono (hdata : ∀ id profile, g.data? id = some profile → h.data? id = some profile)
    {a b : Address} (hcalls : g.Calls track a b) : h.Calls track a b := by
  obtain ⟨hb, profile, hprofile, hcall⟩ := hcalls
  exact ⟨hb, profile, hdata _ _ hprofile, hcall⟩

theorem Leads.mono (hdata : ∀ id profile, g.data? id = some profile → h.data? id = some profile)
    {a b : Address} (hleads : g.Leads track a b) : h.Leads track a b := by
  induction hleads with
  | refl => exact .refl
  | tail _ hcalls ih => exact ih.tail (hcalls.mono hdata)

/-- What following calls keeps. -/
structure Progress.Sound (source : RoutineSource) (track handler : Address) (s : Progress) :
    Prop where
  built : s.graph.Built
  entry_eq : s.graph.entry = some (idOf handler)
  ids_eq : s.graph.ids = s.reads.map fun r => idOf r.address
  nodup_reads : (s.reads.map (·.address)).Nodup
  handler_mem : ⟨handler, {}⟩ ∈ s.reads
  read_eq : ∀ r ∈ s.reads, ∃ profile,
    (profileOf source r.address r.flags).outcome = .ok profile ∧
      s.graph.data? (idOf r.address) = some profile
  leads : ∀ r ∈ s.reads, s.graph.Leads track handler r.address
  -- no edge leads to the handler, and one edge to every other routine
  not_entered : s.graph.predecessors (idOf handler) = []
  entered : ∀ r ∈ s.reads, r.address ≠ handler →
    ∃ call profile, s.graph.data? (idOf call.caller) = some profile ∧ call ∈ profile.calls ∧
      call.target = r ∧
      s.graph.predecessors (idOf r.address) = [⟨idOf call.caller, idOf r.address, 0⟩]
  -- the stack has calls of routines in the graph, among them all that were not followed
  stacked : ∀ call ∈ s.stack, ∃ profile,
    s.graph.data? (idOf call.caller) = some profile ∧ call ∈ profile.calls
  followed : ∀ id profile, s.graph.data? id = some profile → ∀ call ∈ profile.calls,
    call.target.address = track ∨ s.graph.contains (idOf call.target.address) = true ∨
      call ∈ s.stack

namespace Progress.Sound

variable {s t : Progress}

theorem contains_iff (hs : s.Sound source track handler) {a : Address} :
    s.graph.contains (idOf a) = true ↔ ∃ r ∈ s.reads, r.address = a := by
  rw [← hs.built.consistent.mem_ids, hs.ids_eq, List.mem_map]
  simp only [idOf_inj]

theorem exists_read (hs : s.Sound source track handler) {a : Address} {profile : Profile}
    (hdata : s.graph.data? (idOf a) = some profile) :
    ∃ r ∈ s.reads, r.address = a ∧
      (profileOf source r.address r.flags).outcome = .ok profile := by
  obtain ⟨r, hr, rfl⟩ := hs.contains_iff.1 (hs.built.consistent.contains_of_data? hdata)
  obtain ⟨known, hread, hknown⟩ := hs.read_eq r hr
  rw [hdata] at hknown
  cases hknown
  exact ⟨r, hr, rfl, hread⟩

/-- A call whose target needs no reading is done with. -/
theorem drop {call : DirectCall} {rest : List DirectCall} {reads : List CalledRoutine}
    (hs : Progress.Sound source track handler ⟨g, call :: rest, reads⟩)
    (hseen : call.target.address = track ∨ g.contains (idOf call.target.address) = true) :
    Progress.Sound source track handler ⟨g, rest, reads⟩ :=
  { hs with
    stacked := fun other hother => hs.stacked other (List.mem_cons_of_mem call hother)
    followed := by
      intro id profile hprofile other hother
      rcases hs.followed id profile hprofile other hother with htrack | hin | hstack
      · exact .inl htrack
      · exact .inr (.inl hin)
      · rcases List.mem_cons.1 hstack with rfl | hstack
        · exact hseen.imp_right .inl
        · exact .inr (.inr hstack) }

/-- A routine that is read brings its calls, and the edge from the routine that calls it. -/
theorem read {call : DirectCall} {rest : List DirectCall} {reads : List CalledRoutine}
    {next : CallGraph} {profile : Profile} (hsource : source.Faithful)
    (hs : Progress.Sound source track handler ⟨g, call :: rest, reads⟩)
    (htrack : call.target.address ≠ track) (hnew : g.contains (idOf call.target.address) = false)
    (hprofile : (profileOf source call.target.address call.target.flags).outcome = .ok profile)
    (hadd : (g.insert (idOf call.target.address) profile).addEdge (idOf call.caller)
      (idOf call.target.address) 0 = .ok next) :
    Progress.Sound source track handler
      ⟨next, profile.calls.reverse ++ rest, reads ++ [call.target]⟩ := by
  have hgrows := Graph.grows_of_addEdge hs.built hnew hadd
  have hown : next.data? (idOf call.target.address) = some profile := by
    rw [hgrows.data_eq, if_pos rfl]
  have hother : ∀ r ∈ reads, r.address ≠ call.target.address := by
    intro r hr heq
    exact absurd (hnew ▸ hs.contains_iff.2 ⟨r, hr, heq⟩) Bool.false_ne_true
  have hkept : ∀ r ∈ reads, next.predecessors (idOf r.address) =
      g.predecessors (idOf r.address) := by
    intro r hr
    rw [hgrows.predecessors_eq, if_neg fun heq => hother r hr (idOf_inj.1 heq)]
  obtain ⟨caller, hcaller, hcall⟩ := hs.stacked call List.mem_cons_self
  refine
    { built := hgrows.built
      entry_eq := hgrows.entry_eq.trans hs.entry_eq
      ids_eq := by simp [hgrows.ids_eq, hs.ids_eq]
      handler_mem := List.mem_append_left _ hs.handler_mem
      not_entered := (hkept _ hs.handler_mem).trans hs.not_entered
      nodup_reads := ?_
      read_eq := ?_
      leads := ?_
      entered := ?_
      stacked := ?_
      followed := ?_ }
  · rw [List.map_append, List.nodup_append]
    refine ⟨hs.nodup_reads, List.nodup_singleton _, ?_⟩
    intro a ha b hb
    obtain ⟨r, hr, rfl⟩ := List.mem_map.1 ha
    rw [List.mem_singleton.1 hb]
    exact hother r hr
  · rw [List.forall_mem_append, List.forall_mem_singleton]
    refine ⟨?_, profile, hprofile, hown⟩
    intro r hr
    obtain ⟨old, hold, hin⟩ := hs.read_eq r hr
    exact ⟨old, hold, hgrows.data_kept _ _ hin⟩
  · rw [List.forall_mem_append, List.forall_mem_singleton]
    refine ⟨fun r hr => (hs.leads r hr).mono hgrows.data_kept, ?_⟩
    obtain ⟨r, hr, heq, -⟩ := hs.exists_read hcaller
    have hstep : next.Calls track call.caller call.target.address :=
      ⟨htrack, caller, hgrows.data_kept _ _ hcaller, call, hcall, rfl⟩
    exact ((hs.leads r hr).mono hgrows.data_kept).tail (heq ▸ hstep)
  · rw [List.forall_mem_append, List.forall_mem_singleton]
    constructor
    · intro r hr hne
      obtain ⟨by', old, hold, hby, htarget, hedge⟩ := hs.entered r hr hne
      exact ⟨by', old, hgrows.data_kept _ _ hold, hby, htarget, (hkept r hr).trans hedge⟩
    · intro _
      refine ⟨call, caller, hgrows.data_kept _ _ hcaller, hcall, rfl, ?_⟩
      rw [hgrows.predecessors_eq, if_pos rfl]
  · rw [List.forall_mem_append]
    constructor
    · intro other hstack
      have hmem := List.mem_reverse.1 hstack
      refine ⟨profile, ?_, hmem⟩
      rw [caller_of_mem_calls hsource hprofile hmem]
      exact hown
    · intro other hstack
      obtain ⟨old, hold, hmem⟩ := hs.stacked other (List.mem_cons_of_mem call hstack)
      exact ⟨old, hgrows.data_kept _ _ hold, hmem⟩
  · intro id data hid other hmem
    rw [hgrows.data_eq] at hid
    split at hid
    · cases hid
      exact .inr (.inr (List.mem_append_left _ (List.mem_reverse.2 hmem)))
    · rcases hs.followed id data hid other hmem with htracked | hin | hstack
      · exact .inl htracked
      · exact .inr (.inl (by simp [hgrows.contains_eq, hin]))
      · rcases List.mem_cons.1 hstack with rfl | hstack
        · exact .inr (.inl (by simp [hgrows.contains_eq]))
        · exact .inr (.inr (List.mem_append_right _ hstack))

theorem advances (hsource : source.Faithful) (hs : s.Sound source track handler)
    (h : Advances source track s t) : t.Sound source track handler := by
  cases h with
  | drop hseen => exact hs.drop hseen
  | read htrack hnew hprofile hadd => exact hs.read hsource htrack hnew hprofile hadd

theorem run (hsource : source.Faithful) (hs : s.Sound source track handler)
    (h : Relation.ReflTransGen (Advances source track) s t) : t.Sound source track handler := by
  induction h with
  | refl => exact hs
  | tail _ hstep ih => exact ih.advances hsource hstep

end Progress.Sound

/-- Where following calls starts: the handler is read, and its calls are on the stack. -/
def Progress.start (handler : Address) (profile : Profile) : Progress where
  graph := { (Graph.empty.insert (idOf handler) profile : CallGraph) with
    entry := some (idOf handler) }
  stack := profile.calls.reverse
  reads := [⟨handler, {}⟩]

theorem Progress.data?_start (handler : Address) (profile : Profile) (id : String) :
    (start handler profile).graph.data? id = if id = idOf handler then some profile else none := by
  change (Graph.empty.insert (idOf handler) profile : CallGraph).data? id = _
  rw [Graph.consistent_empty.data?_insert]
  simp [Graph.data?, Graph.node?, Graph.empty]

theorem Progress.sound_start {profile : Profile} (hsource : source.Faithful)
    (hprofile : (profileOf source handler {}).outcome = .ok profile) :
    (start handler profile).Sound source track handler := by
  have hown : (start handler profile).graph.data? (idOf handler) = some profile := by
    rw [data?_start, if_pos rfl]
  have hbuilt : (start handler profile).graph.Built :=
    .setEntry (.insert (idOf handler) profile .empty) (if_pos (by simp))
  refine
    { built := hbuilt
      entry_eq := rfl
      ids_eq := by simp [start, Graph.ids, Graph.insert, Graph.contains, Graph.empty]
      nodup_reads := List.nodup_singleton _
      handler_mem := List.mem_singleton_self _
      read_eq := ?_
      leads := ?_
      not_entered := by
        rw [hbuilt.consistent.predecessors_eq]
        simp [start, Graph.insert, Graph.contains, Graph.empty]
      entered := ?_
      stacked := ?_
      followed := ?_ }
  · intro r hr
    rw [List.mem_singleton.1 hr]
    exact ⟨profile, hprofile, hown⟩
  · intro r hr
    rw [List.mem_singleton.1 hr]
    exact .refl
  · intro r hr hne
    exact absurd (congrArg CalledRoutine.address (List.mem_singleton.1 hr)) hne
  · intro call hcall
    have hmem := List.mem_reverse.1 hcall
    refine ⟨profile, ?_, hmem⟩
    rw [caller_of_mem_calls hsource hprofile hmem]
    exact hown
  · intro id data hid call hcall
    rw [data?_start] at hid
    split at hid
    · cases hid
      exact .inr (.inr (List.mem_reverse.2 hcall))
    · cases hid

/-- What is reported while routines are read, one after the other. -/
def readRecords (source : RoutineSource) (reads : List CalledRoutine) : List Record :=
  reads.flatMap fun r => (source r.address r.flags).records

theorem records_profileOf (source : RoutineSource) (address : Address) (p : Flags) :
    (profileOf source address p).records = (source address p).records := by
  unfold profileOf
  change (Traced.andThen _ _).records = _
  unfold Traced.andThen
  split
  · simp [Traced.ofExcept]
  · rfl

/-- How a run ends: no call is left, or a routine cannot be read. -/
inductive Ends (source : RoutineSource) (track : Address) : Progress → Traced CallGraph → Prop
  | done {g : CallGraph} {reads : List CalledRoutine} :
      Ends source track ⟨g, [], reads⟩ ⟨[], .ok g⟩
  | failed {g : CallGraph} {call : DirectCall} {rest : List DirectCall}
      {reads : List CalledRoutine} {records : List Record} {e : Failure} :
      call.target.address ≠ track → g.contains (idOf call.target.address) = false →
      profileOf source call.target.address call.target.flags = ⟨records, .error e⟩ →
      Ends source track ⟨g, call :: rest, reads⟩ ⟨records, .error e⟩

/-- Following calls makes a run to its end, and reads what the run reads. -/
theorem follow_runs (hsource : source.Faithful) (stack : List DirectCall) :
    ∀ reads, Progress.Sound source track handler ⟨g, stack, reads⟩ →
      ∃ t last more, Relation.ReflTransGen (Advances source track) ⟨g, stack, reads⟩ t ∧
        Ends source track t last ∧ t.reads = reads ++ more ∧
        follow source track g stack =
          ⟨readRecords source more ++ last.records, last.outcome⟩ := by
  induction g, stack using follow.induct source track with
  | case1 g =>
    intro reads hs
    refine ⟨_, _, [], .refl, .done, (List.append_nil _).symm, ?_⟩
    rw [follow]
    rfl
  | case2 g call rest target hseen ih =>
    intro reads hs
    obtain ⟨t, last, more, hrun, hends, hreads, hfollow⟩ := ih reads (hs.drop hseen)
    refine ⟨t, last, more, .head (.drop hseen) hrun, hends, hreads, ?_⟩
    rw [follow, dif_pos hseen]
    exact hfollow
  | case3 g call rest target hseen records e hprofile =>
    intro reads hs
    obtain ⟨htrack, hnew⟩ := not_or.1 hseen
    refine ⟨_, _, [], .refl, .failed htrack (Bool.eq_false_iff.2 hnew) hprofile,
      (List.append_nil _).symm, ?_⟩
    rw [follow, dif_neg hseen, hprofile]
    rfl
  | case4 g call rest target hseen records profile hprofile known e hadd =>
    intro reads hs
    obtain ⟨caller, hcaller, -⟩ := hs.stacked call List.mem_cons_self
    have hknown : known.contains (idOf call.caller) = true := by
      simp [known, hs.built.consistent.contains_of_data? hcaller]
    obtain ⟨next, hnext⟩ := Graph.exists_addEdge hknown
      (show known.contains (idOf target) = true by simp [known]) 0
    rw [hadd] at hnext
    cases hnext
  | case5 g call rest target hseen records profile hprofile known next hadd ih =>
    intro reads hs
    obtain ⟨htrack, hnew⟩ := not_or.1 hseen
    have hstep : Advances source track ⟨g, call :: rest, reads⟩
        ⟨next, profile.calls.reverse ++ rest, reads ++ [call.target]⟩ :=
      .read htrack (Bool.eq_false_iff.2 hnew) (by rw [hprofile]) hadd
    obtain ⟨t, last, more, hrun, hends, hreads, hfollow⟩ := ih _ (hs.advances hsource hstep)
    refine ⟨t, last, call.target :: more, .head hstep hrun, hends, by simp [hreads], ?_⟩
    have hrecords := records_profileOf source call.target.address call.target.flags
    rw [hprofile] at hrecords
    rw [follow, dif_neg hseen, hprofile]
    dsimp only
    split
    · next e hfail =>
      rw [hadd] at hfail
      cases hfail
    · next other hother =>
      rw [hadd] at hother
      cases hother
      rw [hfollow]
      simp [readRecords, ← hrecords]

end Invariant

/-- The graph has the routines that the handler leads to, each read once: the handler with both
registers wide, any other routine with the flags that the routine which the one edge to it comes
from has recorded for its call. -/
structure IsClosure (source : RoutineSource) (track handler : Address) (g : CallGraph)
    (reads : List CalledRoutine) : Prop where
  built : g.Built
  entry_eq : g.entry = some (idOf handler)
  ids_eq : g.ids = reads.map fun r => idOf r.address
  nodup_reads : (reads.map (·.address)).Nodup
  read_eq : ∀ r ∈ reads, ∃ profile,
    (profileOf source r.address r.flags).outcome = .ok profile ∧
      profile.routine.address = r.address ∧ g.data? (idOf r.address) = some profile
  contains_iff : ∀ a, g.contains (idOf a) = true ↔ g.Leads track handler a
  handler_mem : ⟨handler, {}⟩ ∈ reads
  predecessors_handler : g.predecessors (idOf handler) = []
  predecessors_eq : ∀ r ∈ reads, r.address ≠ handler →
    ∃ caller ∈ reads, ∃ profile, g.data? (idOf caller.address) = some profile ∧
      (∃ call ∈ profile.calls, call.target = r) ∧
      profile.routine.call? r.address = some r ∧
      g.predecessors (idOf r.address) = [⟨idOf caller.address, idOf r.address, 0⟩]

section Closure

variable {source : RoutineSource} {track handler : Address} {g : CallGraph}
  {reads : List CalledRoutine}

theorem Progress.Sound.contains_of_leads
    (hs : Progress.Sound source track handler ⟨g, [], reads⟩) {a : Address}
    (hleads : g.Leads track handler a) : g.contains (idOf a) = true := by
  induction hleads with
  | refl => exact hs.contains_iff.2 ⟨_, hs.handler_mem, rfl⟩
  | tail _ hcalls _ =>
    obtain ⟨htrack, profile, hprofile, call, hcall, rfl⟩ := hcalls
    rcases hs.followed _ profile hprofile call hcall with heq | hin | hstack
    · exact absurd heq htrack
    · exact hin
    · cases hstack

theorem Progress.Sound.isClosure (hsource : source.Faithful)
    (hs : Progress.Sound source track handler ⟨g, [], reads⟩) :
    IsClosure source track handler g reads := by
  refine
    { built := hs.built
      entry_eq := hs.entry_eq
      ids_eq := hs.ids_eq
      nodup_reads := hs.nodup_reads
      handler_mem := hs.handler_mem
      read_eq := ?_
      contains_iff := ?_
      predecessors_handler := hs.not_entered
      predecessors_eq := ?_ }
  · intro r hr
    obtain ⟨profile, hprofile, hdata⟩ := hs.read_eq r hr
    exact ⟨profile, hprofile, hsource _ _ _ (profileOf_eq_ok hprofile).1, hdata⟩
  · intro a
    constructor
    · intro hin
      obtain ⟨r, hr, rfl⟩ := hs.contains_iff.1 hin
      exact hs.leads r hr
    · exact hs.contains_of_leads
  · intro r hr hne
    obtain ⟨call, profile, hprofile, hcall, rfl, hedge⟩ := hs.entered r hr hne
    obtain ⟨caller, hcaller, heq, hread⟩ := hs.exists_read hprofile
    have hrecorded := (Profile.lists_of_ofRoutine (profileOf_eq_ok hread).2).recorded
    rw [← heq] at hprofile hedge
    exact ⟨caller, hcaller, profile, hprofile, ⟨call, hcall, rfl⟩, (hrecorded call hcall).2,
      hedge⟩

theorem IsClosure.exists_read (hg : IsClosure source track handler g reads) {a : Address}
    (hleads : g.Leads track handler a) : ∃ r ∈ reads, r.address = a := by
  have hid := hg.built.consistent.mem_ids.2 ((hg.contains_iff a).2 hleads)
  rw [hg.ids_eq] at hid
  obtain ⟨r, hr, heq⟩ := List.mem_map.1 hid
  exact ⟨r, hr, idOf_inj.1 heq⟩

theorem build_of_profile (track : Address) {profile : Profile}
    (hprofile : (profileOf source handler {}).outcome = .ok profile) :
    build source track handler =
      ⟨(source handler {}).records ++
          (follow source track (Progress.start handler profile).graph
            profile.calls.reverse).records,
        (follow source track (Progress.start handler profile).graph
          profile.calls.reverse).outcome⟩ := by
  rw [← records_profileOf source handler {}]
  change Traced.andThen _ _ = _
  unfold Traced.andThen
  rw [hprofile]
  rfl

/-- A routine that has to be read: the handler, or one that a routine calls which was read. -/
def Wanted (source : RoutineSource) (track handler : Address) (r : CalledRoutine) : Prop :=
  r = ⟨handler, {}⟩ ∨ r.address ≠ track ∧
    ∃ caller p profile, (profileOf source caller p).outcome = .ok profile ∧
      ∃ call ∈ profile.calls, call.target = r

/-- A run that does not end with the closure ends at a routine that has to be read. -/
theorem Progress.Sound.wanted {s : Progress} {records : List Record} {e : Failure}
    (hs : s.Sound source track handler) (hends : Ends source track s ⟨records, .error e⟩) :
    ∃ r, Wanted source track handler r ∧
      (profileOf source r.address r.flags).outcome = .error e := by
  cases hends with
  | failed htrack _ hfailed =>
    obtain ⟨profile, hprofile, hcall⟩ := hs.stacked _ List.mem_cons_self
    obtain ⟨caller, -, -, hread⟩ := hs.exists_read hprofile
    exact ⟨_, .inr ⟨htrack, _, _, profile, hread, _, hcall, rfl⟩, congrArg Traced.outcome hfailed⟩

/-- A call graph is not built because a routine cannot be read, or it is the closure. -/
theorem build_runs (hsource : source.Faithful) (track handler : Address) :
    (∃ r e, Wanted source track handler r ∧
        (profileOf source r.address r.flags).outcome = .error e ∧
        (build source track handler).outcome = .error e) ∨
      ∃ profile g reads, (profileOf source handler {}).outcome = .ok profile ∧
        Relation.ReflTransGen (Advances source track) (Progress.start handler profile)
          ⟨g, [], reads⟩ ∧
        build source track handler = ⟨readRecords source reads, .ok g⟩ ∧
        IsClosure source track handler g reads := by
  cases hprofile : (profileOf source handler {}).outcome with
  | error e =>
    refine .inl ⟨⟨handler, {}⟩, e, .inl rfl, hprofile, ?_⟩
    rw [build, Traced.outcome_bind, hprofile]
    rfl
  | ok profile =>
    have hstart : (Progress.start handler profile).Sound source track handler :=
      Progress.sound_start hsource hprofile
    obtain ⟨t, ⟨records, outcome⟩, more, hrun, hends, hreads, hfollow⟩ :=
      follow_runs (g := (Progress.start handler profile).graph) hsource _ _ hstart
    have ht := hstart.run hsource hrun
    have hbuild := build_of_profile track hprofile
    rw [hfollow] at hbuild
    cases outcome with
    | error e =>
      obtain ⟨r, hwanted, hr⟩ := ht.wanted hends
      exact .inl ⟨r, e, hwanted, hr, by rw [hbuild]⟩
    | ok g =>
      cases hends
      refine .inr ⟨profile, g, _, rfl, hrun, ?_, ht.isClosure hsource⟩
      dsimp only at hreads
      rw [hbuild, hreads]
      simp [readRecords]

end Closure

/-- Following calls comes to an end for every source, and if every routine on the way can be read,
the graph has exactly the routines that the handler leads to, each read once with the flags of a
call by the one routine from which an edge leads to it. -/
theorem build_closure {source : RoutineSource} (hsource : source.Faithful)
    (track handler : Address) :
    (WellFounded fun t s => Advances source track s t) ∧
      ((∃ r e, Wanted source track handler r ∧
          (profileOf source r.address r.flags).outcome = .error e ∧
          (build source track handler).outcome = .error e) ∨
        ∃ profile g reads, (profileOf source handler {}).outcome = .ok profile ∧
          Relation.ReflTransGen (Advances source track) (Progress.start handler profile)
            ⟨g, [], reads⟩ ∧
          build source track handler = ⟨readRecords source reads, .ok g⟩ ∧
          IsClosure source track handler g reads) :=
  ⟨wellFounded_advances source track, build_runs hsource track handler⟩

namespace Recursive

/-! Two routines that call each other and themselves; the second one also calls the tracked one. -/

open Opcode (jsr rts)

def first : Routine where
  address := 0xC00000
  instructions := #[⟨0xC00000, jsr, ⟨0x100, 2⟩⟩, ⟨0xC00003, jsr, ⟨0, 2⟩⟩, ⟨0xC00006, rts, {}⟩]
  calls := [⟨0xC00100, { m := true }⟩, ⟨0xC00000, { m := true }⟩]

def second : Routine where
  address := 0xC00100
  instructions := #[⟨0xC00100, jsr, ⟨0, 2⟩⟩, ⟨0xC00103, jsr, ⟨0x100, 2⟩⟩,
    ⟨0xC00106, jsr, ⟨0x8000, 2⟩⟩, ⟨0xC00109, rts, {}⟩]
  calls := [⟨0xC00000, {}⟩, ⟨0xC00100, { m := true }⟩, ⟨0xC08000, {}⟩]

def source : RoutineSource := fun address _ =>
  ⟨[{ level := .debug, message := "Read", fields := [("address", .address address)] }],
    if address = 0xC00000 then .ok first
    else if address = 0xC00100 then .ok second
    else fail (.routineNotProvided address)⟩

def firstProfile : Profile where
  routine := first
  calls := [⟨0xC00000, 0xC00000, ⟨0xC00100, { m := true }⟩⟩,
    ⟨0xC00000, 0xC00003, ⟨0xC00000, { m := true }⟩⟩]

def secondProfile : Profile where
  routine := second
  calls := [⟨0xC00100, 0xC00100, ⟨0xC00000, {}⟩⟩, ⟨0xC00100, 0xC00103, ⟨0xC00100, { m := true }⟩⟩,
    ⟨0xC00100, 0xC00106, ⟨0xC08000, {}⟩⟩]

theorem profileOf_first (p : Flags) :
    (profileOf source 0xC00000 p).outcome = .ok firstProfile :=
  rfl

theorem profileOf_second (p : Flags) :
    (profileOf source 0xC00100 p).outcome = .ok secondProfile :=
  rfl

theorem profileOf_cases {address : Address} {p : Flags} {profile : Profile}
    (hok : (profileOf source address p).outcome = .ok profile) :
    address = 0xC00000 ∧ profile = firstProfile ∨
      address = 0xC00100 ∧ profile = secondProfile := by
  by_cases hfirst : address = 0xC00000
  · subst hfirst
    exact .inl ⟨rfl, (Except.ok.inj ((profileOf_first p).symm.trans hok)).symm⟩
  · by_cases hsecond : address = 0xC00100
    · subst hsecond
      exact .inr ⟨rfl, (Except.ok.inj ((profileOf_second p).symm.trans hok)).symm⟩
    · have hread := (profileOf_eq_ok hok).1
      simp [source, hfirst, hsecond, fail] at hread

theorem faithful_source : source.Faithful := by
  intro address p r hr
  unfold source at hr
  dsimp only at hr
  split at hr
  · next h => cases hr; exact h.symm
  · split at hr
    · next h => cases hr; exact h.symm
    · cases hr

theorem targets_of_profileOf {address : Address} {p : Flags} {profile : Profile}
    (hok : (profileOf source address p).outcome = .ok profile) :
    ∀ call ∈ profile.calls, call.target.address = 0xC00000 ∨
      call.target = ⟨0xC00100, { m := true }⟩ ∨ call.target = ⟨0xC08000, {}⟩ := by
  rcases profileOf_cases hok with ⟨-, rfl⟩ | ⟨-, rfl⟩
  · decide
  · decide

theorem profileOf_of_wanted {r : CalledRoutine} (hr : Wanted source 0xC08000 0xC00000 r) :
    ∃ profile, (profileOf source r.address r.flags).outcome = .ok profile := by
  rcases hr with rfl | ⟨htrack, caller, p, profile, hprofile, call, hcall, rfl⟩
  · exact ⟨firstProfile, rfl⟩
  · rcases targets_of_profileOf hprofile call hcall with h | h | h
    · exact ⟨firstProfile, by rw [h]; rfl⟩
    · exact ⟨secondProfile, by rw [h]; rfl⟩
    · exact absurd (congrArg CalledRoutine.address h) htrack

theorem data?_first {g : CallGraph} {reads : List CalledRoutine}
    (hg : IsClosure source 0xC08000 0xC00000 g reads) :
    g.data? (idOf 0xC00000) = some firstProfile := by
  obtain ⟨profile, hprofile, -, hdata⟩ := hg.read_eq _ hg.handler_mem
  rw [profileOf_first] at hprofile
  cases hprofile
  exact hdata

theorem leads_second {g : CallGraph} {reads : List CalledRoutine}
    (hg : IsClosure source 0xC08000 0xC00000 g reads) :
    g.Leads 0xC08000 0xC00000 0xC00100 :=
  .single ⟨by decide, firstProfile, data?_first hg, _, List.mem_cons_self, rfl⟩

theorem data?_second {g : CallGraph} {reads : List CalledRoutine}
    (hg : IsClosure source 0xC08000 0xC00000 g reads) :
    g.data? (idOf 0xC00100) = some secondProfile := by
  obtain ⟨r, hr, haddress⟩ := hg.exists_read (leads_second hg)
  obtain ⟨profile, hprofile, -, hdata⟩ := hg.read_eq r hr
  rw [haddress, profileOf_second] at hprofile
  cases hprofile
  rwa [haddress] at hdata

end Recursive

open Recursive in
/-- Calls of each other and of themselves end nothing: each routine is read once, and the tracked
one is not. -/
theorem build_closure_recursive :
    source.Faithful ∧ ∃ g reads,
      build source 0xC08000 0xC00000 = ⟨readRecords source reads, .ok g⟩ ∧
      IsClosure source 0xC08000 0xC00000 g reads ∧ g.Leads 0xC08000 0xC00000 0xC00100 ∧
      ⟨0xC00100, { m := true }⟩ ∈ reads ∧ g.contains (idOf 0xC08000) = false := by
  rcases (build_closure faithful_source 0xC08000 0xC00000).2 with
    ⟨r, e, hwanted, hr, -⟩ | ⟨profile, g, reads, hprofile, -, hbuild, hg⟩
  · obtain ⟨profile, hprofile⟩ := profileOf_of_wanted hwanted
    rw [hr] at hprofile
    cases hprofile
  refine ⟨faithful_source, g, reads, hbuild, hg, leads_second hg, ?_, ?_⟩
  · obtain ⟨r, hr, haddress⟩ := hg.exists_read (leads_second hg)
    obtain ⟨caller, hcaller, known, hknown, ⟨call, hcall, htarget⟩, -⟩ :=
      hg.predecessors_eq r hr (by rw [haddress]; decide)
    obtain ⟨known', hread, -, hknown'⟩ := hg.read_eq caller hcaller
    rw [hknown] at hknown'
    cases hknown'
    rcases targets_of_profileOf hread call hcall with h | h | h
    · rw [htarget, haddress] at h
      exact absurd h (by decide)
    · exact (htarget.symm.trans h) ▸ hr
    · rw [← htarget, h] at haddress
      exact absurd haddress (by decide)
  · rw [Bool.eq_false_iff]
    intro hin
    rcases ((hg.contains_iff _).1 hin).cases_tail with heq | ⟨_, -, htrack, -⟩
    · exact absurd heq (by decide)
    · exact htrack rfl

end CallGraph

end CartFlow
