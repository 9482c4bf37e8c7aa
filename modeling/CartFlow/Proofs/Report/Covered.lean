import CartFlow.Proofs.Report.CallClosure
import CartFlow.Proofs.Report.Uncancelled
import CartFlow.Report.Basic

/-!
# What a report covers

A report covers its handlers and, from each that is analysed, the routines below it that call the
tracked one. These addresses are examined one after the other in a queue: the first one is taken
out, and what it promotes is put behind the others unless it was in the queue before. What one turn
keeps is that no address comes twice, that all of them are covered, and that what an examined
address promotes is in the queue or examined. At the end the examined addresses are therefore the
covered ones. What is reported on an address does not depend on the others, so the order of the
handlers, their repetitions and the failures of some of them leave the rest as it is.
-/
namespace CartFlow

/-- The sources give the routine that they are asked for, and do not fail by a cancellation. -/
structure Examiner.Reliable (a : Examiner) : Prop where
  faithful : ∀ handler, (a.source handler).Faithful
  uncancelled : ∀ handler address p, Uncancelled (a.source handler address p).outcome

theorem Patience.remaining_of_ask {p q : Patience} (h : p.ask = .ok q)
    (hnone : p.remaining = none) : q.remaining = none := by
  rw [ask, hnone] at h
  cases h
  exact hnone

theorem CallGraph.exists_isClosure {source : RoutineSource} {track handler : Address}
    {g : CallGraph} (hsource : source.Faithful)
    (hok : (build source track handler).outcome = .ok g) :
    ∃ reads, IsClosure source track handler g reads := by
  rcases build_runs hsource track handler with
    ⟨r, e, -, -, hfailed⟩ | ⟨_, h, reads, -, -, hbuild, hclosure⟩
  · rw [hfailed] at hok
    cases hok
  · rw [hbuild] at hok
    cases hok
    exact ⟨reads, hclosure⟩

section Analysed

variable {a : Analyzer} {address : Address} {analysis : Analysis}

/-- Behind the calls, the blocks and their dominators, nothing keeps an analysis from its result. -/
theorem Analyzer.exists_analyze {g : CallGraph} {root : Profile} {blocks tree : BlockGraph}
    (hgraph : (CallGraph.build a.source a.track address).outcome = .ok g)
    (hroot : g.entryData? = some root)
    (hblocks : (BlockGraph.ofRoutine root.routine).outcome = .ok blocks)
    (htree : (blocks.dominatorTree a.passLimit).outcome = .ok tree) :
    ∃ analysis, (a.analyze address).outcome = .ok analysis := by
  obtain ⟨loops, hstages⟩ := BlockGraph.exists_completes hblocks htree
  obtain ⟨conditional, hconditional⟩ := hstages.exists_conditional (root.callsOf a.track)
  obtain ⟨inLoop, hinLoop⟩ := hstages.exists_inLoop (root.callsOf a.track)
  refine ⟨⟨address, g, root, blocks, tree, loops, conditional, inLoop⟩, ?_⟩
  simp only [analyze, Traced.outcome_bind, Traced.outcome_report, Traced.outcome_ofExcept,
    Traced.outcome_during, Traced.outcome_pure]
  refine bind_eq_ok.2 ⟨(), rfl, bind_eq_ok.2 ⟨g, hgraph, ?_⟩⟩
  rw [hroot, Option.getD_some]
  refine bind_eq_ok.2 ⟨blocks, hblocks, bind_eq_ok.2 ⟨tree, during_eq_ok.2 htree, ?_⟩⟩
  rw [hstages.loops_eq, hconditional]
  exact bind_eq_ok.2 ⟨loops, rfl, bind_eq_ok.2 ⟨conditional, rfl,
    bind_eq_ok.2 ⟨inLoop, hinLoop, rfl⟩⟩⟩

/-- A handler that is analysed has a report: the distances are between routines of its graph. -/
theorem Handler.exists_ofAnalysis (h : a.source.Faithful)
    (hok : (a.analyze address).outcome = .ok analysis) :
    ∃ handler, Handler.ofAnalysis analysis a.track = .ok handler ∧
      handler.address = address := by
  obtain ⟨haddress, hbuild, -⟩ := Analyzer.analyze_stages hok
  obtain ⟨reads, hclosure⟩ := CallGraph.exists_isClosure h hbuild
  have hg := hclosure.built.consistent
  have hsub : ∃ subroutines, subroutinesOf analysis.callGraph a.track = .ok subroutines := by
    apply exists_mapM
    intro n hn
    have hid : n.id ∈ analysis.callGraph.ids :=
      List.mem_map_of_mem (List.mem_filter.1 hn).1
    obtain ⟨first, hfirst⟩ := hg.node_eq_ok (hg.entry_mem _ hclosure.entry_eq)
    obtain ⟨last, hlast⟩ := hg.node_eq_ok (hg.mem_ids.1 hid)
    rw [hclosure.entry_eq, Option.getD_some, Graph.distance, hfirst, hlast]
    exact ⟨_, rfl⟩
  obtain ⟨subroutines, hsub⟩ := hsub
  rw [ofAnalysis, hsub]
  exact ⟨_, rfl, haddress⟩

namespace Examiner.Reliable

variable {a : Examiner}

theorem exists_ofAnalysis (h : a.Reliable)
    (hok : ((a.analyzer address).analyze address).outcome = .ok analysis) :
    ∃ handler, Handler.ofAnalysis analysis a.track = .ok handler ∧ handler.address = address :=
  Handler.exists_ofAnalysis (a := a.analyzer address) (h.faithful address) hok

theorem uncancelled_analyze (h : a.Reliable) (address : Address) :
    Uncancelled ((a.analyzer address).analyze address).outcome :=
  Analyzer.uncancelled_analyze (a := a.analyzer address) (h.uncancelled address) address

end Examiner.Reliable

end Analysed

namespace Report

def handlerOn (a : Examiner) (ignore : List Address) (address : Address) : Handler :=
  if address ∈ ignore then { address, status := .ignored }
  else
    match ((a.analyzer address).analyze address).outcome >>= (Handler.ofAnalysis · a.track) with
    | .ok handler => handler
    | .error e => { address, status := .failed, failure := some e }

/-- The routines below an analysed handler that call the tracked routine. -/
def promotedBy (a : Examiner) (ignore : List Address) (address : Address) : List Address :=
  if address ∈ ignore then []
  else
    match ((a.analyzer address).analyze address).outcome with
    | .ok analysis =>
      (Handler.callers analysis.callGraph a.track).map (·.data.routine.address)
    | .error _ => []

/-- The least set of addresses that has the handlers and, with an address that is not ignored and
can be analysed, every routine of its call graph other than the entry that calls the tracked one. -/
inductive Covered (a : Examiner) (handlers ignore : List Address) : Address → Prop
  | handler {address : Address} : address ∈ handlers → Covered a handlers ignore address
  | caller {address : Address} {analysis : Analysis} {n : Node Profile} :
      Covered a handlers ignore address → address ∉ ignore →
      ((a.analyzer address).analyze address).outcome = .ok analysis → n ∈ analysis.callGraph.nodes →
      analysis.callGraph.entry ≠ some n.id → n.data.callCount a.track ≠ 0 →
      Covered a handlers ignore n.data.routine.address

section Examined

variable {a : Examiner} {handlers ignore : List Address} {address : Address}

theorem mem_promotedBy {other : Address} :
    other ∈ promotedBy a ignore address ↔
      address ∉ ignore ∧ ∃ analysis,
        ((a.analyzer address).analyze address).outcome = .ok analysis ∧
          ∃ n ∈ analysis.callGraph.nodes, analysis.callGraph.entry ≠ some n.id ∧
            n.data.callCount a.track ≠ 0 ∧ n.data.routine.address = other := by
  unfold promotedBy
  split
  · next hignore => simp [hignore]
  · next hignore =>
    cases ((a.analyzer address).analyze address).outcome with
    | error e => simp
    | ok analysis => simp [Handler.callers, hignore, and_assoc]

theorem Covered.promoted (h : Covered a handlers ignore address) {other : Address}
    (hother : other ∈ promotedBy a ignore address) : Covered a handlers ignore other := by
  obtain ⟨hignore, analysis, hok, n, hn, hentry, hcount, rfl⟩ := mem_promotedBy.1 hother
  exact .caller h hignore hok hn hentry hcount

theorem Covered.mono {others : List Address} (hsub : ∀ x ∈ handlers, x ∈ others)
    (h : Covered a handlers ignore address) : Covered a others ignore address := by
  induction h with
  | handler hmem => exact .handler (hsub _ hmem)
  | caller _ hignore hok hn hentry hcount ih => exact .caller ih hignore hok hn hentry hcount

theorem address_handlerOn (h : a.Reliable) (ignore : List Address) (address : Address) :
    (handlerOn a ignore address).address = address := by
  unfold handlerOn
  split
  · rfl
  · cases hok : ((a.analyzer address).analyze address).outcome with
    | error e => rfl
    | ok analysis =>
      obtain ⟨handler, hhandler, haddress⟩ := h.exists_ofAnalysis hok
      change (match Handler.ofAnalysis analysis a.track with
        | .ok handler => handler
        | .error e => _).address = address
      rw [hhandler]
      exact haddress

theorem outcome_examine (h : a.Reliable) (ignore : List Address) (address : Address) :
    (examine a ignore address).outcome =
      .ok (handlerOn a ignore address, promotedBy a ignore address) := by
  by_cases hignore : address ∈ ignore
  · simp [examine, handlerOn, promotedBy, hignore]
  · rw [examine, if_neg (by simpa using hignore), handlerOn, if_neg hignore, promotedBy,
      if_neg hignore]
    simp only [Traced.outcome_bind, Traced.outcome_ofExcept, Traced.outcome_pure]
    cases hok : ((a.analyzer address).analyze address).outcome with
    | error e =>
      have hcause := h.uncancelled_analyze address e hok
      simp [bind, Except.bind, hcause]
    | ok analysis =>
      obtain ⟨handler, hhandler, -⟩ := h.exists_ofAnalysis hok
      simp [bind, Except.bind, Traced.andThen, hhandler, hok]

end Examined

structure Queue where
  pending : List Address
  done : List Address

namespace Queue

def members (q : Queue) : List Address :=
  q.done ++ q.pending

/-- The found addresses that were never pending, each once. -/
def new (q : Queue) (found : List Address) : List Address :=
  (distinct found).filter (· ∉ q.members)

/-- A turn: the first pending address is examined, and what it promotes is put behind the others
unless it was pending before. -/
inductive Turn (a : Examiner) (ignore : List Address) : Queue → Queue → Prop
  | examine {address : Address} {rest done : List Address} :
      Turn a ignore ⟨address :: rest, done⟩
        ⟨rest ++ new ⟨address :: rest, done⟩ (promotedBy a ignore address), done ++ [address]⟩

end Queue

section Turns

variable {a : Examiner} {handlers ignore found : List Address} {q t : Queue}
  {queued : Std.HashSet Address}

theorem Queue.mem_new {x : Address} : x ∈ q.new found ↔ x ∈ found ∧ x ∉ q.members := by
  simp [new]

theorem Queue.members_examine {address : Address} {rest done : List Address} :
    members ⟨rest ++ found, done ++ [address]⟩ = members ⟨address :: rest, done⟩ ++ found := by
  simp [members]

theorem fresh_eq (hqueued : ∀ b, queued.contains b = true ↔ b ∈ q.members)
    (found : List Address) : fresh queued found = q.new found := by
  apply List.filter_congr
  intro b _
  rw [Bool.eq_iff_iff]
  simp [← hqueued]

theorem unqueued_congr {s t : Std.HashSet Address}
    (h : ∀ b, s.contains b = true ↔ t.contains b = true) : unqueued s = unqueued t := by
  unfold unqueued
  congr 1
  funext b
  rw [Bool.eq_iff_iff.2 (h b)]

/-- No run goes on for ever: a turn leaves fewer addresses that were never pending, or less to
examine. -/
theorem Queue.wellFounded_turn (a : Examiner) (ignore : List Address) :
    WellFounded fun t q => Turn a ignore q t := by
  apply wellFounded_of_lex fun q => (unqueued (.ofList q.members), q.pending.length)
  intro q t h
  cases h with
  | @examine address rest done =>
    have hqueued : ∀ b, (Std.HashSet.ofList (members ⟨address :: rest, done⟩)).contains b = true ↔
        b ∈ members ⟨address :: rest, done⟩ := by simp
    have hless := unqueued_lex (.ofList (members ⟨address :: rest, done⟩))
      (promotedBy a ignore address) rest address
    rw [members_examine]
    rw [fresh_eq hqueued, unqueued_congr] at hless
    · exact hless
    · intro b
      simp

/-- What the turns keep. -/
structure Queue.Sound (a : Examiner) (handlers ignore : List Address) (q : Queue) : Prop where
  nodup : q.members.Nodup
  covered : ∀ x ∈ q.members, Covered a handlers ignore x
  handlers_mem : ∀ x ∈ handlers, x ∈ q.members
  promoted_mem : ∀ x ∈ q.done, ∀ y ∈ promotedBy a ignore x, y ∈ q.members

namespace Queue.Sound

theorem start (a : Examiner) (handlers ignore : List Address) :
    Queue.Sound a handlers ignore ⟨distinct handlers, []⟩ where
  nodup := nodup_distinct handlers
  covered := fun _ hx => .handler (mem_distinct.1 hx)
  handlers_mem := fun _ hx => mem_distinct.2 hx
  promoted_mem := fun _ hx => absurd hx List.not_mem_nil

theorem turn (hq : q.Sound a handlers ignore) (h : Turn a ignore q t) :
    t.Sound a handlers ignore := by
  cases h with
  | @examine address rest done =>
    constructor
    · rw [members_examine, List.nodup_append]
      refine ⟨hq.nodup, (nodup_distinct _).filter _, ?_⟩
      rintro x hx y hy rfl
      exact (mem_new.1 hy).2 hx
    · intro x hx
      rw [members_examine, List.mem_append] at hx
      rcases hx with hx | hx
      · exact hq.covered x hx
      · have haddress : address ∈ members ⟨address :: rest, done⟩ := by simp [members]
        exact (hq.covered address haddress).promoted (mem_new.1 hx).1
    · intro x hx
      rw [members_examine]
      exact List.mem_append_left _ (hq.handlers_mem x hx)
    · intro x hx y hy
      rw [members_examine, List.mem_append]
      by_cases hknown : y ∈ members ⟨address :: rest, done⟩
      · exact .inl hknown
      · rcases List.mem_append.1 hx with hx | hx
        · exact .inl (hq.promoted_mem x hx y hy)
        · rw [List.mem_singleton.1 hx] at hy
          exact .inr (mem_new.2 ⟨hy, hknown⟩)

theorem run (hq : q.Sound a handlers ignore) (h : Relation.ReflTransGen (Turn a ignore) q t) :
    t.Sound a handlers ignore := by
  induction h with
  | refl => exact hq
  | tail _ hturn ih => exact ih.turn hturn

/-- When nothing is pending, the covered addresses were examined. -/
theorem mem_iff {order : List Address} (hq : Queue.Sound a handlers ignore ⟨[], order⟩)
    (x : Address) : x ∈ order ↔ Covered a handlers ignore x := by
  have hmembers : ∀ y, y ∈ members ⟨[], order⟩ ↔ y ∈ order := by simp [members]
  constructor
  · intro hx
    exact hq.covered x ((hmembers x).2 hx)
  · intro hx
    induction hx with
    | handler hmem => exact (hmembers _).1 (hq.handlers_mem _ hmem)
    | caller _ hignore hok hn hentry hcount ih =>
      apply (hmembers _).1
      apply hq.promoted_mem _ ih
      exact mem_promotedBy.2 ⟨hignore, _, hok, _, hn, hentry, hcount, rfl⟩

end Queue.Sound

def collect (a : Examiner) (ignore addresses : List Address) : Report :=
  (addresses.map (handlerOn a ignore)).foldl add { track := a.track }

theorem collect_concat (a : Examiner) (ignore addresses : List Address) (address : Address) :
    collect a ignore (addresses ++ [address]) =
      (collect a ignore addresses).add (handlerOn a ignore address) := by
  simp [collect]

theorem outcome_examineAll_cons {report : Report} {patience left : Patience} {address : Address}
    {rest : List Address} {handler : Handler} (hask : patience.ask = .ok left)
    (hexamine : (examine a ignore address).outcome = .ok (handler, found)) :
    (examineAll a ignore queued report patience (address :: rest)).outcome =
      (examineAll a ignore (queued.insertMany (fresh queued found)) (report.add handler) left
        (rest ++ fresh queued found)).outcome := by
  cases hparts : examine a ignore address with
  | mk records outcome =>
    rw [hparts] at hexamine
    cases hexamine
    rw [examineAll, hask]
    dsimp only
    rw [hparts]

/-- Examining what is pending makes a run to its end, unless it is cancelled. -/
theorem examineAll_runs (h : a.Reliable) (queued : Std.HashSet Address) (report : Report)
    (patience : Patience) (pending : List Address) :
    ∀ done, (∀ b, queued.contains b = true ↔ b ∈ Queue.members ⟨pending, done⟩) →
      report = collect a ignore done →
      (∃ e, (examineAll a ignore queued report patience pending).outcome = .error e ∧
          e.cause = .cancelled ∧ patience.remaining ≠ none) ∨
        ∃ order, Relation.ReflTransGen (Queue.Turn a ignore) ⟨pending, done⟩ ⟨[], order⟩ ∧
          (examineAll a ignore queued report patience pending).outcome =
            .ok (collect a ignore order).finish := by
  induction queued, report, patience, pending using examineAll.induct a ignore with
  | case1 queued report patience =>
    intro done _ hreport
    rw [examineAll, hreport]
    exact .inr ⟨done, .refl, rfl⟩
  | case2 queued report patience address rest e hask =>
    intro done _ _
    obtain ⟨hcause, hlimited⟩ := Patience.ask_eq_error hask
    rw [examineAll, hask]
    exact .inl ⟨_, rfl, hcause, hlimited⟩
  | case3 queued report patience address rest left hask records e hexamine =>
    have hok := outcome_examine h ignore address
    rw [hexamine] at hok
    cases hok
  | case4 queued report patience address rest left hask records handler found hexamine new ih =>
    intro done hqueued hreport
    have hok := outcome_examine h ignore address
    rw [hexamine] at hok
    cases hok
    have hnew : new = Queue.new ⟨address :: rest, done⟩ (promotedBy a ignore address) :=
      fresh_eq hqueued _
    have hcontains : ∀ b, (queued.insertMany new).contains b = true ↔
        b ∈ Queue.members ⟨rest ++ new, done ++ [address]⟩ := by
      intro b
      rw [Queue.members_examine, List.mem_append, ← hqueued]
      simp [Std.HashSet.contains_insertMany_list]
    rw [outcome_examineAll_cons hask (congrArg Traced.outcome hexamine)]
    rcases ih (done ++ [address]) hcontains (by rw [collect_concat, hreport]) with
      ⟨e, he, hcause, hlimited⟩ | ⟨order, hrun, houtcome⟩
    · exact .inl ⟨e, he, hcause, fun hnone => hlimited (Patience.remaining_of_ask hask hnone)⟩
    · refine .inr ⟨order, .head ?_ hrun, houtcome⟩
      rw [hnew]
      exact .examine

end Turns

end Report

end CartFlow
