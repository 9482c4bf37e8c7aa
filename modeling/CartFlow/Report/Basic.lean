import CartFlow.Distinct
import CartFlow.Report.Handler

/-!
# Reports

A report covers a list of handlers and every routine below one of them that calls the
tracked routine; each is analysed once. A handler that cannot be analysed is reported
as failed and the others go on. Handlers that are not fine are listed by their
number of calls, all others in the order in which they were analysed.
-/
namespace CartFlow

/-- What a report needs: where the routines of each handler come from, the tracked routine, and the
limit of dominator passes. A routine is read anew for every handler that leads to it, and the
readings need not be alike. -/
structure Examiner where
  source : Address → RoutineSource
  track : Address
  passLimit : Int := 0

def Examiner.analyzer (a : Examiner) (handler : Address) : Analyzer :=
  { source := a.source handler, track := a.track, passLimit := a.passLimit }

structure Report where
  track : Address
  ok : List Handler := []
  ko : List Handler := []
  ignored : List Handler := []
  failed : List Handler := []
  deriving DecidableEq, Repr

namespace Report

def all (r : Report) : List Handler :=
  r.ok ++ r.ko ++ r.ignored ++ r.failed

def add (r : Report) (h : Handler) : Report :=
  match h.status with
  | .ok => { r with ok := r.ok ++ [h] }
  | .ko => { r with ko := r.ko ++ [h] }
  | .ignored => { r with ignored := r.ignored ++ [h] }
  | .failed => { r with failed := r.failed ++ [h] }

/-- Orders the handlers that are not fine by their number of calls. -/
def finish (r : Report) : Report :=
  { r with ko := r.ko.mergeSort fun g h => g.calls ≤ h.calls }

/-- The report on one handler and the routines that are to be analysed like handlers
because of it. Only cancellation makes this fail. -/
def examine (a : Examiner) (ignore : List Address) (address : Address) :
    Traced (Handler × List Address) :=
  if ignore.contains address then return ({ address, status := .ignored }, [])
  else
    let analysed : Traced (Handler × List Address) := do
      let analysis ← (a.analyzer address).analyze address
      let handler ← Traced.ofExcept (Handler.ofAnalysis analysis a.track)
      return (handler,
        (Handler.callers analysis.callGraph a.track).map (·.data.routine.address))
    match analysed.outcome with
    | .ok _ => analysed
    | .error e =>
      if e.cause = .cancelled then analysed
      else
        { records := analysed.records ++
            [{ level := .warn
               message := "Skipping routine that failed to analyze"
               fields := [("address", .address address), ("error", .text e.message)] }]
          outcome := .ok ({ address, status := .failed, failure := some e }, []) }

def queueRecord (address : Address) : Record :=
  { level := .info, message := "Add subroutine", fields := [("address", .address address)] }

/-- The found addresses that were not queued before. -/
def fresh (queued : Std.HashSet Address) (found : List Address) : List Address :=
  (distinct found).filter (!queued.contains ·)

def unqueued (queued : Std.HashSet Address) : Nat :=
  countWords fun a => !queued.contains a

theorem unqueued_lex (queued : Std.HashSet Address) (found rest : List Address)
    (address : Address) :
    Prod.Lex (· < ·) (· < ·)
      (unqueued (queued.insertMany (fresh queued found)), (rest ++ fresh queued found).length)
      (unqueued queued, (address :: rest).length) := by
  cases h : fresh queued found with
  | nil =>
    simp only [List.append_nil, Std.HashSet.insertMany_nil]
    exact Prod.Lex.right _ (by simp)
  | cons a l =>
    have ha : a ∈ fresh queued found := by simp [h]
    have hnew : queued.contains a = false := by
      simpa using (List.mem_filter.1 ha).2
    apply Prod.Lex.left
    refine countWords_lt_countWords (a := a) ?_ ?_ ?_
    · intro b hb
      simp only [Std.HashSet.contains_insertMany_list, Bool.not_or, Bool.and_eq_true] at hb
      exact hb.1
    · simpa using hnew
    · simp [Std.HashSet.contains_insertMany_list]

/-- Examines the pending addresses in order; `queued` are all addresses that were ever pending. -/
def examineAll (a : Examiner) (ignore : List Address) (queued : Std.HashSet Address)
    (report : Report) (patience : Patience) : List Address → Traced Report
  | [] => return report.finish
  | address :: rest =>
    match patience.ask with
    | .error e => ⟨[], .error (e.within .generatingReport)⟩
    | .ok patience =>
      match examine a ignore address with
      | ⟨records, .error e⟩ => ⟨records, .error e⟩
      | ⟨records, .ok (handler, found)⟩ =>
        let new := fresh queued found
        let others := examineAll a ignore (queued.insertMany new) (report.add handler) patience
          (rest ++ new)
        { others with records := records ++ new.map queueRecord ++ others.records }
termination_by pending => (unqueued queued, pending.length)
decreasing_by exact unqueued_lex queued found rest address

def generate (a : Examiner) (handlers ignore : List Address) (patience : Patience) :
    Traced Report :=
  let handlers := distinct handlers
  examineAll a ignore (.ofList handlers) { track := a.track } patience handlers

end Report

end CartFlow
