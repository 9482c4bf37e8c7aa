import CartFlow.Command.Session
import CartFlow.Files.Pattern

/-!
# Batches

A batch makes a report on every image whose name fits a pattern and writes each report
next to its image. An image that fails is reported and the others go on; only
cancellation ends the batch.
-/
namespace CartFlow

open Files

namespace Batch

/-- The entries of a directory that fit a pattern, in ascending order. -/
def matching (directory pattern : String) : Action (List String) := do
  match ← Action.lookAt directory with
  | some (.directory names) =>
    let fitting ← Action.ofExcept (during .expandingPattern (names.filterM (fits pattern)))
    return fitting.map (join directory)
  | _ => return []

/-- The greatest number of names with special characters, one behind the other, on a path. -/
def depthLimit : Nat := 10000

/-- The paths that fit a pattern, whose names come last first. A directory without special
characters is taken as it is written; at most `depth` names are expanded. -/
def expand : (depth : Nat) → List String → Action (List String)
  | _, [] => return []
  | 0, _ :: _ => Action.ofExcept (during .expandingPattern (fail .malformedPattern))
  | depth + 1, name :: above => do
    let pattern := ofComponents (name :: above).reverse
    let _ ← Action.ofExcept (during .expandingPattern (fits pattern ""))
    if !isPattern pattern then
      return if (← Action.lookAt pattern).isSome then [pattern] else []
    else
      let directory :=
        match above with
        | [] => "."
        | [""] => "/"
        | _ => ofComponents above.reverse
      if !isPattern directory then matching directory name
      else
        let directories ← expand depth above
        return (← directories.mapM (matching · name)).flatten

/-- The files of a batch; without a pattern it is the file without name. -/
def files (pattern : String) : Action (List String) :=
  if pattern.isEmpty then return [""] else expand depthLimit (components pattern).reverse

/-- What became of a file, and the patience that is left. -/
def processFile (s : Session) (input : String) : Action (Except Failure Unit × Patience) := do
  match ← (s.report input).attempt with
  | .error e => return (.error e, s.patience)
  | .ok r =>
    let outcome ← (s.deliver (s.reportDocument r)).attempt
    return (outcome, s.patience.after r.all.length)

def processAll (s : Session) : List String → Nat → Action Nat
  | [], failed => return failed
  | input :: rest, failed => do
    let s := { s with output := outputName input (extension s.format) }
    let (outcome, patience) ← processFile s input
    let next := { s.past 1 with patience }
    match outcome with
    | .ok () =>
      s.say { level := .info, message := "Report written", fields := [("file", .text s.output)] }
      processAll next rest failed
    | .error e =>
      if e.cause = .cancelled then Action.ofExcept (.error e)
      else
        s.say
          { level := .error
            message := "Generating report failed"
            fields := [("file", .text input), ("error", .text e.message)] }
        processAll next rest (failed + 1)

def runFiles (s : Session) (inputs : List String) : Action Unit := do
  let failed ← processAll s inputs 0
  if failed ≠ 0 then Action.ofExcept (fail (.filesFailed failed inputs.length))

def run (s : Session) (pattern : String) : Action Unit := do
  let inputs ← files pattern
  if inputs.isEmpty then Action.ofExcept (fail (.noMatchingFile pattern))
  else runFiles s inputs

end Batch

end CartFlow
