import CartFlow.Command.Console
import CartFlow.Command.Run

/-!
# The program

Runs a command line on the files of the machine. Everything that is decided is decided
by the command; here its requests are carried out.
-/
namespace CartFlow

def ioFailure (operation path : String) : IO.Error → Failure
  | .noFileOrDirectory .. => ⟨.missingFile operation path, []⟩
  | e => ⟨.unusableFile operation path (toString e), []⟩

/-- Writes pieces until one of them cannot be written. -/
def printPieces (output : IO.FS.Stream) : List Piece → IO (Option Failure)
  | [] => return none
  | p :: rest => do
    try
      output.putStr p.text
    catch _ =>
      return some ⟨.writeRefused, p.activity.toList⟩
    printPieces output rest

def readMachineFile (path : String) : IO (Except Failure (Array UInt8)) := do
  try
    return .ok (← IO.FS.readBinFile path).data
  catch e =>
    return .error (ioFailure "open" path e)

def writeMachineFile (path text : String) : IO (Except Failure Unit) := do
  try
    IO.FS.writeFile path text
    return .ok ()
  catch e =>
    return .error (ioFailure "open" path e)

def lookAtMachine (path : String) : IO (Option FileEntry) := do
  let place := (← IO.currentDir) / path
  if ← place.isDir then
    let names := (← place.readDir).toList.map (·.fileName)
    return some (.directory (names.mergeSort fun a b => !(b < a)))
  else if ← place.pathExists then return some .file
  else return none

/-- Carries out the requests of an action. -/
def Action.perform {α : Type} (output : IO.FS.Stream) : Action α → IO (Except Failure α)
  | .done outcome => return outcome
  | .report r next => do
    output.putStrLn r.consoleLine
    next.perform output
  | .print d next => do
    let failure ← printPieces output d.pieces
    (next (failure <|> d.failure)).perform output
  | .read path next => do
    let answer ← readMachineFile path
    (next answer).perform output
  | .write path text next => do
    let answer ← writeMachineFile path text
    (next answer).perform output
  | .look path next => do
    let answer ← lookAtMachine path
    (next answer).perform output

def build : Build := { version := "dev" }

end CartFlow

/-- Runs the command line and reports its failure. -/
def main (arguments : List String) : IO UInt32 := do
  let action := CartFlow.Command.run CartFlow.build {} (fun _ _ => .oldest) arguments
  match ← action.perform (← IO.getStdout) with
  | .ok () => return 0
  | .error e =>
    (← IO.getStderr).putStrLn ("Error: " ++ e.message)
    return 1
