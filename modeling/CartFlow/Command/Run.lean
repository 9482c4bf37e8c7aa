import CartFlow.Command.Basic
import CartFlow.Command.Batch
import CartFlow.Output.Drawing
import CartFlow.Settings.Schema

/-!
# Running commands

A command line is read flags first, then the number of arguments is checked, and only
then are the settings loaded and the command run. What is wrong with the arguments
themselves shows before the image is opened.
-/
namespace CartFlow

open Text Processor Cartridge

structure Build where
  version : String := ""
  commit : String := ""
  date : String := ""
  deriving DecidableEq, Repr

namespace Build

def commitLength : Nat := 7

def versionText (b : Build) : String :=
  if b.commit.isEmpty then b.version
  else
    let shown := (encode b.commit).extract 0 commitLength
    b.version ++ " (" ++ String.ofList (decode shown) ++ ")"

def hasDate (b : Build) : Bool :=
  !b.date.isEmpty && (b.date.splitOn "unknown").length == 1

def banner (b : Build) : List Record :=
  { level := .info
    message := Command.program
    fields := [("version", .text b.versionText)] } ::
  (if b.hasDate then
    [{ level := .info, message := "Build", fields := [("date", .text b.date)] }]
   else [])

end Build

namespace Session

def levelOf (o : Options) : Level :=
  if o.debug || o.verbose then .debug
  else if o.quiet then .error
  else .info

/-- Loads a settings file; without one the settings are the standard ones. -/
def loadSettings (path : String) : Action Settings := do
  if path.isEmpty then return {}
  let bytes ← Action.during (.readingSettings path) (Action.readFile path)
  Action.ofExcept (Settings.ofFile path bytes)

/-- Starts a session: introduces the program and loads the settings, where options come first. -/
def start (build : Build) (patience : Patience) (schedule : Schedule) (o : Options) :
    Action Session := do
  let s : Session :=
    { level := levelOf o
      quiet := o.quiet
      format := o.format
      output := o.output
      listing := { addresses := !o.noAddresses, bytes := o.hex }
      patience, schedule }
  if !o.quiet then build.banner.forM s.say
  let settings ← loadSettings o.config
  return { s with
    settings
    mapping := if o.mapping.isEmpty then settings.mapping else o.mapping
    passLimit := o.passLimit.getD (max settings.passLimit 0) }

def checkFormat (s : Session) (supported : List String) : Except Failure Unit :=
  if supported.contains s.format then .ok ()
  else fail (.unsupportedFormat s.format supported)

def findingsDocument (s : Session) (stage : Stage) (address : Address) (f : Findings) : Document :=
  let title := "sub_" ++ hexAddress address
  let blocks := f.blocks.getD .empty
  let tree := f.tree.getD .empty
  match stage with
  | .routine => s.listing.routine f.routine
  | .blocks =>
    if s.format == "dot" then
      Document.ofExcept (during .drawingGraph (Drawing.blocks title blocks))
        Document.handedOver
    else s.listing.blocks blocks
  | .dominators =>
    if s.format == "dot" then Document.handedOver (Drawing.plain title tree) else Listing.tree tree
  | .loops => Listing.loops blocks f.loops

def stageFormats : Stage → List String
  | .routine | .loops => ["text"]
  | .blocks | .dominators => ["text", "dot"]

def analyze (s : Session) (stage : Stage) (p : Flags) (input place : String) : Action Unit := do
  Action.ofExcept (s.checkFormat (stageFormats stage))
  let address ← Action.ofExcept (Address.ofText place)
  let c ← s.openImage input
  let findings ← s.follow
    ((Findings.upTo stage (s.routines c address address p) s.passLimit s.patience).during
      (.analyzing address))
  s.say
    { level := .debug
      message := "Analyzed routine"
      fields :=
        [("address", .text (hexAddress address)),
         ("instructions", .number findings.routine.instructions.size)] }
  s.deliver (s.findingsDocument stage address findings)

/-- The lines of a call graph: every routine with the routines it leads to. -/
def callsDocument (a : Analysis) (track : Address) : Document :=
  let g := a.callGraph
  Document.concat (g.sortedIds.map fun id =>
    Document.ofExcept (g.node id) fun n =>
      let p := n.data
      Document.piece
        (hexAddress p.routine.address ++ ": " ++ toString p.routine.instructions.size ++
          " instructions, " ++ toString (p.callCount track) ++ " calls of " ++ hexAddress track ++
          ", " ++ toString p.indexedCalls.length ++ " indexed calls, " ++
          toString p.jumps.length ++ " jumps\n") ++
      Document.concat ((g.successorIds id).map fun next =>
        Document.ofExcept (g.node next) fun m =>
          Document.piece ("  -> " ++ hexAddress m.data.routine.address ++ "\n")))

def trackedRoutine (s : Session) (track : String) : Except Failure Address :=
  if track.isEmpty then .ok s.settings.track else Address.ofText track

def calls (s : Session) (track input place : String) : Action Unit := do
  Action.ofExcept (s.checkFormat ["text", "dot"])
  let address ← Action.ofExcept (Address.ofText place)
  let track ← Action.ofExcept (s.trackedRoutine track)
  let c ← s.openImage input
  let analyzer : Analyzer := { source := s.routines c address, track, passLimit := s.passLimit }
  let analysis ← s.follow (analyzer.analyze address)
  s.deliver
    (if s.format == "dot" then
      Document.handedOver (Drawing.plain ("calls_" ++ hexAddress address) analysis.callGraph)
     else callsDocument analysis track)

def indexOf (text : String) : Except Failure Int :=
  match Numeral.readSigned 32 text.toList with
  | .ok i => .ok i
  | .error e => fail (.invalidIndexText text e)

def handlerOf (s : Session) (input index : String) : Action Unit := do
  let index ← Action.ofExcept (indexOf index)
  let c ← s.openImage input
  let address ← Action.ofExcept (s.settings.table.handler c index).1
  s.say
    { level := .info
      message := "Routine location"
      fields := [("address", .text (hexAddress address))] }
  Action.printOut (Document.piece (hexAddress address ++ "\n"))

def withReportOptions (s : Session) (o : Options) : Except Failure Session := do
  let track ← s.trackedRoutine o.track
  let ignore ← o.ignore.mapM Address.ofText
  return { s with settings := { s.settings with track, ignore := s.settings.ignore ++ ignore } }

def perform (s : Session) (o : Options) (c : Command) (arguments : List String) : Action Unit := do
  let first := arguments.getD 0 ""
  let second := arguments.getD 1 ""
  let p : Flags := ⟨o.accumulator8, o.index8⟩
  match c with
  | .disasm => s.analyze .routine p first second
  | .cfg => s.analyze .blocks p first second
  | .dom => s.analyze .dominators p first second
  | .loops => s.analyze .loops p first second
  | .calls => s.calls o.track first second
  | .opsub => s.handlerOf first second
  | .report =>
    Action.ofExcept (s.checkFormat ["text", "json"])
    let s ← Action.ofExcept (s.withReportOptions o)
    s.process first
  | .batch =>
    Action.ofExcept (s.checkFormat ["text", "json"])
    let s ← Action.ofExcept (s.withReportOptions o)
    Batch.run s first
  | .schema => Action.printOut (Document.piece (Settings.schema ++ "\n"))

end Session

namespace Command

/-- Runs a command line. Without a command there is nothing to do, but flags are checked. -/
def run (build : Build) (patience : Patience) (schedule : Schedule) (line : List String) :
    Action Unit := do
  match find? line with
  | none =>
    let _ ← Action.ofExcept (Options.parse (Flag.shared ++ [.help]) {} [] line)
    return ()
  | some (name, line) =>
    match ofName? name with
    | none => Action.ofExcept (fail (.unknownCommand name program (suggestions name)))
    | some c =>
      let (options, arguments) ← Action.ofExcept (Options.parse c.flags {} [] line)
      if options.help then return ()
      Action.ofExcept (c.checkArguments arguments)
      let s ← Session.start build patience schedule options
      s.perform options c arguments

end Command

end CartFlow
