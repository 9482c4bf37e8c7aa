import CartFlow.Address
import CartFlow.Text.Hex
import CartFlow.Text.Numeral
import CartFlow.Text.Quoted
import CartFlow.Processor.Mode

/-!
# Failures

A failure is a cause together with what was being done when it arose, the
outermost activity first. Causes and activities are data; their wording is in
one function each, and a message is the wording of the activities and of the
cause, joined by colons.
-/
namespace CartFlow

open Text

/-- Why something could not be done. -/
inductive Cause
  -- the opcode table and operands
  | unknownOpcode (value : UInt8)
  | duplicateMnemonic (mnemonic : String)
  | duplicateOpcode (value : UInt8)
  | notIndexed (mnemonic : String) (value : UInt8)
  | modeCannotJump (mode : Processor.Mode)
  | notAJump (mnemonic : String)
  | computedTarget
  | immediateLength (length : Int)
  | undefinedMode (mode : Processor.Mode)
  -- the cartridge image
  | outOfBounds
  | rangeOverflow (stop : Int)
  | unsupportedMapping (name : String)
  | emptyFile
  | invalidIndex (index count : Int)
  -- graphs
  | nodeNotFound (id : String)
  | noEntry
  | passLimit (passes : Int)
  | noPredecessor (id : String)
  | noDominator (id : String)
  | multipleExits (first second : Address)
  -- calls and reports
  | unrecordedCall (site target : Address)
  | routineNotProvided (address : Address)
  | cancelled
  -- output
  | writeRefused
  | unsupportedFormat (name : String) (supported : List String)
  -- settings
  | invalidAddress (text : String)
  | addressTooLarge (text : String)
  | noTrackedRoutine
  | invalidPointerTable (count : Int)
  | malformedSettings
  -- files
  | missingFile (operation path : String)
  | unusableFile (operation path reason : String)
  | malformedPattern
  | noMatchingFile (pattern : String)
  | filesFailed (failed total : Nat)
  -- the command line
  | invalidIndexText (text : String) (reason : NumeralError)
  | argumentCount (expected received : Nat)
  | unknownCommand (name path : String) (suggestions : List String)
  | badFlagSyntax (argument : String)
  | unknownFlag (name : String)
  | unknownShorthand (letter : Char) (letters : String)
  | flagNeedsValue (argument : String)
  | shorthandNeedsValue (letter : Char) (letters : String)
  | invalidFlagValue (value flag reason : String)
  deriving DecidableEq, Repr

namespace Cause

def message : Cause → String
  | unknownOpcode value => s!"opcode {hexByte value}: unknown opcode"
  | duplicateMnemonic mnemonic => s!"{mnemonic}: mnemonic is already registered"
  | duplicateOpcode value => s!"{hexByte value}: opcode is already registered"
  | notIndexed mnemonic value => s!"{mnemonic} ${hexByte value}: opcode not indexed"
  | modeCannotJump mode => s!"{mode.name}: addressing mode is not a jump"
  | notAJump mnemonic => s!"{mnemonic} is not a jump instruction: addressing mode is not a jump"
  | computedTarget => "jump target is computed at runtime"
  | immediateLength length => s!"unexpected immediate length {length}"
  | undefinedMode mode => s!"{mode.name}: undefined addressing mode"
  | outOfBounds => "address outside of ROM image"
  | rangeOverflow stop => s!"slice bounds out of range [:{stop}]"
  | unsupportedMapping name => s!"unsupported ROM mapping '{name}'"
  | emptyFile => "empty ROM file"
  | invalidIndex index count =>
    s!"invalid operation index: got {hexInt index}, count={hexInt count}"
  | nodeNotFound id => s!"node '{id}': node not found"
  | noEntry => "graph has no entry node"
  | passLimit passes =>
    s!"{passes} passes: dominator sets did not stabilize within the pass limit"
  | noPredecessor id => s!"node {id}: node has no predecessors"
  | noDominator id => s!"node {id} has no dominator: node has no predecessors"
  | multipleExits first second =>
    s!"blocks {hexAddress first} and {hexAddress second}: multiple exit blocks found"
  | unrecordedCall site target =>
    s!"call at {hexAddress site} to {hexAddress target} was not recorded"
  | routineNotProvided address => s!"{hexAddress address}: routine not provided"
  | cancelled => "context canceled"
  | writeRefused => "write failed"
  | unsupportedFormat name supported =>
    "unsupported output format '" ++ name ++ "', supported: [" ++
      " ".intercalate supported ++ "]"
  | invalidAddress text => s!"invalid address '{text}'"
  | addressTooLarge text => s!"invalid address '{text}': exceeds 24 bit"
  | noTrackedRoutine => "no routine to track configured"
  | invalidPointerTable count => s!"invalid operation table: count {count}"
  | malformedSettings => "malformed configuration"
  | missingFile operation path => s!"{operation} {path}: no such file or directory"
  | unusableFile operation path reason => s!"{operation} {path}: {reason}"
  | malformedPattern => "syntax error in pattern"
  | noMatchingFile pattern => s!"no files match the batch pattern: {pattern}"
  | filesFailed failed total => s!"{failed} of {total} files failed"
  | invalidIndexText text reason =>
    s!"invalid index '{text}': strconv.ParseInt: parsing {quoted text}: {reason.message}"
  | argumentCount expected received => s!"accepts {expected} arg(s), received {received}"
  | unknownCommand name path suggestions =>
    s!"unknown command {quoted name} for {quoted path}" ++
      (if suggestions.isEmpty then ""
       else "\n\nDid you mean this?\n" ++
         String.join (suggestions.map fun s => "\t" ++ s ++ "\n"))
  | badFlagSyntax argument => s!"bad flag syntax: {argument}"
  | unknownFlag name => s!"unknown flag: --{name}"
  | unknownShorthand letter letters =>
    s!"unknown shorthand flag: {quotedChar letter} in -{letters}"
  | flagNeedsValue argument => s!"flag needs an argument: {argument}"
  | shorthandNeedsValue letter letters =>
    s!"flag needs an argument: {quotedChar letter} in -{letters}"
  | invalidFlagValue value flag reason =>
    s!"invalid argument {quoted value} for {quoted flag} flag: {reason}"

end Cause

/-- What was being done when a failure arose. -/
inductive Activity
  -- decoding
  | readingOpcode (address : Address)
  | decoding (address : Address)
  | readingOperand (mode : Processor.Mode)
  | readingBytes (count : Int) (address : Address)
  | seeking (address : Address)
  | jumping (address : Address)
  | readingRoutine (address : Address)
  | instructionAt (address : Address)
  | formatting (address : Address)
  -- graphs
  | edgeSource
  | edgeTarget
  | settingEntry
  | settingExit
  | pathSource
  | pathTarget
  | reachSource
  | reachTarget
  | dominatedNode
  | dominatorNode
  | checkingEdge (source target : String)
  | behindBranch (address : Address)
  | buildingGraph (address : Address)
  | buildingTree
  | buildingTreeOf (address : Address)
  | findingLoops
  | findingLoopsOf (address : Address)
  -- calls and reports
  | analyzing (address : Address)
  | generatingReport
  | readingPointer (index : Int)
  | readingOperation (index : Int)
  | readingPointerTable
  -- output
  | writing (part : String)
  | encodingReport
  | drawingGraph
  | callAt (address : Address)
  | loopNumber (index : Nat)
  -- files and settings
  | loadingImage
  | openingFile (path : String)
  | detectingMapping
  | creatingWriter
  | creatingFile (path : String)
  | readingSettings (path : String)
  | parsingSettings (path : String)
  | settingsFile (path : String)
  | expandingPattern
  deriving DecidableEq, Repr

namespace Activity

def text : Activity → String
  | readingOpcode address => s!"reading opcode at {hexAddress address}"
  | decoding address => s!"decoding instruction at {hexAddress address}"
  | readingOperand mode => s!"reading {mode.name} operand"
  | readingBytes count address => s!"reading {count} bytes at {hexAddress address}"
  | seeking address => s!"seeking to {hexAddress address}"
  | jumping address => s!"jumping to {hexAddress address}"
  | readingRoutine address => s!"reading routine {hexAddress address}"
  | instructionAt address => s!"instruction at {hexAddress address}"
  | formatting address => s!"formatting instruction at {hexAddress address}"
  | edgeSource => "adding edge source"
  | edgeTarget => "adding edge destination"
  | settingEntry => "setting entry"
  | settingExit => "setting exit"
  | pathSource => "shortest path source"
  | pathTarget => "shortest path destination"
  | reachSource => "reachability source"
  | reachTarget => "reachability destination"
  | dominatedNode => "dominated node"
  | dominatorNode => "dominator node"
  | checkingEdge source target => s!"checking edge {source} -> {target}"
  | behindBranch address => s!"instruction {hexAddress address} after unconditional branch"
  | buildingGraph address => s!"building graph of routine {hexAddress address}"
  | buildingTree => "building dominator tree"
  | buildingTreeOf address => s!"building dominator tree of {hexAddress address}"
  | findingLoops => "finding loops"
  | findingLoopsOf address => s!"finding loops of {hexAddress address}"
  | analyzing address => s!"analyzing routine {hexAddress address}"
  | generatingReport => "generating report"
  | readingPointer index => s!"reading pointer {index}"
  | readingOperation index => s!"reading operation {hexInt index}"
  | readingPointerTable => "reading operation table"
  | writing part => s!"writing {part}"
  | encodingReport => "encoding report"
  | drawingGraph => "rendering graph"
  | callAt address => s!"call at {hexAddress address}"
  | loopNumber index => s!"loop {index}"
  | loadingImage => "loading ROM"
  | openingFile path => s!"opening file {path}"
  | detectingMapping => "detecting mapping"
  | creatingWriter => "creating writer"
  | creatingFile path => s!"creating output file {path}"
  | readingSettings path => s!"reading config file {path}"
  | parsingSettings path => s!"parsing config file {path}"
  | settingsFile path => s!"config file {path}"
  | expandingPattern => "globbing batch pattern"

end Activity

/-- A cause and the activities under way, the outermost first. -/
structure Failure where
  cause : Cause
  during : List Activity := []
  deriving DecidableEq, Repr

namespace Failure

/-- The whole message, outermost activity first. -/
def message (f : Failure) : String :=
  f.during.foldr (fun activity rest => activity.text ++ ": " ++ rest) f.cause.message

def within (activity : Activity) (f : Failure) : Failure :=
  { f with during := activity :: f.during }

@[simp] theorem cause_within (activity : Activity) (f : Failure) :
    (f.within activity).cause = f.cause := rfl

end Failure

def fail {α : Type} (cause : Cause) : Except Failure α :=
  .error { cause }

/-- Names the activity around a step, should the step fail. -/
def during {α : Type} (activity : Activity) (step : Except Failure α) : Except Failure α :=
  step.mapError (·.within activity)

@[simp] theorem during_ok {α : Type} (activity : Activity) (a : α) :
    during activity (.ok a) = .ok a := rfl

@[simp] theorem during_error {α : Type} (activity : Activity) (f : Failure) :
    during activity (.error f : Except Failure α) = .error (f.within activity) := rfl

theorem during_eq_ok {α : Type} {activity : Activity} {step : Except Failure α} {a : α} :
    during activity step = .ok a ↔ step = .ok a := by
  cases step <;> simp

/-- A computation in two parts succeeds if both do. -/
theorem bind_eq_ok {α β : Type} {first : Except Failure α} {second : α → Except Failure β}
    {b : β} : (first >>= second) = .ok b ↔ ∃ a, first = .ok a ∧ second a = .ok b := by
  cases first with
  | ok a => simp [bind, Except.bind]
  | error e => simp [bind, Except.bind]

end CartFlow
