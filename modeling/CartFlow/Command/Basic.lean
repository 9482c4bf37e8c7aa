import CartFlow.Command.Options
import CartFlow.Text.Lowercase
import CartFlow.Text.Similar

/-!
# Commands

The commands of the program, their flags and arguments, and how the command is found on
the command line: it is the first argument that is neither a flag nor the value of one.
-/
namespace CartFlow

open Text

inductive Command
  | disasm
  | cfg
  | dom
  | loops
  | calls
  | opsub
  | report
  | batch
  | schema
  deriving DecidableEq, Repr

namespace Command

def program : String := "snescfa"

def name : Command → String
  | disasm => "disasm"
  | cfg => "cfg"
  | dom => "dom"
  | loops => "loops"
  | calls => "calls"
  | opsub => "opsub"
  | report => "report"
  | batch => "batch"
  | schema => "schema"

def all : List Command :=
  [disasm, cfg, dom, loops, calls, opsub, report, batch, schema]

def ofName? (name : String) : Option Command :=
  all.find? (·.name == name)

def flags (c : Command) : List Flag :=
  Flag.shared ++ [.help] ++
    match c with
    | disasm | cfg | dom | loops => [.accumulator8, .index8]
    | calls => [.track]
    | report | batch => [.track, .ignore]
    | opsub | schema => []

def arity : Command → Nat
  | disasm | cfg | dom | loops | calls | opsub => 2
  | report | batch => 1
  | schema => 0

/-- Checks the number of arguments. A command without arguments takes the first one for the
name of another command. -/
def checkArguments (c : Command) (arguments : List String) : Except Failure Unit :=
  if c.arity = 0 then
    match arguments with
    | [] => .ok ()
    | a :: _ => fail (.unknownCommand a (program ++ " " ++ c.name) [])
  else if arguments.length = c.arity then .ok ()
  else fail (.argumentCount c.arity arguments.length)

def suggested : List String :=
  [disasm, cfg, dom, loops, calls, opsub, report, batch].map name ++ ["completion"]

/-- The greatest distance of a name that is suggested. -/
def tolerance : Nat := 2

/-- The names that are similar to a text or start with it, in whatever case. -/
def suggestions (typed : String) : List String :=
  let typed := lowercase typed
  suggested.filter fun name =>
    distance typed.toUTF8.toList name.toUTF8.toList ≤ tolerance ||
      typed.toList.isPrefixOf name.toList

/-- Whether an argument in front of the command takes the next one as its value. Unknown
flags are assumed to. -/
def takesNext (argument : String) : Bool :=
  !argument.toList.contains '=' &&
    match argument.toList with
    | '-' :: '-' :: cs =>
      !((Flag.named? Flag.shared (String.ofList cs)).any (·.isSwitch))
    | ['-', c] => c.toNat < 128 && !((Flag.lettered? Flag.shared c).any (·.isSwitch))
    | _ => false

def find? : List String → Option (String × List String)
  | [] => none
  | argument :: rest =>
    if argument == "--" then none
    else if takesNext argument then
      match rest with
      | value :: next :: rest =>
        (find? (next :: rest)).map fun (name, others) => (name, argument :: value :: others)
      | _ => none
    else if !argument.isEmpty && !argument.startsWith "-" then some (argument, rest)
    else (find? rest).map fun (name, others) => (name, argument :: others)

end Command

end CartFlow
