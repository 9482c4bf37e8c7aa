import CartFlow.Command.ValueList
import CartFlow.Failure

/-!
# Options

Options are given by flags, long ones behind two dashes and letters behind one, in any
place of the command line. A switch takes a value only behind an equals sign; every other
flag takes one behind an equals sign, directly behind its letter, or as the next
argument. Two dashes alone end the flags.
-/
namespace CartFlow

open Text

inductive Flag
  | debug
  | verbose
  | quiet
  | config
  | mapping
  | output
  | format
  | noAddresses
  | hex
  | passLimit
  | accumulator8
  | index8
  | track
  | ignore
  | help
  deriving DecidableEq, Repr

namespace Flag

def name : Flag → String
  | debug => "debug"
  | verbose => "verbose"
  | quiet => "quiet"
  | config => "config"
  | mapping => "mapping"
  | output => "output"
  | format => "format"
  | noAddresses => "noaddresses"
  | hex => "hex"
  | passLimit => "max-dom-passes"
  | accumulator8 => "m8"
  | index8 => "x8"
  | track => "track"
  | ignore => "ignore"
  | help => "help"

def letter? : Flag → Option Char
  | debug => some 'd'
  | verbose => some 'v'
  | quiet => some 'q'
  | config => some 'c'
  | mapping => some 'm'
  | output => some 'o'
  | format => some 'f'
  | track => some 't'
  | help => some 'h'
  | noAddresses | hex | passLimit | accumulator8 | index8 | ignore => none

def isSwitch : Flag → Bool
  | debug | verbose | quiet | noAddresses | hex | accumulator8 | index8 | help => true
  | config | mapping | output | format | passLimit | track | ignore => false

def title (f : Flag) : String :=
  match f.letter? with
  | some c => String.ofList ['-', c] ++ ", --" ++ f.name
  | none => "--" ++ f.name

def shared : List Flag :=
  [debug, verbose, quiet, config, mapping, output, format, noAddresses, hex, passLimit]

def named? (flags : List Flag) (name : String) : Option Flag :=
  flags.find? (·.name == name)

def lettered? (flags : List Flag) (c : Char) : Option Flag :=
  flags.find? (·.letter? == some c)

end Flag

structure Options where
  debug : Bool := false
  verbose : Bool := false
  quiet : Bool := false
  config : String := ""
  mapping : String := ""
  output : String := ""
  format : String := "text"
  noAddresses : Bool := false
  hex : Bool := false
  /-- The limit of dominator passes, if the flag is given. -/
  passLimit : Option Int := none
  accumulator8 : Bool := false
  index8 : Bool := false
  track : String := ""
  ignore : List String := []
  help : Bool := false
  deriving DecidableEq, Repr

namespace Options

def switchValue? (value : String) : Option Bool :=
  if ["1", "t", "T", "TRUE", "true", "True"].contains value then some true
  else if ["0", "f", "F", "FALSE", "false", "False"].contains value then some false
  else none

def setSwitch (value : String) (set : Bool → Options) : Except String Options :=
  match switchValue? value with
  | some b => .ok (set b)
  | none =>
    .error ("strconv.ParseBool: parsing " ++ quoted value ++ ": " ++ NumeralError.malformed.message)

def set (o : Options) (flag : Flag) (value : String) : Except String Options :=
  match flag with
  | .debug => setSwitch value fun b => { o with debug := b }
  | .verbose => setSwitch value fun b => { o with verbose := b }
  | .quiet => setSwitch value fun b => { o with quiet := b }
  | .noAddresses => setSwitch value fun b => { o with noAddresses := b }
  | .hex => setSwitch value fun b => { o with hex := b }
  | .accumulator8 => setSwitch value fun b => { o with accumulator8 := b }
  | .index8 => setSwitch value fun b => { o with index8 := b }
  | .help => setSwitch value fun b => { o with help := b }
  | .config => .ok { o with config := value }
  | .mapping => .ok { o with mapping := value }
  | .output => .ok { o with output := value }
  | .format => .ok { o with format := value }
  | .track => .ok { o with track := value }
  | .passLimit =>
    match Numeral.readSigned 64 value.toList with
    | .ok i => .ok { o with passLimit := some i }
    | .error e => .error ("strconv.ParseInt: parsing " ++ quoted value ++ ": " ++ e.message)
  | .ignore =>
    match ValueList.parse value with
    | .ok elements => .ok { o with ignore := o.ignore ++ elements }
    | .error e => .error e.message

def assign (o : Options) (flag : Flag) (value : String) : Except Failure Options :=
  match o.set flag value with
  | .ok o => .ok o
  | .error reason => fail (.invalidFlagValue value flag.title reason)

/-- A letter as it is shown in messages: letters are bytes, and all bytes of other alphabets
are shown alike. -/
def shownLetter (c : Char) : Char :=
  if c.toNat < 128 then c else 'Ã'

/-- Reads letters behind a dash. The result has the flag that takes the next argument as its
value, if there is one. Letters that configure a test run are skipped. -/
def letters (flags : List Flag) (o : Options) : List Char → Except Failure (Options × Option Flag)
  | [] => .ok (o, none)
  | c :: rest =>
    if "test.".toList.isPrefixOf (c :: rest) then .ok (o, none)
    else
      match Flag.lettered? flags c with
      | none => fail (.unknownShorthand (shownLetter c) (String.ofList (c :: rest)))
      | some flag =>
        match rest with
        | '=' :: d :: value =>
          (o.assign flag (String.ofList (d :: value))).map (·, none)
        | [] =>
          if flag.isSwitch then (o.assign flag "true").map (·, none) else .ok (o, some flag)
        | _ =>
          if flag.isSwitch then do
            let o ← o.assign flag "true"
            letters flags o rest
          else (o.assign flag (String.ofList rest)).map (·, none)

def splitName (cs : List Char) : String × Option String :=
  match cs.dropWhile (· != '=') with
  | [] => (String.ofList cs, none)
  | _ :: value => (String.ofList (cs.takeWhile (· != '=')), some (String.ofList value))

/-- The flag behind two dashes and its value, as far as they are in the same argument. -/
def long (flags : List Flag) (cs : List Char) : Except Failure (Flag × Option String) :=
  match cs with
  | '-' :: _ | '=' :: _ => fail (.badFlagSyntax (String.ofList ('-' :: '-' :: cs)))
  | _ =>
    match Flag.named? flags (splitName cs).1 with
    | none => fail (.unknownFlag (splitName cs).1)
    | some flag => .ok (flag, (splitName cs).2)

def parse (flags : List Flag) (o : Options) (seen : List String) :
    List String → Except Failure (Options × List String)
  | [] => .ok (o, seen.reverse)
  | argument :: rest =>
    match argument.toList with
    | ['-', '-'] => .ok (o, seen.reverse ++ rest)
    | '-' :: '-' :: cs =>
      match long flags cs with
      | .error e => .error e
      | .ok (flag, some value) =>
        match o.assign flag value with
        | .error e => .error e
        | .ok o => parse flags o seen rest
      | .ok (flag, none) =>
        if flag.isSwitch then
          match o.assign flag "true" with
          | .error e => .error e
          | .ok o => parse flags o seen rest
        else
          match rest with
          | [] => fail (.flagNeedsValue ("--" ++ flag.name))
          | value :: rest =>
            match o.assign flag value with
            | .error e => .error e
            | .ok o => parse flags o seen rest
    | '-' :: c :: cs =>
      match letters flags o (c :: cs) with
      | .error e => .error e
      | .ok (o, none) => parse flags o seen rest
      | .ok (o, some flag) =>
        match rest with
        | [] =>
          let letter := flag.letter?.getD c
          fail (.shorthandNeedsValue letter (String.singleton letter))
        | value :: rest =>
          match o.assign flag value with
          | .error e => .error e
          | .ok o => parse flags o seen rest
    | _ => parse flags o (argument :: seen) rest

end Options

end CartFlow
