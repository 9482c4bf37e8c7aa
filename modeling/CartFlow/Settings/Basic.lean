import CartFlow.Cartridge.PointerTable
import CartFlow.Settings.AddressText
import CartFlow.Settings.Json

/-!
# Settings

The settings of a report: the tracked routine, handlers to ignore, the table of
operation handlers, the mapping of the cartridge and the limit of dominator passes.
What a settings file does not mention keeps its standard value, and so does what it
sets to null. Names of members are matched without regard to case, unknown members
are skipped, and of members with equal names the last one counts.

A file that is no JSON is reported as such. Otherwise the first value counts that does
not fit, because a text is no address or because a value has the wrong type.
-/
namespace CartFlow

open Text Cartridge

structure Settings where
  /-- The routine whose calls are counted, zero if none is set. -/
  track : Address := 0
  ignore : List Address := []
  table : PointerTable := .standard
  /-- The name of the mapping, empty if it is to be detected. -/
  mapping : String := ""
  /-- The limit of dominator passes, not positive for no limit. -/
  passLimit : Int := 0
  deriving DecidableEq, Repr

namespace Settings

/-- What was read of a settings file so far. -/
structure Draft where
  settings : Settings := {}
  /-- Addresses that an earlier ignore list had behind the end of the present one. -/
  spare : List Address := []

namespace Draft

def address (d : Draft) (set : Settings → Address → Settings) : JsonValue → Except Failure Draft
  | .null => .ok d
  | .string s => (Address.ofText s).map fun a => { d with settings := set d.settings a }
  | _ => fail .malformedSettings

def text (d : Draft) (set : Settings → String → Settings) : JsonValue → Except Failure Draft
  | .null => .ok d
  | .string s => .ok { d with settings := set d.settings s }
  | _ => fail .malformedSettings

def half : Nat := 0x8000000000000000

def integer? : List Char → Option Int
  | '-' :: ds => (Numeral.readBase 10 (half + 1) ds).toOption.map fun n => -(n : Int)
  | ds => (Numeral.readBase 10 half ds).toOption.map fun n => (n : Int)

def integer (d : Draft) (set : Settings → Int → Settings) : JsonValue → Except Failure Draft
  | .null => .ok d
  | .number literal =>
    match integer? literal with
    | some i => .ok { d with settings := set d.settings i }
    | none => fail .malformedSettings
  | _ => fail .malformedSettings

def byte (d : Draft) (set : Settings → UInt8 → Settings) : JsonValue → Except Failure Draft
  | .null => .ok d
  | .number literal =>
    match Numeral.readBase 10 256 literal with
    | .ok n => .ok { d with settings := set d.settings (UInt8.ofNat n) }
    | .error _ => fail .malformedSettings
  | _ => fail .malformedSettings

/-- Reads the elements of a list of addresses. An element that is null keeps what stood at its
place, or is zero. -/
def elements : List Address → List JsonValue → Except Failure (List Address)
  | _, [] => .ok []
  | old, v :: rest => do
    let a ← match v with
      | .null => Except.ok (old.head?.getD 0)
      | .string s => Address.ofText s
      | _ => fail .malformedSettings
    return a :: (← elements old.tail rest)

def ignoreList (d : Draft) : JsonValue → Except Failure Draft
  | .null => .ok { d with settings := { d.settings with ignore := [] }, spare := [] }
  | .array [] => .ok { d with settings := { d.settings with ignore := [] }, spare := [] }
  | .array vs => do
    let old := d.settings.ignore ++ d.spare
    let ignore ← elements old vs
    return { settings := { d.settings with ignore }, spare := old.drop vs.length }
  | _ => fail .malformedSettings

/-- A character as it counts in the name of a member. Besides the two cases of a letter there
are a long s and the sign of the kelvin. -/
def foldCase (c : Char) : Char :=
  if c.toNat == 0x17F then 'S' else if c.toNat == 0x212A then 'K' else c.toUpper

def isNamed (name key : String) : Bool :=
  key.toList.map foldCase == name.toList.map foldCase

def tableMember (d : Draft) : String × JsonValue → Except Failure Draft
  | (key, v) =>
    if isNamed "base" key then
      d.address (fun s a => { s with table := { s.table with base := a } }) v
    else if isNamed "count" key then
      d.integer (fun s i => { s with table := { s.table with count := i } }) v
    else if isNamed "bank" key then
      d.byte (fun s b => { s with table := { s.table with bank := b } }) v
    else .ok d

def member (d : Draft) : String × JsonValue → Except Failure Draft
  | (key, v) =>
    if isNamed "trackRoutine" key then d.address (fun s a => { s with track := a }) v
    else if isNamed "ignoreList" key then d.ignoreList v
    else if isNamed "opTable" key then
      match v with
      | .null => .ok d
      | .object members => members.foldlM tableMember d
      | _ => fail .malformedSettings
    else if isNamed "mapping" key then d.text (fun s t => { s with mapping := t }) v
    else if isNamed "maxDomPasses" key then d.integer (fun s i => { s with passLimit := i }) v
    else .ok d

end Draft

def ofJson : JsonValue → Except Failure Settings
  | .null => .ok {}
  | .object members => (members.foldlM Draft.member {}).map (·.settings)
  | _ => fail .malformedSettings

def ofText (cs : List Char) : Except Failure Settings :=
  match JsonValue.parse cs with
  | none => fail .malformedSettings
  | some v => ofJson v

def ofFile (path : String) (bytes : Array UInt8) : Except Failure Settings := do
  let settings ← during (.parsingSettings path) (ofText (decode bytes))
  if settings.table.count ≤ 0 then
    during (.settingsFile path) (fail (.invalidPointerTable settings.table.count))
  else return settings

def validate (s : Settings) : Except Failure Unit :=
  if s.track = 0 then fail .noTrackedRoutine
  else if s.table.count ≤ 0 then fail (.invalidPointerTable s.table.count)
  else .ok ()

end Settings

end CartFlow
