import CartFlow.Command.Action
import CartFlow.Output.Json

/-!
# Lines on the console

A record is one line on the console: its level in a column of eight, its message, and
its fields as a JSON object.
-/
namespace CartFlow

def levelWidth : Nat := 8

/-- A field value inside a JSON object; only numbers stand without quotes. -/
def FieldValue.json : FieldValue → String
  | .number i => toString i
  | v => JsonText.stringText .console v.plain

def Record.fieldsText (r : Record) : String :=
  "\x7b" ++ ",".intercalate (r.fields.map fun (key, value) =>
    JsonText.stringText .console key ++ ":" ++ value.json) ++ "\x7d"

def Record.consoleLine (r : Record) : String :=
  r.level.name ++ String.ofList (List.replicate (levelWidth - r.level.name.length) ' ') ++
    r.message ++ (if r.fields.isEmpty then "" else " " ++ r.fieldsText)

def Event.text : Event → String
  | .record r => r.consoleLine ++ "\n"
  | .printed text => text

end CartFlow
