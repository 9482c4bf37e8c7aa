import CartFlow.Output.Document
import CartFlow.Output.Json
import CartFlow.Report.Basic
import CartFlow.Text.Columns

/-!
# Report texts

A report as a table with aligned columns, followed by the reasons of failures, and as
JSON.
-/
namespace CartFlow

open Text

namespace Handler

/-- The depth of a routine that no calls lead to. -/
def unreachedDepth : Nat := 0x7FFFFFFFFFFFFFFF

def depthNumber (c : CallingRoutine) : Nat :=
  c.depth.getD unreachedDepth

/-- The routines that call the tracked routine, with the numbers and depths of their calls. -/
def subroutinesText (h : Handler) : String :=
  if h.subroutines.isEmpty then "-"
  else
    ", ".intercalate (h.subroutines.map fun c =>
      hexAddress c.address ++ " x" ++ toString c.count ++ " @" ++ toString (depthNumber c))

def yesNo (b : Bool) : String :=
  if b then "yes" else "no"

def row (h : Handler) : List String :=
  [hexAddress h.address, h.status.name, toString h.calls, toString h.indexedCalls,
   toString h.jumps, yesNo h.conditional, yesNo h.inLoop, h.subroutinesText]

def failureText (h : Handler) : String :=
  (h.failure.map (·.message)).getD ""

def subroutineJson (c : CallingRoutine) : JsonText :=
  .object
    [("address", .number c.address.toNat), ("count", .number c.count),
     ("depth", .number (depthNumber c))]

/-- The handler as JSON; empty lists and texts are left out. -/
def json (h : Handler) : JsonText :=
  .object <|
    [("address", .number h.address.toNat),
     ("calls", .number h.calls),
     ("indexed_calls", .number h.indexedCalls),
     ("jumps", .number h.jumps)] ++
    (if h.subroutines.isEmpty then []
     else [("subroutines", .array (h.subroutines.map subroutineJson))]) ++
    [("cond_calls", .bool h.conditional),
     ("in_loop_calls", .bool h.inLoop),
     ("status", .string h.status.name)] ++
    (if h.failureText.isEmpty then [] else [("error", .string h.failureText)])

end Handler

namespace Report

def heads : List String :=
  ["Address", "Status", "Calls", "Indexed", "Jumps", "Conditional", "In loop", "Subroutines"]

/-- The report as a table, with the reasons of failures below. -/
def document (r : Report) : Document :=
  let table := tablePieces (heads :: r.all.map (·.row))
  Document.piece ("Tracked routine: " ++ hexAddress r.track ++ "\n\n") ++
    Document.concat (table.map (Document.part "report")) ++
    Document.concat (r.failed.map fun h =>
      Document.piece ("\n" ++ hexAddress h.address ++ ": " ++ h.failureText)) ++
    (if r.failed.isEmpty then {} else Document.piece "\n")

def handlersJson (hs : List Handler) : JsonText :=
  if hs.isEmpty then .null else .array (hs.map (·.json))

/-- The report as JSON. -/
def json (r : Report) : JsonText :=
  .object <|
    [("track", .number r.track.toNat),
     ("ok", handlersJson r.ok),
     ("ko", handlersJson r.ko),
     ("ignored", handlersJson r.ignored)] ++
    (if r.failed.isEmpty then [] else [("failed", handlersJson r.failed)])

/-- The report as a JSON document, written at once. -/
def jsonDocument (r : Report) : Document where
  pieces := [{ text := r.json.indented ++ "\n", activity := some .encodingReport }]

end Report

end CartFlow
