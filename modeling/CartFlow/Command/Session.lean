import CartFlow.Cartridge.Header
import CartFlow.Command.Action
import CartFlow.Processor.Catalogue
import CartFlow.Output.Listing
import CartFlow.Report.Text
import CartFlow.Settings.Basic

/-!
# Sessions

A session has everything that the commands share: how much to tell, where the output
goes and in which format, and the settings. It opens images, makes reports and writes
documents.
-/
namespace CartFlow

open Processor Cartridge

/-- The orders in which routines are read, for one file after the other and for each handler in it.
A routine is read once for a handler, and an order sees which routine it is, so every reading may
go its own way. -/
abbrev Schedule := Nat → Address → PopOrder

structure Session where
  /-- The least important level that is reported. -/
  level : Level := .info
  /-- Leaves out what is reported on the image. -/
  quiet : Bool := false
  /-- The name of the mapping, empty if it is to be detected. -/
  mapping : String := ""
  passLimit : Int := 0
  format : String := "text"
  /-- The output file, empty if the output is printed. -/
  output : String := ""
  listing : Listing := {}
  settings : Settings := {}
  patience : Patience := {}
  schedule : Schedule := fun _ _ => .oldest

namespace Session

/-- The session that goes on behind some files. -/
def past (s : Session) (files : Nat) : Session :=
  { s with schedule := fun file => s.schedule (file + files) }

def say (s : Session) (r : Record) : Action Unit :=
  if s.level.rank ≤ r.level.rank then .report r (pure ()) else pure ()

def follow {α : Type} (s : Session) (x : Traced α) : Action α :=
  Action.ofTraced s.level x

def imageUnit : Nat := 0x8000

def describeImage (s : Session) (input : String) (c : Cursor) : Action Unit := do
  s.say
    { level := .info
      message := "Processing SNES ROM"
      fields :=
        [("file", .text input), ("mapping", .text c.mapping.name),
         ("size", .number c.image.size)] }
  if c.image.size % imageUnit ≠ 0 then
    s.say
      { level := .warn
        message := "ROM size is not a multiple of 32 KB, the image may be truncated" }

def openImage (s : Session) (input : String) : Action Cursor := do
  let bytes ← Action.during .loadingImage
    (Action.during (.openingFile input) (Action.readFile input))
  let image ← Action.ofExcept (during .loadingImage (imageOfFile bytes))
  let mapping ← s.follow ((detect s.mapping image).during .detectingMapping)
  let c : Cursor := { image, mapping }
  if !s.quiet then s.describeImage input c
  return c

/-- The routines of an image as they are read for a handler. -/
def routines (s : Session) (c : Cursor) (handler : Address) : RoutineSource :=
  Routine.read (s.schedule 0 handler) Table.standard c

/-- Writes a document to a file, as much of it as there is. -/
def writeDocument (path : String) (d : Document) : Action Unit := do
  Action.during .creatingWriter (Action.during (.creatingFile path) (Action.writeFile path d.text))
  match d.failure with
  | some e => Action.ofExcept (.error e)
  | none => pure ()

def deliver (s : Session) (d : Document) : Action Unit :=
  if s.output.isEmpty then Action.printOut d else writeDocument s.output d

def report (s : Session) (input : String) : Action Report := do
  Action.ofExcept s.settings.validate
  let c ← s.openImage input
  let handlers ← Action.ofExcept (during .readingPointerTable (s.settings.table.handlers c))
  s.say
    { level := .debug
      message := "Read operation table"
      fields := [("handlers", .number handlers.length)] }
  let examiner : Examiner :=
    { source := s.routines c, track := s.settings.track, passLimit := s.passLimit }
  s.follow ((Report.generate examiner handlers s.settings.ignore s.patience).during
    .generatingReport)

def reportDocument (s : Session) (r : Report) : Document :=
  if s.format == "json" then r.jsonDocument else r.document

def process (s : Session) (input : String) : Action Unit := do
  let r ← s.report input
  s.deliver (s.reportDocument r)

end Session

end CartFlow
