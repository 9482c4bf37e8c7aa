import CartFlow.Failure

/-!
# Documents

A document is the list of pieces in which it is written out, and possibly a failure
that ends it early. A device takes the pieces one by one and may refuse one; then
nothing more is written, and the failure tells what was being written. Only a text that
is handed over as a whole is never refused.
-/
namespace CartFlow

structure Piece where
  text : String
  /-- What is being written, as far as a refusal should tell. -/
  activity : Option Activity := none
  /-- The text is handed over as a whole. -/
  whole : Bool := false
  deriving DecidableEq, Repr

/-- Pieces in order, and why there are no more if the document is not complete. -/
structure Document where
  pieces : List Piece := []
  failure : Option Failure := none
  deriving DecidableEq, Repr

namespace Document

def piece (text : String) : Document :=
  { pieces := [{ text }] }

def part (name text : String) : Document :=
  { pieces := [{ text, activity := some (.writing name) }] }

/-- A document that is handed over as a whole. -/
def handedOver (text : String) : Document :=
  { pieces := [{ text, whole := true }] }

def failing (f : Failure) : Document :=
  { failure := some f }

/-- One document behind another that is complete. -/
def append (d e : Document) : Document :=
  match d.failure with
  | some _ => d
  | none => { e with pieces := d.pieces ++ e.pieces }

instance : Append Document := ⟨append⟩

def concat (ds : List Document) : Document :=
  ds.foldr (· ++ ·) {}

/-- A document made from the value of a step, if there is one. -/
def ofExcept {α : Type} (step : Except Failure α) (document : α → Document) : Document :=
  match step with
  | .ok a => document a
  | .error e => failing e

def text (d : Document) : String :=
  String.join (d.pieces.map (·.text))

/-- Writes pieces to a device that accepts some and refuses others. -/
def deliverPieces (accepts : String → Bool) : List Piece → String → String × Option Failure
  | [], written => (written, none)
  | p :: rest, written =>
    if p.whole || accepts p.text then deliverPieces accepts rest (written ++ p.text)
    else (written, some ⟨.writeRefused, p.activity.toList⟩)

/-- Writes a document: what was written, and why it is not all. -/
def deliver (accepts : String → Bool) (d : Document) : String × Option Failure :=
  match deliverPieces accepts d.pieces "" with
  | (written, some f) => (written, some f)
  | (written, none) => (written, d.failure)

theorem deliverPieces_all (ps : List Piece) (written : String) :
    deliverPieces (fun _ => true) ps written =
      (written ++ String.join (ps.map (·.text)), none) := by
  induction ps generalizing written with
  | nil => simp [deliverPieces]
  | cons p ps ih => simp [deliverPieces, ih, String.append_assoc]

theorem deliver_all (d : Document) : d.deliver (fun _ => true) = (d.text, d.failure) := by
  simp [deliver, deliverPieces_all, text]

end Document

end CartFlow
