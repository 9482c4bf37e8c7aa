import CartFlow.Files.FileSystem
import CartFlow.Log
import CartFlow.Output.Document
import CartFlow.Text.Utf8

/-!
# Actions

What a command does is a tree of requests: to report a record, to print a document, to
read, write or look at a file. A request is followed by what to do with its answer.
An action runs in a world of files and of a device that takes what is printed; `run_bind`
says that it runs one step after the other.
-/
namespace CartFlow

open Text

/-- A sequence of requests that ends with a value or a failure. -/
inductive Action (α : Type) : Type
  | done (outcome : Except Failure α)
  | report (r : Record) (next : Action α)
  | print (d : Document) (next : Option Failure → Action α)
  | read (path : String) (next : Except Failure (Array UInt8) → Action α)
  | write (path text : String) (next : Except Failure Unit → Action α)
  | look (path : String) (next : Option FileEntry → Action α)

namespace Action

variable {α β : Type}

def bind : Action α → (α → Action β) → Action β
  | done (.ok a), f => f a
  | done (.error e), _ => done (.error e)
  | report r next, f => report r (next.bind f)
  | print d next, f => print d fun answer => (next answer).bind f
  | read path next, f => read path fun answer => (next answer).bind f
  | write path text next, f => write path text fun answer => (next answer).bind f
  | look path next, f => look path fun answer => (next answer).bind f

instance : Monad Action where
  pure a := done (.ok a)
  bind := bind

/-- The outcome of an action as a value, so that a failure does not end what follows. -/
def attempt : Action α → Action (Except Failure α)
  | done outcome => done (.ok outcome)
  | report r next => report r next.attempt
  | print d next => print d fun answer => (next answer).attempt
  | read path next => read path fun answer => (next answer).attempt
  | write path text next => write path text fun answer => (next answer).attempt
  | look path next => look path fun answer => (next answer).attempt

def ofExcept (outcome : Except Failure α) : Action α :=
  done outcome

/-- Reports the records of a computation that are important enough. -/
def ofTraced (least : Level) (x : Traced α) : Action α :=
  (x.records.filter (least.rank ≤ ·.level.rank)).foldr report (done x.outcome)

def readFile (path : String) : Action (Array UInt8) :=
  read path done

def writeFile (path text : String) : Action Unit :=
  write path text done

def lookAt (path : String) : Action (Option FileEntry) :=
  look path fun entry => done (.ok entry)

def printOut (d : Document) : Action Unit :=
  print d fun
    | none => done (.ok ())
    | some e => done (.error e)

def during (activity : Activity) (x : Action α) : Action α :=
  x.attempt.bind fun outcome => done (CartFlow.during activity outcome)

end Action

inductive Event
  | record (r : Record)
  | printed (text : String)
  deriving DecidableEq, Repr

structure World where
  files : FileSystem := {}
  /-- Which pieces the device takes that documents are printed on. -/
  accepts : String → Bool := fun _ => true
  /-- What was shown so far. -/
  events : Array Event := #[]

namespace World

def display (w : World) (e : Event) : World :=
  { w with events := w.events.push e }

def output (w : World) : String :=
  String.join (w.events.toList.filterMap fun
    | .printed text => some text
    | .record _ => none)

def records (w : World) : List Record :=
  w.events.toList.filterMap fun
    | .record r => some r
    | .printed _ => none

end World

namespace Action

variable {α β : Type}

/-- Runs an action: its outcome and the world afterwards. -/
def run : Action α → World → Except Failure α × World
  | done outcome, w => (outcome, w)
  | report r next, w => next.run (w.display (.record r))
  | print d next, w =>
    let (written, failure) := d.deliver w.accepts
    (next failure).run (w.display (.printed written))
  | read path next, w => (next (w.files.read path)).run w
  | write path text next, w =>
    match w.files.write path (encode text) with
    | .ok files => (next (.ok ())).run { w with files }
    | .error e => (next (.error e)).run w
  | look path next, w => (next (w.files.look path)).run w

@[simp] theorem run_pure (a : α) (w : World) : (pure a : Action α).run w = (.ok a, w) := rfl

@[simp] theorem run_ofExcept (outcome : Except Failure α) (w : World) :
    (ofExcept outcome).run w = (outcome, w) := rfl

@[simp] theorem run_bind (x : Action α) (f : α → Action β) (w : World) :
    (x >>= f).run w =
      match x.run w with
      | (.ok a, w) => (f a).run w
      | (.error e, w) => (.error e, w) := by
  change (x.bind f).run w = _
  induction x generalizing w with
  | done outcome => cases outcome <;> rfl
  | report r next ih => exact ih _
  | print d next ih => exact ih _ _
  | read path next ih => exact ih _ _
  | write path text next ih =>
    simp only [bind, run]
    split <;> exact ih _ _
  | look path next ih => exact ih _ _

@[simp] theorem run_attempt (x : Action α) (w : World) :
    x.attempt.run w = (.ok (x.run w).1, (x.run w).2) := by
  induction x generalizing w with
  | done outcome => rfl
  | report r next ih => exact ih _
  | print d next ih => exact ih _ _
  | read path next ih => exact ih _ _
  | write path text next ih =>
    simp only [attempt, run]
    split <;> exact ih _ _
  | look path next ih => exact ih _ _

end Action

end CartFlow
