import CartFlow.Failure

/-!
# Log records

What a computation reports on its way. A record has a level, a message and named
fields; `Traced` is a computation that reports records in order and ends with a
value or a failure. Records do not influence the outcome, so facts about a traced
computation are facts about its `outcome`.
-/
namespace CartFlow

open Text

inductive Level
  | debug
  | info
  | warn
  | error
  deriving DecidableEq, Repr

namespace Level

def name : Level → String
  | debug => "DEBUG"
  | info => "INFO"
  | warn => "WARN"
  | error => "ERROR"

/-- The rank of a level, the least important first. -/
def rank : Level → Nat
  | debug => 0
  | info => 1
  | warn => 2
  | error => 3

end Level

inductive FieldValue
  | address (a : Address)
  | text (s : String)
  | number (i : Int)
  deriving DecidableEq, Repr

namespace FieldValue

/-- The plain text of a field value; addresses have eight digits. -/
def plain : FieldValue → String
  | address a => "0x" ++ hexPadded 8 a.toNat
  | text s => s
  | number i => toString i

end FieldValue

/-- One report of a computation. -/
structure Record where
  level : Level
  message : String
  fields : List (String × FieldValue) := []
  deriving DecidableEq, Repr

namespace Record

/-- A record as one line: level, message and fields as `key=value`. -/
def line (r : Record) : String :=
  r.level.name ++ " " ++ r.message ++
    String.join (r.fields.map fun (key, value) => " " ++ key ++ "=" ++ value.plain)

end Record

/-- A computation that reports records and ends with a value or a failure. -/
structure Traced (α : Type) where
  records : List Record
  outcome : Except Failure α

namespace Traced

variable {α β : Type}

def ofExcept (outcome : Except Failure α) : Traced α :=
  ⟨[], outcome⟩

def report (r : Record) : Traced Unit :=
  ⟨[r], .ok ()⟩

def andThen (x : Traced α) (f : α → Traced β) : Traced β :=
  match x.outcome with
  | .ok a =>
    let y := f a
    ⟨x.records ++ y.records, y.outcome⟩
  | .error e => ⟨x.records, .error e⟩

instance : Monad Traced where
  pure a := ⟨[], .ok a⟩
  bind := andThen

def during (activity : Activity) (x : Traced α) : Traced α :=
  { x with outcome := CartFlow.during activity x.outcome }

def silent (x : Traced α) : Traced α :=
  { x with records := [] }

@[simp] theorem outcome_pure (a : α) : (pure a : Traced α).outcome = .ok a := rfl

@[simp] theorem outcome_ofExcept (x : Except Failure α) : (ofExcept x).outcome = x := rfl

@[simp] theorem outcome_report (r : Record) : (report r).outcome = .ok () := rfl

@[simp] theorem outcome_silent (x : Traced α) : x.silent.outcome = x.outcome := rfl

@[simp] theorem outcome_during (activity : Activity) (x : Traced α) :
    (x.during activity).outcome = CartFlow.during activity x.outcome := rfl

@[simp] theorem outcome_bind (x : Traced α) (f : α → Traced β) :
    (x >>= f).outcome = x.outcome >>= fun a => (f a).outcome := by
  cases x with
  | mk records outcome => cases outcome <;> rfl

instance : LawfulMonad Traced :=
  LawfulMonad.mk' Traced
    (by
      rintro α ⟨records, outcome⟩
      cases outcome <;> simp [Functor.map, andThen])
    (by intros; rfl)
    (by
      rintro α β γ ⟨records, outcome⟩ f g
      cases outcome with
      | error e => rfl
      | ok a =>
        simp only [bind, andThen]
        cases (f a).outcome <;> simp [List.append_assoc])

end Traced

end CartFlow
