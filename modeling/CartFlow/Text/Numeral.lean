/-!
# Integer literals

Addresses and indices are typed by hand, so they are read by the rules of an
integer literal: the base follows from the first characters (`0x`, `0o`, `0b`, a
leading `0` for octal, decimal otherwise) and single underscores may separate
digits. With an explicit base there is neither a base mark nor an underscore.

Reading stops at the first character that settles the outcome, so a number that
leaves its range is reported as such even if rubbish follows.
-/
namespace CartFlow.Text

inductive NumeralError
  | malformed
  | outOfRange
  deriving DecidableEq, Repr

namespace NumeralError

def message : NumeralError → String
  | malformed => "invalid syntax"
  | outOfRange => "value out of range"

end NumeralError

namespace Numeral

/-- The value of a letter or a decimal digit; letters count from ten. -/
def digitValue? (c : Char) : Option Nat :=
  if '0' ≤ c ∧ c ≤ '9' then some (c.toNat - '0'.toNat)
  else if 'a' ≤ c ∧ c ≤ 'z' then some (c.toNat - 'a'.toNat + 10)
  else if 'A' ≤ c ∧ c ≤ 'Z' then some (c.toNat - 'A'.toNat + 10)
  else none

/-- Continues a number of the given base; underscores are skipped where `separators` is set. -/
def readDigits (base limit : Nat) (separators : Bool) : Nat → List Char → Except NumeralError Nat
  | n, [] => .ok n
  | n, c :: rest =>
    if separators && c == '_' then readDigits base limit separators n rest
    else
      match digitValue? c with
      | none => .error .malformed
      | some d =>
        if base ≤ d then .error .malformed
        else if limit ≤ n * base + d then .error .outOfRange
        else readDigits base limit separators (n * base + d) rest

/-- The base of a literal and the characters behind its base mark. A mark needs
a digit behind it; without one the leading zero makes the literal octal. -/
def baseOf : List Char → Nat × List Char
  | '0' :: mark :: d :: rest =>
    if mark == 'b' || mark == 'B' then (2, d :: rest)
    else if mark == 'o' || mark == 'O' then (8, d :: rest)
    else if mark == 'x' || mark == 'X' then (16, d :: rest)
    else (8, mark :: d :: rest)
  | '0' :: rest => (8, rest)
  | cs => (10, cs)

/-- What stands in front of a character, as far as separators care. -/
inductive Before
  | start
  | digit
  | separator
  | other
  deriving DecidableEq

/-- Whether every underscore stands behind a digit and in front of one. -/
def separatorsFit (hexadecimal : Bool) : Before → List Char → Bool
  | seen, [] => seen != .separator
  | seen, c :: rest =>
    let isDigit := ('0' ≤ c && c ≤ '9') ||
      (hexadecimal && (('a' ≤ c && c ≤ 'f') || ('A' ≤ c && c ≤ 'F')))
    if isDigit then separatorsFit hexadecimal .digit rest
    else if c == '_' then
      if seen = .digit then separatorsFit hexadecimal .separator rest else false
    else if seen = .separator then false
    else separatorsFit hexadecimal .other rest

/-- Whether the underscores of a literal separate digits; a base mark counts as a digit. -/
def separatorsOk : List Char → Bool
  | '0' :: mark :: rest =>
    if mark == 'x' || mark == 'X' then separatorsFit true .digit rest
    else if mark == 'b' || mark == 'B' || mark == 'o' || mark == 'O' then
      separatorsFit false .digit rest
    else separatorsFit false .digit (mark :: rest)
  | cs => separatorsFit false .start cs

/-- The value of an unsigned literal below `limit`, the base taken from the text. -/
def readLiteral (limit : Nat) (cs : List Char) : Except NumeralError Nat :=
  match cs with
  | [] => .error .malformed
  | _ =>
    let (base, digits) := baseOf cs
    match readDigits base limit true 0 digits with
    | .error e => .error e
    | .ok n => if cs.contains '_' && !separatorsOk cs then .error .malformed else .ok n

def readBase (base limit : Nat) (cs : List Char) : Except NumeralError Nat :=
  match cs with
  | [] => .error .malformed
  | _ => readDigits base limit false 0 cs

/-- The value of a literal with an optional sign that fits a signed word of `bits` bits. -/
def readSigned (bits : Nat) (cs : List Char) : Except NumeralError Int :=
  let (negative, magnitude) : Bool × List Char :=
    match cs with
    | '-' :: rest => (true, rest)
    | '+' :: rest => (false, rest)
    | _ => (false, cs)
  match readLiteral (1 <<< bits) magnitude with
  | .error e => .error e
  | .ok n =>
    if negative then
      if n ≤ 1 <<< (bits - 1) then .ok (-(n : Int)) else .error .outOfRange
    else
      if n < 1 <<< (bits - 1) then .ok n else .error .outOfRange

end Numeral

end CartFlow.Text
