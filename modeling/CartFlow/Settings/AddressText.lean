import CartFlow.Failure
import CartFlow.Text.Blank

/-!
# Addresses as text

Addresses are typed on the command line and in settings files. A leading `$` stands
for `0x`. The text is read as an integer literal first and as bare hexadecimal digits
if it is none, so `10` is ten and `1F` is thirty-one. An address has at most 24 bits.
-/
namespace CartFlow.Address

open Text

def largest : Nat := 0xFFFFFF

/-- The text without white space around it, a leading `$` written as `0x`. -/
def spelled (cs : List Char) : List Char :=
  match trim cs with
  | '$' :: rest => '0' :: 'x' :: rest
  | cs => cs

def numberOf (cs : List Char) : Option Nat :=
  match Numeral.readLiteral UInt32.size cs with
  | .ok n => some n
  | .error _ => (Numeral.readBase 16 UInt32.size cs).toOption

def ofText (text : String) : Except Failure Address :=
  let cs := spelled text.toList
  match numberOf cs with
  | none => fail (.invalidAddress (String.ofList cs))
  | some n =>
    if n ≤ largest then .ok (UInt32.ofNat n)
    else fail (.addressTooLarge (String.ofList cs))

def toText (a : Address) : String :=
  "0x" ++ hexAddress a

/-- No text stands for more than 24 bits. -/
theorem toNat_le_of_ofText {text : String} {a : Address} (h : ofText text = .ok a) :
    a.toNat ≤ largest := by
  unfold ofText at h
  simp only at h
  split at h
  · cases h
  · next n _ =>
    split at h
    · next hle =>
      cases h
      have : n < UInt32.size := by simp only [largest] at hle; simp only [UInt32.size]; omega
      rw [UInt32.toNat_ofNat', Nat.mod_eq_of_lt this]
      exact hle
    · cases h

end CartFlow.Address
