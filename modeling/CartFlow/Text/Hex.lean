/-!
# Hexadecimal text

Addresses, opcode bytes and block names are written in capital hexadecimal
digits, either with as many digits as the number needs or padded with zeros to
a least width. A number that needs more digits than the width keeps them all.
-/
namespace CartFlow.Text

/-- The capital hexadecimal digits of a number, most significant first. -/
def hexDigits (n : Nat) : List Char :=
  (Nat.toDigits 16 n).map Char.toUpper

def paddedDigits (width n : Nat) : List Char :=
  List.replicate (width - (hexDigits n).length) '0' ++ hexDigits n

def hex (n : Nat) : String :=
  String.ofList (hexDigits n)

def hexPadded (width n : Nat) : String :=
  String.ofList (paddedDigits width n)

def hexInt (i : Int) : String :=
  if i < 0 then "-" ++ hex i.natAbs else hex i.natAbs

def hexByte (b : UInt8) : String :=
  hexPadded 2 b.toNat

/-- The six digits of a 24 bit address, more for larger words. -/
def hexAddress (a : UInt32) : String :=
  hexPadded 6 a.toNat

@[simp] theorem toList_hex (n : Nat) : (hex n).toList = hexDigits n := by
  simp [hex]

@[simp] theorem toList_hexPadded (width n : Nat) :
    (hexPadded width n).toList = paddedDigits width n := by
  simp [hexPadded]

/-- Padding never shortens: the text has the width or the number of digits, whichever is more. -/
theorem length_paddedDigits (width n : Nat) :
    (paddedDigits width n).length = max width (hexDigits n).length := by
  simp [paddedDigits]
  omega

end CartFlow.Text
