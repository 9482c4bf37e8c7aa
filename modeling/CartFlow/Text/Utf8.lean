/-!
# Text in bytes

Files hold bytes and texts are written to them in UTF-8. A byte that does not
belong to the form of a character is read as the replacement character.
-/
namespace CartFlow.Text

/-- The character that stands for bytes without meaning. -/
def replacement : Char := '\uFFFD'

/-- The characters from a position on, behind those that were read already. -/
def decodeFrom (bytes : ByteArray) (position : Nat) (read : Array Char) : Array Char :=
  if position < bytes.size then
    match bytes.utf8DecodeChar? position with
    | some c => decodeFrom bytes (position + c.utf8Size) (read.push c)
    | none => decodeFrom bytes (position + 1) (read.push replacement)
  else read
termination_by bytes.size - position
decreasing_by
  · have := c.utf8Size_pos
    omega
  · omega

def decode (bytes : Array UInt8) : List Char :=
  (decodeFrom ⟨bytes⟩ 0 #[]).toList

def firstChar (b : UInt8) (bs : List UInt8) : Char × List UInt8 :=
  match (ByteArray.mk (b :: bs.take 3).toArray).utf8DecodeChar? 0 with
  | some c => (c, bs.drop (c.utf8Size - 1))
  | none => (replacement, bs)

def encode (s : String) : Array UInt8 :=
  s.toUTF8.data

end CartFlow.Text
