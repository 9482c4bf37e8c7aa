import CartFlow.Text.Hex
import CartFlow.Text.Printable

/-!
# Quoted text

Labels of drawings and the arguments quoted in messages stand between quotes.
Printable characters stay as they are; the quote and the backslash get a
backslash in front, the usual control characters their letter, and all others
their code in lower case hexadecimal digits.
-/
namespace CartFlow.Text

def lowerHex (width n : Nat) : String :=
  let digits := Nat.toDigits 16 n
  String.ofList (List.replicate (width - digits.length) '0' ++ digits)

def escapeCode (c : Char) : String :=
  match c.toNat with
  | 7 => "\\a"
  | 8 => "\\b"
  | 12 => "\\f"
  | 10 => "\\n"
  | 13 => "\\r"
  | 9 => "\\t"
  | 11 => "\\v"
  | n =>
    if n < 32 || n == 127 then "\\x" ++ lowerHex 2 n
    else if n < 0x10000 then "\\u" ++ lowerHex 4 n
    else "\\U" ++ lowerHex 8 n

def quoteChar (quote c : Char) : String :=
  if c == quote || c == '\\' then String.ofList ['\\', c]
  else if isPrintable c then String.singleton c
  else escapeCode c

def quoted (s : String) : String :=
  "\"" ++ String.join (s.toList.map (quoteChar '"')) ++ "\""

def quotedChar (c : Char) : String :=
  "'" ++ quoteChar '\'' c ++ "'"

end CartFlow.Text
