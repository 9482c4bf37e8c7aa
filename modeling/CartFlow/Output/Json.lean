import CartFlow.Text.Quoted

/-!
# JSON text

Values are written either indented, one member a line, or in one line. A list that has
no elements and was never given any is written as null.
-/
namespace CartFlow

open Text

inductive JsonText
  | null
  | bool (b : Bool)
  | number (i : Int)
  | string (s : String)
  | array (elements : List JsonText)
  | object (members : List (String × JsonText))

namespace JsonText

/-- Which characters inside a string are written in another form than their own. Quotes,
backslashes, control characters and the separators of lines and paragraphs always are. -/
structure Escapes where
  /-- Whether the characters that matter to markup languages are written by their codes. -/
  markup : Bool
  /-- The control characters that are written by a letter. -/
  letters : List (Char × Char)

def Escapes.document : Escapes where
  markup := true
  letters := [('\n', 'n'), ('\r', 'r'), ('\t', 't'), ('\x08', 'b'), ('\x0c', 'f')]

def Escapes.console : Escapes where
  markup := false
  letters := [('\n', 'n'), ('\r', 'r'), ('\t', 't')]

def charText (e : Escapes) (c : Char) : String :=
  if c == '"' || c == '\\' then String.ofList ['\\', c]
  else
    match e.letters.lookup c with
    | some letter => String.ofList ['\\', letter]
    | none =>
      if c.toNat < 32 || c.toNat == 0x2028 || c.toNat == 0x2029 ||
          (e.markup && (c == '<' || c == '>' || c == '&')) then
        "\\u" ++ lowerHex 4 c.toNat
      else String.singleton c

def stringText (e : Escapes) (s : String) : String :=
  "\"" ++ String.join (s.toList.map (charText e)) ++ "\""

def newline (depth : Nat) : String :=
  "\n" ++ String.ofList (List.replicate (2 * depth) ' ')

mutual

/-- The pieces of a value over several lines; `depth` is that of the line it starts on. -/
def pieces (depth : Nat) : JsonText → List String
  | null => ["null"]
  | bool b => [if b then "true" else "false"]
  | number i => [toString i]
  | string s => [stringText .document s]
  | array [] => ["[]"]
  | array (e :: rest) =>
    "[" :: newline (depth + 1) ::
      (pieces (depth + 1) e ++ elementPieces (depth + 1) rest ++ [newline depth, "]"])
  | object [] => ["\x7b\x7d"]
  | object ((key, value) :: rest) =>
    "\x7b" :: newline (depth + 1) :: stringText .document key :: ": " ::
      (pieces (depth + 1) value ++ memberPieces (depth + 1) rest ++ [newline depth, "\x7d"])

def elementPieces (depth : Nat) : List JsonText → List String
  | [] => []
  | e :: rest => "," :: newline depth :: (pieces depth e ++ elementPieces depth rest)

def memberPieces (depth : Nat) : List (String × JsonText) → List String
  | [] => []
  | (key, value) :: rest =>
    "," :: newline depth :: stringText .document key :: ": " ::
      (pieces depth value ++ memberPieces depth rest)

end

def indented (v : JsonText) : String :=
  String.join (v.pieces 0)

end JsonText

end CartFlow
