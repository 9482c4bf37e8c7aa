/-!
# Lists as values

The value of a flag may be a list with commas between its elements. An element that
has commas or quotes itself stands between quotes, with every quote in it written
twice. Only the first line that is not empty counts, but a line may end inside quotes
and go on on the next one.
-/
namespace CartFlow.ValueList

/-- Where a list is at fault, in lines and bytes from one on. -/
structure Position where
  line : Nat
  column : Nat
  deriving DecidableEq, Repr

inductive Fault
  | nothing
  | bareQuote (first : Nat) (place : Position)
  | misplacedQuote (first : Nat) (place : Position)
  deriving DecidableEq, Repr

namespace Fault

/-- The wording of a place; `first` is the line on which the list starts. -/
def placeText (first : Nat) (place : Position) : String :=
  (if first = place.line then "" else "record on line " ++ toString first ++ "; ") ++
    "parse error on line " ++ toString place.line ++ ", column " ++ toString place.column ++ ": "

def message : Fault → String
  | nothing => "EOF"
  | bareQuote first place => placeText first place ++ "bare \" in non-quoted-field"
  | misplacedQuote first place =>
    placeText first place ++ "extraneous or missing \" in quoted-field"

end Fault

/-- Line ends in their short form, and none of the long form left at the end. -/
def shortLineEnds : List Char → List Char
  | [] => []
  | ['\r'] => []
  | '\r' :: '\n' :: rest => '\n' :: shortLineEnds rest
  | c :: rest => c :: shortLineEnds rest

inductive Before
  /-- The start of an element. -/
  | start
  /-- An element without quotes. -/
  | plain
  /-- An element in quotes. -/
  | inside
  /-- A quote in quotes, which ends the element or is half of a written quote. -/
  | quote
  deriving DecidableEq, Repr

/-- Reads elements; `element` is the present one and `elements` are those before, both backwards. -/
def read (first : Nat) (before : Before) (place : Position) (element : List Char)
    (elements : List String) : List Char → Except Fault (List String)
  | [] =>
    match before with
    | .inside => .error (.misplacedQuote first place)
    | _ => .ok (String.ofList element.reverse :: elements).reverse
  | c :: rest =>
    let next : Position := { place with column := place.column + c.utf8Size }
    match before with
    | .start | .plain =>
      if c == '"' then
        if before = .start then read first .inside next element elements rest
        else .error (.bareQuote first place)
      else if c == ',' then
        read first .start next [] (String.ofList element.reverse :: elements) rest
      else if c == '\n' then .ok (String.ofList element.reverse :: elements).reverse
      else read first .plain next (c :: element) elements rest
    | .inside =>
      if c == '"' then read first .quote next element elements rest
      else if c == '\n' && !rest.isEmpty then
        read first .inside ⟨place.line + 1, 1⟩ (c :: element) elements rest
      else read first .inside next (c :: element) elements rest
    | .quote =>
      if c == '"' then read first .inside next (c :: element) elements rest
      else if c == ',' then
        read first .start next [] (String.ofList element.reverse :: elements) rest
      else if c == '\n' then .ok (String.ofList element.reverse :: elements).reverse
      else .error (.misplacedQuote first { place with column := place.column - 1 })

/-- The elements of a list; the empty text is the empty list. -/
def parse (text : String) : Except Fault (List String) :=
  if text.isEmpty then .ok []
  else
    let cs := shortLineEnds text.toList
    let body := cs.dropWhile (· == '\n')
    let first := (cs.takeWhile (· == '\n')).length + 1
    if body.isEmpty then .error .nothing
    else read first .start ⟨first, 1⟩ [] [] body

end CartFlow.ValueList
