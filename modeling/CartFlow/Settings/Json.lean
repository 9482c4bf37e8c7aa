import CartFlow.Text.Numeral
import CartFlow.Text.Utf8

/-!
# Reading JSON

Settings files are JSON. A text is cut into tokens, and a machine with a stack of open
arrays and objects puts the tokens together. Numbers keep their literal, because
settings distinguish `1` from `1.0`; objects keep all members in order, also those with
equal names.
-/
namespace CartFlow

open Text

inductive JsonValue
  | null
  | bool (b : Bool)
  | number (literal : List Char)
  | string (s : String)
  | array (elements : List JsonValue)
  | object (members : List (String × JsonValue))

namespace JsonValue

inductive Token
  | openArray
  | closeArray
  | openObject
  | closeObject
  | colon
  | comma
  | scalar (v : JsonValue)
  | text (s : String)

/-! ## Strings -/

def escape? : Char → Option Nat
  | '"' => some 34
  | '\\' => some 92
  | '/' => some 47
  | 'b' => some 8
  | 'f' => some 12
  | 'n' => some 10
  | 'r' => some 13
  | 't' => some 9
  | _ => none

def hexValue? (c : Char) : Option Nat :=
  (Numeral.digitValue? c).filter (· < 16)

def code? (a b c d : Char) : Option Nat := do
  return (((← hexValue? a) * 16 + (← hexValue? b)) * 16 + (← hexValue? c)) * 16 + (← hexValue? d)

/-- The codes of a string up to its closing quote, and what follows it. -/
def readString : List Char → Option (List Nat × List Char)
  | [] => none
  | '"' :: rest => some ([], rest)
  | '\\' :: 'u' :: a :: b :: c :: d :: rest => do
    let code ← code? a b c d
    let (codes, rest) ← readString rest
    return (code :: codes, rest)
  | '\\' :: c :: rest => do
    let code ← escape? c
    let (codes, rest) ← readString rest
    return (code :: codes, rest)
  | c :: rest =>
    if c.toNat < 32 || c == '\\' then none
    else do
      let (codes, rest) ← readString rest
      return (c.toNat :: codes, rest)

/-- The character of a code; half of a surrogate pair has none. -/
def charOf (code : Nat) : Char :=
  if 0xD800 ≤ code ∧ code < 0xE000 then replacement else Char.ofNat code

/-- The characters of codes, where two halves of a surrogate pair make one character. -/
def charsOf : List Nat → List Char
  | [] => []
  | [code] => [charOf code]
  | high :: low :: rest =>
    if 0xD800 ≤ high ∧ high < 0xDC00 ∧ 0xDC00 ≤ low ∧ low < 0xE000 then
      Char.ofNat (0x10000 + (high - 0xD800) * 0x400 + (low - 0xDC00)) :: charsOf rest
    else charOf high :: charsOf (low :: rest)

/-! ## Numbers -/

/-- The decimal digits at the start, at least one, and what follows them. -/
def readDigits (cs : List Char) : Option (List Char × List Char) :=
  match cs.takeWhile Char.isDigit with
  | [] => none
  | ds => some (ds, cs.dropWhile Char.isDigit)

/-- The digits in front of the point: a single zero, or digits that start with another. -/
def readWhole : List Char → Option (List Char × List Char)
  | '0' :: rest => some (['0'], rest)
  | cs => readDigits cs

def readFraction : List Char → Option (List Char × List Char)
  | '.' :: rest => (readDigits rest).map fun (ds, rest) => ('.' :: ds, rest)
  | cs => some ([], cs)

def readExponent : List Char → Option (List Char × List Char)
  | mark :: sign :: rest =>
    if mark == 'e' || mark == 'E' then
      if sign == '+' || sign == '-' then
        (readDigits rest).map fun (ds, rest) => (mark :: sign :: ds, rest)
      else (readDigits (sign :: rest)).map fun (ds, rest) => (mark :: ds, rest)
    else some ([], mark :: sign :: rest)
  | [mark] => if mark == 'e' || mark == 'E' then none else some ([], [mark])
  | [] => some ([], [])

def readUnsigned (cs : List Char) : Option (List Char × List Char) := do
  let (whole, cs) ← readWhole cs
  let (fraction, cs) ← readFraction cs
  let (exponent, cs) ← readExponent cs
  return (whole ++ fraction ++ exponent, cs)

def readNumber : List Char → Option (List Char × List Char)
  | '-' :: rest => (readUnsigned rest).map fun (literal, rest) => ('-' :: literal, rest)
  | cs => readUnsigned cs

/-! ## Tokens -/

/-- The first token of a text that starts with one, and what follows it. -/
def token? : List Char → Option (Token × List Char)
  | '[' :: rest => some (.openArray, rest)
  | ']' :: rest => some (.closeArray, rest)
  | '\x7b' :: rest => some (.openObject, rest)
  | '\x7d' :: rest => some (.closeObject, rest)
  | ':' :: rest => some (.colon, rest)
  | ',' :: rest => some (.comma, rest)
  | 'n' :: 'u' :: 'l' :: 'l' :: rest => some (.scalar null, rest)
  | 't' :: 'r' :: 'u' :: 'e' :: rest => some (.scalar (bool true), rest)
  | 'f' :: 'a' :: 'l' :: 's' :: 'e' :: rest => some (.scalar (bool false), rest)
  | '"' :: rest =>
    (readString rest).map fun (codes, rest) => (.text (String.ofList (charsOf codes)), rest)
  | cs => (readNumber cs).map fun (literal, rest) => (.scalar (number literal), rest)

theorem length_readString {cs rest : List Char} {codes : List Nat}
    (h : readString cs = some (codes, rest)) : rest.length < cs.length := by
  fun_induction readString cs generalizing codes with
  | case1 => cases h
  | case2 => simp only [Option.some.injEq, Prod.mk.injEq] at h; simp [h.2]
  | case3 a b c d tail ih =>
    simp only [Option.bind_eq_bind, Option.bind_eq_some_iff] at h
    obtain ⟨_, _, ⟨_, after⟩, hread, heq⟩ := h
    cases heq
    have : after.length < tail.length := ih hread
    change after.length < _
    simp only [List.length_cons]
    omega
  | case4 c tail _ ih =>
    simp only [Option.bind_eq_bind, Option.bind_eq_some_iff] at h
    obtain ⟨_, _, ⟨_, after⟩, hread, heq⟩ := h
    cases heq
    have : after.length < tail.length := ih hread
    change after.length < _
    simp only [List.length_cons]
    omega
  | case5 => cases h
  | case6 c tail _ _ _ _ ih =>
    simp only [Option.bind_eq_bind, Option.bind_eq_some_iff] at h
    obtain ⟨⟨_, after⟩, hread, heq⟩ := h
    cases heq
    have : after.length < tail.length := ih hread
    change after.length < _
    simp only [List.length_cons]
    omega

theorem length_readDigits {cs ds rest : List Char} (h : readDigits cs = some (ds, rest)) :
    rest.length < cs.length := by
  unfold readDigits at h
  split at h
  · cases h
  · next hne =>
    cases h
    have := congrArg List.length (List.takeWhile_append_dropWhile (p := Char.isDigit) (l := cs))
    rw [List.length_append] at this
    have := List.length_pos_iff.2 hne
    omega

theorem length_readWhole {cs ds rest : List Char} (h : readWhole cs = some (ds, rest)) :
    rest.length < cs.length := by
  unfold readWhole at h
  split at h
  · cases h; simp
  · exact length_readDigits h

theorem length_readFraction {cs ds rest : List Char} (h : readFraction cs = some (ds, rest)) :
    rest.length ≤ cs.length := by
  unfold readFraction at h
  split at h
  · obtain ⟨⟨_, _⟩, hread, heq⟩ := Option.map_eq_some_iff.1 h
    cases heq
    have := length_readDigits hread
    simp only [List.length_cons]
    omega
  · cases h; simp

theorem length_readExponent {cs ds rest : List Char} (h : readExponent cs = some (ds, rest)) :
    rest.length ≤ cs.length := by
  unfold readExponent at h
  split at h
  · split at h
    · split at h
      all_goals
        obtain ⟨⟨_, _⟩, hread, heq⟩ := Option.map_eq_some_iff.1 h
        cases heq
        have := length_readDigits hread
        simp only [List.length_cons] at this ⊢
        omega
    · cases h; simp
  · split at h
    · cases h
    · cases h; simp
  · cases h; simp

theorem length_readUnsigned {cs ds rest : List Char} (h : readUnsigned cs = some (ds, rest)) :
    rest.length < cs.length := by
  simp only [readUnsigned, Option.bind_eq_bind, Option.bind_eq_some_iff] at h
  obtain ⟨⟨_, cs₁⟩, hwhole, ⟨_, cs₂⟩, hfraction, ⟨_, cs₃⟩, hexponent, heq⟩ := h
  cases heq
  have h₁ : cs₁.length < cs.length := length_readWhole hwhole
  have h₂ : cs₂.length ≤ cs₁.length := length_readFraction hfraction
  have h₃ : cs₃.length ≤ cs₂.length := length_readExponent hexponent
  change cs₃.length < _
  omega

theorem length_readNumber {cs ds rest : List Char} (h : readNumber cs = some (ds, rest)) :
    rest.length < cs.length := by
  unfold readNumber at h
  split at h
  · obtain ⟨⟨_, _⟩, hread, heq⟩ := Option.map_eq_some_iff.1 h
    cases heq
    have := length_readUnsigned hread
    simp only [List.length_cons]
    omega
  · exact length_readUnsigned h

theorem length_token? {cs rest : List Char} {t : Token} (h : token? cs = some (t, rest)) :
    rest.length < cs.length := by
  unfold token? at h
  split at h
  case h_10 =>
    obtain ⟨⟨_, _⟩, hread, heq⟩ := Option.map_eq_some_iff.1 h
    cases heq
    have := length_readString hread
    simp only [List.length_cons]
    omega
  case h_11 =>
    obtain ⟨⟨_, _⟩, hread, heq⟩ := Option.map_eq_some_iff.1 h
    cases heq
    exact length_readNumber hread
  all_goals
    cases h
    simp only [List.length_cons]
    omega

def isSpace (c : Char) : Bool :=
  c == ' ' || c == '\t' || c == '\n' || c == '\r'

def tokens : List Char → Option (List Token)
  | [] => some []
  | c :: rest =>
    if isSpace c then tokens rest
    else
      match _h : token? (c :: rest) with
      | none => none
      | some (t, rest) => (tokens rest).map (t :: ·)
termination_by cs => cs.length
decreasing_by
  · simp
  · exact length_token? _h

/-! ## Values -/

/-- An array or object that is not closed yet, with what it holds so far, the latest first. -/
inductive Opened
  | array (before : List JsonValue)
  | object (before : List (String × JsonValue)) (name : String)

/-- What has been read; the innermost open array or object comes first. -/
inductive State
  /-- A value has to come, or the end of an array that is still empty. -/
  | value (empty : Bool) (opened : List Opened)
  /-- The name of a member has to come, or the end of an object that is still empty. -/
  | name (empty : Bool) (before : List (String × JsonValue)) (opened : List Opened)
  /-- The colon behind the name of a member has to come. -/
  | colon (before : List (String × JsonValue)) (name : String) (opened : List Opened)
  /-- A value is complete. -/
  | complete (v : JsonValue) (opened : List Opened)

/-- The largest number of arrays and objects inside each other. -/
def maxDepth : Nat := 10000

def State.take : State → Token → Option State
  | .value _ opened, .scalar v => some (.complete v opened)
  | .value _ opened, .text s => some (.complete (string s) opened)
  | .value _ opened, .openArray =>
    if opened.length < maxDepth then some (.value true (.array [] :: opened)) else none
  | .value _ opened, .openObject =>
    if opened.length < maxDepth then some (.name true [] opened) else none
  | .value true (.array before :: opened), .closeArray =>
    some (.complete (array before.reverse) opened)
  | .name _ before opened, .text s => some (.colon before s opened)
  | .name true before opened, .closeObject => some (.complete (object before.reverse) opened)
  | .colon before key opened, .colon => some (.value false (.object before key :: opened))
  | .complete v (.array before :: opened), .comma =>
    some (.value false (.array (v :: before) :: opened))
  | .complete v (.array before :: opened), .closeArray =>
    some (.complete (array (v :: before).reverse) opened)
  | .complete v (.object before key :: opened), .comma =>
    some (.name false ((key, v) :: before) opened)
  | .complete v (.object before key :: opened), .closeObject =>
    some (.complete (object ((key, v) :: before).reverse) opened)
  | _, _ => none

/-- The value of a text that holds exactly one. -/
def parse (cs : List Char) : Option JsonValue := do
  match ← (← tokens cs).foldlM State.take (.value false []) with
  | .complete v [] => some v
  | _ => none

end JsonValue

end CartFlow
