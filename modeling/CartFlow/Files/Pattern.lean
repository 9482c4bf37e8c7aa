import CartFlow.Failure
import CartFlow.Text.Utf8

/-!
# Patterns of names

In a pattern a star stands for any number of characters, a question mark for one, and
a set in brackets for one of its characters, or for one that is not in it if the set
starts with a caret. A backslash takes the special meaning from the character behind
it. Neither star nor question mark stand for a slash.

Stars divide a pattern into segments. A segment behind a star is sought from left to
right and the first place where it fits is taken for good, so a name is read once for
every segment at most. Only the last segment has to reach the end of the name. A segment
that is malformed shows when it is reached.
-/
namespace CartFlow.Files

open Text

/-- What stands for a character in a segment. Names are compared byte by byte. -/
inductive Wildcard
  | byte (b : UInt8)
  | one
  | set (negated : Bool) (ranges : List (Char × Char))
  deriving DecidableEq, Repr

namespace Wildcard

/-- A character inside a set and what follows it, which must not be the end. -/
def setChar : List Char → Option (Char × List Char)
  | '-' :: _ => none
  | ']' :: _ => none
  | '\\' :: c :: d :: rest => some (c, d :: rest)
  | '\\' :: _ => none
  | c :: d :: rest => some (c, d :: rest)
  | _ => none

theorem length_setChar {cs rest : List Char} {c : Char} (h : setChar cs = some (c, rest)) :
    rest.length < cs.length := by
  unfold setChar at h
  split at h <;> cases h <;> simp

def setRange (cs : List Char) : Option ((Char × Char) × List Char) := do
  let (low, cs) ← setChar cs
  match cs with
  | '-' :: rest =>
    let (high, rest) ← setChar rest
    return ((low, high), rest)
  | _ => return ((low, low), cs)

theorem length_setRange {cs rest : List Char} {range : Char × Char}
    (h : setRange cs = some (range, rest)) : rest.length < cs.length := by
  simp only [setRange, Option.bind_eq_bind, Option.bind_eq_some_iff] at h
  obtain ⟨⟨_, cs₁⟩, hlow, h⟩ := h
  have h₁ : cs₁.length < cs.length := length_setChar hlow
  simp only at h
  split at h
  · next cs₂ =>
    simp only [Option.bind_eq_some_iff] at h
    obtain ⟨⟨_, cs₃⟩, hhigh, heq⟩ := h
    have h₂ : cs₃.length < cs₂.length := length_setChar hhigh
    cases heq
    change cs₃.length < _
    simp only [List.length_cons] at h₁
    omega
  · cases h
    exact h₁

/-- The ranges of a set up to its closing bracket, at least one, and what follows it. -/
def setRanges (cs : List Char) (before : List (Char × Char)) :
    Option (List (Char × Char) × List Char) :=
  match _h : setRange cs with
  | none => none
  | some (range, ']' :: rest) => some ((range :: before).reverse, rest)
  | some (range, rest) => setRanges rest (range :: before)
termination_by cs.length
decreasing_by exact length_setRange _h

theorem length_setRanges {cs rest : List Char} {before ranges : List (Char × Char)}
    (h : setRanges cs before = some (ranges, rest)) : rest.length < cs.length := by
  fun_induction setRanges cs before with
  | case1 => cases h
  | case2 cs before range tail heq =>
    cases h
    have := length_setRange heq
    simp only [List.length_cons] at this
    omega
  | case3 cs before range tail _ heq ih =>
    have := length_setRange heq
    have := ih h
    omega

def readSet : List Char → Option (Wildcard × List Char)
  | '^' :: cs => (setRanges cs []).map fun (ranges, rest) => (set true ranges, rest)
  | cs => (setRanges cs []).map fun (ranges, rest) => (set false ranges, rest)

theorem length_readSet {cs rest : List Char} {w : Wildcard} (h : readSet cs = some (w, rest)) :
    rest.length < cs.length := by
  unfold readSet at h
  split at h
  · obtain ⟨⟨_, _⟩, hread, heq⟩ := Option.map_eq_some_iff.1 h
    cases heq
    exact Nat.lt_succ_of_lt (length_setRanges hread)
  · obtain ⟨⟨_, _⟩, hread, heq⟩ := Option.map_eq_some_iff.1 h
    cases heq
    exact length_setRanges hread

def parse : List Char → Option (List Wildcard)
  | [] => some []
  | '?' :: rest => (parse rest).map (one :: ·)
  | '\\' :: c :: rest => (parse rest).map ((String.utf8EncodeChar c).map byte ++ ·)
  | ['\\'] => none
  | '[' :: cs =>
    match _h : readSet cs with
    | none => none
    | some (w, rest) => (parse rest).map (w :: ·)
  | c :: rest => (parse rest).map ((String.utf8EncodeChar c).map byte ++ ·)
termination_by cs => cs.length
decreasing_by
  all_goals simp only [List.length_cons]
  all_goals try omega
  have := length_readSet _h
  omega

def inSet (negated : Bool) (ranges : List (Char × Char)) (c : Char) : Bool :=
  (ranges.any fun (low, high) => low ≤ c && c ≤ high) != negated

def slash : UInt8 := 0x2F

/-- What is left of a name behind the parts of a segment, if they fit its start. -/
def strip : List Wildcard → List UInt8 → Option (List UInt8)
  | [], bs => some bs
  | _ :: _, [] => none
  | byte d :: ws, b :: bs => if b = d then strip ws bs else none
  | one :: ws, b :: bs => if b = slash then none else strip ws (firstChar b bs).2
  | set negated ranges :: ws, b :: bs =>
    let (c, rest) := firstChar b bs
    if inSet negated ranges c then strip ws rest else none

/-- What is left of a name behind the parts of a segment; nothing may be left if the segment is
the last one. -/
def stripAt (ws : List Wildcard) (isLast : Bool) (bs : List UInt8) : Option (List UInt8) :=
  (strip ws bs).filter fun rest => !isLast || rest.isEmpty

/-- What is left of a name behind the first place where a segment fits. -/
def seek (ws : List Wildcard) (isLast : Bool) : List UInt8 → Option (List UInt8)
  | [] => stripAt ws isLast []
  | b :: bs =>
    match stripAt ws isLast (b :: bs) with
    | some rest => some rest
    | none => if b = slash then none else seek ws isLast bs

end Wildcard

/-- A part of a pattern without stars of its own. -/
structure Segment where
  /-- Whether a star stands in front of it. -/
  isLoose : Bool
  /-- What it stands for; nothing if it is malformed. -/
  parts : Option (List Wildcard)
  deriving DecidableEq, Repr

namespace Segment

/-- The characters of a segment, behind those that are read already and come backwards, and what
follows it. Inside of brackets a star is a character like any other. -/
def cut (inside : Bool) (back : List Char) : List Char → List Char × List Char
  | [] => (back.reverse, [])
  | '\\' :: c :: rest => cut inside (c :: '\\' :: back) rest
  | '[' :: rest => cut true ('[' :: back) rest
  | ']' :: rest => cut false (']' :: back) rest
  | '*' :: rest => if inside then cut true ('*' :: back) rest else (back.reverse, '*' :: rest)
  | c :: rest => cut inside (c :: back) rest

theorem length_cut_le (inside : Bool) (back cs : List Char) :
    (cut inside back cs).2.length ≤ cs.length := by
  fun_induction cut inside back cs <;> simp only [List.length_cons, List.length_nil] at * <;> omega

/-- A segment that does not start with a star takes at least one character. -/
theorem length_cut_lt {inside : Bool} {back cs : List Char} (hne : cs ≠ [])
    (hstar : cs.head? ≠ some '*') : (cut inside back cs).2.length < cs.length := by
  fun_cases cut inside back cs with
  | case1 => exact absurd rfl hne
  | case2 c rest =>
    have := length_cut_le inside (c :: '\\' :: back) rest
    simp only [List.length_cons]
    omega
  | case3 rest => exact Nat.lt_succ_of_le (length_cut_le ..)
  | case4 rest => exact Nat.lt_succ_of_le (length_cut_le ..)
  | case5 rest => exact absurd rfl hstar
  | case6 rest => exact absurd rfl hstar
  | case7 c rest => exact Nat.lt_succ_of_le (length_cut_le ..)

def first? : List Char → Option (Segment × List Char)
  | [] => none
  | '*' :: cs =>
    let (segment, rest) := cut false [] (cs.dropWhile (· == '*'))
    some (⟨true, Wildcard.parse segment⟩, rest)
  | cs =>
    let (segment, rest) := cut false [] cs
    some (⟨false, Wildcard.parse segment⟩, rest)

theorem length_first? {cs rest : List Char} {segment : Segment}
    (h : first? cs = some (segment, rest)) : rest.length < cs.length := by
  unfold first? at h
  split at h
  · cases h
  · next cs =>
    cases h
    have h₁ := length_cut_le false [] (cs.dropWhile (· == '*'))
    have h₂ := (List.dropWhile_sublist (· == '*') (l := cs)).length_le
    simp only [List.length_cons]
    omega
  · next hne hstar =>
    cases h
    refine length_cut_lt hne fun hhead => ?_
    obtain ⟨tail, rfl⟩ := List.head?_eq_some_iff.1 hhead
    exact hstar tail rfl

/-- What is left of a name behind a segment, if it fits; none if the segment is malformed. -/
def strip? (s : Segment) (isLast : Bool) (bs : List UInt8) : Option (Option (List UInt8)) :=
  s.parts.map fun ws =>
    if s.isLoose then Wildcard.seek ws isLast bs else Wildcard.stripAt ws isLast bs

end Segment

/-- Whether the bytes of a name fit a pattern. What stands behind a segment that does not fit
is not looked at. -/
def fitsBytes (pattern : List Char) (bs : List UInt8) : Except Failure Bool :=
  match _h : Segment.first? pattern with
  | none => .ok bs.isEmpty
  | some (segment, rest) =>
    match segment.strip? rest.isEmpty bs with
    | none => fail .malformedPattern
    | some none => .ok false
    | some (some left) => fitsBytes rest left
termination_by pattern.length
decreasing_by exact Segment.length_first? _h

def fits (pattern name : String) : Except Failure Bool :=
  fitsBytes pattern.toList name.toUTF8.toList

def isPattern (path : String) : Bool :=
  path.any fun c => c == '*' || c == '?' || c == '[' || c == '\\'

end CartFlow.Files
