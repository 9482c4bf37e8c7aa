/-!
# Texts between separators

A text that was joined from parts is taken apart again at its separators, which are looked for
from left to right. The parts come back if the first character of the separator stands in none of
them.
-/
namespace CartFlow.Text

/-- The parts of a text. The characters of the first one that were met already are kept in reverse
order, and so many characters in front are still those of a separator. -/
def splitFrom (separator : List Char) : Nat → List Char → List Char → List (List Char)
  | _, part, [] => [part.reverse]
  | skip + 1, part, _ :: rest => splitFrom separator skip part rest
  | 0, part, c :: rest =>
    if separator.isPrefixOf (c :: rest) then
      part.reverse :: splitFrom separator (separator.length - 1) [] rest
    else splitFrom separator 0 (c :: part) rest

def split (separator text : String) : List String :=
  (splitFrom separator.toList 0 [] text.toList).map String.ofList

section Joined

variable {c : Char} {cs : List Char}

theorem splitFrom_append {word : List Char} (hword : c ∉ word) (part rest : List Char) :
    splitFrom (c :: cs) 0 part (word ++ rest) =
      splitFrom (c :: cs) 0 (word.reverse ++ part) rest := by
  induction word generalizing part with
  | nil => rfl
  | cons d word ih =>
    rw [List.mem_cons, not_or] at hword
    have hother : (c :: cs).isPrefixOf (d :: word ++ rest) = false := by
      simp [List.isPrefixOf, hword.1]
    rw [List.cons_append, splitFrom, ← List.cons_append, hother, if_neg Bool.false_ne_true,
      ih hword.2, List.reverse_cons, List.append_assoc]
    rfl

theorem splitFrom_skip (separator skipped part rest : List Char) :
    splitFrom separator skipped.length part (skipped ++ rest) =
      splitFrom separator 0 part rest := by
  induction skipped with
  | nil => rfl
  | cons d skipped ih => exact ih

theorem splitFrom_separator (part rest : List Char) :
    splitFrom (c :: cs) 0 part (c :: cs ++ rest) =
      part.reverse :: splitFrom (c :: cs) 0 [] rest := by
  have hhere : (c :: cs).isPrefixOf (c :: cs ++ rest) = true := by
    simp
  rw [List.cons_append, splitFrom, ← List.cons_append, hhere, if_pos rfl]
  exact congrArg _ (splitFrom_skip _ cs [] rest)

theorem splitFrom_intercalate {parts : List (List Char)} (hne : parts ≠ [])
    (hparts : ∀ p ∈ parts, c ∉ p) :
    splitFrom (c :: cs) 0 [] ((c :: cs).intercalate parts) = parts := by
  induction parts with
  | nil => contradiction
  | cons p parts ih =>
    rw [List.forall_mem_cons] at hparts
    cases parts with
    | nil =>
      have hlast : splitFrom (c :: cs) 0 [] (p ++ []) = _ := splitFrom_append hparts.1 [] []
      simpa [splitFrom] using hlast
    | cons q parts =>
      rw [List.intercalate_cons_cons, List.append_assoc, splitFrom_append hparts.1,
        splitFrom_separator, ih (List.cons_ne_nil q parts) hparts.2]
      simp

/-- Texts on both sides of a separator of one character are taken apart by themselves. -/
theorem splitFrom_single (part front rest : List Char) :
    splitFrom [c] 0 part (front ++ c :: rest) =
      splitFrom [c] 0 part front ++ splitFrom [c] 0 [] rest := by
  induction front generalizing part with
  | nil => exact splitFrom_separator part rest
  | cons d front ih =>
    by_cases hd : d = c
    · subst hd
      have hfront : ∀ tail, splitFrom [d] 0 part (d :: tail) =
        part.reverse :: splitFrom [d] 0 [] tail := splitFrom_separator part
      rw [List.cons_append, hfront, hfront, ih, List.cons_append]
    · have hword : c ∉ [d] := by simpa using Ne.symm hd
      have hfront : ∀ tail, splitFrom [c] 0 part (d :: tail) = splitFrom [c] 0 (d :: part) tail :=
        splitFrom_append hword part
      rw [List.cons_append, hfront, hfront, ih]

end Joined

/-- Parts that were joined come back, if there are any and the separator begins in none. -/
theorem split_intercalate {separator : String} {c : Char} {cs : List Char}
    (hseparator : separator.toList = c :: cs) {parts : List String} (hne : parts ≠ [])
    (hparts : ∀ p ∈ parts, c ∉ p.toList) :
    split separator (separator.intercalate parts) = parts := by
  rw [split, String.toList_intercalate, hseparator, splitFrom_intercalate (by simpa using hne)
    (by simpa using hparts), List.map_map]
  simp [Function.comp_def]

end CartFlow.Text
