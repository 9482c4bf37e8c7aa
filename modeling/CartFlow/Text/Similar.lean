/-!
# Similar words

The distance of two words is the least number of letters to insert, remove or replace
that makes one out of the other. It is computed row by row, over the ends of the words.
-/
namespace CartFlow.Text

variable {α : Type} [DecidableEq α]

/-- One row of distances: those of `a` in front of the word of the row above. The row above
has an entry for every end of the second word, the longest first. -/
def distanceRow (a : α) : List α → List Nat → List Nat
  | b :: bs, here :: below :: rest =>
    let row := distanceRow a bs (below :: rest)
    let diagonal := if a = b then below else below + 1
    min (min (row.headD 0 + 1) (here + 1)) diagonal :: row
  | _, above => [above.headD 0 + 1]

/-- The distances of a word from all ends of another one, the longest first. -/
def distances (bs : List α) : List α → List Nat
  | [] => (List.range (bs.length + 1)).reverse
  | a :: as => distanceRow a bs (distances bs as)

def distance (as bs : List α) : Nat :=
  (distances bs as).headD 0

end CartFlow.Text
