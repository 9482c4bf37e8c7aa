/-!
# Aligned columns

A table is written cell by cell. Every cell but the last of its row is followed
by blanks up to the width of its column, which is two more than the widest cell
of the column. Blanks go out in runs of at most eight, and an empty run closes
the table, so the cuts between the pieces are part of the result.
-/
namespace CartFlow.Text

/-- Blanks in runs of eight and the rest of one to eight in a last run. -/
def blankRuns (n : Nat) : List String :=
  if h : 8 < n then "        " :: blankRuns (n - 8)
  else [String.ofList (List.replicate n ' ')]
termination_by n

/-- The widths of the columns: two more than the widest cell of each. -/
def columnWidths (rows : List (List String)) : List Nat :=
  rows.foldl (fun widths row => widths.zipWith (fun w cell => max w (cell.length + 2)) row)
    ((rows.headD []).map fun cell => cell.length + 2)

def rowPieces : List Nat → List String → List String
  | _, [] => ["\n"]
  | _, [cell] => [cell, "\n"]
  | [], cell :: rest => cell :: rowPieces [] rest
  | w :: widths, cell :: rest => cell :: (blankRuns (w - cell.length) ++ rowPieces widths rest)

def tablePieces (rows : List (List String)) : List String :=
  rows.flatMap (rowPieces (columnWidths rows)) ++ [""]

end CartFlow.Text
