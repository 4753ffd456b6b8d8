/-
  QueryPlanner.Text.Table

  Tables with a frame: a rule above the titles, a double rule below them, a
  rule between two rows, and one at the end.  Cells are padded on the right to the width of
  their column, and a cell of several lines makes its row as high.
-/

import QueryPlanner.Text.Width

namespace QueryPlanner.Text.Table

/-- The lines of a text; a line break at the end starts no further line. -/
def linesOf (s : String) : List String :=
  let parts := s.splitOn "\n"
  let trimmed := parts.dropLast.map fun line =>
    if line.endsWith "\r" then String.ofList line.toList.dropLast else line
  match parts.getLast? with
  | some "" | none => trimmed
  | some last => trimmed ++ [last]

/-- The columns of the widest line of a text. -/
def cellWidth (s : String) : Nat := ((linesOf s).map width).foldl max 0

/-- The widths of the columns of some rows. -/
def columnWidths (count : Nat) (rows : List (List String)) : List Nat :=
  (List.range count).map fun i => (rows.map fun row => cellWidth (row.getD i "")).foldl max 0

/-- A line of one character between the columns. -/
def rule (c : Char) (widths : List Nat) : String :=
  "+" ++ String.join (widths.map fun w => String.ofList (List.replicate (w + 2) c) ++ "+")

/-- A text with blanks up to a width. -/
def padRight (w : Nat) (s : String) : String :=
  s ++ String.ofList (List.replicate (w - width s) ' ')

/-- One line of a row. -/
def line (widths : List Nat) (cells : List String) : String :=
  "|" ++ String.join ((widths.zip cells).map fun (w, s) => " " ++ padRight w s ++ " |")

/-- The lines of a row, at least one. -/
def rowLines (widths : List Nat) (row : List String) : List String :=
  let cells := row.map linesOf
  let height := (cells.map List.length).foldl max 1
  (List.range height).map fun i => line widths (cells.map fun c => c.getD i "")

/-- The lines of a table. -/
def render (titles : List String) (rows : List (List String)) : List String :=
  let widths := columnWidths titles.length (titles :: rows)
  rule '-' widths :: rowLines widths titles ++ rule '=' widths ::
    [rule '-' widths].intercalate (rows.map (rowLines widths)) ++ [rule '-' widths]

end QueryPlanner.Text.Table
