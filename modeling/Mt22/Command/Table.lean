import Mt22.Text.Columns

/-!
# Tables

A table with a header, drawn with box characters.  Every column is as wide as its widest cell,
with a blank on either side; a cell with line feeds takes several lines.
-/

namespace Mt22.Table

/-- A text filled up with blanks to a number of columns. -/
def pad (width : Nat) (s : String) : String :=
  s ++ String.ofList (List.replicate (width - Text.columns s) ' ')

/-- The lines of a cell. -/
def cellLines (cell : String) : List String :=
  (cell.toList.splitOn '\n').map String.ofList

/-- The columns that a cell takes. -/
def cellWidth (cell : String) : Nat :=
  ((cellLines cell).map Text.columns).foldl max 0

/-- The width of each column of a table with `count` columns. -/
def widths (count : Nat) (rows : List (List String)) : List Nat :=
  (List.range count).map fun i => (rows.map fun row => cellWidth (row.getD i "")).foldl max 0

/-- A line across the table, from its left end, its stroke, its crossings and its right end. -/
def rule (widths : List Nat) (left stroke cross right : String) : String :=
  left ++ cross.intercalate (widths.map fun w => String.join (List.replicate (w + 2) stroke)) ++
    right

/-- The lines of a row. -/
def rowLines (widths : List Nat) (row : List String) : List String :=
  let cells := row.map cellLines
  let height := (cells.map List.length).foldl max 1
  (List.range height).map fun i =>
    let texts := List.zipWith (fun w lines => " " ++ pad w (lines.getD i "") ++ " ") widths cells
    "│" ++ "┆".intercalate texts ++ "│"

/-- A table as text. -/
def render (header : List String) (rows : List (List String)) : String :=
  let ws := widths header.length (header :: rows)
  let divider := rule ws "├" "╌" "┼" "┤"
  let body := (rows.map (rowLines ws)).intersperse [divider]
  "\n".intercalate
    ([rule ws "┌" "─" "┬" "┐"] ++ rowLines ws header ++ [rule ws "╞" "═" "╪" "╡"] ++
      body.flatten ++ [rule ws "└" "─" "┴" "┘"])

end Mt22.Table
