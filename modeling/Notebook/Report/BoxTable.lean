/-
  Tables drawn with box characters.

  Every column is as wide as its widest cell, with a space on either side.  The
  header is set off by a double line, the rows by dashed ones.  A cell may hold
  several lines; the row is then as high as its highest cell.
-/
import Notebook.Text.Width

namespace Notebook

/-- On which side of its column a cell stands. -/
inductive Side where
  | left
  | right
  deriving DecidableEq, Repr

/-- A table: a title and a side for each column, and rows of as many cells. -/
structure BoxTable where
  columns : List (Text × Side)
  rows : List (List Text)
  deriving Repr

namespace BoxTable

/-- The lines of a cell. -/
def cellLines (cell : Text) : List Text := cell.splitOn '\n'

/-- The columns a cell takes. -/
def cellWidth (cell : Text) : Nat := ((cellLines cell).map Text.width).foldl max 0

/-- The titles of the columns. -/
def header (t : BoxTable) : List Text := t.columns.map Prod.fst

/-- The widths of the columns, without the spaces around the cells. -/
def widths (t : BoxTable) : List Nat :=
  t.rows.foldl (fun ws row => List.zipWith max ws (row.map cellWidth)) (t.header.map cellWidth)

/-- A line of a cell, filled up to the width of its column. -/
def pad (side : Side) (width : Nat) (line : Text) : Text :=
  let fill := List.replicate (width - Text.width line) ' '
  match side with
  | .left => ' ' :: line ++ fill ++ [' ']
  | .right => ' ' :: fill ++ line ++ [' ']

/-- A line between rows: its ends, its crossings and what it is drawn with. -/
def rule (left fill cross right : Char) (widths : List Nat) : Text :=
  left :: List.intercalate [cross] (widths.map fun w => List.replicate (w + 2) fill) ++ [right]

/-- The lines of a row. -/
def row (sides : List Side) (widths : List Nat) (cells : List Text) : List Text :=
  let cells := cells.map cellLines
  let height := (cells.map List.length).foldl max 0
  (List.range height).map fun i =>
    let pieces := (sides.zip (widths.zip cells)).map fun (side, width, lines) =>
      pad side width (lines.getD i [])
    '│' :: List.intercalate ['┆'] pieces ++ ['│']

/-- The lines of a table. -/
def lines (t : BoxTable) : List Text :=
  let widths := t.widths
  let sides := t.columns.map Prod.snd
  let top := rule '┌' '─' '┬' '┐' widths
  let double := rule '╞' '═' '╪' '╡' widths
  let dashed := rule '├' '╌' '┼' '┤' widths
  let bottom := rule '└' '─' '┴' '┘' widths
  let rows := t.rows.map (row sides widths)
  [top] ++ row sides widths t.header ++ [double] ++ List.intercalate [dashed] rows ++ [bottom]

/-- The text of a table, every line ended. -/
def render (t : BoxTable) : Text := t.lines.flatMap fun line => line ++ ['\n']

end BoxTable

end Notebook
