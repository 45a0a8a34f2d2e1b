import StubManager.Text.Split
import StubManager.Text.WidthRanges

/-!
# Tables

`Table.render` draws rows of cells in a frame with round corners. Columns are as wide as their
widest line; a cell may have several lines.
-/

namespace StubManager.Table

/-- How many columns a text takes on a display. -/
def width : List Char → Nat
  | [] => 0
  | c :: text => columns c + width text
where
  /-- How many columns a character takes. -/
  columns (c : Char) : Nat :=
    if Text.zeroWidthRanges.has c then 0 else if Text.doubleWidthRanges.has c then 2 else 1

/-- The lines of a cell. -/
abbrev Cell := List (List Char)

/-- The cell of a text. -/
def cell (text : String) : Cell := Text.lines text.toList

/-- How wide a cell is: as wide as its widest line. -/
def cellWidth (cell : Cell) : Nat := (cell.map width).foldl max 0

/-- The widths of the columns. -/
def columnWidths : List (List Cell) → List Nat
  | [] => []
  | [row] => row.map cellWidth
  | row :: more => List.zipWith max (row.map cellWidth) (columnWidths more)

/-- A horizontal line of the frame: its left end, its crossings and its right end. -/
def rule (left crossing right : Char) (widths : List Nat) : List Char :=
  left :: [crossing].intercalate (widths.map fun w => List.replicate (w + 2) '─') ++ [right]

/-- One line of a row, each cell filled up to its column. -/
def rowLine (widths : List Nat) (row : List Cell) (n : Nat) : List Char :=
  let columns := List.zipWith (fun w cell =>
    let line := (cell[n]?).getD []
    ' ' :: line ++ List.replicate (w - width line) ' ' ++ [' ']) widths row
  '│' :: ['│'].intercalate columns ++ ['│']

/-- The lines of a row. -/
def rowLines (widths : List Nat) (row : List Cell) : List (List Char) :=
  (List.range ((row.map List.length).foldl max 1)).map (rowLine widths row)

/-- Draws a table. -/
def render (header : List String) (rows : List (List String)) : String :=
  let header := header.map cell
  let rows := rows.map fun row => row.map cell
  let widths := columnWidths (header :: rows)
  let lines :=
    rule '╭' '┬' '╮' widths :: rowLines widths header ++ [rule '├' '┼' '┤' widths]
      ++ rows.flatMap (rowLines widths) ++ [rule '╰' '┴' '╯' widths]
  String.ofList (['\n'].intercalate lines)

end StubManager.Table
