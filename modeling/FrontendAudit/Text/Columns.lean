import FrontendAudit.Text.Lines

namespace FrontendAudit.Text

abbrev Row := List (List Char)

namespace Row

def isTabbed : Row → Bool
  | _ :: _ :: _ => true
  | _ => false

def firstCell (row : Row) : List Char :=
  row.headD []

def gap : Nat := 2

def width (rows : List Row) : Nat :=
  rows.foldr (fun row w ↦ max row.firstCell.length w) 0 + gap

def fill (width : Nat) (cell : List Char) : List Char :=
  cell ++ List.replicate (width - cell.length) ' '

/-- The lines of the rows with the given number of columns at most. The rows fall into runs with a tabbed
first cell and runs without one, and each run with one has a column of its own. -/
def align : Nat → List Row → List (List Char)
  | 0, rows => rows.map List.flatten
  | columns + 1, rows =>
    (rows.splitBy fun r s ↦ r.isTabbed == s.isTabbed).flatMap fun run ↦
      if run.all isTabbed then
        let w := width run
        List.zipWith (fun row rest ↦ fill w row.firstCell ++ rest) run (align columns (run.map List.tail))
      else run.map List.flatten

end Row

def columnCount (rows : List Row) : Nat :=
  rows.foldr (fun row n ↦ max row.length n) 0

def rows (cs : List Char) : List (List Row) :=
  (pieces (· == '\x0c') cs).map fun part ↦
    (pieces (· == '\n') part).map (pieces fun c ↦ c == '\t' || c == '\x0b')

/-- The text laid out in columns. A tab, horizontal or vertical, ends a cell, and cells with the same number in
adjacent lines form a column, as wide as its widest cell and a gap. What follows the last tab of a line is in no
column. A form feed ends a line, and with it all columns. -/
def alignColumns (cs : List Char) : List Char :=
  List.intercalate ['\n'] ((rows cs).flatMap fun rs ↦ Row.align (columnCount rs) rs)

end FrontendAudit.Text
