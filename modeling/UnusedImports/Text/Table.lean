import UnusedImports.Text.Width

/-! Columns of text without lines between them, each as wide as its widest cell. -/

namespace UnusedImports.Table

/-- One line of a cell after carriage returns have moved the cursor back to its start, given the
characters written and those in front of the cursor. -/
def overwrite : List Nat → List Nat → List Nat → List Nat
  | [], done, ahead => done.reverse ++ ahead
  | c :: cs, done, ahead =>
    if c == 0x0d then overwrite cs [] (done.reverse ++ ahead)
    else overwrite cs (c :: done) (ahead.drop 1)

/-- The lines of a cell. Tabs are four blanks, and a carriage return before a line feed does not
count. -/
def cellLines (s : Bytes) : List Bytes :=
  let spread := s.flatMap fun b => if b == 0x09 then utf8 "    " else [b]
  let lines := spread.splitOn Bytes.newline
  let count := lines.length
  lines.zipIdx.map fun (line, i) =>
    let line := if i + 1 < count then (Bytes.dropEnd? [Bytes.carriageReturn] line).getD line else line
    if line.any (· == Bytes.carriageReturn) then
      Utf8.ofCodePoints (overwrite (Utf8.codePoints line) [] [])
    else line

/-- A line of a cell between blanks, filled up to a width. -/
def pad (width : Nat) (s : Bytes) : Bytes :=
  utf8 " " ++ s ++ List.replicate (width - Bytes.width s) 0x20 ++ utf8 " "

/-- The width that the lines of a cell ask for. -/
def columnWidth (lines : List Bytes) : Nat :=
  Bytes.longestLine (Utf8.codePoints (Bytes.join (utf8 "\n") lines)) .outside 0 0

/-- A row of cells, each by its lines, as lines of text. -/
def renderRow (widths : List Nat) (row : List (List Bytes)) : List Bytes :=
  let height := (row.map List.length).foldl max 1
  (List.range height).map fun i =>
    ((row.zip widths).map fun (cell, width) => pad width ((cell[i]?).getD [])).flatten

/-- A table with a head, which comes in upper case. -/
def render (head : List String) (rows : List (List Bytes)) : Bytes :=
  let cells := (head.map fun h => utf8 h.toUpper) :: rows
  let cells := cells.map fun row => row.map cellLines
  let widths := (List.range head.length).map fun i =>
    cells.foldl (fun w row => max w (columnWidth ((row[i]?).getD []))) 0
  Bytes.join (utf8 "\n") (cells.flatMap (renderRow widths))

end UnusedImports.Table
