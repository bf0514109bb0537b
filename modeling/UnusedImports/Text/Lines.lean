import UnusedImports.Text.Bytes

/-! A line ends with a line feed or with the text. -/

namespace UnusedImports.Lines

/-- Number of bytes in which a NUL byte marks binary data. -/
def sniffLength : Nat := 8000

def isBinary (s : Bytes) : Bool := (s.take sniffLength).any (· == 0)

/-- The encoding of the byte order mark. -/
def byteOrderMark : Bytes := [0xef, 0xbb, 0xbf]

/-- A text without the byte order mark in front. -/
def dropByteOrderMark (s : Bytes) : Bytes := (Bytes.dropStart? byteOrderMark s).getD s

/-- Number of lines of a text. A last line without line feed counts. -/
def count (s : Bytes) : Nat :=
  s.count Bytes.newline + (if s.getLast?.any (· != Bytes.newline) then 1 else 0)

/-- A line without one carriage return at its end. -/
def dropReturn (line : Bytes) : Bytes := (Bytes.dropEnd? [Bytes.carriageReturn] line).getD line

/-- The lines of a text without their line ends. -/
def split (s : Bytes) : List Bytes :=
  if s.isEmpty then []
  else (((Bytes.dropEnd? [Bytes.newline] s).getD s).splitOn Bytes.newline).map dropReturn

/-- The lines of a text, each with its line feed. -/
def splitAfter (s : Bytes) : List Bytes :=
  let parts := s.splitOn Bytes.newline
  let whole := parts.dropLast.map (· ++ [Bytes.newline])
  match parts.getLast? with
  | some last => if last.isEmpty then whole else whole ++ [last]
  | none => whole

end UnusedImports.Lines
