import UnusedImports.Yaml.Character

/-! A new line is begun only where the old one holds more than indentation, so that whoever writes
need not know how the value before has ended. -/

namespace UnusedImports.Yaml

/-- What has been written, and the line on which the pen stands. -/
structure Pen where
  reversed : Bytes
  column : Nat
  /-- Whether the line holds nothing but blanks and marks of lists and maps. -/
  isFresh : Bool
  isSpaced : Bool

namespace Pen

def start : Pen := ⟨[], 0, true, true⟩

def written (p : Pen) : Bytes := p.reversed.reverse

/-- Writes a character that does not end the line. -/
def char (c : Nat) (p : Pen) : Pen :=
  { p with reversed := (Utf8.encode c).reverse ++ p.reversed, column := p.column + 1 }

/-- Writes characters that do not end the line. -/
def chars (cs : List Nat) (p : Pen) : Pen := cs.foldl (fun p c => p.char c) p

def newline (p : Pen) : Pen :=
  { p with reversed := Bytes.newline :: p.reversed, column := 0, isFresh := true }

/-- Writes a line break as it is. -/
def lineBreak (c : Nat) (p : Pen) : Pen :=
  if c == 0x0a then p.newline else { p.char c with column := 0, isFresh := true }

/-- Goes to a column, on a new line unless the line allows it. -/
def indent (column : Nat) (p : Pen) : Pen :=
  let p := if !p.isFresh || column < p.column || (p.column == column && !p.isSpaced) then p.newline
    else p
  { p.chars (List.replicate (column - p.column) 0x20) with isSpaced := true }

/-- Writes a blank where one is needed. -/
def space (p : Pen) : Pen := if p.isSpaced then p else p.char 0x20

/-- Writes the mark of an item or entry, which leaves a fresh line fresh. -/
def mark (c : Nat) (p : Pen) : Pen := { p.space.char c with isSpaced := false }

def ink (cs : List Nat) (p : Pen) : Pen := { p.chars cs with isSpaced := false, isFresh := false }

end Pen

end UnusedImports.Yaml
