import UnusedImports.Yaml.Character

namespace UnusedImports.Yaml

structure Cursor where
  rest : List Nat
  line : Nat
  column : Nat
  index : Nat
  isFresh : Bool

namespace Cursor

def start (cs : List Nat) : Cursor := ⟨cs, 0, 0, 0, true⟩

def peek (c : Cursor) : Option Nat := c.rest.head?

def second (c : Cursor) : Option Nat := c.rest.tail.head?

def skip (c : Cursor) (n : Nat) : Cursor :=
  ⟨c.rest.drop n, c.line, c.column + n, c.index + n, c.isFresh && (c.rest.take n).all isWhite⟩

def skipBreak (c : Cursor) : Cursor :=
  match c.rest with
  | 0x0d :: 0x0a :: rest => ⟨rest, c.line + 1, 0, c.index + 2, true⟩
  | rest => ⟨rest.drop 1, c.line + 1, 0, c.index + 1, true⟩

/-- The text that a line break contributes. -/
def breakText (c : Cursor) : List Nat :=
  match c.peek with
  | some b => if b == 0x2028 || b == 0x2029 then [b] else [0x0a]
  | none => []

def atWhite (c : Cursor) : Bool := c.peek.any isWhite

def atBreak (c : Cursor) : Bool := c.peek.any isBreak

def atComment (c : Cursor) : Bool := c.peek == some 0x23

/-- Tests for a mark of three equal signs at the start of a line. -/
def atMark (c : Cursor) (sign : Nat) : Bool :=
  c.column == 0 &&
    match c.rest with
    | a :: b :: d :: rest => a == sign && b == sign && d == sign && isGap rest.head?
    | _ => false

def atDocumentMark (c : Cursor) : Bool := c.atMark 0x2d || c.atMark 0x2e

/-- The place of the next character that does not pass a test, and those before it. -/
def takeWhile (c : Cursor) (test : Nat → Bool) : List Nat × Cursor :=
  let run := c.rest.takeWhile test
  (run, c.skip run.length)

def skipWhite (c : Cursor) : Cursor := (c.takeWhile isWhite).2

def skipLine (c : Cursor) : Cursor := (c.takeWhile fun p => !isBreak p).2

def skipGap : Nat → Cursor → Cursor
  | 0, c => c
  | fuel + 1, c =>
    if c.atWhite then skipGap fuel (c.skip 1)
    else if c.atBreak then skipGap fuel c.skipBreak
    else c

/-- The place at the end of the line of the last of the comments ahead, between which there are only
white space and line breaks, and not too many of them. -/
def skipComments : Nat → Cursor → Cursor
  | 0, c => c
  | fuel + 1, c =>
    let c := c.skipLine
    let gap := (c.rest.take 512).takeWhile fun p => isWhite p || isBreak p
    let next := skipGap gap.length c
    if gap.length < 512 && next.atComment then skipComments fuel next else c

end Cursor

end UnusedImports.Yaml
