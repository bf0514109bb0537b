import UnusedImports.Text.Utf8

/-! An editor names a place by its line and by the UTF-16 code units before it on that line, both
from zero. Inside of the program places are offsets of bytes. -/

namespace UnusedImports.Editor

/-- A place in a document: the line feeds before it, and the UTF-16 code units behind the last of
them. -/
structure Place where
  line : Nat
  character : Nat
  deriving DecidableEq, Repr

def units16 (c : Nat) : Nat := if c < 0x10000 then 1 else 2

namespace Place

def zero : Place := ⟨0, 0⟩

def advance (p : Place) (c : Nat) : Place :=
  if c == 0x0a then ⟨p.line + 1, 0⟩ else ⟨p.line, p.character + units16 c⟩

/-- The place behind the code points that start within a number of bytes. -/
def walk (p : Place) : List (Nat × Bytes) → Nat → Place
  | [], _ => p
  | u :: us, n => if n = 0 then p else (p.advance u.1).walk us (n - u.2.length)

end Place

/-- A place as the protocol of the editor has it, in numbers of 32 bits. -/
structure Position where
  line : UInt32
  character : UInt32
  deriving DecidableEq, Repr

instance coeUInt32Nat : CoeOut UInt32 Nat := ⟨UInt32.toNat⟩

def Position.before (p q : Position) : Bool :=
  p.line < q.line || (p.line == q.line && p.character < q.character)

/-- What the protocol tells of a place. Numbers that 32 bits do not hold wrap around. -/
def Place.told (p : Place) : Position := ⟨.ofNat p.line, .ofNat p.character⟩

/-- The place at an offset. Offsets outside of the document stand for its ends. -/
def placeAt (content : Bytes) (offset : Int) : Place :=
  Place.zero.walk (Utf8.units content) offset.toNat

def positionAt (content : Bytes) (offset : Int) : Position := (placeAt content offset).told

/-- The offset of the line after some others; the end of the document if there are not as many. -/
def offsetAfterLines : Nat → Bytes → Nat
  | 0, _ => 0
  | n + 1, s =>
    match s.idxOf? 0x0a with
    | some i => i + 1 + offsetAfterLines n (s.drop (i + 1))
    | none => s.length

/-- The offset of a line counted from one. -/
def lineOffset (content : Bytes) (line : Int) : Nat := offsetAfterLines (line - 1).toNat content

/-- The start of a line counted from zero: its offset and the text from there on, if there is such a
line. -/
def lineStart? : Nat → Bytes → Option (Nat × Bytes)
  | 0, s => some (0, s)
  | n + 1, s =>
    match s.idxOf? 0x0a with
    | some i => (lineStart? n (s.drop (i + 1))).map fun (o, rest) => (i + 1 + o, rest)
    | none => none

/-- The offset that lies a number of UTF-16 code units into a line. It stays on the line and does
not split a code point; there is none behind the end of the document. -/
def unitsInto? : List (Nat × Bytes) → Nat → Option Nat
  | _, 0 => some 0
  | [], _ + 1 => none
  | u :: us, n + 1 =>
    if u.1 == 0x0a then some 0
    else if n + 1 < units16 u.1 then some 0
    else (unitsInto? us (n + 1 - units16 u.1)).map (u.2.length + ·)

/-- The offset of a place, as the client of a server counts it. A place that the document does not
have stands for its start. -/
def offsetOf (content : Bytes) (p : Position) : Nat :=
  match lineStart? p.line content with
  | some (o, rest) =>
    match unitsInto? (Utf8.units rest) p.character with
    | some n => o + n
    | none => 0
  | none => 0

/-- A part of a document, from one position up to another. -/
structure Range where
  start : Position
  stop : Position
  deriving DecidableEq, Repr

/-- The offsets of both ends of a part. -/
def Range.offsets (content : Bytes) (r : Range) : Nat × Nat :=
  (offsetOf content r.start, offsetOf content r.stop)

/-- Tests whether two parts have a place in common, their ends included. -/
def Range.overlaps (a b : Range) : Bool := !a.stop.before b.start && !b.stop.before a.start

end UnusedImports.Editor
