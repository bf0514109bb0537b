import UnusedImports.Text.Bytes

namespace UnusedImports

/-- A place in a text: the number of bytes before it, its line and its column. Lines and columns
count from one, columns in bytes. -/
structure Position where
  offset : Nat
  line : Nat
  column : Nat
  deriving DecidableEq, Repr

namespace Position

def start : Position := ⟨0, 1, 1⟩

def next (p : Position) (b : UInt8) : Position :=
  if b == Bytes.newline then ⟨p.offset + 1, p.line + 1, 1⟩
  else ⟨p.offset + 1, p.line, p.column + 1⟩

def advance (p : Position) (s : Bytes) : Position := s.foldl next p

end Position

inductive TokenKind where
  | identifier
  | punctuation
  | string
  /-- A piece of a template literal between its delimiters and substitutions. -/
  | template
  | regex
  | number
  | privateName
  | markupText
  deriving DecidableEq, Repr

/-- A token: its position, its class and the bytes it covers. -/
structure Token extends Position where
  kind : TokenKind
  text : Bytes
  deriving DecidableEq, Repr

namespace Token

/-- Tests for an identifier with the given text. -/
def isWord (t : Token) (word : String) : Bool := t.kind == .identifier && t.text == utf8 word

/-- Tests for a punctuator with the given text. -/
def isPunctuator (t : Token) (mark : String) : Bool :=
  t.kind == .punctuation && t.text == utf8 mark

/-- The contents of a string literal without its first and last byte. Other tokens, and a string
shorter than two bytes, stand for themselves. -/
def contents (t : Token) : Bytes :=
  if t.kind == .string && 2 ≤ t.text.length then (t.text.drop 1).dropLast else t.text

end Token

end UnusedImports
