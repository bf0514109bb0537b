/-! File contents, paths and messages are lists of bytes, because none of them has to be well-formed
UTF-8. -/

namespace UnusedImports

/-- Text as the list of its bytes. -/
abbrev Bytes := List UInt8

def utf8 (s : String) : Bytes := s.toUTF8.data.toList

namespace Bytes

@[match_pattern] abbrev newline : UInt8 := 0x0a

@[match_pattern] abbrev carriageReturn : UInt8 := 0x0d

@[match_pattern] abbrev doubleQuote : UInt8 := 0x22

/-- Apostrophe, also the single quotation mark. -/
@[match_pattern] abbrev singleQuote : UInt8 := 0x27

@[match_pattern] abbrev backtick : UInt8 := 0x60

@[match_pattern] abbrev backslash : UInt8 := 0x5c

@[match_pattern] abbrev slash : UInt8 := 0x2f

@[match_pattern] abbrev openBrace : UInt8 := 0x7b

@[match_pattern] abbrev closeBrace : UInt8 := 0x7d

def isDigit (b : UInt8) : Bool := 0x30 ≤ b && b ≤ 0x39

def isAlpha (b : UInt8) : Bool := (0x61 ≤ b && b ≤ 0x7a) || (0x41 ≤ b && b ≤ 0x5a)

def find? (part : Bytes) (s : Bytes) : Option Nat :=
  go s 0
where
  /-- Searches a suffix that starts at the given offset. -/
  go : Bytes → Nat → Option Nat
    | [], n => if part.isEmpty then some n else none
    | b :: s, n => if part.isPrefixOf (b :: s) then some n else go s (n + 1)

def contains (part : Bytes) (s : Bytes) : Bool := (find? part s).isSome

/-- Splits a text at the first occurrence of a separator, which belongs to neither half. -/
def cut? (separator : Bytes) (s : Bytes) : Option (Bytes × Bytes) :=
  (find? separator s).map fun n => (s.take n, s.drop (n + separator.length))

/-- A text without a leading part, if it starts with that part. -/
def dropStart? (part : Bytes) (s : Bytes) : Option Bytes :=
  if part.isPrefixOf s then some (s.drop part.length) else none

/-- A text without a trailing part, if it ends with that part. -/
def dropEnd? (part : Bytes) (s : Bytes) : Option Bytes :=
  if part.isSuffixOf s then some (s.take (s.length - part.length)) else none

def join (separator : Bytes) (parts : List Bytes) : Bytes := separator.intercalate parts

/-- Tests whether an end of a text, the whole and the empty one among them, is accepted. -/
def anySuffix (test : Bytes → Bool) : Bytes → Bool
  | [] => test []
  | b :: s => test (b :: s) || anySuffix test s

/-- Bytewise order. -/
def le (a b : Bytes) : Bool := (compare a b).isLE

def ofNat (n : Nat) : Bytes := utf8 (Nat.repr n)

/-- Decimal digits of an integer, after a minus sign if it is negative. -/
def ofInt (n : Int) : Bytes :=
  if n < 0 then utf8 "-" ++ ofNat n.natAbs else ofNat n.natAbs

def digitsValue (ds : Bytes) : Nat := ds.foldl (fun n d => n * 10 + (d.toNat - 0x30)) 0

end Bytes

end UnusedImports
