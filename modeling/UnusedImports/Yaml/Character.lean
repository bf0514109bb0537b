import UnusedImports.Text.Utf8

namespace UnusedImports.Yaml

def isWhite (c : Nat) : Bool := c == 0x20 || c == 0x09

def isBreak (c : Nat) : Bool :=
  c == 0x0a || c == 0x0d || c == 0x85 || c == 0x2028 || c == 0x2029

/-- Tests whether there is nothing, white space or a line break ahead. -/
def isGap (c : Option Nat) : Bool := c.all fun c => isWhite c || isBreak c

/-- Tests for a character that a document may hold. -/
def isAllowed (c : Nat) : Bool :=
  c == 0x09 || c == 0x0a || c == 0x0d || (0x20 ≤ c && c ≤ 0x7e) || c == 0x85 ||
    (0xa0 ≤ c && c ≤ 0xd7ff) || (0xe000 ≤ c && c ≤ 0xfffd) || (0x10000 ≤ c && c ≤ 0x10ffff)

/-- Tests for a bracket, a brace or a comma. -/
def isFlowIndicator (c : Nat) : Bool :=
  c == 0x2c || c == 0x5b || c == 0x5d || c == 0x7b || c == 0x7d

def isDigit (c : Nat) : Bool := 0x30 ≤ c && c ≤ 0x39

/-- Tests for a character of a name: a letter, a digit, an underscore or a hyphen. -/
def isWordChar (c : Nat) : Bool :=
  isDigit c || (0x41 ≤ c && c ≤ 0x5a) || (0x61 ≤ c && c ≤ 0x7a) || c == 0x5f || c == 0x2d

/-- Tests for a character that the name of a type may hold without an escape. -/
def isUriChar (c : Nat) : Bool :=
  isWordChar c || ";/?:@&=+$,.!~*'()[]".toList.any fun d => d.toNat == c

/-- Tests for a character that no plain scalar starts with. -/
def isIndicator (c : Nat) : Bool :=
  "#,[]\x7b\x7d&*!|>%@".toList.any (fun i => i.toNat == c) || c == 0x22 || c == 0x27 || c == 0x60

/-- Tests for a character that a plain scalar starts with only if something follows it closely. -/
def isWeakIndicator (c : Nat) : Bool := c == 0x2d || c == 0x3f || c == 0x3a

def hexDigit? (c : Nat) : Option Nat :=
  if isDigit c then some (c - 0x30)
  else if 0x61 ≤ c && c ≤ 0x66 then some (c - 0x57)
  else if 0x41 ≤ c && c ≤ 0x46 then some (c - 0x37)
  else none

def hexNumber? (ds : List Nat) : Option Nat :=
  ds.foldlM (fun n c => (hexDigit? c).map fun d => n * 16 + d) 0

/-- The number of bytes of the character that a byte starts; a byte that starts none has zero. -/
def leadWidth (b : UInt8) : Nat :=
  if b < 0x80 then 1
  else if b < 0xc0 then 0
  else if b < 0xe0 then 2
  else if b < 0xf0 then 3
  else if b < 0xf8 then 4
  else 0

end UnusedImports.Yaml
