namespace UnusedImports.CodePoint

/-- Tests whether a code point lies in one of the given closed ranges. -/
def within (ranges : List (Nat × Nat)) (c : Nat) : Bool :=
  ranges.any fun r => r.1 ≤ c && c ≤ r.2

/-- The code point that stands for a byte sequence which encodes nothing. -/
def replacement : Nat := 0xfffd

/-- The code point that some editors write in front of a text. -/
def byteOrderMark : Nat := 0xfeff

/-- The code points of the Unicode property `White_Space`. -/
def blanks : List (Nat × Nat) :=
  [(0x9, 0xd), (0x20, 0x20), (0x85, 0x85), (0xa0, 0xa0), (0x1680, 0x1680), (0x2000, 0x200a),
   (0x2028, 0x2029), (0x202f, 0x202f), (0x205f, 0x205f), (0x3000, 0x3000)]

def isBlank (c : Nat) : Bool := within blanks c

end UnusedImports.CodePoint
