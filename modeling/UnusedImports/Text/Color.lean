import UnusedImports.Text.Bytes

/-! Terminal colors are escape sequences around a text. -/

namespace UnusedImports

/-- A terminal style, by the numbers of its attributes. -/
structure Style where
  codes : List Nat

namespace Style

def bold : Style := ⟨[1]⟩

def boldCyan : Style := ⟨[36, 1]⟩

def boldRed : Style := ⟨[31, 1]⟩

def red : Style := ⟨[31]⟩

def green : Style := ⟨[32]⟩

def yellow : Style := ⟨[33]⟩

def cyan : Style := ⟨[36]⟩

def gray : Style := ⟨[90]⟩

def sequence (codes : List Nat) : Bytes :=
  utf8 "\x1b[" ++ Bytes.join (utf8 ";") (codes.map Bytes.ofNat) ++ utf8 "m"

/-- The number that switches an attribute off: weight has its own, all others share one. -/
def off (code : Nat) : Nat := if code = 1 then 22 else 0

/-- A text in a style, if colors are on. -/
def paint (style : Style) (colors : Bool) (s : Bytes) : Bytes :=
  if colors then sequence style.codes ++ s ++ sequence (style.codes.map off) else s

end Style

end UnusedImports
