import UnusedImports.Text.DecimalDigit
import UnusedImports.Text.Letter
import UnusedImports.Text.Mark

/-! Which code points may start an identifier and which may continue it. -/

namespace UnusedImports.Identifier

/-- Tests whether a code point may start an identifier. -/
def isStart (c : Nat) : Bool :=
  if c < 0x80 then
    c == 0x5f || c == 0x24 || (0x61 ≤ c && c ≤ 0x7a) || (0x41 ≤ c && c ≤ 0x5a)
  else CodePoint.isLetter c

/-- Tests whether a code point may stand in an identifier after its start. -/
def isContinue (c : Nat) : Bool :=
  if c < 0x80 then isStart c || (0x30 ≤ c && c ≤ 0x39)
  else CodePoint.isLetter c || CodePoint.isDecimalDigit c || CodePoint.isMark c

end UnusedImports.Identifier
