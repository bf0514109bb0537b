import UnusedImports.Json.Printer
import UnusedImports.Text.Printable

namespace UnusedImports.Quoted

/-- Tests whether a code point can be seen; the blank counts. -/
def isPrintable (c : Nat) : Bool := c == 0x20 || CodePoint.isGraphic c

def hex : Nat → Nat → Bytes
  | 0, _ => []
  | places + 1, n => hex places (n / 16) ++ [Json.hexDigit (n % 16)]

def escape (c : Nat) : Bytes :=
  if c == 0x22 || c == 0x5c then [Bytes.backslash, UInt8.ofNat c]
  else if isPrintable c then Utf8.encode c
  else if c == 0x07 then utf8 "\\a"
  else if c == 0x08 then utf8 "\\b"
  else if c == 0x0c then utf8 "\\f"
  else if c == 0x0a then utf8 "\\n"
  else if c == 0x0d then utf8 "\\r"
  else if c == 0x09 then utf8 "\\t"
  else if c == 0x0b then utf8 "\\v"
  else if c < 0x20 || c == 0x7f then utf8 "\\x" ++ hex 2 c
  else if c < 0x10000 then utf8 "\\u" ++ hex 4 c
  else utf8 "\\U" ++ hex 8 c

/-- A text between quotes. A byte that encodes nothing is written by its value. -/
def quote (s : Bytes) : Bytes :=
  let body := (Utf8.units s).flatMap fun u =>
    match u.2 with
    | [b] => if u.1 == CodePoint.replacement then utf8 "\\x" ++ hex 2 b.toNat else escape u.1
    | _ => escape u.1
  [Bytes.doubleQuote] ++ body ++ [Bytes.doubleQuote]

end UnusedImports.Quoted
