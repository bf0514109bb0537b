import UnusedImports.Json.Basic
import UnusedImports.Text.Utf8

/-! Two layouts, on one line and indented. The `markup` variant of quoting escapes `<`, `>` and `&`.
-/

namespace UnusedImports.Json

def hexDigit (n : Nat) : UInt8 := UInt8.ofNat (if n < 10 then 0x30 + n else 0x57 + n)

/-- The escape of a code point below 65536 by its four hexadecimal digits. -/
def unicodeEscape (c : Nat) : Bytes :=
  [Bytes.backslash, 0x75, hexDigit (c / 4096 % 16), hexDigit (c / 256 % 16), hexDigit (c / 16 % 16),
   hexDigit (c % 16)]

/-- How a code point is written between quotes. The two line separators are always escaped. -/
def quotePoint (markup : Bool) (c : Nat) : Bytes :=
  if c == 0x22 || c == 0x5c then [Bytes.backslash, UInt8.ofNat c]
  else if c == 0x08 then utf8 "\\b"
  else if c == 0x0c then utf8 "\\f"
  else if c == 0x0a then utf8 "\\n"
  else if c == 0x0d then utf8 "\\r"
  else if c == 0x09 then utf8 "\\t"
  else if c < 0x20 || c == 0x2028 || c == 0x2029 then unicodeEscape c
  else if markup && (c == 0x3c || c == 0x3e || c == 0x26) then unicodeEscape c
  else Utf8.encode c

/-- A text between quotes. A byte that encodes nothing is written as the escape of the replacement
code point. -/
def quote (markup : Bool) (s : Bytes) : Bytes :=
  let body := (Utf8.units s).flatMap fun u =>
    if u.1 == CodePoint.replacement && u.2.length == 1 then unicodeEscape u.1
    else quotePoint markup u.1
  [Bytes.doubleQuote] ++ body ++ [Bytes.doubleQuote]

mutual

/-- A value on one line without blanks. -/
def compact (markup : Bool) : Json → Bytes
  | .null => utf8 "null"
  | .bool b => utf8 (if b then "true" else "false")
  | .number t => t
  | .string s => quote markup s
  | .array items => utf8 "[" ++ compactItems markup items ++ utf8 "]"
  | .object members => utf8 "\x7b" ++ compactMembers markup members ++ utf8 "\x7d"

def compactItems (markup : Bool) : List Json → Bytes
  | [] => []
  | [v] => compact markup v
  | v :: vs => compact markup v ++ utf8 "," ++ compactItems markup vs

def compactMembers (markup : Bool) : List (Bytes × Json) → Bytes
  | [] => []
  | [(k, v)] => quote markup k ++ utf8 ":" ++ compact markup v
  | (k, v) :: vs => quote markup k ++ utf8 ":" ++ compact markup v ++ utf8 "," ++
      compactMembers markup vs

end

def breakLine (level : Nat) : Bytes := Bytes.newline :: List.replicate (2 * level) 0x20

mutual

/-- A value with each item and member on a line of its own, indented by two blanks a level. Empty
arrays and objects stay on one line. -/
def pretty (level : Nat) : Json → Bytes
  | .array (v :: vs) =>
    utf8 "[" ++ prettyItems (level + 1) (v :: vs) ++ breakLine level ++ utf8 "]"
  | .object (m :: ms) =>
    utf8 "\x7b" ++ prettyMembers (level + 1) (m :: ms) ++ breakLine level ++ utf8 "\x7d"
  | v => compact true v

/-- The items of an array, each on its line. -/
def prettyItems (level : Nat) : List Json → Bytes
  | [] => []
  | [v] => breakLine level ++ pretty level v
  | v :: vs => breakLine level ++ pretty level v ++ utf8 "," ++ prettyItems level vs

/-- The members of an object, each on its line. -/
def prettyMembers (level : Nat) : List (Bytes × Json) → Bytes
  | [] => []
  | [(k, v)] => breakLine level ++ quote true k ++ utf8 ": " ++ pretty level v
  | (k, v) :: ms => breakLine level ++ quote true k ++ utf8 ": " ++ pretty level v ++ utf8 "," ++
      prettyMembers level ms

end

end UnusedImports.Json
