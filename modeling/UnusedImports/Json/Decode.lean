import UnusedImports.Json.Basic
import UnusedImports.Text.Utf8

/-! Values read as records. A missing member counts as `null`, which stands for the empty value of
any type. -/

namespace UnusedImports.Json

/-- A name in lower case, in which the two other code points that are cases of ASCII letters, the
long s and the sign of Kelvin, count as these letters. -/
def foldCase (s : Bytes) : Bytes :=
  Utf8.ofCodePoints <| (Utf8.codePoints s).map fun c =>
    if 0x41 ≤ c && c ≤ 0x5a then c + 0x20
    else if c = 0x17f then 0x73
    else if c = 0x212a then 0x6b
    else c

/-- The integer that a number is written as, if it is written with digits only and fits 64 bits. -/
def integer? (text : Bytes) : Option Int :=
  let negative := text.head? == some 0x2d
  let digits := if negative then text.tail else text
  let n : Int := if negative then -(Bytes.digitsValue digits : Int) else Bytes.digitsValue digits
  if digits.all Bytes.isDigit && -0x8000000000000000 ≤ n && n < 0x8000000000000000 then some n
  else none

/-- The values of the members of a name, in order. -/
def fields (j : Json) (name : String) : List Json :=
  match j with
  | .object ms => (ms.filter fun m => foldCase m.1 == foldCase (utf8 name)).map (·.2)
  | _ => []

/-- The value of a member: the last one of its name. -/
def field (j : Json) (name : String) : Json := ((j.fields name).getLast?).getD .null

def isRecord : Json → Bool
  | .object _ => true
  | .null => true
  | _ => false

def text? : Json → Option Bytes
  | .string s => some s
  | .null => some []
  | _ => none

def bounded? (low high : Int) : Json → Option Int
  | .number t => (integer? t).filter fun n => low ≤ n && n ≤ high
  | .null => some 0
  | _ => none

/-- A value read as a number of 32 bits without sign. -/
def count? (j : Json) : Option Nat := (bounded? 0 0xffffffff j).map Int.toNat

def items? : Json → Option (List Json)
  | .array xs => some xs
  | .null => some []
  | _ => none

end UnusedImports.Json
