import UnusedImports.Log.Record
import UnusedImports.Number.Wrap
import UnusedImports.Text.Utf8

namespace UnusedImports.Log.Level

def named : List (String × Level) :=
  [("DEBUG", .debug), ("INFO", .info), ("WARN", .warn), ("ERROR", .error)]

/-- The upper-case form of a code point, as far as it is an ASCII letter. The dotless `i` has one
too. -/
def upper (c : Nat) : Nat :=
  if 0x61 ≤ c && c ≤ 0x7a then c - 0x20 else if c == 0x131 then 0x49 else c

def ofName? (name : Bytes) : Option Level :=
  let upperName := Utf8.ofCodePoints ((Utf8.codePoints name).map upper)
  (named.find? fun n => utf8 n.1 == upperName).map (·.2)

def offset? (s : Bytes) : Option Int :=
  match s with
  | sign :: digits =>
    if digits.isEmpty || !digits.all Bytes.isDigit then none
    else
      let n := Bytes.digitsValue digits
      if sign == 0x2d then (if n ≤ 0x8000000000000000 then some (-(n : Int)) else none)
      else if n < 0x8000000000000000 then some n else none
  | [] => none

/-- The level that a text denotes: a name in any case, perhaps with a signed distance. -/
def parse? (s : Bytes) : Option Level :=
  let isSign (b : UInt8) : Bool := b == 0x2b || b == 0x2d
  let name := s.takeWhile fun b => !isSign b
  let rest := s.drop name.length
  if rest.isEmpty then ofName? name
  else
    match offset? rest, ofName? name with
    | some n, some l => some ⟨Integer.wrap (l.value + n)⟩
    | _, _ => none

def describe (name : String) (distance : Int) : Bytes :=
  utf8 name ++ (if distance = 0 then []
    else if 0 < distance then utf8 "+" ++ Bytes.ofInt distance else Bytes.ofInt distance)

def render (l : Level) : Bytes :=
  if l.value < info.value then describe "DEBUG" (l.value - debug.value)
  else if l.value < warn.value then describe "INFO" (l.value - info.value)
  else if l.value < error.value then describe "WARN" (l.value - warn.value)
  else describe "ERROR" (l.value - error.value)

end UnusedImports.Log.Level
