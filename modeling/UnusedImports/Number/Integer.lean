import UnusedImports.Text.Bytes

/-! Whole numbers as they are written, in the base that their first digits tell. -/

namespace UnusedImports.Integer

/-- Why a text is no whole number. -/
inductive Fault where
  | malformed
  | outOfRange
  deriving DecidableEq, Repr

/-- What is said about a text that is no whole number. -/
def Fault.message : Fault → Bytes
  | .malformed => utf8 "invalid syntax"
  | .outOfRange => utf8 "value out of range"

def digit? (base : Nat) (b : UInt8) : Option Nat :=
  let v := if Bytes.isDigit b then b.toNat - 0x30
    else if 0x61 ≤ b && b ≤ 0x66 then b.toNat - 0x57
    else if 0x41 ≤ b && b ≤ 0x46 then b.toNat - 0x37
    else 16
  if v < base then some v else none

/-- The sign in front of a number, and the rest. -/
def splitSign (s : Bytes) : Bool × Bytes :=
  match s with
  | 0x2d :: rest => (true, rest)
  | 0x2b :: rest => (false, rest)
  | _ => (false, s)

/-- The base that the first characters of a number tell, and the digits in this base. -/
def splitBase (s : Bytes) : Nat × Bytes :=
  match s with
  | 0x30 :: p :: d :: rest =>
    if p == 0x78 || p == 0x58 then (16, d :: rest)
    else if p == 0x62 || p == 0x42 then (2, d :: rest)
    else if p == 0x6f || p == 0x4f then (8, d :: rest)
    else (8, p :: d :: rest)
  | 0x30 :: rest => (8, rest)
  | _ => (10, s)

/-- Tests whether underscores stand between digits only. A digit may have come before. -/
def separates (before : Bool) : Bytes → Bool
  | [] => true
  | 0x5f :: rest => before && rest.head?.any (· != 0x5f) && separates false rest
  | _ :: rest => separates true rest

/-- Tests whether underscores in a number without sign stand between digits only, or after the
sign of its base. -/
def separatesDigits (s : Bytes) : Bool :=
  match s with
  | 0x30 :: p :: rest =>
    if [0x62, 0x42, 0x6f, 0x4f, 0x78, 0x58].elem p then separates true rest
    else separates true (p :: rest)
  | _ => separates false s

/-- The value of digits in a base, underscores aside. -/
def value (base : Nat) (digits : Bytes) : Nat :=
  digits.foldl (fun n b => match digit? base b with
    | some d => n * base + d
    | none => n) 0

/-- The whole number of 64 bits with sign that a text denotes. Digits that denote too large a number
are out of range whatever follows them. -/
def read (s : Bytes) : Except Fault Int :=
  let (negative, rest) := splitSign s
  let (base, digits) := splitBase rest
  let leading := digits.takeWhile fun b => b == 0x5f || (digit? base b).isSome
  let n := value base leading
  if rest.isEmpty then .error .malformed
  else if 0x10000000000000000 ≤ n then .error .outOfRange
  else if leading.length < digits.length || !separatesDigits rest then .error .malformed
  else if negative then (if n ≤ 0x8000000000000000 then .ok (-(n : Int)) else .error .outOfRange)
  else if n < 0x8000000000000000 then .ok n
  else .error .outOfRange

end UnusedImports.Integer
