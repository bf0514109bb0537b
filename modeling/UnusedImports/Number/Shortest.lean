import UnusedImports.Number.Binary64
import UnusedImports.Text.Bytes

/-! The decimal with the fewest digits among those that round to a floating-point number, and of
these the nearest. -/

namespace UnusedImports.Shortest

/-- The decimal `digits * 10 ^ exponent`. -/
structure Decimal where
  digits : Nat
  exponent : Int
  deriving DecidableEq, Repr

/-- The smallest power of ten, counted up from a start, that lifts a quotient to one. -/
def lift (n d : Nat) : Nat → Nat → Nat
  | 0, k => k
  | fuel + 1, k => if d ≤ n * Nat.pow 10 k then k else lift n d fuel (k + 1)

/-- The exponent of the largest power of ten that a positive quotient reaches. -/
def magnitude (n d : Nat) : Int :=
  if d ≤ n then ((Nat.repr (n / d)).length : Int) - 1 else -(lift n d 400 1 : Int)

def compareRatio (x : Decimal) (n d : Nat) : Ordering :=
  if 0 ≤ x.exponent then compare (x.digits * Nat.pow 10 x.exponent.toNat * d) n
  else compare (x.digits * d) (n * Nat.pow 10 (-x.exponent).toNat)

/-- The reals that round to a number: their ends as numerators over a common denominator, and
whether the ends belong to them. -/
structure Interval where
  low : Nat
  high : Nat
  denominator : Nat
  closed : Bool

/-- The interval of a number. Below a power of two the numbers stand closer. -/
def interval (x : Binary64) : Interval :=
  let (m, e) := if x.mantissa = 0x20000000000000 then (0x10000000000000, x.exponent + 1)
    else (x.mantissa, x.exponent)
  let below := if m = 0x10000000000000 && -1074 < e then 1 else 2
  let scale := Nat.pow 2 (e - 2).toNat
  { low := (4 * m - below) * scale
    high := (4 * m + 2) * scale
    denominator := Nat.pow 2 (2 - e).toNat
    closed := m % 2 = 0 }

def Interval.contains (i : Interval) (x : Decimal) : Bool :=
  match compareRatio x i.low i.denominator, compareRatio x i.high i.denominator with
  | .gt, .lt => true
  | .eq, _ => i.closed
  | _, .eq => i.closed
  | _, _ => false

/-- The nearest decimal with a given power of ten that lies in the interval of a number, if one of
the number's two neighbours does. -/
def onGrid? (x : Binary64) (exponent : Int) : Option Decimal :=
  let n := x.numerator
  let d := x.denominator
  let (a, b) := if 0 ≤ exponent then (n, d * Nat.pow 10 exponent.toNat)
    else (n * Nat.pow 10 (-exponent).toNat, d)
  let down : Decimal := ⟨a / b, exponent⟩
  let up : Decimal := ⟨a / b + 1, exponent⟩
  let i := interval x
  match i.contains down, i.contains up with
  | true, true =>
    let twice := 2 * (a % b)
    some (if twice < b || (twice = b && down.digits % 2 = 0) then down else up)
  | true, false => some down
  | false, true => some up
  | false, false => none

def search (x : Binary64) (top : Int) : Nat → Nat → Decimal
  | 0, digits => ⟨x.floor, 0⟩ |> fun whole => (onGrid? x (top - digits + 1)).getD whole
  | fuel + 1, digits =>
    match onGrid? x (top - digits + 1) with
    | some r => r
    | none => search x top fuel (digits + 1)

/-- A decimal without zeros at its end. -/
def trim : Nat → Decimal → Decimal
  | 0, x => x
  | fuel + 1, x =>
    if x.digits ≠ 0 && x.digits % 10 = 0 then trim fuel ⟨x.digits / 10, x.exponent + 1⟩ else x

def decimal (x : Binary64) : Decimal :=
  if x.mantissa = 0 then ⟨0, 0⟩
  else trim 20 (search x (magnitude x.numerator x.denominator) 17 1)

def positional (x : Decimal) : Bytes :=
  let digits := Bytes.ofNat x.digits
  if x.digits = 0 then utf8 "0"
  else if 0 ≤ x.exponent then digits ++ List.replicate x.exponent.toNat 0x30
  else
    let places := (-x.exponent).toNat
    let padded := List.replicate (places + 1 - digits.length) 0x30 ++ digits
    padded.take (padded.length - places) ++ utf8 "." ++ padded.drop (padded.length - places)

/-- An exponent with its sign and at least two digits. -/
def signedExponent (e : Int) : Bytes :=
  let digits := Bytes.ofNat e.natAbs
  utf8 (if e < 0 then "-" else "+") ++ List.replicate (2 - digits.length) 0x30 ++ digits

def scientific (x : Decimal) : Bytes :=
  let digits := Bytes.ofNat x.digits
  let fraction := digits.drop 1
  digits.take 1 ++ (if fraction.isEmpty then [] else utf8 "." ++ fraction) ++ utf8 "e" ++
    signedExponent (x.exponent + (digits.length : Int) - 1)

/-- A decimal in scientific notation if it is small or large enough: below a ten-thousandth or from
the twenty-first power of ten on. -/
def general (x : Decimal) (large : Int) : Bytes :=
  let e := x.exponent + ((Bytes.ofNat x.digits).length : Int) - 1
  if x.digits ≠ 0 && (e < -4 || large ≤ e) then scientific x else positional x

end UnusedImports.Shortest
