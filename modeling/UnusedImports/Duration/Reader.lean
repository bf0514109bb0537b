import UnusedImports.Duration
import UnusedImports.Number.Binary64

/-! Durations as they are written: a sign and numbers with units, such as `1h30m` or `-1.5s`. -/

namespace UnusedImports.Duration

def units : List (String × Nat) :=
  [("ns", 1), ("us", 1000), ("µs", 1000), ("μs", 1000), ("ms", 1000000), ("s", 1000000000),
   ("m", 60000000000), ("h", 3600000000000)]

def unit? (name : Bytes) : Option Nat :=
  (units.find? fun u => utf8 u.1 == name).map (·.2)

/-- A fraction's digits as a whole number with the power of ten it is divided by. Digits that no
longer fit 63 bits are left out. -/
def fractionDigits (digits : Bytes) : Nat × Nat :=
  go digits 0 1
where
  /-- Takes up the next digit. -/
  go : Bytes → Nat → Nat → Nat × Nat
    | [], n, scale => (n, scale)
    | d :: ds, n, scale =>
      let next := n * 10 + (d.toNat - 0x30)
      if 0x7fffffffffffffff / 10 < n || 0x8000000000000000 < next then (n, scale)
      else go ds next (scale * 10)

/-- The length of a number with a fraction in a unit, computed the way floating-point numbers do. -/
def fractionLength (fraction scale unit : Nat) : Nat :=
  ((Binary64.ofNat fraction).mul ((Binary64.ofNat unit).div (Binary64.ofNat scale))).floor

def isNumeric (b : UInt8) : Bool := Bytes.isDigit b || b == 0x2e

/-- The first number with its unit of a text, in nanoseconds, and the rest. -/
def term? (s : Bytes) : Option (Nat × Bytes) :=
  let whole := s.takeWhile Bytes.isDigit
  let rest := s.dropWhile Bytes.isDigit
  let pointed := rest.head? == some 0x2e
  let places := if pointed then rest.tail.takeWhile Bytes.isDigit else []
  let rest := if pointed then rest.tail.dropWhile Bytes.isDigit else rest
  let name := rest.takeWhile fun b => !isNumeric b
  if whole.isEmpty && places.isEmpty then none
  else
    match unit? name with
    | none => none
    | some unit =>
      let (fraction, scale) := fractionDigits places
      let value := Bytes.digitsValue whole * unit
      let total := value + (if 0 < fraction then fractionLength fraction scale unit else 0)
      if value ≤ 0x8000000000000000 && total ≤ 0x8000000000000000 then
        some (total, rest.drop name.length)
      else none

/-- The sum of all numbers with units of a text, added to a start. -/
def terms? (fuel : Nat) (sum : Nat) (s : Bytes) : Option Nat :=
  match fuel, s with
  | _, [] => some sum
  | 0, _ => none
  | fuel + 1, s =>
    match term? s with
    | some (n, rest) => if sum + n ≤ 0x8000000000000000 then terms? fuel (sum + n) rest else none
    | none => none

def parse? (s : Bytes) : Option Duration :=
  let negative := s.head? == some 0x2d
  let body := if negative || s.head? == some 0x2b then s.tail else s
  if body == utf8 "0" then some ⟨0⟩
  else if body.isEmpty then none
  else
    match terms? body.length 0 body with
    | some n =>
      if negative then some ⟨-n⟩ else if n < 0x8000000000000000 then some ⟨n⟩ else none
    | none => none

end UnusedImports.Duration
