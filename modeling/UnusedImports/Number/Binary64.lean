/-! The nonnegative finite numbers of the 64-bit floating-point format. Operations round the exact
result to the nearest number, a tie to the even mantissa. -/

namespace UnusedImports

/-- The number `mantissa * 2 ^ exponent`. -/
structure Binary64 where
  /-- A whole number of at most 53 binary digits. -/
  mantissa : Nat
  exponent : Int
  deriving DecidableEq, Repr

namespace Binary64

/-- The whole number nearest to a quotient; of two the even one. -/
def roundQuotient (n d : Nat) : Nat :=
  let q := n / d
  let twice := 2 * (n % d)
  if twice < d then q
  else if d < twice then q + 1
  else if q % 2 = 0 then q else q + 1

/-- A quotient divided by a power of two, as a quotient. -/
def scaleDown (n d : Nat) (e : Int) : Nat × Nat :=
  if 0 ≤ e then (n, d * Nat.pow 2 e.toNat) else (n * Nat.pow 2 (-e).toNat, d)

def ofRatio (n d : Nat) : Binary64 :=
  if n = 0 then ⟨0, 0⟩
  else
    let e : Int := max ((n.log2 : Int) - d.log2 - 53) (-1074)
    let (a, b) := scaleDown n d e
    if a / b < 0x20000000000000 then ⟨roundQuotient a b, e⟩
    else
      let (a, b) := scaleDown n d (e + 1)
      ⟨roundQuotient a b, e + 1⟩

def ofNat (n : Nat) : Binary64 := ofRatio n 1

/-- The number nearest to `mantissa * 10 ^ exponent`. -/
def ofDecimal (mantissa : Nat) (exponent : Int) : Binary64 :=
  if 0 ≤ exponent then ofNat (mantissa * Nat.pow 10 exponent.toNat)
  else ofRatio mantissa (Nat.pow 10 (-exponent).toNat)

def numerator (x : Binary64) : Nat := x.mantissa * Nat.pow 2 x.exponent.toNat

def denominator (x : Binary64) : Nat := Nat.pow 2 (-x.exponent).toNat

def add (x y : Binary64) : Binary64 :=
  ofRatio (x.numerator * y.denominator + y.numerator * x.denominator) (x.denominator * y.denominator)

def distance (x y : Binary64) : Binary64 :=
  let a := x.numerator * y.denominator
  let b := y.numerator * x.denominator
  ofRatio (max a b - min a b) (x.denominator * y.denominator)

def mul (x y : Binary64) : Binary64 :=
  ofRatio (x.numerator * y.numerator) (x.denominator * y.denominator)

def div (x y : Binary64) : Binary64 :=
  ofRatio (x.numerator * y.denominator) (x.denominator * y.numerator)

def floor (x : Binary64) : Nat := x.numerator / x.denominator

/-- Tests whether a number is at most another. -/
def le (x y : Binary64) : Bool := x.numerator * y.denominator ≤ y.numerator * x.denominator

end Binary64

end UnusedImports
