import UnusedImports.Number.Binary64
import UnusedImports.Number.Wrap
import UnusedImports.Text.DecimalDigit
import UnusedImports.Text.LowerCase
import UnusedImports.Text.Quoted
import UnusedImports.Text.Trim

/-! A size is a decimal number with a unit, such as `1.5 MiB`. It is computed in floating-point
numbers and used as a number of 64 bits with sign. -/

namespace UnusedImports.FileSize

/-- Why a text is no size. -/
inductive Problem where
  | notANumber (digits : Bytes)
  | outOfRange (digits : Bytes)
  | unknownUnit (name : Bytes)
  | tooLarge (text : Bytes)
  deriving DecidableEq, Repr

/-- What is said about a text that is no size. -/
def Problem.message : Problem → Bytes
  | .notANumber digits =>
    utf8 "strconv.ParseFloat: parsing " ++ Quoted.quote digits ++ utf8 ": invalid syntax"
  | .outOfRange digits =>
    utf8 "strconv.ParseFloat: parsing " ++ Quoted.quote digits ++ utf8 ": value out of range"
  | .unknownUnit name => utf8 "unhandled size name: " ++ name
  | .tooLarge text => utf8 "too large: " ++ text

/-- The letters of the units, each a thousand times the one before. -/
def unitLetters : List String := ["k", "m", "g", "t", "p", "e"]

def units : List (String × Nat) :=
  [("", 1), ("b", 1)] ++ (unitLetters.zipIdx 1).flatMap fun (letter, power) =>
    [(letter, Nat.pow 1000 power), (letter ++ "b", Nat.pow 1000 power),
      (letter ++ "i", Nat.pow 1024 power), (letter ++ "ib", Nat.pow 1024 power)]

def unit? (name : Bytes) : Option Nat := (units.find? fun u => utf8 u.1 == name).map (·.2)

def isNumeric (c : Nat) : Bool := CodePoint.isDecimalDigit c || c == 0x2e || c == 0x2c

/-- Length of the number in front: one byte for each of its code points. -/
def numberLength (s : Bytes) : Nat := ((Utf8.codePoints s).takeWhile isNumeric).length

/-- The number that digits with at most one point denote. -/
def decimal? (digits : Bytes) : Option (Nat × Int) :=
  let whole := digits.takeWhile Bytes.isDigit
  let rest := digits.dropWhile Bytes.isDigit
  let places := rest.drop 1
  if (whole.isEmpty && places.isEmpty) || !places.all Bytes.isDigit || rest.head?.any (· != 0x2e)
  then none
  else some (Bytes.digitsValue (whole ++ places), -(places.length : Int))

def bytes (s : Bytes) : Except Problem Nat :=
  let n := numberLength s
  let digits := (s.take n).filter (· != 0x2c)
  match decimal? digits with
  | none => .error (.notANumber digits)
  | some (mantissa, exponent) =>
    let number := Binary64.ofDecimal mantissa exponent
    if Nat.pow 2 1024 ≤ number.floor then .error (.outOfRange digits)
    else
      let name := Bytes.toLower (Bytes.trim (s.drop n))
      match unit? name with
      | none => .error (.unknownUnit name)
      | some unit =>
        let size := (number.mul (Binary64.ofNat unit)).floor
        if 0x10000000000000000 ≤ size then .error (.tooLarge s) else .ok size

/-- A number of 64 bits without sign, read as one with sign. -/
def signed (n : Nat) : Int := Integer.wrap n

/-- The limit that a setting denotes; blank texts and `0` mean none. -/
def limit (s : Bytes) : Except Problem Int :=
  if Bytes.isBlank s || s == utf8 "0" then .ok 0 else (bytes s).map signed

end UnusedImports.FileSize
