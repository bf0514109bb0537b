import UnusedImports.Number.Integer

/-! A scalar without quotes may stand for something else than its text. -/

namespace UnusedImports.Yaml

/-- What a plain scalar stands for. -/
inductive Resolved where
  | null
  | bool (value : Bool)
  | int (value : Int)
  | decimal (mantissa exponent : Int)
  | special
  | timestamp
  | text
  deriving DecidableEq

def isOneOf (words : List String) (s : Bytes) : Bool := words.any fun w => s == utf8 w

def word? (s : Bytes) : Option Resolved :=
  if isOneOf ["true", "True", "TRUE"] s then some (.bool true)
  else if isOneOf ["false", "False", "FALSE"] s then some (.bool false)
  else if isOneOf ["", "~", "null", "Null", "NULL"] s then some .null
  else if isOneOf [".nan", ".NaN", ".NAN", ".inf", ".Inf", ".INF", "+.inf", "+.Inf", "+.INF",
      "-.inf", "-.Inf", "-.INF"] s then some .special
  else none

/-- The number that digits denote in a base; there must be some. -/
def number? (base : Nat) (s : Bytes) : Option Nat :=
  if s.isEmpty then none
  else s.foldlM (fun n b => (Integer.digit? base b).map fun d => n * base + d) 0

/-- The number after a sign, in the base that its first characters tell. -/
def magnitude? (s : Bytes) : Option Nat :=
  match s with
  | 0x30 :: p :: rest =>
    if p == 0x78 || p == 0x58 then number? 16 rest
    else if p == 0x62 || p == 0x42 then number? 2 rest
    else if p == 0x6f || p == 0x4f then number? 8 rest
    else number? 8 (p :: rest)
  | _ => number? 10 s

/-- A number with its sign, if it fits 64 bits with sign. -/
def signed? (negative : Bool) (n : Nat) : Option Int :=
  if negative then (if n ≤ 0x8000000000000000 then some (-(n : Int)) else none)
  else if n < 0x8000000000000000 then some n
  else none

/-- The whole number a text denotes. With a sign it must fit 64 bits with sign, without one it may
also fit them without. The sign may also follow the mark of base two or eight. -/
def integer? (s : Bytes) : Option Int :=
  let (negative, rest) := Integer.splitSign s
  match magnitude? rest with
  | some n =>
    (signed? negative n).orElse fun _ =>
      if rest.length == s.length && n < 0x10000000000000000 then some n else none
  | none =>
    match s with
    | 0x30 :: base :: sign :: digits =>
      if (base == 0x62 || base == 0x6f) && (sign == 0x2b || sign == 0x2d) then
        (number? (if base == 0x62 then 2 else 8) digits).bind (signed? (sign == 0x2d))
      else none
    | _ => none

/-- Tests whether `mantissa * 10 ^ exponent` is too large for a double. -/
def overflows (mantissa : Nat) (exponent : Int) : Bool :=
  let limit : Nat := Nat.pow 2 1024 - Nat.pow 2 970
  if mantissa = 0 then false
  else if exponent < 0 then
    if exponent < -10000 then mantissa.log2 > 50000
    else limit * Nat.pow 10 exponent.natAbs ≤ mantissa
  else exponent > 400 || limit ≤ mantissa * Nat.pow 10 exponent.toNat

/-- Tests whether underscores stand between digits only. The flag tells whether a digit came
last. -/
def separates : Bool → Bytes → Bool
  | _, [] => true
  | afterDigit, b :: s =>
    if b == 0x5f then afterDigit && s.head?.any Bytes.isDigit && separates false s
    else separates (Bytes.isDigit b) s

/-- The decimal number a text denotes: digits with or without a point, and an exponent. -/
def decimal? (s : Bytes) : Option (Int × Int) :=
  let (negative, s) := Integer.splitSign s
  let whole := s.takeWhile Bytes.isDigit
  let s := s.dropWhile Bytes.isDigit
  let pointed := s.head? == some 0x2e
  let places := if pointed then s.tail.takeWhile Bytes.isDigit else []
  let s := if pointed then s.tail.dropWhile Bytes.isDigit else s
  let scaled := s.head?.any fun b => b == 0x65 || b == 0x45
  let (down, power) := if scaled then Integer.splitSign s.tail else (false, [])
  if (whole.isEmpty && places.isEmpty) || (scaled && (power.isEmpty || !power.all Bytes.isDigit)) ||
      (!scaled && !s.isEmpty) then none
  else
    let mantissa := Bytes.digitsValue (whole ++ places)
    let shift : Int := Bytes.digitsValue power
    let exponent : Int := (if down then -shift else shift) - places.length
    if overflows mantissa exponent then none
    else some (if negative then -(mantissa : Int) else mantissa, exponent)

def daysOfMonth (year month : Nat) : Nat :=
  if month == 2 then
    if year % 4 == 0 && (year % 100 != 0 || year % 400 == 0) then 29 else 28
  else if month == 4 || month == 6 || month == 9 || month == 11 then 30
  else 31

/-- One or two digits in front of a text, as a number, and the rest. -/
def shortNumber? (s : Bytes) : Option (Nat × Bytes) :=
  match s with
  | a :: b :: rest =>
    if Bytes.isDigit a then
      if Bytes.isDigit b then some (Bytes.digitsValue [a, b], rest)
      else some (Bytes.digitsValue [a], b :: rest)
    else none
  | [a] => if Bytes.isDigit a then some (Bytes.digitsValue [a], []) else none
  | [] => none

/-- A text without the given byte in front. -/
def dropByte? (b : UInt8) (s : Bytes) : Option Bytes :=
  if s.head? == some b then some s.tail else none

/-- Tests for the offset of a time zone: `Z`, or a sign, two digits, a colon and two digits. -/
def isZone (s : Bytes) : Bool :=
  match s with
  | [0x5a] => true
  | [sign, a, b, 0x3a, c, d] =>
    (sign == 0x2b || sign == 0x2d) && [a, b, c, d].all Bytes.isDigit &&
      Bytes.digitsValue [a, b] ≤ 24 && Bytes.digitsValue [c, d] ≤ 60
  | _ => false

def dropTime? (s : Bytes) : Option Bytes := do
  let (hour, s) ← shortNumber? s
  let s ← dropByte? 0x3a s
  let (minute, s) ← shortNumber? s
  let s ← dropByte? 0x3a s
  let (second, s) ← shortNumber? s
  guard (hour < 24 && minute < 60 && second < 60)
  match s with
  | p :: d :: rest =>
    if (p == 0x2e || p == 0x2c) && Bytes.isDigit d then
      return rest.dropWhile Bytes.isDigit
    else return s
  | _ => return s

/-- Tests for a date with a four-digit year, alone or with a time of day: after a `T` with a time
zone, after blanks without one. -/
def isTimestamp (s : Bytes) : Bool :=
  let year := s.takeWhile Bytes.isDigit
  let parsed : Option Bool := do
    guard (year.length == 4)
    let rest ← dropByte? 0x2d (s.drop 4)
    let (month, rest) ← shortNumber? rest
    let rest ← dropByte? 0x2d rest
    let (day, rest) ← shortNumber? rest
    guard (1 ≤ month && month ≤ 12 && 1 ≤ day &&
      day ≤ daysOfMonth (Bytes.digitsValue year) month)
    match rest with
    | [] => return true
    | t :: rest =>
      if t == 0x20 then return (← dropTime? (rest.dropWhile (· == 0x20))).isEmpty
      else return (t == 0x54 || t == 0x74) && isZone (← dropTime? rest)
  parsed.getD false

def resolve (s : Bytes) : Resolved :=
  match s with
  | [] => .null
  | b :: _ =>
    let numeric := Bytes.isDigit b || b == 0x2b || b == 0x2d
    if numeric || b == 0x2e || "yYnNtTfFoO~".toList.any (fun c => c.toUInt8 == b) then
      match word? s with
      | some r => r
      | none =>
        if b == 0x2e then
          match if separates false s then decimal? (s.filter (· != 0x5f)) else none with
          | some (m, e) => .decimal m e
          | none => .text
        else if numeric then
          if isTimestamp s then .timestamp
          else
            let plain := s.filter (· != 0x5f)
            match integer? plain with
            | some n => .int n
            | none =>
              match decimal? plain with
              | some (m, e) => .decimal m e
              | none => .text
        else .text
    else .text

/-- The words that older versions of the format took for truth values. -/
def isOldBool (s : Bytes) : Bool :=
  isOneOf ["y", "Y", "yes", "Yes", "YES", "on", "On", "ON", "n", "N", "no", "No", "NO", "off",
    "Off", "OFF"] s

/-- Tests for digits up to two groups of sixty after colons, which older versions took for
numbers. -/
def isSexagesimal (s : Bytes) : Bool :=
  let (_, s) := Integer.splitSign s
  let first := s.takeWhile fun b => Bytes.isDigit b || b == 0x5f
  let rest := s.dropWhile fun b => Bytes.isDigit b || b == 0x5f
  match rest with
  | 0x3a :: rest =>
    let groups := rest.splitOn 0x3a
    let group (g : Bytes) : Bool :=
      match g with
      | [a] => Bytes.isDigit a
      | [a, b] => 0x30 ≤ a && a ≤ 0x35 && Bytes.isDigit b
      | _ => false
    let last := groups.getLast?.getD []
    let lastWhole := last.takeWhile (· != 0x2e)
    let lastRest := last.dropWhile (· != 0x2e)
    first.head?.any Bytes.isDigit && groups.dropLast.all group && group lastWhole &&
      (lastRest.isEmpty || lastRest.tail.all fun b => Bytes.isDigit b || b == 0x5f)
  | _ => false

/-- Tests whether a text, written without quotes, is read as that text by any version. -/
def readsAsText (s : Bytes) : Bool :=
  resolve s == .text && !isOldBool s && !isSexagesimal s

end UnusedImports.Yaml
