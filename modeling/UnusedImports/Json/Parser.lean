import UnusedImports.Json.Basic
import UnusedImports.Text.Utf8

/-! A text is cut into lexemes, and a stack of open arrays and objects turns these into a value. -/

namespace UnusedImports.Json

/-- A lexeme of JSON text: one of the six structural characters or a complete scalar. -/
inductive Lexeme where
  | openArray
  | closeArray
  | openObject
  | closeObject
  | colon
  | comma
  | text (value : Bytes)
  | scalar (value : Json)

def isSpace (b : UInt8) : Bool := b == 0x20 || b == 0x09 || b == 0x0a || b == 0x0d

def hexDigit? (b : UInt8) : Option Nat :=
  if Bytes.isDigit b then some (b.toNat - 0x30)
  else if 0x61 ≤ b && b ≤ 0x66 then some (b.toNat - 0x57)
  else if 0x41 ≤ b && b ≤ 0x46 then some (b.toNat - 0x37)
  else none

def hexUnit? (a b c d : UInt8) : Option Nat := do
  let a ← hexDigit? a
  let b ← hexDigit? b
  let c ← hexDigit? c
  let d ← hexDigit? d
  return ((a * 16 + b) * 16 + c) * 16 + d

/-- The number of bytes of a string body up to its closing quote, which follows after the opening
one. Control characters may not stand in it. -/
def bodyLength? : Bytes → Nat → Option Nat
  | [], _ => none
  | [b], n => if b == Bytes.doubleQuote then some n else none
  | b :: c :: s, n =>
    if b == Bytes.doubleQuote then some n
    else if b < 0x20 then none
    else if b == Bytes.backslash then bodyLength? s (n + 2)
    else bodyLength? (c :: s) (n + 1)

def escaped? (b : UInt8) : Option UInt8 :=
  if b == Bytes.doubleQuote || b == Bytes.backslash || b == Bytes.slash then some b
  else if b == 0x62 then some 0x08
  else if b == 0x66 then some 0x0c
  else if b == 0x6e then some 0x0a
  else if b == 0x72 then some 0x0d
  else if b == 0x74 then some 0x09
  else none

/-- Tests for the first half of a surrogate pair. -/
def isHighSurrogate (u : Nat) : Bool := 0xd800 ≤ u && u < 0xdc00

/-- Tests for the second half of a surrogate pair. -/
def isLowSurrogate (u : Nat) : Bool := 0xdc00 ≤ u && u < 0xe000

/-- The code points of a list of UTF-16 units, in which a half pair is the replacement code
point. -/
def unescape? : Bytes → Option Nat → Bytes → Option Bytes
  | [], pending, acc => some (flush pending acc).reverse
  | 0x5c :: 0x75 :: a :: b :: c :: d :: s, pending, acc => do
    let u ← hexUnit? a b c d
    match pending with
    | some high =>
      if isLowSurrogate u then
        unescape? s none
          ((Utf8.encode ((high - 0xd800) * 1024 + (u - 0xdc00) + 0x10000)).reverse ++ acc)
      else if isHighSurrogate u then unescape? s (some u) (flush pending acc)
      else unescape? s none ((Utf8.encode u).reverse ++ flush pending acc)
    | none =>
      if isHighSurrogate u then unescape? s (some u) acc
      else unescape? s none ((Utf8.encode u).reverse ++ acc)
  | 0x5c :: b :: s, pending, acc => do
    let e ← escaped? b
    unescape? s none (e :: flush pending acc)
  | b :: s, pending, acc => unescape? s none (b :: flush pending acc)
where
  /-- Closes a pair of which only the first half came. -/
  flush (pending : Option Nat) (acc : Bytes) : Bytes :=
    match pending with
    | some _ => (Utf8.encode CodePoint.replacement).reverse ++ acc
    | none => acc

def digits (s : Bytes) : Bytes × Bytes := s.span Bytes.isDigit

def numberLength? (s : Bytes) : Option Nat := do
  let (sign, s) := match s with
    | 0x2d :: s => (1, s)
    | s => (0, s)
  let (whole, s) := digits s
  guard (!whole.isEmpty && (whole.length == 1 || whole.head? != some 0x30))
  let (fraction, s) ← match s with
    | 0x2e :: s =>
      let (places, s) := digits s
      if places.isEmpty then none else some (places.length + 1, s)
    | s => some (0, s)
  let exponent ← match s with
    | e :: s =>
      if e == 0x65 || e == 0x45 then
        let (mark, s) := match s with
          | m :: t => if m == 0x2b || m == 0x2d then (2, t) else (1, m :: t)
          | [] => (1, [])
        let (power, _) := digits s
        if power.isEmpty then none else some (power.length + mark)
      else some 0
    | [] => some 0
  return sign + whole.length + fraction + exponent

/-- The lexeme at the front of a text and the number of its bytes after the first. -/
def lexeme? (b : UInt8) (s : Bytes) : Option (Lexeme × Nat) :=
  let word (rest : String) (value : Json) : Option (Lexeme × Nat) :=
    if (utf8 rest).isPrefixOf s then some (.scalar value, (utf8 rest).length) else none
  if b == 0x5b then some (.openArray, 0)
  else if b == 0x5d then some (.closeArray, 0)
  else if b == 0x7b then some (.openObject, 0)
  else if b == 0x7d then some (.closeObject, 0)
  else if b == 0x3a then some (.colon, 0)
  else if b == 0x2c then some (.comma, 0)
  else if b == Bytes.doubleQuote then do
    let n ← bodyLength? s 0
    let text ← unescape? (s.take n) none []
    return (.text (Utf8.repair text), n + 1)
  else if b == 0x6e then word "ull" .null
  else if b == 0x74 then word "rue" (.bool true)
  else if b == 0x66 then word "alse" (.bool false)
  else if b == 0x2d || Bytes.isDigit b then do
    let n ← numberLength? (b :: s)
    return (.scalar (.number ((b :: s).take n)), n - 1)
  else none

/-- Cuts a text into lexemes, in reverse. -/
def lexemes? : Bytes → List Lexeme → Option (List Lexeme)
  | [], acc => some acc
  | b :: s, acc =>
    if isSpace b then lexemes? s acc
    else match lexeme? b s with
      | some (l, n) => lexemes? (s.drop n) (l :: acc)
      | none => none
termination_by s => s.length
decreasing_by
  · simp
  · simp only [List.length_drop, List.length_cons]; omega

/-- An array or object that has not been closed yet, with its items in reverse. -/
inductive Open where
  | array (items : List Json)
  /-- An object and the name whose value comes next. -/
  | object (members : List (Bytes × Json)) (name : Bytes)

/-- What may come next. -/
inductive Expect where
  | value
  | valueOrClose
  | name (members : List (Bytes × Json))
  | nameOrClose
  | colon (members : List (Bytes × Json)) (name : Bytes)
  | after (value : Json)

def maxDepth : Nat := 10000

def build? : List Lexeme → Nat → List Open → Expect → Option Json
  | [], _, [], .after v => some v
  | [], _, _, _ => none
  | l :: ls, depth, stack, expect =>
    match expect, l with
    | .value, .text s | .valueOrClose, .text s => build? ls depth stack (.after (.string s))
    | .value, .scalar v | .valueOrClose, .scalar v => build? ls depth stack (.after v)
    | .value, .openArray | .valueOrClose, .openArray =>
      if depth < maxDepth then build? ls (depth + 1) (.array [] :: stack) .valueOrClose else none
    | .value, .openObject | .valueOrClose, .openObject =>
      if depth < maxDepth then build? ls (depth + 1) stack .nameOrClose else none
    | .valueOrClose, .closeArray =>
      match stack with
      | .array items :: stack => build? ls (depth - 1) stack (.after (.array items.reverse))
      | _ => none
    | .name members, .text s => build? ls depth stack (.colon members s)
    | .nameOrClose, .text s => build? ls depth stack (.colon [] s)
    | .nameOrClose, .closeObject => build? ls (depth - 1) stack (.after (.object []))
    | .colon members name, .colon => build? ls depth (.object members name :: stack) .value
    | .after v, .comma =>
      match stack with
      | .array items :: stack => build? ls depth (.array (v :: items) :: stack) .value
      | .object members name :: stack => build? ls depth stack (.name ((name, v) :: members))
      | [] => none
    | .after v, .closeArray =>
      match stack with
      | .array items :: stack => build? ls (depth - 1) stack (.after (.array (v :: items).reverse))
      | _ => none
    | .after v, .closeObject =>
      match stack with
      | .object members name :: stack =>
        build? ls (depth - 1) stack (.after (.object ((name, v) :: members).reverse))
      | _ => none
    | _, _ => none

def parse? (s : Bytes) : Option Json := do
  let ls ← lexemes? s []
  build? ls.reverse 0 [] .value

end UnusedImports.Json
