import UnusedImports.Yaml.Cursor
import UnusedImports.Yaml.Token

/-! Types are named by URIs, in full or with an abbreviation for the front part. -/

namespace UnusedImports.Yaml.Tag

/-- The byte that is escaped by a percent sign and two digits, and the place after it. -/
def octet? (c : Cursor) : Option (UInt8 × Cursor) :=
  match c.rest with
  | 0x25 :: a :: b :: _ => (hexNumber? [a, b]).map fun n => (UInt8.ofNat n, c.skip 3)
  | _ => none

/-- Some bytes that continue a character, each of them escaped. -/
def tailOctets? : Nat → Cursor → Bytes → Option (Bytes × Cursor)
  | 0, c, octets => some (octets, c)
  | n + 1, c, octets =>
    match octet? c with
    | some (o, c) => if Utf8.isTail o then tailOctets? n c (octets ++ [o]) else none
    | none => none

def escaped? (c : Cursor) : Option (Bytes × Cursor) := do
  let (lead, c) ← octet? c
  guard (leadWidth lead ≠ 0)
  tailOctets? (leadWidth lead - 1) c [lead]

def uri? : Nat → Cursor → Bytes → Option (Bytes × Cursor)
  | 0, c, s => some (s, c)
  | fuel + 1, c, s =>
    match c.peek with
    | none => some (s, c)
    | some p =>
      if p == 0x25 then
        match escaped? c with
        | some (octets, c) => uri? fuel c (s ++ octets)
        | none => none
      else if isUriChar p then uri? fuel (c.skip 1) (s ++ [UInt8.ofNat p])
      else some (s, c)

/-- A piece of a URI that is not empty, and the place after it. -/
def fullUri? (c : Cursor) : Option (Bytes × Cursor) :=
  (uri? c.rest.length c []).filter fun (s, _) => !s.isEmpty

/-- An exclamation mark with the name behind it, perhaps with another mark at its end, and the place
after it. -/
def handle? (c : Cursor) : Option (Bytes × Cursor) :=
  if c.peek == some 0x21 then
    let (name, c) := (c.skip 1).takeWhile isWordChar
    let closed := c.peek == some 0x21
    some (0x21 :: Utf8.ofCodePoints name ++ (if closed then [0x21] else []),
      if closed then c.skip 1 else c)
  else none

/-- Tests for a handle between two marks. -/
def isClosed (handle : Bytes) : Bool := 1 < handle.length && handle.getLast? == some 0x21

/-- The type of a value and the place after it. A mark alone leaves the type open. -/
def tag? (c : Cursor) : Option (Token × Cursor) := do
  let (token, c) ←
    if c.second == some 0x3c then do
      let (uri, c) ← fullUri? (c.skip 2)
      guard (c.peek == some 0x3e)
      pure (.tag [] uri, c.skip 1)
    else do
      let (handle, c) ← handle? c
      if isClosed handle then
        let (uri, c) ← fullUri? c
        pure (.tag handle uri, c)
      else
        let (uri, c) ← uri? c.rest.length c handle.tail
        pure (if uri.isEmpty then .tag [] [0x21] else .tag [0x21] uri, c)
  guard (isGap c.peek)
  return (token, c)

def number? (c : Cursor) : Option (Nat × Cursor) :=
  let (digits, c) := c.takeWhile isDigit
  if digits.isEmpty || 2 < digits.length then none
  else some (digits.foldl (fun n d => n * 10 + (d - 0x30)) 0, c)

/-- The version of the format, after its name. -/
def version? (c : Cursor) : Option (Token × Cursor) := do
  let (major, c) ← number? c.skipWhite
  guard (c.peek == some 0x2e)
  let (minor, c) ← number? (c.skip 1)
  return (.version major minor, c)

/-- An abbreviation, after its name. -/
def abbreviation? (c : Cursor) : Option (Token × Cursor) := do
  let (handle, c) ← handle? c.skipWhite
  guard ((isClosed handle || handle == [0x21]) && c.atWhite)
  let (uri, c) ← fullUri? c.skipWhite
  guard (isGap c.peek)
  return (.abbreviation handle uri, c)

/-- An instruction after its percent sign, and the place after it. -/
def directive? (c : Cursor) : Option (Token × Cursor) := do
  let (name, c) := c.takeWhile isWordChar
  guard (isGap c.peek)
  if Utf8.ofCodePoints name == utf8 "YAML" then version? c
  else if Utf8.ofCodePoints name == utf8 "TAG" then abbreviation? c
  else none

/-- What the names of the usual types start with. -/
def usualStart : Bytes := utf8 "tag:yaml.org,2002:"

/-- The abbreviations that need not be introduced. -/
def usualHandles : List (Bytes × Bytes) := [(utf8 "!", utf8 "!"), (utf8 "!!", usualStart)]

/-- The type with its usual abbreviation. A type left open is none. -/
def shorten? (tag : Bytes) : Option Bytes :=
  if tag == utf8 "!" then none
  else
    match Bytes.dropStart? usualStart tag with
    | some rest => some (utf8 "!!" ++ rest)
    | none => some tag

end UnusedImports.Yaml.Tag
