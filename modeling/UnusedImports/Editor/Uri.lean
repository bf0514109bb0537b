import UnusedImports.Editor.Address
import UnusedImports.Text.LowerCase

/-! A URI with the scheme `file` stands for a path. Anything else, and whatever is not well formed,
stands for itself. -/

namespace UnusedImports.Editor.Uri

def hex? (b : UInt8) : Option Nat :=
  if Bytes.isDigit b then some (b.toNat - 0x30)
  else if 0x61 ≤ b && b ≤ 0x66 then some (b.toNat - 0x57)
  else if 0x41 ≤ b && b ≤ 0x46 then some (b.toNat - 0x37)
  else none

/-- A text in which every escape of a percent sign and two digits is replaced by the byte it stands
for. A test decides which escapes and which other bytes are allowed. -/
def unescape? (allowEscape : Nat → Bool) (allowByte : UInt8 → Bool) : Bytes → Option Bytes
  | [] => some []
  | 0x25 :: a :: b :: rest =>
    match hex? a, hex? b with
    | some x, some y =>
      if allowEscape (x * 16 + y) then
        (unescape? allowEscape allowByte rest).map (UInt8.ofNat (x * 16 + y) :: ·)
      else none
    | _, _ => none
  | b :: rest =>
    if b != 0x25 && allowByte b then (unescape? allowEscape allowByte rest).map (b :: ·) else none

/-- The text of a path or of another part in which anything can be escaped. -/
def unescapeAny? : Bytes → Option Bytes := unescape? (fun _ => true) fun _ => true

def isOneOf (chars : String) (b : UInt8) : Bool := (utf8 chars).any (· == b)

def isAlphanumeric (b : UInt8) : Bool := Bytes.isAlpha b || Bytes.isDigit b

/-- Tests for a byte that the name of a host may hold. -/
def isHostByte (b : UInt8) : Bool :=
  0x80 ≤ b || isAlphanumeric b || isOneOf "-_.~!$&'()*+,;=:[]<>\"" b

/-- Tests for an escape that the name of a host may hold: of a percent sign or of no ASCII
character. -/
def isHostEscape (n : Nat) : Bool := n == 0x25 || 0x80 ≤ n

/-- Tests for an escape that the zone of an address may hold. -/
def isZoneEscape (n : Nat) : Bool :=
  n == 0x25 || n == 0x20 || (n < 0x80 && isHostByte (UInt8.ofNat n))

/-- Tests for what may follow the name of a host: nothing, or a colon and digits. -/
def isHostSuffix : Bytes → Bool
  | [] => true
  | c :: digits => c == 0x3a && digits.all Bytes.isDigit

/-- The parts of a text before and after the last occurrence of a byte. -/
def cutLast? (b : UInt8) (s : Bytes) : Option (Bytes × Bytes) :=
  let after := (s.reverse.takeWhile (· != b)).reverse
  if after.length < s.length then some (s.take (s.length - after.length - 1), after) else none

def unescapeHost? : Bytes → Option Bytes := unescape? isHostEscape isHostByte

/-- The text of what is between the brackets of a host: an address, and after an escaped percent
sign a zone. -/
def unescapeAddress? (s : Bytes) : Option Bytes :=
  match Bytes.find? (utf8 "%25") s with
  | some i =>
    (unescapeHost? (s.take i)).bind fun address =>
      (unescape? isZoneEscape isHostByte (s.drop i)).map fun zone => address ++ zone
  | none => unescapeHost? s

/-- Tests for a well-formed host: an address in brackets, which only stand at the front, or a name.
Either may be followed by a colon and digits. -/
def isHost (s : Bytes) : Bool :=
  match s with
  | 0x5b :: inner =>
    match cutLast? 0x5d inner with
    | some (address, suffix) =>
      isHostSuffix suffix && !inner.any (· == 0x5b) &&
        (unescapeAddress? address).any Address.isValid
    | none => false
  | _ =>
    !s.any (· == 0x5b) && (unescapeHost? s).isSome &&
      match cutLast? 0x3a s with
      | some (_, suffix) => isHostSuffix (0x3a :: suffix)
      | none => true

/-- Tests for a well-formed name of a user, perhaps with a password. -/
def isUser (s : Bytes) : Bool :=
  (s.all fun b => isAlphanumeric b || isOneOf "-._:~!$&'()*+,;=%@" b) &&
    match Bytes.cut? (utf8 ":") s with
    | some (name, password) => (unescapeAny? name).isSome && (unescapeAny? password).isSome
    | none => (unescapeAny? s).isSome

def isAuthority (s : Bytes) : Bool :=
  match cutLast? 0x40 s with
  | some (user, host) => isHost host && isUser user
  | none => isHost s

/-- The scheme in front of a colon, and the rest. -/
def scheme? (s : Bytes) : Option (Bytes × Bytes) :=
  match Bytes.cut? (utf8 ":") s with
  | some (name, rest) =>
    if name.head?.any Bytes.isAlpha && name.all fun b => isAlphanumeric b || isOneOf "+-." b then
      some (name, rest)
    else none
  | none => none

/-- The path in what follows the scheme of a file, if that is well formed. A path that does not
start with a slash is none. -/
def path? (rest : Bytes) : Option Bytes :=
  let rest := rest.takeWhile (· != 0x3f)
  match Bytes.dropStart? (utf8 "//") rest with
  | some s =>
    let authority := s.takeWhile (· != Bytes.slash)
    if isAuthority authority then unescapeAny? (s.drop authority.length) else none
  | none => if rest.head? == some Bytes.slash then unescapeAny? rest else some []

/-- The path of the file that a URI names, or the URI itself. -/
def toPath (uri : Bytes) : Bytes :=
  let (body, fragment) := (Bytes.cut? (utf8 "#") uri).getD (uri, [])
  if body.any (fun b => b < 0x20 || b == 0x7f) || (unescapeAny? fragment).isNone then uri
  else
    match scheme? body with
    | some (name, rest) =>
      if Bytes.toLower name == utf8 "file" then (path? rest).getD uri else uri
    | none => uri

end UnusedImports.Editor.Uri
