import UnusedImports.Text.Bytes

/-! A text that is not valid is written in base 64, in lines of seventy characters if it needs more
than one. -/

namespace UnusedImports.Yaml.Base64

def alphabet : List Char :=
  "ABCDEFGHIJKLMNOPQRSTUVWXYZabcdefghijklmnopqrstuvwxyz0123456789+/".toList

/-- The characters of numbers below 64. -/
def digits (ns : List Nat) : Bytes := ns.map fun n => ((alphabet[n]?).getD 'A').toUInt8

/-- Bytes in base 64, in one line. -/
def encode : Bytes → Bytes
  | [] => []
  | [a] => digits [a.toNat / 4, a.toNat % 4 * 16] ++ utf8 "=="
  | [a, b] => digits [a.toNat / 4, a.toNat % 4 * 16 + b.toNat / 16, b.toNat % 16 * 4] ++ utf8 "="
  | a :: b :: c :: s =>
    digits [a.toNat / 4, a.toNat % 4 * 16 + b.toNat / 16, b.toNat % 16 * 4 + c.toNat / 64,
      c.toNat % 64] ++ encode s

/-- Lines of seventy characters, each with its end. -/
def lines : Nat → Bytes → Bytes
  | 0, _ => []
  | fuel + 1, s => if s.isEmpty then [] else s.take 70 ++ [Bytes.newline] ++ lines fuel (s.drop 70)

/-- Bytes in base 64, in lines if there are seventy characters or more. -/
def wrapped (s : Bytes) : Bytes :=
  let text := encode s
  if text.length < 70 then text else lines text.length text

def digit? (b : UInt8) : Option Nat := alphabet.findIdx? fun c => c.toUInt8 == b

/-- The bytes that groups of four characters stand for. Only the last group may be filled up, with
one or two equals signs. -/
def decodeGroups? : Bytes → Option Bytes
  | [] => some []
  | [a, b, 0x3d, 0x3d] => do
    let (x, y) := (← digit? a, ← digit? b)
    return [UInt8.ofNat (x * 4 + y / 16)]
  | [a, b, c, 0x3d] => do
    let (x, y, z) := (← digit? a, ← digit? b, ← digit? c)
    return [UInt8.ofNat (x * 4 + y / 16), UInt8.ofNat (y % 16 * 16 + z / 4)]
  | a :: b :: c :: d :: s => do
    let (x, y, z, w) := (← digit? a, ← digit? b, ← digit? c, ← digit? d)
    let rest ← decodeGroups? s
    return UInt8.ofNat (x * 4 + y / 16) :: UInt8.ofNat (y % 16 * 16 + z / 4) ::
      UInt8.ofNat (z % 4 * 64 + w) :: rest
  | _ => none

/-- The bytes that a text in base 64 stands for. Line breaks do not count. -/
def decode? (s : Bytes) : Option Bytes :=
  decodeGroups? (s.filter fun b => b != Bytes.newline && b != Bytes.carriageReturn)

end UnusedImports.Yaml.Base64
