import UnusedImports.Number.Integer

/-! An address has eight groups. Two colons stand for groups that are left out, and the last two
groups may be written as four numbers. -/

namespace UnusedImports.Editor.Address

/-- Tests for a group: one to four hexadecimal digits. -/
def isGroup (s : Bytes) : Bool :=
  !s.isEmpty && s.length ≤ 4 && s.all fun b => (Integer.digit? 16 b).isSome

/-- Tests for a number below 256 without needless zeros. -/
def isOctet (s : Bytes) : Bool :=
  !s.isEmpty && s.all Bytes.isDigit && (s.length == 1 || s.head? != some 0x30) &&
    Bytes.digitsValue s < 256

def isDotted (s : Bytes) : Bool :=
  let numbers := s.splitOn 0x2e
  numbers.length == 4 && numbers.all isOctet

/-- How many groups some fields stand for. Where it is allowed, the last field may be dotted and
then stands for two. -/
def groups? (dotted : Bool) : List Bytes → Option Nat
  | [] => some 0
  | [field] => if isGroup field then some 1 else if dotted && isDotted field then some 2 else none
  | field :: fields => if isGroup field then (groups? dotted fields).map (· + 1) else none

/-- The fields between the colons of a text; an empty text has none. -/
def fields (s : Bytes) : List Bytes := if s.isEmpty then [] else s.splitOn 0x3a

/-- Tests for an address, perhaps with a zone after a percent sign. -/
def isValid (s : Bytes) : Bool :=
  let (address, zone) := match Bytes.cut? (utf8 "%") s with
    | some (address, zone) => (address, some zone)
    | none => (s, none)
  !zone.any List.isEmpty &&
    match Bytes.cut? (utf8 "::") address with
    | some (front, back) =>
      match groups? false (fields front), groups? true (fields back) with
      | some m, some n => m + n < 8
      | _, _ => false
    | none => groups? true (fields address) == some 8

end UnusedImports.Editor.Address
