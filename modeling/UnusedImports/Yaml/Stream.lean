import UnusedImports.Yaml.Character

/-! Bytes are read in windows. If a window holds what is no character, neither it nor anything after
it can be read. -/

namespace UnusedImports.Yaml

/-- How characters are encoded. -/
inductive Encoding where
  | utf8
  /-- As one or two units of two bytes, the lower byte in front or behind. -/
  | utf16 (lowFirst : Bool)

namespace Encoding

/-- The encoding of a text that may start with a mark, and the length of that mark. -/
def ofMark : Bytes → Encoding × Nat
  | 0xff :: 0xfe :: _ => (.utf16 true, 2)
  | 0xfe :: 0xff :: _ => (.utf16 false, 2)
  | 0xef :: 0xbb :: 0xbf :: _ => (.utf8, 3)
  | _ => (.utf8, 0)

/-- What bytes start with. -/
inductive Front where
  | character (c : Nat) (rest : Bytes)
  | incomplete
  | bad

def unit (lowFirst : Bool) (a b : UInt8) : Nat :=
  if lowFirst then b.toNat * 256 + a.toNat else a.toNat * 256 + b.toNat

def front : Encoding → Bytes → Front
  | .utf8, s =>
    match s with
    | [] => .incomplete
    | b :: rest =>
      let width := leadWidth b
      if width = 0 then .bad
      else if width = 1 then .character b.toNat rest
      else if (s.take width).length < width then .incomplete
      else
        match Utf8.sequence? s with
        | some (c, n) => .character c (s.drop n)
        | none => .bad
  | .utf16 lowFirst, s =>
    match s with
    | a :: b :: rest =>
      let high := unit lowFirst a b
      if high / 0x400 == 0x37 then .bad
      else if high / 0x400 == 0x36 then
        match rest with
        | c :: d :: rest =>
          let low := unit lowFirst c d
          if low / 0x400 == 0x37 then
            .character (0x10000 + high % 0x400 * 0x400 + low % 0x400) rest
          else .bad
        | _ => .incomplete
      else .character high rest
    | _ => .incomplete

/-- The characters of a window in front of some others, the last one first, and the bytes of a
character that is not complete. -/
def window? (e : Encoding) : Nat → Bytes → List Nat → Option (List Nat × Bytes)
  | 0, s, read => some (read, s)
  | fuel + 1, s, read =>
    if s.isEmpty then some (read, s)
    else
      match e.front s with
      | .character c rest => if isAllowed c then window? e fuel rest (c :: read) else none
      | .incomplete => some (read, s)
      | .bad => none

/-- The number of bytes of a window. -/
def windowSize : Nat := 512

/-- The characters of a window and of those after it, the last one first, and whether something
that cannot be read follows. -/
def windows (e : Encoding) : Nat → Bytes → Bytes → List Nat → List Nat × Bool
  | 0, _, _, read => (read, true)
  | fuel + 1, window, rest, read =>
    match e.window? window.length window read with
    | none => (read, true)
    | some (read, left) =>
      if rest.isEmpty then (read, !left.isEmpty)
      else
        let room := windowSize - left.length
        windows e fuel (left ++ rest.take room) (rest.drop room) read

end Encoding

/-- The characters of a document. -/
structure Stream where
  points : List Nat
  isCut : Bool
  /-- Among how many characters the first one of each line is taken for a mark. There are some only
  if a mark follows the one that tells the encoding. -/
  marked : Nat

def Stream.ofBytes (s : Bytes) : Stream :=
  let (e, n) := Encoding.ofMark s
  let first := (s.take Encoding.windowSize).drop n
  let (read, isCut) := e.windows (s.length + 1) first (s.drop Encoding.windowSize) []
  let points := read.reverse
  let marked :=
    if points.head? == some CodePoint.byteOrderMark then
      ((e.window? first.length first []).getD ([], [])).1.length
    else 0
  ⟨points, isCut, marked⟩

end UnusedImports.Yaml
