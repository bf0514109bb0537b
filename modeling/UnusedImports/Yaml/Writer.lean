import UnusedImports.Yaml.Base64
import UnusedImports.Yaml.Pen
import UnusedImports.Yaml.Resolve

/-! Block style. A text is written plain if it reads back as that text, else between quotes, and
over several lines as a literal block. -/

namespace UnusedImports.Yaml

/-- What can be written. -/
inductive Node where
  | plain (text : Bytes)
  | text (value : Bytes)
  | sequence (items : List Node)
  | mapping (entries : List (Bytes × Node))

/-- Tests whether a code point may stand in a document as it is. -/
def isPrintable (c : Nat) : Bool :=
  c == 0x0a || (0x20 ≤ c && c ≤ 0x7e) || (0xa0 ≤ c && c ≤ 0xfffd && c != 0xfeff)

/-- Tests whether code points hold an indicator where it would end or change a plain scalar. The
first argument is the code point before them. -/
def hasIndicator : Option Nat → List Nat → Bool
  | _, [] => false
  | before, c :: cs =>
    let followed := cs.head?.all isWhite
    let found := match before with
      | none => isIndicator c || (isWeakIndicator c && followed)
      | some b => (c == 0x3a && followed) || (c == 0x23 && (isWhite b || isBreak b || b == 0))
    found || hasIndicator (some c) cs

def hasPair (p q : Nat → Bool) : List Nat → Bool
  | a :: b :: cs => (p a && q b) || hasPair p q (b :: cs)
  | _ => false

/-- How a text may be written. -/
structure Shape where
  plainAllowed : Bool
  singleAllowed : Bool
  blockAllowed : Bool

/-- How a non-empty text may be written. -/
def shapeOf (cs : List Nat) : Shape :=
  let edge (p : Nat → Bool) : Bool := cs.head?.any p || cs.getLast?.any p
  let space (c : Nat) : Bool := c == 0x20
  let special := cs.any fun c => c != 0x09 && !isPrintable c
  let spaceBreak := hasPair space isBreak cs
  let marker := cs.take 3 == [0x2d, 0x2d, 0x2d] || cs.take 3 == [0x2e, 0x2e, 0x2e]
  let single := !(hasPair isBreak space cs || spaceBreak || cs.contains 0x09 || special)
  { plainAllowed := single && !marker && !hasIndicator none cs && !edge space && !cs.any isBreak
    singleAllowed := single
    blockAllowed := !(cs.getLast?.any space || spaceBreak || special) }

def hex : Nat → Nat → Bytes
  | 0, _ => []
  | places + 1, n =>
    let d := n % 16
    hex places (n / 16) ++ [UInt8.ofNat (if d < 10 then 0x30 + d else 0x37 + d)]

def escapeLetter? (c : Nat) : Option Char :=
  ([(0x00, '0'), (0x07, 'a'), (0x08, 'b'), (0x09, 't'), (0x0a, 'n'), (0x0b, 'v'), (0x0c, 'f'),
    (0x0d, 'r'), (0x1b, 'e'), (0x85, 'N'), (0xa0, '_'), (0x2028, 'L'), (0x2029, 'P')].find?
      fun e => e.1 == c).map (·.2)

def escape (c : Nat) : Bytes :=
  if c == 0x22 || c == 0x5c then [Bytes.backslash, UInt8.ofNat c]
  else match escapeLetter? c with
    | some l => [Bytes.backslash, l.toUInt8]
    | none =>
      if c ≤ 0xff then utf8 "\\x" ++ hex 2 c
      else if c ≤ 0xffff then utf8 "\\u" ++ hex 4 c
      else utf8 "\\U" ++ hex 8 c

/-- The characters of a text between double quotes. In a text that starts with a byte order mark
all are escaped. -/
def doubleQuoted (cs : List Nat) : List Nat :=
  let marked := cs.head? == some 0xfeff
  cs.flatMap fun c =>
    if !marked && isPrintable c && !isBreak c && c != 0x22 && c != 0x5c then [c]
    else (escape c).map (·.toNat)

def Pen.doubleQuoted (cs : List Nat) (p : Pen) : Pen :=
  p.space.ink (0x22 :: Yaml.doubleQuoted cs ++ [0x22])

/-- Writes characters of which the first after a line break goes to a column. The flag tells whether
a line break came last. -/
def Pen.lines (column : Nat) : Bool → List Nat → Pen → Pen
  | _, [], p => p
  | broken, c :: cs, p =>
    if isBreak c then p.lineBreak c |> Pen.lines column true cs
    else
      let p := if broken then p.indent column else p
      { p.char c with isFresh := false } |> Pen.lines column false cs

/-- Writes a text between single quotes, each of which in it is doubled. -/
def Pen.singleQuoted (column : Nat) (cs : List Nat) (p : Pen) : Pen :=
  let doubled := cs.flatMap fun c => if c == 0x27 then [c, c] else [c]
  (Pen.lines column false doubled (p.space.ink [0x27])).ink [0x27]

/-- The head of a literal block: an indentation if the first line does not show it, and what
becomes of the line breaks at the end. -/
def blockHead (cs : List Nat) : List Nat :=
  let hint := if cs.head?.any fun c => c == 0x20 || isBreak c then [0x32] else []
  let chomp := match cs.reverse with
    | last :: before =>
      if !isBreak last then [0x2d]
      else if before.head?.all isBreak then [0x2b] else []
    | [] => [0x2d]
  0x7c :: hint ++ chomp

/-- Writes a text as a literal block. A line break at its start only ends the line of the head. -/
def Pen.literal (column : Nat) (cs : List Nat) (p : Pen) : Pen :=
  Pen.lines column true cs { p.space.ink (blockHead cs) with isSpaced := true }

/-- Writes a text as a scalar, of which further lines go to a column. A name that stands before its
colon is not written as a block. -/
def Pen.scalar (isName : Bool) (column : Nat) (s : Bytes) (p : Pen) : Pen :=
  let valid := Utf8.isValid s
  let cs := Utf8.codePoints (if valid then s else Base64.wrapped s)
  let p := if valid then p else p.space.ink (utf8 "!!binary" |>.map (·.toNat))
  let shape := shapeOf cs
  if cs.contains 0x0a then
    if shape.blockAllowed && !isName then p.literal column cs else p.doubleQuoted cs
  else if valid && !readsAsText s then p.doubleQuoted cs
  else if shape.plainAllowed then p.space.ink cs
  else if shape.singleAllowed then p.singleQuoted column cs
  else p.doubleQuoted cs

/-- Tests whether a name can stand before its colon: it has one line and at most 128 bytes. -/
def isSimpleName (s : Bytes) : Bool := s.length ≤ 128 && !(Utf8.codePoints s).any isBreak

mutual

def Pen.node (column : Nat) : Node → Pen → Pen
  | .plain t, p => p.space.ink (t.map (·.toNat))
  | .text s, p => p.scalar false (column + 2) s
  | .sequence [], p => p.space.ink [0x5b, 0x5d]
  | .mapping [], p => p.space.ink [0x7b, 0x7d]
  | .sequence (n :: ns), p => Pen.items (column + 2) (n :: ns) p
  | .mapping (e :: es), p => Pen.entries (column + 2) (e :: es) p

def Pen.items (column : Nat) : List Node → Pen → Pen
  | [], p => p
  | n :: ns, p => Pen.items column ns (Pen.node column n ((p.indent column).mark 0x2d))

def Pen.entries (column : Nat) : List (Bytes × Node) → Pen → Pen
  | [], p => p
  | (k, v) :: es, p =>
    let p := p.indent column
    let p := if isSimpleName k then (p.scalar true (column + 2) k).ink [0x3a]
      else (((p.mark 0x3f).scalar false (column + 2) k).indent column).mark 0x3a
    Pen.entries column es (Pen.node column v p)

end

def renderDocument (entries : List (Bytes × Node)) : Bytes :=
  ((Pen.start.entries 0 entries).indent 0).written

end UnusedImports.Yaml
