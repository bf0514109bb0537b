import UnusedImports.Yaml.Scalar
import UnusedImports.Yaml.Stream
import UnusedImports.Yaml.Tag

/-! Indentation becomes pairs of start and end tokens. A text turns out to be a name only at the
colon behind it; the tokens that announce it are then put in front. -/

namespace UnusedImports.Yaml

/-- A place where a name of an entry may have started. -/
structure PossibleKey where
  possible : Bool
  required : Bool
  position : Nat
  line : Nat
  column : Nat
  index : Nat

def PossibleKey.none : PossibleKey := ⟨false, false, 0, 0, 0, 0⟩

/-- A scanner on its way through a document, its tokens latest first. -/
structure Scanner where
  cursor : Cursor
  isCut : Bool
  /-- Among how many characters the first one of each line is taken for a mark. -/
  marked : Nat
  indent : Int
  outer : List Int
  key : PossibleKey
  keys : List PossibleKey
  keyAllowed : Bool
  tokens : List Token

namespace Scanner

def start (s : Stream) : Scanner :=
  ⟨.start s.points, s.isCut, s.marked, -1, [], .none, [], true, []⟩

def inFlow (s : Scanner) : Bool := !s.keys.isEmpty

/-- How deep brackets, and how deep indented lists and maps, may lie in each other. -/
def depthLimit : Nat := 10000

def emit (s : Scanner) (t : Token) : Scanner := { s with tokens := t :: s.tokens }

def emitAt (s : Scanner) (position : Nat) (t : Token) : Scanner :=
  let behind := s.tokens.length - position
  { s with tokens := s.tokens.take behind ++ t :: s.tokens.drop behind }

/-! ## Names of entries -/

/-- Tests whether a possible name lies on an earlier line or too far back. -/
def isStale (s : Scanner) (k : PossibleKey) : Bool :=
  k.line < s.cursor.line || k.index + 1024 < s.cursor.index

/-- Gives up a possible name; one that has to be a name cannot be given up. -/
def dropKey? (s : Scanner) : Option Scanner :=
  if s.key.possible && s.key.required then none
  else some { s with key := { s.key with possible := false } }

/-- Notes that a name may start here. -/
def saveKey? (s : Scanner) : Option Scanner :=
  if s.keyAllowed then
    (s.dropKey?).map fun s =>
      { s with key := ⟨true, !s.inFlow && s.indent = s.cursor.column, s.tokens.length,
          s.cursor.line, s.cursor.column, s.cursor.index⟩ }
  else some s

/-- Number of tokens that nothing ahead can change any more, nor put others in front of. Two more
are always looked at than are used. -/
def settled (s : Scanner) : Nat :=
  (s.key :: s.keys).foldl
    (fun n k => if k.possible && (k.required || !s.isStale k) then min n k.position else n)
    (s.tokens.length - 2)

/-! ## Indentation -/

/-- Ends the indented lists and maps that lie right of a column. -/
def unroll (column : Int) : Nat → Scanner → Scanner
  | 0, s => s
  | fuel + 1, s =>
    if s.inFlow || s.indent ≤ column then s
    else unroll column fuel
      { s.emit .blockEnd with indent := s.outer.head?.getD (-1), outer := s.outer.tail }

/-- Starts an indented list or map at a column if it lies right of the present one. -/
def roll? (s : Scanner) (column : Nat) (position : Option Nat) (t : Token) : Option Scanner :=
  if s.inFlow || column ≤ s.indent then some s
  else if depthLimit ≤ s.outer.length then none
  else
    let s := { s with indent := column, outer := s.indent :: s.outer }
    match position with
    | some p => some (s.emitAt p t)
    | none => some (s.emit t)

/-! ## Between tokens -/

/-- Passes white space, comments and line breaks. -/
def toNextToken : Nat → Scanner → Scanner
  | 0, s => s
  | fuel + 1, s =>
    let c := s.cursor
    let c := if c.column == 0 && c.index + 3 < s.marked then c.skip 1 else c
    let (_, c) := c.takeWhile fun p => p == 0x20 || (p == 0x09 && (s.inFlow || !s.keyAllowed))
    let c := if c.atComment then c.skipComments (c.rest.length + 1) else c
    if c.atBreak then
      toNextToken fuel { s with cursor := c.skipBreak, keyAllowed := s.keyAllowed || !s.inFlow }
    else { s with cursor := c }

/-- Passes a comment on the line of the last token, unless that is the hyphen before an item. Tabs
may stand in front of it. -/
def passComment (s : Scanner) : Scanner :=
  let c := s.cursor.skipWhite
  if s.tokens.head? != some .blockEntry && !s.cursor.isFresh && c.atComment &&
      c.index < s.cursor.index + 512
  then { s with cursor := c.skipLine }
  else s

/-! ## Tokens -/

def single (s : Scanner) (t : Token) (keyAllowed : Bool) : Scanner :=
  { s.emit t with cursor := s.cursor.skip 1, keyAllowed }

/-- A token that ends everything indented, in front of a place. -/
def topLevel? (s : Scanner) (t : Token) (c : Cursor) : Option Scanner :=
  ((unroll (-1) (s.outer.length + 1) s).dropKey?).map fun s =>
    { s.emit t with cursor := c, keyAllowed := false }

def openFlow? (s : Scanner) (t : Token) : Option Scanner :=
  if depthLimit ≤ s.keys.length then none
  else s.saveKey?.map fun s => { s.single t true with key := .none, keys := s.key :: s.keys }

def closeFlow? (s : Scanner) (t : Token) : Option Scanner :=
  s.dropKey?.map fun s =>
    match s.keys with
    | k :: ks => { s.single t false with key := k, keys := ks }
    | [] => s.single t false

def entry? (s : Scanner) : Option Scanner := do
  guard (s.inFlow || s.keyAllowed)
  let s ← s.roll? s.cursor.column none .blockSequenceStart
  return (← s.dropKey?).single .blockEntry true

def questionMark? (s : Scanner) : Option Scanner := do
  guard (s.inFlow || s.keyAllowed)
  let s ← s.roll? s.cursor.column none .blockMappingStart
  return (← s.dropKey?).single .key !s.inFlow

/-- The colon before a value. What is on the same line before it may turn out to be a name. -/
def colon? (s : Scanner) : Option Scanner := do
  let k := s.key
  guard !(k.possible && s.isStale k && k.required)
  if k.possible && !s.isStale k then
    let s ← (s.emitAt k.position .key).roll? k.column (some k.position) .blockMappingStart
    return { s with key := { k with possible := false } }.single .value false
  else
    let s := { s with key := { k with possible := false } }
    guard (s.inFlow || s.keyAllowed)
    let s ← s.roll? s.cursor.column none .blockMappingStart
    return s.single .value !s.inFlow

/-- Tests for a character that may follow the name of a reference. -/
def endsName (c : Option Nat) : Bool :=
  isGap c || c.any fun p => [0x3f, 0x3a, 0x2c, 0x5d, 0x7d, 0x25, 0x40, 0x60].contains p

def reference? (s : Scanner) (make : Bytes → Token) : Option Scanner := do
  let s ← s.saveKey?
  let (name, c) := (s.cursor.skip 1).takeWhile isWordChar
  guard (!name.isEmpty && endsName c.peek)
  return { s.emit (make (Utf8.ofCodePoints name)) with cursor := c, keyAllowed := false }

def tagged? (s : Scanner) : Option Scanner := do
  let s ← s.saveKey?
  let (token, c) ← Tag.tag? s.cursor
  return { s.emit token with cursor := c, keyAllowed := false }

def blockScalar? (s : Scanner) (literal : Bool) : Option Scanner := do
  let s ← s.dropKey?
  let (text, c) ← block? literal s.indent (s.cursor.skip 1)
  return { s.emit (.scalar (Utf8.ofCodePoints text) false) with cursor := c, keyAllowed := true }

def quotedScalar? (s : Scanner) (double : Bool) : Option Scanner := do
  let s ← s.saveKey?
  let (text, c) ← quoted? double (s.cursor.rest.length + 1) (s.cursor.skip 1) .none []
  return { s.emit (.scalar (Utf8.ofCodePoints text) false) with cursor := c, keyAllowed := false }

def plainScalar? (s : Scanner) : Option Scanner := do
  let s ← s.saveKey?
  let (text, c, broken) ←
    plain? s.inFlow (s.indent + 1).toNat s.cursor.rest.length s.cursor .none []
  return { s.emit (.scalar (Utf8.ofCodePoints text) true) with cursor := c, keyAllowed := broken }

def directive? (s : Scanner) : Option Scanner := do
  let (token, c) ← Tag.directive? (s.cursor.skip 1)
  s.topLevel? token (← endOfHead? c)

def content? (s : Scanner) (p : Nat) : Option Scanner :=
  let c := s.cursor
  if p == 0x5b then s.openFlow? .flowSequenceStart
  else if p == 0x7b then s.openFlow? .flowMappingStart
  else if p == 0x5d then s.closeFlow? .flowSequenceEnd
  else if p == 0x7d then s.closeFlow? .flowMappingEnd
  else if p == 0x2c then s.dropKey?.map (·.single .flowEntry true)
  else if p == 0x2d && isGap c.second then s.entry?
  else if p == 0x3f && (s.inFlow || isGap c.second) then s.questionMark?
  else if p == 0x3a && (s.inFlow || isGap c.second) then s.colon?
  else if p == 0x2a then s.reference? .alias
  else if p == 0x26 then s.reference? .anchor
  else if p == 0x21 then s.tagged?
  else if p == 0x7c && !s.inFlow then s.blockScalar? true
  else if p == 0x3e && !s.inFlow then s.blockScalar? false
  else if p == 0x27 then s.quotedScalar? false
  else if p == 0x22 then s.quotedScalar? true
  else if !(isWhite p || isIndicator p || isWeakIndicator p) ||
      (p == 0x2d && !c.second.any isWhite) ||
      (!s.inFlow && (p == 0x3f || p == 0x3a) && !isGap c.second)
  then s.plainScalar?
  else none

def token? (s : Scanner) : Option Scanner :=
  let c := s.cursor
  match c.peek with
  | none => s.topLevel? .streamEnd c
  | some p =>
    if c.column == 0 && p == 0x25 then s.directive?
    else if c.atMark 0x2d then s.topLevel? .documentStart (c.skip 3)
    else if c.atMark 0x2e then s.topLevel? .documentEnd (c.skip 3)
    else (s.content? p).map passComment

/-- Reads the next token, or several if it ends something indented. Four characters have to be there
before it, and one after it, where not all can be read. -/
def next? (s : Scanner) : Option Scanner := do
  let s := toNextToken s.cursor.rest.length.succ s
  let s := unroll s.cursor.column (s.outer.length + 1) s
  guard (!s.isCut || (s.cursor.rest.take 4).length = 4)
  let s ← s.token?
  guard (!s.isCut || !s.cursor.rest.isEmpty)
  return s

/-- The tokens up to the end of everything, or those before something that is none. -/
def run : Nat → Scanner → List Token
  | 0, _ => [.invalid]
  | fuel + 1, s =>
    match s.next? with
    | none => s.tokens.reverse.take s.settled ++ [.invalid]
    | some s => if s.tokens.head? == some .streamEnd then s.tokens.reverse else run fuel s

end Scanner

/-- The tokens of a document; the last one is the end of everything or invalid. -/
def tokens (s : Bytes) : List Token :=
  let stream := Stream.ofBytes s
  Scanner.run (stream.points.length + 2) (.start stream)

end UnusedImports.Yaml
