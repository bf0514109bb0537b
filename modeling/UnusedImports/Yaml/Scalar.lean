import UnusedImports.Yaml.Cursor

/-! Scalars are written plainly, in quotes or as an indented block, with rules of their own for
white space and line breaks. -/

namespace UnusedImports.Yaml

/-! ## White space inside of scalars -/

/-- White space on the way through a scalar: what is kept of it is known only when the text goes
on. -/
structure Fold where
  white : List Nat
  first : List Nat
  more : List Nat
  broken : Bool

namespace Fold

def none : Fold := ⟨[], [], [], false⟩

/-- What the white space contributes: a single line break becomes a blank, of several all but the
first are kept. -/
def text (f : Fold) : List Nat :=
  if f.broken then
    if f.first.head? == some 0x0a then (if f.more.isEmpty then [0x20] else f.more)
    else f.first ++ f.more
  else f.white

end Fold

/-- Passes white space and line breaks. A tab that stands for indentation is refused where a least
column is given. -/
def fold? (least : Option Nat) : Nat → Cursor → Fold → Option (Cursor × Fold)
  | 0, c, f => some (c, f)
  | fuel + 1, c, f =>
    if c.atWhite then
      if f.broken && c.peek == some 0x09 && least.any (c.column < ·) then none
      else fold? least fuel (c.skip 1)
        (if f.broken then f else { f with white := f.white ++ c.rest.take 1 })
    else if c.atBreak then
      fold? least fuel c.skipBreak
        (if f.broken then { f with more := f.more ++ c.breakText }
          else { f with white := [], first := c.breakText, broken := true })
    else some (c, f)

/-! ## Plain scalars -/

def plainRun (flow : Bool) : List Nat → Nat
  | [] => 0
  | c :: rest =>
    if isWhite c || isBreak c || (c == 0x3a && isGap rest.head?) ||
        (flow && (isFlowIndicator c || c == 0x3f))
    then 0
    else plainRun flow rest + 1

/-- A plain scalar: its text, the place after it and after the white space behind it, and whether
that had a line break. What has been read of the text is given with its last character first. -/
def plain? (flow : Bool) (least : Nat) : Nat → Cursor → Fold → List Nat →
    Option (List Nat × Cursor × Bool)
  | 0, c, f, read => some (read.reverse, c, f.broken)
  | fuel + 1, c, f, read =>
    if c.atDocumentMark || c.atComment then some (read.reverse, c, f.broken)
    else
      let n := plainRun flow c.rest
      let read := if n = 0 then read else (c.rest.take n).reverse ++ f.text.reverse ++ read
      let f := if n = 0 then f else .none
      let c := c.skip n
      if c.atWhite || c.atBreak then
        match fold? (some least) (fuel + 1) c f with
        | none => none
        | some (c, f) =>
          if !flow && c.column < least then some (read.reverse, c, f.broken)
          else plain? flow least fuel c f read
      else some (read.reverse, c, f.broken)

/-! ## Quoted scalars -/

def escapes : List (Nat × Nat) :=
  [(0x30, 0x00), (0x61, 0x07), (0x62, 0x08), (0x74, 0x09), (0x09, 0x09), (0x6e, 0x0a), (0x76, 0x0b),
   (0x66, 0x0c), (0x72, 0x0d), (0x65, 0x1b), (0x20, 0x20), (0x22, 0x22), (0x27, 0x27), (0x5c, 0x5c),
   (0x4e, 0x85), (0x5f, 0xa0), (0x4c, 0x2028), (0x50, 0x2029)]

/-- The character that an escape stands for, and the length of the escape after the backslash. -/
def escape? (s : List Nat) : Option (Nat × Nat) :=
  match s with
  | [] => none
  | c :: rest =>
    let places := if c == 0x78 then 2 else if c == 0x75 then 4 else if c == 0x55 then 8 else 0
    if places = 0 then (escapes.lookup c).map fun v => (v, 1)
    else if (rest.take places).length < places then none
    else
      match hexNumber? (rest.take places) with
      | some v => if (0xd800 ≤ v && v ≤ 0xdfff) || 0x10ffff < v then none else some (v, places + 1)
      | none => none

/-- A quoted scalar after its first quote: its text and the place after the last quote. What has
been read of the text is given with its last character first. -/
def quoted? (double : Bool) : Nat → Cursor → Fold → List Nat → Option (List Nat × Cursor)
  | 0, _, _, _ => none
  | fuel + 1, c, f, read =>
    let mark := if double then 0x22 else 0x27
    match c.peek with
    | none => none
    | some p =>
      if c.atDocumentMark then none
      else if isWhite p || isBreak p then
        match fold? none (fuel + 1) c f with
        | some (c, f) => quoted? double fuel c f read
        | none => none
      else
        let read := f.text.reverse ++ read
        if !double && p == mark && c.second == some mark then
          quoted? double fuel (c.skip 2) .none (mark :: read)
        else if p == mark then some (read.reverse, c.skip 1)
        else if double && p == 0x5c then
          if c.second.any isBreak then
            quoted? double fuel (c.skip 1).skipBreak ⟨[], [], [], true⟩ read
          else
            match escape? c.rest.tail with
            | some (v, n) => quoted? double fuel (c.skip (n + 1)) .none (v :: read)
            | none => none
        else quoted? double fuel (c.skip 1) .none (p :: read)

/-! ## Block scalars -/

/-- What happens to the line breaks after a block scalar. -/
inductive Chomp where
  | strip
  | clip
  | keep
  deriving DecidableEq

/-- The head of a block scalar after its sign: what happens to its end, and its indentation if it is
given. -/
def blockHead? (c : Cursor) : Option (Chomp × Nat × Cursor) :=
  let chomp? (p : Option Nat) : Option Chomp :=
    if p == some 0x2b then some .keep else if p == some 0x2d then some .strip else none
  let digit? (p : Option Nat) : Option Nat :=
    p.bind fun d => if isDigit d then some (d - 0x30) else none
  match chomp? c.peek, digit? c.peek with
  | some k, _ =>
    match digit? c.second with
    | some d => if d = 0 then none else some (k, d, c.skip 2)
    | none => some (k, 0, c.skip 1)
  | _, some d =>
    if d = 0 then none
    else match chomp? c.second with
      | some k => some (k, d, c.skip 2)
      | none => some (.clip, d, c.skip 1)
  | _, _ => some (.clip, 0, c)

/-- Passes the indentation and the empty lines before a line of a block scalar. The indentation is
found out if it is not known: it is that of the first line that is not empty. -/
def blockBreaks? (indent : Nat) : Nat → Nat → Cursor → List Nat → Option (List Nat × Nat × Cursor)
  | 0, most, c, breaks => some (breaks, most, c)
  | fuel + 1, most, c, breaks =>
    let blanks := (c.rest.takeWhile (· == 0x20)).length
    let c := c.skip (if indent = 0 then blanks else min blanks (indent - c.column))
    let most := max most c.column
    if (indent = 0 || c.column < indent) && c.peek == some 0x09 then none
    else if c.atBreak then blockBreaks? indent fuel most c.skipBreak (breaks ++ c.breakText)
    else some (breaks, most, c)

/-- The lines of a block scalar: its text without the line breaks after it, those breaks, and the
place after it. What has been read of the text is given with its last character first. -/
def blockLines? (literal : Bool) (indent : Nat) : Nat → Cursor → Bool → List Nat → List Nat →
    List Nat → Option (List Nat × List Nat × List Nat × Cursor)
  | 0, c, _, first, more, read => some (read.reverse, first, more, c)
  | fuel + 1, c, leadingBlank, first, more, read =>
    if c.column == indent && c.peek.isSome then
      let blank := c.atWhite
      let joined :=
        if !literal && first.head? == some 0x0a && !leadingBlank && !blank then
          (if more.isEmpty then [0x20] else [])
        else first
      let (run, next) := c.takeWhile fun p => !isBreak p
      let read := run.reverse ++ more.reverse ++ joined.reverse ++ read
      let first := next.breakText
      let next := if next.atBreak then next.skipBreak else next
      match blockBreaks? indent (fuel + 1) 0 next [] with
      | some (more, _, c) => blockLines? literal indent fuel c blank first more read
      | none => none
    else some (read.reverse, first, more, c)

/-- The place on the line after the one of a head: behind the head there may only be white space and
a comment. -/
def endOfHead? (c : Cursor) : Option Cursor :=
  let c := c.skipWhite
  let c := if c.atComment then c.skipLine else c
  if c.atBreak then some c.skipBreak else if c.peek.isNone then some c else none

/-- A block scalar after its sign, inside of what is indented to a column. -/
def block? (literal : Bool) (parent : Int) (c : Cursor) : Option (List Nat × Cursor) := do
  let (chomp, increment, c) ← blockHead? c
  let c ← endOfHead? c
  let given :=
    if increment = 0 then 0 else if 0 ≤ parent then parent.toNat + increment else increment
  let (breaks, most, c) ← blockBreaks? given c.rest.length 0 c []
  let indent := if given = 0 then max (max most (parent + 1).toNat) 1 else given
  let (text, first, more, c) ← blockLines? literal indent c.rest.length c false [] breaks []
  match chomp with
  | .strip => some (text, c)
  | .clip => some (text ++ first, c)
  | .keep => some (text ++ first ++ more, c)

end UnusedImports.Yaml
