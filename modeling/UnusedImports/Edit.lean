import UnusedImports.Source.Usage
import UnusedImports.Text.Trim

/-! Edits that remove unused names from import declarations on one line. -/

namespace UnusedImports

/-- A stretch of a text, by the offsets of its ends, and what replaces it. -/
structure Replacement where
  start : Nat
  stop : Nat
  text : Bytes
  deriving DecidableEq, Repr

/-- A replacement that drops names from an import declaration. -/
structure Edit extends Replacement where
  line : Nat
  removed : List Bytes
  deriving DecidableEq, Repr

namespace Replacement

/-- A text with replacements, sorted by their start, carried out from an offset on; what is already
written comes in reverse. A replacement that starts before the end of the one before it is left
out. -/
def applyFrom (content : Bytes) (offset : Nat) : List Replacement → Bytes → Bytes
  | [], written => written.reverse ++ content.drop offset
  | r :: rs, written =>
    if r.start < offset then applyFrom content offset rs written
    else
      applyFrom content r.stop rs
        (r.text.reverse ++ ((content.drop offset).take (r.start - offset)).reverse ++ written)

def apply (content : Bytes) (rs : List Replacement) : Bytes :=
  applyFrom content 0 (rs.mergeSort fun a b => a.start ≤ b.start) []

end Replacement

namespace Edit

/-- Tests whether a text can stand as a name without quotes: letters, `_` and `$`, and after the
first also digits. -/
def isPlainName (s : Bytes) : Bool :=
  match Utf8.codePoints s with
  | [] => false
  | c :: cs =>
    let start (c : Nat) : Bool := c == 0x5f || c == 0x24 || CodePoint.isLetter c
    start c && cs.all fun c => start c || CodePoint.isDecimalDigit c

/-- A name in braces, in a declaration that is or is not a type import itself. -/
def renderNamed (typeImport : Bool) (b : Binding) : Bytes :=
  let text :=
    if b.imported == b.name then b.name
    else
      let imported :=
        if isPlainName b.imported then b.imported else utf8 "\"" ++ b.imported ++ utf8 "\""
      imported ++ utf8 " as " ++ b.name
  if b.typeOnly && !typeImport then utf8 "type " ++ text else text

/-- The clause of a declaration with the given names: those outside braces in order, then those in
braces. -/
def renderClause (typeImport : Bool) (bs : List Binding) : Bytes :=
  let single := bs.filterMap fun b =>
    match b.kind with
    | .defaultExport => some b.name
    | .wholeModule => some (utf8 "* as " ++ b.name)
    | _ => none
  let named := (bs.filter (·.kind == .named)).map (renderNamed typeImport)
  let braces :=
    if named.isEmpty then [] else [utf8 "\x7b " ++ Bytes.join (utf8 ", ") named ++ utf8 " \x7d"]
  Bytes.join (utf8 ", ") (single ++ braces)

/-- The stretch to remove for a declaration between two offsets: its whole line if nothing else is
on it, else the declaration and the blanks after it. -/
def removalSpan (content : Bytes) (start stop : Nat) : Nat × Nat :=
  let before := ((content.take start).reverse.takeWhile (· != Bytes.newline)).reverse
  let after := (content.drop stop).takeWhile (· != Bytes.newline)
  let lineEnd := stop + after.length
  if Bytes.isBlank before && Bytes.isBlank after then
    (start - before.length, if lineEnd < content.length then lineEnd + 1 else lineEnd)
  else (start, stop + (after.takeWhile fun b => b == 0x20 || b == 0x09).length)

/-- The offset of the module's string, if there is one: the last string of a declaration that stands
after `from`, from a token on back to the one behind the first. Fails if it looks for a token that
is not in the list. -/
def sourceOffsetAt? (tokens : List Token) (start : Nat) : Nat → Option (Option Nat)
  | 0 => some none
  | i + 1 =>
    if start < i + 1 then do
      let s ← tokens[i + 1]?
      let t ← tokens[i]?
      if s.kind == .string && t.isWord "from" then return some s.offset
      else sourceOffsetAt? tokens start i
    else some none

/-- The replacement that leaves a declaration with the given names, if there is one. Fails if it
looks for a token that is not in the list. -/
def planAt? (content : Bytes) (tokens : List Token) (d : Declaration) (kept : List Binding) :
    Option (Option Replacement) := do
  let first ← tokens[d.start]?
  let last ← tokens[d.stop - 1]?
  let stop := last.offset + last.text.length
  if kept.isEmpty then
    let (start, stop) := removalSpan content first.offset stop
    return some ⟨start, stop, []⟩
  else
    let source? ← sourceOffsetAt? tokens d.start (d.stop - 1)
    return source?.map fun source =>
      ⟨first.offset, stop, utf8 "import " ++ (if d.typeOnly then utf8 "type " else []) ++
        renderClause d.typeOnly kept ++ utf8 " from " ++ (content.drop source).take (stop - source)⟩

def plan? (content : Bytes) (tokens : List Token) (d : Declaration) (kept : List Binding) :
    Option Replacement := (planAt? content tokens d kept).join

/-- The edits for the import declarations of a file, in order. Whether a name is unused is told by
its place. -/
def ofFile (path content : Bytes) : List Edit :=
  let a := analyze path content
  let places := a.unused.map fun b => (b.nameLine, b.nameColumn)
  let isUnused (b : Binding) : Bool := places.contains (b.nameLine, b.nameColumn)
  a.declarations.filterMap fun d =>
    let removed := d.bindings.filter isUnused
    if d.isSingleLine a.tokens && !removed.isEmpty then
      (plan? content a.tokens d (d.bindings.filter fun b => !isUnused b)).map fun r =>
        ⟨r, d.line, removed.map (·.name)⟩
    else none

def apply (content : Bytes) (edits : List Edit) : Bytes :=
  Replacement.apply content (edits.map (·.toReplacement))

end Edit

end UnusedImports
