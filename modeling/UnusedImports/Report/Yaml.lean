import UnusedImports.Report.Basic
import UnusedImports.Text.DecimalDigit
import UnusedImports.Text.Letter
import UnusedImports.Yaml.Writer

namespace UnusedImports

namespace Yaml

/-- An entry that is left out if its text is empty. -/
def textEntry (name : String) (s : Bytes) : List (Bytes × Node) :=
  if s.isEmpty then [] else [(utf8 name, .text s)]

/-- An entry that is left out if its number is zero. -/
def intEntry (name : String) (n : Int) : List (Bytes × Node) :=
  if n = 0 then [] else [(utf8 name, .plain (Bytes.ofInt n))]

/-- The number of 64 bits that decimal digits in front of code points denote, after a start value,
and how many digits there are. -/
def leadingNumber (start : Int) (cs : List Nat) : Int × Nat :=
  let digits := cs.takeWhile CodePoint.isDecimalDigit
  let next (n : Int) (d : Nat) : Int := Integer.wrap (n * 10 + ((d : Int) - 0x30))
  (digits.foldl next start, digits.length)

/-- The order of names in which numbers count by their value: the rest of two names from their first
difference, given the common part in reverse. -/
def nameBeforeFrom (common : List Nat) : List Nat → List Nat → Bool
  | a :: as, b :: bs =>
    if a == b then nameBeforeFrom (a :: common) as bs
    else
      let afterDigit := common.head?.any CodePoint.isDecimalDigit
      let letterA := CodePoint.isLetter a
      let letterB := CodePoint.isLetter b
      if letterA && letterB then a < b
      else if letterA || letterB then (if afterDigit then letterA else letterB)
      else
        let within := (a == 0x30 || b == 0x30) &&
          (common.takeWhile CodePoint.isDecimalDigit).any (· != 0x30)
        let start : Int := if within then 1 else 0
        let (x, m) := leadingNumber start (a :: as)
        let (y, n) := leadingNumber start (b :: bs)
        if x ≠ y then x < y else if m ≠ n then m < n else a < b
  | as, bs => as.length < bs.length

def nameBefore (a b : Bytes) : Bool := nameBeforeFrom [] (Utf8.codePoints a) (Utf8.codePoints b)

def ofBool (b : Bool) : Node := .plain (utf8 (if b then "true" else "false"))

end Yaml

open Yaml in
def Finding.toYaml (f : Finding) : Yaml.Node :=
  .mapping <| [(utf8 "file", .text f.file), (utf8 "line", .plain (Bytes.ofInt f.line))] ++
    intEntry "column" f.column ++ [(utf8 "identifier", .text f.identifier)] ++
    textEntry "message" f.message ++ textEntry "rule" f.rule ++
    [(utf8 "strategy", .text f.strategy.name)]

open Yaml in
def Summary.toYaml (s : Summary) : Yaml.Node :=
  .mapping <| [(utf8 "strategy", .text s.strategy.name), (utf8 "outcome", .text s.status.name),
    (utf8 "attempted", ofBool s.attempted), (utf8 "total", .plain (Bytes.ofInt s.total)),
    (utf8 "unique", .plain (Bytes.ofInt s.unique))] ++ intEntry "omitted" s.omitted ++
    textEntry "reason" s.reason

def Report.renderYaml (r : Report) : Bytes :=
  let int (n : Int) : Yaml.Node := .plain (Bytes.ofInt n)
  let tags (ts : List Tag) : Yaml.Node := .sequence (ts.map fun t => .text t.name)
  let languages := r.languages.mergeSort fun a b => !Yaml.nameBefore b.1 a.1
  Yaml.renderDocument <| [(utf8 "root", .text r.root),
    (utf8 "started_at", .plain r.startedAt.render), (utf8 "finished_at", .plain r.finishedAt.render),
    (utf8 "files_scanned", int r.filesScanned), (utf8 "lines_scanned", int r.linesScanned),
    (utf8 "total_findings", int r.totalFindings),
    (utf8 "findings", .sequence (r.findings.map Finding.toYaml)),
    (utf8 "strategies", .sequence (r.strategies.map Summary.toYaml)),
    (utf8 "attempted", tags r.attempted), (utf8 "skipped", tags r.skipped)] ++
    (if languages.isEmpty then []
      else [(utf8 "languages", .mapping (languages.map fun l => (l.1, int l.2)))])

end UnusedImports
