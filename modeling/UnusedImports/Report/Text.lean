import UnusedImports.Report.Recommendation
import UnusedImports.Text.Color
import UnusedImports.Text.Table

namespace UnusedImports

/-- How a report is written for a terminal. A limit of zero or less means none. -/
structure TextOptions where
  noColor : Bool
  listingLimit : Int
  lexicalDisplayLimit : Int
  hideRecommendations : Bool

def TextOptions.default : TextOptions := ⟨false, 10, 20, false⟩

namespace Report

def groupDigits (n : Nat) : Bytes :=
  let digits := (Bytes.ofNat n).reverse
  (digits.zipIdx.flatMap fun (d, i) =>
    if 0 < i && i % 3 = 0 then [','.toUInt8, d] else [d]).reverse

def withCommas (n : Int) : Bytes :=
  (if n < 0 then utf8 "-" else []) ++ groupDigits n.natAbs

def separator : Bytes := (List.replicate 40 (utf8 "━")).flatten ++ utf8 "\n"

/-- What came of a strategy, in the color of how good it is. -/
def statusLabel (colors : Bool) (s : Summary) : Bytes :=
  let label := s.status.name.map fun b => if b == 0x5f then 0x20 else b
  match s.status with
  | .findings =>
    if 0 < s.total then Style.yellow.paint colors label else Style.green.paint colors (utf8 "clean")
  | .inconclusive => Style.yellow.paint colors label
  | _ => Style.gray.paint colors label

def strategyTable (colors : Bool) (r : Report) : Bytes :=
  Table.render ["Strategy", "Outcome", "Found", "Unique", "Note"] <| r.strategies.map fun s =>
    let number (n : Int) : Bytes := if s.status = .findings then Bytes.ofInt n else utf8 "-"
    [s.strategy.name, statusLabel colors s, number s.total, number s.unique, s.reason]

def listingTitle (tag : Tag) : Bytes :=
  if tag = .eslint then utf8 "Unused variables (eslint)"
  else if tag = .tsPrune then utf8 "Unused exports (ts-prune)"
  else if tag = .lexical then utf8 "Potentially unused imports (lexical)"
  else tag.name

/-- What is listed of a strategy's findings: a heading with a count, rows, and how many more there
are. -/
structure Listing where
  strategy : Tag
  count : Int
  rows : List Finding
  more : Int

/-- The listing of a strategy, if it has any findings. -/
def listing? (o : TextOptions) (r : Report) (s : Summary) : Option Listing :=
  let own := r.findingsBy s.strategy
  if own.isEmpty && s.omitted = 0 then none
  else
    let limit := if s.strategy = .lexical then o.lexicalDisplayLimit else o.listingLimit
    let rows := if 0 < limit then own.take limit.toNat else own
    some ⟨s.strategy, s.unique, rows, Integer.wrap (own.length - rows.length + s.omitted)⟩

def Listing.render (colors : Bool) (l : Listing) : Bytes :=
  Style.bold.paint colors (listingTitle l.strategy) ++ utf8 " (" ++ Bytes.ofInt l.count ++
    utf8 ")\n" ++
    Table.render ["Location", "Identifier", "Message"]
      (l.rows.map fun f => [f.location, f.identifier, f.message]) ++ utf8 "\n" ++
    (if 0 < l.more then utf8 "   ... and " ++ Bytes.ofInt l.more ++ utf8 " more\n" else []) ++
    utf8 "\n"

/-- The languages by their number of files, most first. The order of two numbers is the sign of
their difference, which wraps around. -/
def languageLine (languages : List (Bytes × Int)) : Bytes :=
  let sorted := languages.mergeSort fun a b =>
    Integer.wrap (b.2 - a.2) < 0 || (a.2 = b.2 && Bytes.le a.1 b.1)
  Bytes.join (utf8 ", ") (sorted.map fun l => l.1 ++ utf8 " " ++ Bytes.ofInt l.2)

def renderRecommendations (colors : Bool) (r : Report) : Bytes :=
  let hints := recommendations r
  if hints.isEmpty then []
  else
    utf8 "\n" ++ Style.bold.paint colors (utf8 "Recommendations") ++ utf8 "\n\n" ++
      hints.zipIdx.flatMap fun (h, i) =>
        utf8 "  " ++ Bytes.ofNat (i + 1) ++ utf8 ". " ++ h.text ++ utf8 "\n     " ++
          Style.gray.paint colors h.command ++ utf8 "\n"

def renderText (o : TextOptions) (r : Report) : Bytes :=
  let colors := !o.noColor
  let issues := withCommas r.totalFindings
  Style.boldCyan.paint colors (utf8 "Unused import detection") ++ utf8 "\n" ++
    separator ++ utf8 "\nRoot: " ++ r.root ++ utf8 "\n\n" ++
    Style.bold.paint colors (utf8 "Strategies") ++ utf8 "\n" ++
    strategyTable colors r ++ utf8 "\n\n" ++
    (r.strategies.filterMap (listing? o r)).flatMap (Listing.render colors) ++
    separator ++ Style.bold.paint colors (utf8 "Summary") ++ utf8 "\n\nFiles scanned: " ++
    withCommas r.filesScanned ++ utf8 "\n" ++
    (if 0 < r.linesScanned then utf8 "Lines scanned: " ++ withCommas r.linesScanned ++ utf8 "\n"
      else []) ++
    utf8 "Issues found: " ++
    (if 0 < r.totalFindings then Style.boldRed.paint colors issues
      else Style.green.paint colors issues) ++ utf8 "\n" ++
    (if r.languages.isEmpty then []
      else utf8 "Languages: " ++ languageLine r.languages ++ utf8 "\n") ++
    utf8 "Duration: " ++ r.duration.roundToMilliseconds.render ++ utf8 "\n" ++
    (if o.hideRecommendations then [] else renderRecommendations colors r) ++ separator

end Report

end UnusedImports
