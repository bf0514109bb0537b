import UnusedImports.Json.Printer
import UnusedImports.Report.Basic

namespace UnusedImports

/-- A member that is left out if its text is empty. -/
def Json.textMember (name : String) (s : Bytes) : List (Bytes × Json) :=
  if s.isEmpty then [] else [(utf8 name, .string s)]

/-- A member that is left out if its number is zero. -/
def Json.intMember (name : String) (n : Int) : List (Bytes × Json) :=
  if n = 0 then [] else [(utf8 name, .ofInt n)]

def Finding.toJson (f : Finding) : Json :=
  .object <| [(utf8 "file", .string f.file), (utf8 "line", .ofInt f.line)] ++
    Json.intMember "column" f.column ++ [(utf8 "identifier", .string f.identifier)] ++
    Json.textMember "message" f.message ++ Json.textMember "rule" f.rule ++
    [(utf8 "strategy", .string f.strategy.name)]

def Summary.toJson (s : Summary) : Json :=
  .object <| [(utf8 "strategy", .string s.strategy.name), (utf8 "outcome", .string s.status.name),
    (utf8 "attempted", .bool s.attempted), (utf8 "total", .ofInt s.total),
    (utf8 "unique", .ofInt s.unique)] ++ Json.intMember "omitted" s.omitted ++
    Json.textMember "reason" s.reason

/-- Counts by name, in the order of the names. -/
def Json.ofCounts (counts : List (Bytes × Int)) : Json :=
  .object <| (counts.mergeSort fun a b => Bytes.le a.1 b.1).map fun c => (c.1, .ofInt c.2)

def Report.toJson (r : Report) : Json :=
  let tags (ts : List Tag) : Json := .array (ts.map fun t => .string t.name)
  .object <| [(utf8 "root", .string r.root), (utf8 "started_at", .string r.startedAt.render),
    (utf8 "finished_at", .string r.finishedAt.render),
    (utf8 "files_scanned", .ofInt r.filesScanned), (utf8 "lines_scanned", .ofInt r.linesScanned),
    (utf8 "total_findings", .ofInt r.totalFindings),
    (utf8 "findings", .array (r.findings.map Finding.toJson)),
    (utf8 "strategies",
      if r.strategies.isEmpty then .null else .array (r.strategies.map Summary.toJson)),
    (utf8 "attempted", tags r.attempted), (utf8 "skipped", tags r.skipped)] ++
    (if r.languages.isEmpty then [] else [(utf8 "languages", Json.ofCounts r.languages)])

def Report.renderJson (r : Report) : Bytes := r.toJson.pretty 0 ++ utf8 "\n"

end UnusedImports
