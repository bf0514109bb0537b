import UnusedImports.Finding
import UnusedImports.Instant

/-! A report merges the results of the strategies. Of findings with the same key the one of the
strategy with the lowest rank is kept, and of those the first. -/

namespace UnusedImports

/-- What came of a strategy in a report. -/
inductive Status where
  | findings
  | notAvailable
  | inconclusive
  | skipped
  deriving DecidableEq, Repr

def Status.name : Status → Bytes
  | .findings => utf8 "findings"
  | .notAvailable => utf8 "not_available"
  | .inconclusive => utf8 "inconclusive"
  | .skipped => utf8 "skipped"

def Result.status (r : Result) : Status :=
  match r.verdict with
  | .found .. => .findings
  | .notAvailable _ => .notAvailable
  | .inconclusive _ => .inconclusive

/-- What one strategy contributed to a report. -/
structure Summary where
  strategy : Tag
  status : Status
  total : Int
  /-- How many findings are left after merging, those included that are not listed. -/
  unique : Int
  omitted : Int
  reason : Bytes
  deriving DecidableEq, Repr

def Summary.attempted (s : Summary) : Bool := s.status != .skipped

/-- The merged results of a run. -/
structure Report where
  root : Bytes
  startedAt : Instant
  finishedAt : Instant
  filesScanned : Int
  linesScanned : Int
  /-- Number of findings, those included that are not listed. -/
  totalFindings : Int
  findings : List Finding
  strategies : List Summary
  attempted : List Tag
  skipped : List Tag
  languages : List (Bytes × Int)

namespace Report

/-- The exit code of a run: zero if nothing was found. -/
def exitCode (r : Report) : Nat := if r.totalFindings = 0 then 0 else 1

def duration (r : Report) : Duration := r.finishedAt.since r.startedAt

def findingsBy (r : Report) (tag : Tag) : List Finding :=
  r.findings.filter fun f => f.strategy = tag

def summary? (r : Report) (tag : Tag) : Option Summary :=
  r.strategies.find? fun s => s.strategy = tag

/-- What is known before a report is made. -/
structure Builder where
  root : Bytes
  startedAt : Instant
  files : Int
  lines : Int
  languages : List (Bytes × Int)
  results : List Result
  skipped : List (Tag × Bytes)

namespace Builder

def start (root : Bytes) (now : Instant) : Builder := ⟨root, now, 0, 0, [], [], []⟩

def add (b : Builder) (r : Result) : Builder := { b with results := b.results ++ [r] }

/-- Notes why a strategy did not run; the last reason counts. -/
def skip (b : Builder) (tag : Tag) (reason : Bytes) : Builder :=
  let known := b.skipped.any fun s => s.1 = tag
  { b with
    skipped :=
      if known then b.skipped.map fun s => if s.1 = tag then (tag, reason) else s
      else b.skipped ++ [(tag, reason)] }

/-- The findings whose keys were not seen before, given the keys seen. -/
def fresh : List Finding.Key → List Finding → List Finding
  | _, [] => []
  | seen, f :: fs =>
    if seen.contains f.key then fresh seen fs else f :: fresh (f.key :: seen) fs

/-- A finding that names no strategy belongs to that of its result. -/
def assignTo (tag : Tag) (f : Finding) : Finding :=
  if f.strategy.name = [] then { f with strategy := tag } else f

/-- What each result contributes, given the keys seen in earlier ones. -/
def contributions : List Finding.Key → List Result → List (Summary × List Finding)
  | _, [] => []
  | seen, r :: rs =>
    let own := fresh seen r.findings
    let summary : Summary :=
      ⟨r.strategy, r.status, r.total, own.length + r.omitted, r.omitted, r.reason⟩
    (summary, own.map (assignTo r.strategy)) ::
      contributions (own.map Finding.key ++ seen) rs

/-- A list in the order of the strategies' ranks; equal ranks keep their places. -/
def byRank {α : Type} (tag : α → Tag) (xs : List α) : List α :=
  xs.mergeSort fun x y => (tag x).priority ≤ (tag y).priority

def build (b : Builder) (now : Instant) : Report :=
  let results := byRank Result.strategy b.results
  let parts := contributions [] results
  let findings := parts.flatMap (·.2)
  let skipped := byRank Prod.fst b.skipped
  let skippedRows := skipped.map fun s => (⟨s.1, .skipped, 0, 0, 0, s.2⟩ : Summary)
  { root := b.root
    startedAt := b.startedAt
    finishedAt := now
    filesScanned := b.files
    linesScanned := b.lines
    totalFindings := Integer.wrap (parts.foldl (fun n p => n + p.1.omitted) findings.length)
    findings := Finding.sort findings
    strategies := byRank Summary.strategy (parts.map (·.1) ++ skippedRows)
    attempted := results.map Result.strategy
    skipped := skipped.map (·.1)
    languages := b.languages }

end Builder

end Report

end UnusedImports
