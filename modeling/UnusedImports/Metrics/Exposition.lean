import UnusedImports.Metrics.Basic
import UnusedImports.Number.Shortest

/-! Measurements as text: families by name, then the values of their labels in order. -/

namespace UnusedImports.Metrics

def Family.name : Family → String
  | .errors => "importsweep_errors_total"
  | .files => "importsweep_files_scanned_total"
  | .findings => "importsweep_findings_total"
  | .unique => "importsweep_findings_unique_total"
  | .inflight => "importsweep_inflight_requests"
  | .requestDuration => "importsweep_request_duration_seconds"
  | .requests => "importsweep_requests_total"
  | .strategyDuration => "importsweep_strategy_duration_seconds"
  | .strategyRuns => "importsweep_strategy_runs_total"

def Family.labels : Family → List String
  | .errors => ["op"]
  | .files => []
  | .findings => ["strategy"]
  | .unique => []
  | .inflight => ["op"]
  | .requestDuration => ["op", "status"]
  | .requests => ["op", "status"]
  | .strategyDuration => ["outcome", "strategy"]
  | .strategyRuns => ["outcome", "strategy"]

/-- All families, by name. -/
def Family.all : List Family :=
  [.errors, .files, .findings, .unique, .inflight, .requestDuration, .requests, .strategyDuration,
    .strategyRuns]

/-- The upper bounds of the buckets in thousandths of a second. -/
def bounds : List Nat :=
  [5, 10, 50, 100, 250, 500, 1000, 2500, 5000, 10000, 30000, 60000, 120000]

/-- A number: its shortest decimal, in scientific notation from a million on. -/
def number (negative : Bool) (x : Binary64) : Bytes :=
  (if negative && x.mantissa ≠ 0 then utf8 "-" else []) ++ Shortest.general (Shortest.decimal x) 6

/-- A whole number. One that rounds to the 63rd power of two counts as the least number of 64
bits. -/
def whole (n : Int) : Bytes :=
  let size := Binary64.ofNat n.natAbs
  number (n < 0 || 0x8000000000000000 ≤ size.floor) size

def escapeLabel (s : Bytes) : Bytes :=
  s.flatMap fun b =>
    if b == Bytes.backslash then utf8 "\\\\"
    else if b == Bytes.doubleQuote then utf8 "\\\""
    else if b == Bytes.newline then utf8 "\\n"
    else [b]

def label (name : String) (value : Bytes) : Bytes :=
  utf8 name ++ utf8 "=\"" ++ escapeLabel value ++ utf8 "\""

/-- A line: a name, labels in braces if there are any, and a number. -/
def sample (name : String) (labels : List Bytes) (value : Bytes) : Bytes :=
  utf8 name ++
    (if labels.isEmpty then [] else utf8 "\x7b" ++ Bytes.join (utf8 ",") labels ++ utf8 "\x7d") ++
    utf8 " " ++ value

def Series.lines (f : Family) (values : List Bytes) (s : Series) : List Bytes :=
  let labels := (f.labels.zip values).map fun (n, v) => label n v
  match s with
  | .count n => [sample f.name labels (whole n)]
  | .durations ds =>
    let bucket (bound : Bytes) (n : Nat) : Bytes :=
      sample (f.name ++ "_bucket") (labels ++ [label "le" bound]) (whole n)
    let finite := bounds.map fun b =>
      let bound := Binary64.ofRatio b 1000
      bucket (number false bound) (ds.countP fun d => d.atMost bound)
    let sum := Seconds.sum ds
    finite ++ [bucket (utf8 "+Inf") ds.length,
      sample (f.name ++ "_sum") labels (number sum.negative sum.size),
      sample (f.name ++ "_count") labels (whole ds.length)]

def labelsLe : List Bytes → List Bytes → Bool
  | a :: as, b :: bs => if a == b then labelsLe as bs else Bytes.le a b
  | _, _ => true

def lines (m : Metrics) : List Bytes :=
  Family.all.flatMap fun f =>
    let own := m.series.filter fun s => s.1.family = f
    (own.mergeSort fun x y => labelsLe x.1.labels y.1.labels).flatMap fun s =>
      s.2.lines f s.1.labels

end UnusedImports.Metrics
