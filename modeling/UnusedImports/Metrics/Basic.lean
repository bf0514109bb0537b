import UnusedImports.Duration
import UnusedImports.Finding
import UnusedImports.Number.Binary64

/-! Counters and distributions of durations, kept apart by the values of their labels. -/

namespace UnusedImports

namespace Metrics

/-- What is measured. -/
inductive Family where
  | errors
  | files
  | findings
  | unique
  | inflight
  | requestDuration
  | requests
  | strategyDuration
  | strategyRuns
  deriving DecidableEq, Repr

/-- A number of seconds with its sign. -/
structure Seconds where
  negative : Bool
  size : Binary64

/-- Whole seconds and the rest of a duration, added as floating-point numbers. -/
def Seconds.ofDuration (d : Duration) : Seconds :=
  let n := d.nanoseconds.natAbs
  ⟨d.nanoseconds < 0, (Binary64.ofNat (n / 1000000000)).add
    ((Binary64.ofNat (n % 1000000000)).div (Binary64.ofNat 1000000000))⟩

def Seconds.add (x y : Seconds) : Seconds :=
  if x.negative = y.negative then ⟨x.negative, x.size.add y.size⟩
  else ⟨if y.size.le x.size then x.negative else y.negative, x.size.distance y.size⟩

def Seconds.isWhole (x : Seconds) : Bool := x.size.numerator % x.size.denominator = 0

/-- Sum of many numbers of seconds. Whole numbers are added apart from the others, and exactly. -/
def Seconds.sum (xs : List Seconds) : Seconds :=
  let whole := (xs.filter Seconds.isWhole).foldl
    (fun n x => if x.negative then n - x.size.floor else n + x.size.floor) (0 : Int)
  let broken := (xs.filter fun x => !x.isWhole).foldl Seconds.add ⟨false, ⟨0, 0⟩⟩
  broken.add ⟨whole < 0, Binary64.ofNat whole.natAbs⟩

/-- Tests whether a number of seconds is at most a positive one. -/
def Seconds.atMost (x : Seconds) (bound : Binary64) : Bool := x.negative || x.size.le bound

/-- What was measured under some labels: a count or a list of durations. -/
inductive Series where
  | count (n : Int)
  | durations (ds : List Seconds)

/-- A family with the values of its labels. -/
structure Key where
  family : Family
  labels : List Bytes
  deriving DecidableEq

end Metrics

/-- Everything that was measured. -/
structure Metrics where
  series : List (Metrics.Key × Metrics.Series)

namespace Metrics

def empty : Metrics := ⟨[]⟩

/-- Changes what was measured under a key; a new key starts from the given series. -/
def update (m : Metrics) (k : Key) (start : Series) (f : Series → Series) : Metrics :=
  if m.series.any fun s => s.1 = k then
    ⟨m.series.map fun s => if s.1 = k then (k, f s.2) else s⟩
  else ⟨m.series ++ [(k, f start)]⟩

def add (m : Metrics) (f : Family) (labels : List Bytes) (n : Int) : Metrics :=
  m.update ⟨f, labels⟩ (.count 0) fun
    | .count k => .count (Integer.wrap (k + n))
    | s => s

def observe (m : Metrics) (f : Family) (labels : List Bytes) (d : Duration) : Metrics :=
  m.update ⟨f, labels⟩ (.durations []) fun
    | .durations ds => .durations (ds ++ [Seconds.ofDuration d])
    | s => s

/-- Takes up the run of a strategy. Its findings are counted if it ran to its end. -/
def recordStrategy (m : Metrics) (r : Result) (elapsed : Duration) : Metrics :=
  let labels := [r.outcome, r.strategy.name]
  let m := (m.add .strategyRuns labels 1).observe .strategyDuration labels elapsed
  match r.verdict with
  | .found .. => m.add .findings [r.strategy.name] r.total
  | _ => m

def recordScan (m : Metrics) (files unique : Int) : Metrics :=
  (m.add .files [] files).add .unique [] unique

def errorStatus : Bytes := utf8 "error"

def okStatus : Bytes := utf8 "ok"

def recordRequest (m : Metrics) (op status : Bytes) (elapsed : Duration) : Metrics :=
  let m := (m.add .requests [op, status] 1).observe .requestDuration [op, status] elapsed
  if status = errorStatus then m.add .errors [op] 1 else m

def beginRequest (m : Metrics) (op : Bytes) : Metrics := m.add .inflight [op] 1

def endRequest (m : Metrics) (op : Bytes) : Metrics := m.add .inflight [op] (-1)

end Metrics

end UnusedImports
