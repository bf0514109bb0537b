import UnusedImports.Text.Bytes

/-! Findings of the strategies, and what a strategy has to say after it ran. -/

namespace UnusedImports

structure Tag where
  name : Bytes
  deriving DecidableEq, Repr

namespace Tag

def eslint : Tag := ⟨utf8 "eslint"⟩

def tsPrune : Tag := ⟨utf8 "ts-prune"⟩

def lexical : Tag := ⟨utf8 "lexical"⟩

/-- The rank of a strategy. Of two that report the same, the lower one wins. -/
def priority (t : Tag) : Nat :=
  if t = eslint then 0 else if t = tsPrune then 1 else if t = lexical then 2 else 3

end Tag

/-- One symbol that seems unused. -/
structure Finding where
  file : Bytes
  line : Int
  /-- Column of the symbol, zero if it is not known. -/
  column : Int
  identifier : Bytes
  message : Bytes
  rule : Bytes
  strategy : Tag
  deriving DecidableEq, Repr

namespace Finding

/-- What makes two findings the same. -/
structure Key where
  file : Bytes
  line : Int
  identifier : Bytes
  deriving DecidableEq, Repr

/-- What makes the finding the same as others. -/
def key (f : Finding) : Key := ⟨f.file, f.line, f.identifier⟩

/-- The place of a finding: file, line and, if it is known, column. -/
def location (f : Finding) : Bytes :=
  let place := f.file ++ utf8 ":" ++ Bytes.ofInt f.line
  if 0 < f.column then place ++ utf8 ":" ++ Bytes.ofInt f.column else place

/-- The order of findings: by file, line, column and identifier. -/
def order (f g : Finding) : Ordering :=
  (compare f.file g.file).then <| (compare f.line g.line).then <|
    (compare f.column g.column).then (compare f.identifier g.identifier)

/-- Findings in order; equal ones keep their places. -/
def sort (fs : List Finding) : List Finding := fs.mergeSort fun f g => (order f g).isLE

end Finding

/-- What came of a strategy's run. -/
inductive Verdict where
  | found (findings : List Finding) (total : Int)
  | notAvailable (reason : Bytes)
  | inconclusive (reason : Bytes)
  deriving DecidableEq, Repr

/-- What a strategy returns. -/
structure Result where
  strategy : Tag
  verdict : Verdict
  deriving DecidableEq, Repr

namespace Result

/-- A result with findings, of which at least as many were detected as are listed. -/
def found (tag : Tag) (findings : List Finding) (total : Int) : Result :=
  ⟨tag, .found findings (max total findings.length)⟩

/-- A result of a strategy that could not run. -/
def notAvailable (tag : Tag) (reason : Bytes) : Result := ⟨tag, .notAvailable reason⟩

/-- A result of a strategy that was not understood. -/
def inconclusive (tag : Tag) (reason : Bytes) : Result := ⟨tag, .inconclusive reason⟩

def findings (r : Result) : List Finding :=
  match r.verdict with
  | .found fs _ => fs
  | _ => []

def total (r : Result) : Int :=
  match r.verdict with
  | .found _ n => n
  | _ => 0

/-- Why there are no findings to give. -/
def reason (r : Result) : Bytes :=
  match r.verdict with
  | .found .. => []
  | .notAvailable why => why
  | .inconclusive why => why

def outcome (r : Result) : Bytes :=
  match r.verdict with
  | .found .. => utf8 "findings"
  | .notAvailable _ => utf8 "not_available"
  | .inconclusive _ => utf8 "inconclusive"

def hasFindings (r : Result) : Bool := 0 < r.total

/-- How many findings were detected but are not listed. -/
def omitted (r : Result) : Int := max (r.total - r.findings.length) 0

end Result

end UnusedImports
