import UnusedImports.Finding
import UnusedImports.Log.Record

/-! The lexical strategy is a fallback: unless it is always wanted, it runs only if the linter
reported nothing. -/

namespace UnusedImports

/-- The strategies of a run; one that is missing is switched off. -/
structure Strategies where
  linter : Option (Log.Logged Result)
  exports : Option (Log.Logged Result)
  lexical : Option (Log.Logged Result)
  alwaysLexical : Bool

/-- What came of the strategies of a run. -/
structure Outcome where
  linter : Result
  exports : Result
  lexical : Result
  lexicalSkipped : Option Bytes
  disabled : List Tag
  observed : List Result

namespace Strategies

/-- Why a strategy that is switched off did not run. -/
def disabledReason : Bytes := utf8 "disabled"

/-- Why the lexical strategy is not needed. -/
def linterReason : Bytes := utf8 "linter reported findings"

def finished (r : Result) : Log.Record :=
  ⟨.info, utf8 "strategy finished",
    [Log.attr "strategy" (.text r.strategy.name), Log.attr "outcome" (.text r.outcome),
      Log.attr "findings" (.int r.total), Log.attr "elapsed" (.duration ⟨0⟩),
      Log.attr "reason" (.text r.reason)]⟩

/-- The result of a strategy, with its records and the one about its end. -/
def run (tag : Tag) (s : Option (Log.Logged Result)) : Log.Logged Result :=
  match s with
  | some r => ⟨r.value, r.records ++ [finished r.value]⟩
  | none => .silent (.notAvailable tag disabledReason)

/-- The strategies that are switched off, by rank. -/
def disabled (s : Strategies) : List Tag :=
  (if s.linter.isNone then [.eslint] else []) ++ (if s.exports.isNone then [.tsPrune] else []) ++
    (if s.lexical.isNone then [.lexical] else [])

def runAll (s : Strategies) : Log.Logged Outcome :=
  let linter := run .eslint s.linter
  let exports := run .tsPrune s.exports
  let ran (o : Option (Log.Logged Result)) : List Result := o.toList.map (·.value)
  if linter.value.hasFindings && !s.alwaysLexical then
    let skipped : Log.Record :=
      ⟨.info, utf8 "skipping lexical fallback", [Log.attr "reason" (.text linterReason)]⟩
    ⟨⟨linter.value, exports.value, .notAvailable .lexical linterReason, some linterReason,
      s.disabled, ran s.linter ++ ran s.exports⟩, linter.records ++ exports.records ++ [skipped]⟩
  else
    let lexical := run .lexical s.lexical
    ⟨⟨linter.value, exports.value, lexical.value, none, s.disabled,
      ran s.linter ++ ran s.exports ++ ran s.lexical⟩,
      linter.records ++ exports.records ++ lexical.records⟩

end Strategies

/-- The results of the strategies that ran, by rank. -/
def Outcome.results (o : Outcome) : List Result :=
  [o.linter, o.exports, o.lexical].filter fun r =>
    !o.disabled.contains r.strategy && !(r.strategy = .lexical && o.lexicalSkipped.isSome)

end UnusedImports
