import UnusedImports.Config.Basic
import UnusedImports.Project.Scan
import UnusedImports.Report.Basic
import UnusedImports.Strategy

/-! A sweep lists the sources of a project, runs the strategies and puts their results into a
report. -/

namespace UnusedImports

/-- What a run sees of the machine it runs on. -/
structure Host where
  tree : Tree
  canceled : Bool
  runner : Tool.Runner

/-- Why there is no report. -/
inductive SweepError where
  | sources (e : RootError)
  | fileSize (text : Bytes) (problem : FileSize.Problem)
  deriving DecidableEq

/-- What is said about a sweep without report. -/
def SweepError.message : SweepError → Bytes
  | .sources e => utf8 "enumerate sources: " ++ e.message
  | .fileSize text problem => (Config.Problem.invalidFileSize text problem).message

/-- What came of a sweep. -/
structure Swept where
  announced : Option Nat
  records : List Log.Record
  observed : List Result
  report : Except SweepError Report

def progressLine (files : Nat) : Bytes :=
  utf8 "Scanning " ++ Bytes.ofNat files ++ utf8 " file(s)...\n"

namespace Sweep

def listedRecord (root : Bytes) (files : Nat) : Log.Record :=
  ⟨.debug, utf8 "enumerated sources",
    [Log.attr "root" (.text root), Log.attr "files" (.int files)]⟩

/-- The lexical strategy over the listed sources, with the number of lines that it reads. -/
def lexical (h : Host) (root : Bytes) (limit : Int) (paths : List Bytes) :
    Log.Logged (Result × Nat) :=
  lexicalStrategy h.tree h.canceled ⟨root, limit⟩ paths

/-- The strategies that the configuration asks for. -/
def strategies (h : Host) (c : Config) (root : Bytes) (lexical : Log.Logged Result) : Strategies where
  linter := if c.linter.enabled then some (Tool.Eslint.run h.runner root c.eslintOptions) else none
  exports :=
    if c.exports.enabled then some (Tool.TsPrune.run h.runner root c.tsPruneOptions) else none
  lexical := if c.lexical.enabled then some lexical else none
  alwaysLexical := c.lexical.always

def build (root : Bytes) (start finish : Instant) (paths : List Bytes)
    (languages : List (Bytes × Int)) (lines : Nat) (o : Outcome) : Report :=
  let b := Report.Builder.start root start
  let b := { b with files := paths.length, languages }
  let b := o.results.foldl Report.Builder.add b
  let b := o.disabled.foldl (fun b tag => b.skip tag Strategies.disabledReason) b
  let b := match o.lexicalSkipped with
    | some reason => b.skip .lexical reason
    | none => { b with lines }
  b.build finish

def run (h : Host) (c : Config) (root : Bytes) (start finish : Instant) : Swept :=
  match enumerate h.tree h.canceled root c.sourceOptions with
  | .error e => ⟨none, [], [], .error (.sources e)⟩
  | .ok paths =>
    let listed := listedRecord root paths.length
    match c.maxFileSizeLimit with
    | .error p => ⟨some paths.length, [listed], [], .error (.fileSize c.scan.maxFileSize p)⟩
    | .ok limit =>
      let lexical := lexical h root limit paths
      let outcome := (strategies h c root ⟨lexical.value.1, lexical.records⟩).runAll
      let lines := if c.lexical.enabled then lexical.value.2 else 0
      { announced := some paths.length
        records := listed :: outcome.records
        observed := outcome.value.observed
        report := .ok (build root start finish paths (Language.counts h.tree paths) lines
          outcome.value) }

end Sweep

end UnusedImports
