import UnusedImports.CommandLine.Command
import UnusedImports.Config.Load
import UnusedImports.Log.Handler
import UnusedImports.Metrics.Exposition
import UnusedImports.Project.Previews
import UnusedImports.Report.Format
import UnusedImports.Sweep
import UnusedImports.Version

/-! A run of the program: what it writes and how it ends. -/

namespace UnusedImports.CommandLine

/-- What a run of the program sees. -/
structure Surroundings where
  host : Host
  environment : List (Bytes × Bytes)
  directory : Bytes
  version : Version
  start : Instant
  finish : Instant

/-- Why a run does not end well. -/
inductive Failure where
  | usage (e : UsageError)
  | config (e : Config.LoadError)
  | flags (problems : List Config.Problem)
  | sweep (e : SweepError)
  | metrics (path : Bytes) (e : Tree.WriteError)
  | findings

namespace Failure

/-- The exit status of a run that does not end well. -/
def exitCode : Failure → Nat
  | .findings => 1
  | _ => 2

/-- What is said about a run that does not end well. -/
def message : Failure → Bytes
  | .usage e => e.message
  | .config e => e.message
  | .flags problems => utf8 "invalid flags: " ++ Config.Problem.messages problems
  | .sweep e => e.message
  | .metrics path e => utf8 "write metrics file: " ++ path ++ utf8 ": " ++ e.message
  | .findings => utf8 "exit 1: unused imports detected"

end Failure

/-- What a run leaves behind. -/
structure Outcome where
  output : Bytes
  charts : Option (List Report.Chart)
  messages : Bytes
  written : Option (Bytes × Bytes)
  failure : Option Failure

namespace Outcome

/-- A run that only writes to its output. -/
def quiet (output : Bytes) : Outcome := ⟨output, none, [], none, none⟩

def failed (f : Failure) : Outcome := ⟨[], none, [], none, some f⟩

def exitCode (o : Outcome) : Nat := (o.failure.map Failure.exitCode).getD 0

end Outcome

/-- The configuration for a project, with what the flags of every command say about the log. -/
def loadConfig (s : Surroundings) (p : Parsed) (root : Bytes) : Except Failure Config :=
  match Config.load s.host.tree s.environment s.directory ((p.text? "config").getD []) root with
  | .error e => .error (.config e)
  | .ok c =>
    let level := (p.text? "log-level").getD c.logging.level
    let json := (p.truth? "log-json").getD c.logging.json
    .ok { c with logging := ⟨level, json⟩ }

/-- A configuration with what the flags of a sweep say. A flag that is given counts, whatever the
configuration says; tools can only be switched off. -/
def withFlags (p : Parsed) (c : Config) : Config :=
  { c with
    scan := { c.scan with
      workers := (p.integer? "workers").getD c.scan.workers
      maxFileSize := (p.text? "max-file-size").getD c.scan.maxFileSize }
    linter := { c.linter with enabled := c.linter.enabled && !p.isOn "no-linter" }
    exports := { c.exports with enabled := c.exports.enabled && !p.isOn "no-exports" }
    lexical := { c.lexical with always := (p.truth? "always-lexical").getD c.lexical.always }
    report := { c.report with
      format := (p.text? "format").getD c.report.format
      noColor := (p.truth? "no-color").getD c.report.noColor
      showFix := (p.truth? "show-fix").getD c.report.showFix }
    telemetry := { c.telemetry with
      metricsFile := (p.text? "metrics-file").getD c.telemetry.metricsFile } }

/-- The suggested edits after a report, if they are asked for. -/
def fixText (h : Host) (c : Config) (r : Report) : Bytes :=
  if c.report.showFix then
    let limit := (c.maxFileSizeLimit.toOption).getD 0
    match previews? h.tree h.canceled r.root limit r.findings with
    | some ps => Diff.render (!c.report.noColor) (ps.map (·.diff))
    | none => []
  else []

def measure (observed : List Result) (r : Report) : Metrics :=
  let m := observed.foldl (fun m o => Metrics.recordStrategy m o ⟨0⟩) Metrics.empty
  m.recordScan r.filesScanned r.totalFindings

def unlines (lines : List Bytes) : Bytes := lines.flatMap (· ++ [Bytes.newline])

/-- The end of a sweep with a report: the measurements are written if they are asked for, and then
the findings decide. -/
def finishScan (s : Surroundings) (c : Config) (observed : List Result) (r : Report) (o : Outcome) :
    Outcome :=
  let verdict := if r.exitCode = 0 then none else some .findings
  let path := c.telemetry.metricsFile
  if path.isEmpty then { o with failure := verdict }
  else
    let place := if Path.isAbsolute path then path else s.directory ++ utf8 "/" ++ path
    let content := unlines (measure observed r).lines
    match s.host.tree.write place content with
    | .ok _ => { o with written := some (place, content), failure := verdict }
    | .error e => { o with failure := some (.metrics path e) }

/-- Sweeps a project with a configuration that makes sense. The number of sources is announced in
the output if that is a text, else besides it. -/
def runScan (s : Surroundings) (c : Config) (format : Format) (silent : Bool) (root : Bytes) :
    Outcome :=
  let swept := Sweep.run s.host c (Path.absolute s.directory root) s.start s.finish
  let announcement := if silent then [] else (swept.announced.map progressLine).getD []
  let handler : Log.Handler := ⟨c.logLevel, c.logging.json, [], utf8 "cli", none⟩
  let log := unlines (handler.lines swept.records)
  let o : Outcome :=
    { output := if format = .text then announcement else []
      charts := none
      messages := if format = .text then log else announcement ++ log
      written := none
      failure := none }
  match swept.report with
  | .error e => { o with failure := some (.sweep e) }
  | .ok r =>
    finishScan s c swept.observed r <|
      match r.render format.name c.textOptions with
      | .text t =>
        { o with output := o.output ++ t ++ if format = .text then fixText s.host c r else [] }
      | .charts cs => { o with charts := some cs }
      | .unknown _ => o

/-- Sweeps a project: the configuration is loaded, changed by the flags and checked again. -/
def scan (s : Surroundings) (p : Parsed) : Outcome :=
  let root := (p.arguments.head?).getD (utf8 ".")
  match loadConfig s p root with
  | .error f => .failed f
  | .ok c =>
    let c := withFlags p c
    match c.problems, Format.parse? c.report.format with
    | [], some format => runScan s c format (p.isOn "silent") root
    | problems, _ => .failed (.flags problems)

/-- Runs the program. Of serving an editor or an agent this is only the start, which loads the
configuration. -/
def run (s : Surroundings) (arguments : List Bytes) : Outcome :=
  match read arguments with
  | .error e => .failed (.usage e)
  | .ok (.scan, p) => scan s p
  | .ok (.version, _) =>
    .quiet (utf8 (Command.programName ++ " ") ++ s.version.render ++ [Bytes.newline])
  | .ok (.serveEditor, p) | .ok (.serveAgent, p) =>
    match loadConfig s p [] with
    | .error f => .failed f
    | .ok _ => .quiet []
  | .ok _ => .quiet []

end UnusedImports.CommandLine
