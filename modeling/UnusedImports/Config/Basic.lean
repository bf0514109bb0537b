import UnusedImports.Config.FileSize
import UnusedImports.Log.Level
import UnusedImports.Project.Enumerate
import UnusedImports.Report.Format
import UnusedImports.Tool.Eslint
import UnusedImports.Tool.TsPrune

/-! The settings of a run, their usual values and what is wrong with them. -/

namespace UnusedImports

namespace Config

/-- A list of texts, or none if it was not set. -/
abbrev Texts := Option (List Bytes)

structure Scan where
  extensions : Texts
  ignoredDirectories : Texts
  /-- How many files are analyzed at a time; zero means as many as there are processors. -/
  workers : Int
  maxFileSize : Bytes
  skipVendored : Bool

/-- How an external tool is used. -/
structure Tool where
  enabled : Bool
  command : Bytes
  arguments : Texts
  rules : Texts
  timeout : Duration
  /-- How many findings are listed at most; zero means all. -/
  maxFindings : Int

/-- How the lexical strategy is used. -/
structure Lexical where
  enabled : Bool
  always : Bool

structure Report where
  format : Bytes
  lexicalDisplayLimit : Int
  listingLimit : Int
  noColor : Bool
  showFix : Bool

structure Logging where
  level : Bytes
  json : Bool

structure Telemetry where
  endpoint : Bytes
  insecure : Bool
  headers : Texts
  metricsFile : Bytes

end Config

structure Config where
  scan : Config.Scan
  linter : Config.Tool
  exports : Config.Tool
  lexical : Config.Lexical
  report : Config.Report
  logging : Config.Logging
  telemetry : Config.Telemetry

namespace Config

def default : Config where
  scan := ⟨some SourceOptions.defaultExtensions, some SourceOptions.defaultIgnored, 0, utf8 "1MB",
    false⟩
  linter := ⟨true, Tool.Eslint.defaultCommand, some Tool.Eslint.defaultArguments,
    some Tool.Eslint.defaultRules, Tool.defaultTimeout, 0⟩
  exports := ⟨true, Tool.TsPrune.defaultCommand, some Tool.TsPrune.defaultArguments, none,
    Tool.defaultTimeout, 0⟩
  lexical := ⟨true, false⟩
  report := ⟨Format.text.name, TextOptions.default.lexicalDisplayLimit,
    TextOptions.default.listingLimit, false, false⟩
  logging := ⟨utf8 "info", false⟩
  telemetry := ⟨[], false, some [], []⟩

/-- Something wrong with the settings. -/
inductive Problem where
  | noExtensions
  | negativeWorkers
  | invalidFileSize (text : Bytes) (problem : FileSize.Problem)
  | emptyCommand (tool : String)
  | invalidTimeout (tool : String)
  | negativeLimit (part : String)
  | unknownFormat (name : Bytes)
  | invalidLogLevel (text : Bytes)
  | invalidHeader (text : Bytes)
  deriving DecidableEq

def Problem.message : Problem → Bytes
  | .noExtensions => utf8 "scan.extensions must not be empty"
  | .negativeWorkers => utf8 "scan.workers must not be negative"
  | .invalidFileSize text problem =>
    utf8 "scan.max_file_size is not a byte size: " ++ Quoted.quote text ++ utf8 ": " ++
      problem.message
  | .emptyCommand tool => utf8 tool ++ utf8 ": tool command must not be empty"
  | .invalidTimeout tool => utf8 tool ++ utf8 ": tool timeout must be positive"
  | .negativeLimit part => utf8 part ++ utf8 ": limits must not be negative"
  | .unknownFormat name => Format.unknownMessage name
  | .invalidLogLevel text =>
    utf8 "logging.level must be debug, info, warn or error: " ++ Quoted.quote text
  | .invalidHeader text =>
    utf8 "telemetry.otlp_headers entries must be key=value: " ++ Quoted.quote text

/-- What is said about several problems, one on a line. -/
def Problem.messages (ps : List Problem) : Bytes :=
  Bytes.join (utf8 "\n") (ps.map Problem.message)

/-- What is wrong with a tool; one that is not used may be set up anyhow. -/
def Tool.problems (name : String) (t : Tool) : List Problem :=
  if t.enabled then
    (if Bytes.isBlank t.command then [.emptyCommand name] else []) ++
      (if t.timeout.nanoseconds ≤ 0 then [.invalidTimeout name] else []) ++
      (if t.maxFindings < 0 then [.negativeLimit name] else [])
  else []

def isHeader (s : Bytes) : Bool :=
  match Bytes.cut? (utf8 "=") s with
  | some (name, _) => !Bytes.isBlank name
  | none => false

/-- Largest size of a file in bytes; a setting that is no size means none. -/
def maxFileSizeLimit (c : Config) : Except FileSize.Problem Int := FileSize.limit c.scan.maxFileSize

def problems (c : Config) : List Problem :=
  (if (c.scan.extensions.getD []).isEmpty then [.noExtensions] else []) ++
    (if c.scan.workers < 0 then [.negativeWorkers] else []) ++
    (match c.maxFileSizeLimit with
      | .error p => [.invalidFileSize c.scan.maxFileSize p]
      | .ok _ => []) ++
    c.linter.problems "linter" ++ c.exports.problems "exports" ++
    (if (Format.parse? c.report.format).isNone then [.unknownFormat c.report.format] else []) ++
    (if c.report.lexicalDisplayLimit < 0 || c.report.listingLimit < 0 then
      [.negativeLimit "report"] else []) ++
    (if (Log.Level.parse? c.logging.level).isNone then [.invalidLogLevel c.logging.level] else []) ++
    ((c.telemetry.headers.getD []).filter fun h => !isHeader h).map .invalidHeader

/-- The least level that is logged; a text that is no level means the level of normal records. -/
def logLevel (c : Config) : Log.Level := (Log.Level.parse? c.logging.level).getD .info

def sourceOptions (c : Config) : SourceOptions :=
  ⟨c.scan.extensions.getD [], c.scan.ignoredDirectories.getD [], c.scan.skipVendored⟩

def eslintOptions (c : Config) : UnusedImports.Tool.Eslint.Options :=
  ⟨c.linter.command, c.linter.arguments.getD [], c.linter.rules.getD [], c.linter.timeout,
    c.linter.maxFindings⟩

def tsPruneOptions (c : Config) : UnusedImports.Tool.TsPrune.Options :=
  ⟨c.exports.command, c.exports.arguments.getD [], c.exports.timeout, c.exports.maxFindings⟩

def textOptions (c : Config) : TextOptions :=
  ⟨c.report.noColor, c.report.listingLimit, c.report.lexicalDisplayLimit, false⟩

end Config

end UnusedImports
