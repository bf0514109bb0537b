import UnusedImports.Config.Basic
import UnusedImports.Config.Setting
import UnusedImports.Tree
import UnusedImports.Yaml.Reader

/-! Settings come from one file, given or searched for, under the environment and above the usual
ones. -/

namespace UnusedImports.Config

open Yaml (Value)

/-! ## Settings from sources -/

def setting? {α : Type} (s : Sources) (part name : String) (convert : Value → Option α)
    (usual empty : α) : Option α :=
  (s.find part name true).read? convert usual empty

def texts? (s : Sources) (part name : String) (usual : Texts) : Option Texts :=
  (s.find part name usual.isSome).read? (fun v => (toTexts? v).map some) usual none

def tool? (s : Sources) (part : String) (usual : Tool) : Option Tool := do
  return {
    enabled := ← setting? s part "enabled" toBool? usual.enabled false
    command := ← setting? s part "command" toText? usual.command []
    arguments := ← texts? s part "args" usual.arguments
    rules := ← texts? s part "rules" usual.rules
    timeout := ← setting? s part "timeout" toDuration? usual.timeout ⟨0⟩
    maxFindings := ← setting? s part "max_findings" toInt? usual.maxFindings 0 }

def scan? (s : Sources) (usual : Scan) : Option Scan := do
  return {
    extensions := ← texts? s "scan" "extensions" usual.extensions
    ignoredDirectories := ← texts? s "scan" "ignore_dirs" usual.ignoredDirectories
    workers := ← setting? s "scan" "workers" toInt? usual.workers 0
    maxFileSize := ← setting? s "scan" "max_file_size" toText? usual.maxFileSize []
    skipVendored := ← setting? s "scan" "skip_vendored" toBool? usual.skipVendored false }

def report? (s : Sources) (usual : Report) : Option Report := do
  return {
    format := ← setting? s "report" "format" toText? usual.format []
    lexicalDisplayLimit :=
      ← setting? s "report" "lexical_display_limit" toInt? usual.lexicalDisplayLimit 0
    listingLimit := ← setting? s "report" "listing_limit" toInt? usual.listingLimit 0
    noColor := ← setting? s "report" "no_color" toBool? usual.noColor false
    showFix := ← setting? s "report" "show_fix" toBool? usual.showFix false }

/-- Reads where measurements go. -/
def telemetry? (s : Sources) (usual : Telemetry) : Option Telemetry := do
  return {
    endpoint := ← setting? s "telemetry" "otlp_endpoint" toText? usual.endpoint []
    insecure := ← setting? s "telemetry" "otlp_insecure" toBool? usual.insecure false
    headers := ← texts? s "telemetry" "otlp_headers" usual.headers
    metricsFile := ← setting? s "telemetry" "metrics_file" toText? usual.metricsFile [] }

/-- The names of the settings, by the parts of the configuration. -/
def settingNames : List (String × List String) :=
  let tool := ["enabled", "command", "args", "rules", "timeout", "max_findings"]
  [("scan", ["extensions", "ignore_dirs", "workers", "max_file_size", "skip_vendored"]),
    ("linter", tool), ("exports", tool), ("lexical", ["enabled", "always"]),
    ("report", ["format", "lexical_display_limit", "listing_limit", "no_color", "show_fix"]),
    ("logging", ["level", "json"]),
    ("telemetry", ["otlp_endpoint", "otlp_insecure", "otlp_headers", "metrics_file"])]

def parts : List String := settingNames.map (·.1)

def variableNames : List Bytes :=
  settingNames.flatMap fun (part, names) =>
    environmentName part none :: names.map fun n => environmentName part (some n)

/-- Reads all settings, unless one of them cannot be converted. -/
def ofSources? (s : Sources) : Option Config :=
  if parts.any s.isSpoiled then none
  else do
    return {
      scan := ← scan? s default.scan
      linter := ← tool? s "linter" default.linter
      exports := ← tool? s "exports" default.exports
      lexical := {
        enabled := ← setting? s "lexical" "enabled" toBool? default.lexical.enabled false
        always := ← setting? s "lexical" "always" toBool? default.lexical.always false }
      report := ← report? s default.report
      logging := {
        level := ← setting? s "logging" "level" toText? default.logging.level []
        json := ← setting? s "logging" "json" toBool? default.logging.json false }
      telemetry := ← telemetry? s default.telemetry }

/-! ## Files -/

/-- Why the configuration cannot be loaded. -/
inductive LoadError where
  | unreachable (path : Bytes) (reason : Tree.Dead)
  | isDirectory (path : Bytes)
  | syntaxError
  | decodeError
  | invalid (problems : List Problem)

def LoadError.message : LoadError → Bytes
  | .unreachable path reason =>
    utf8 "read config: open " ++ path ++ utf8 ": " ++ reason.message
  | .isDirectory path => utf8 "read config: read " ++ path ++ utf8 ": is a directory"
  | .syntaxError => []
  | .decodeError => []
  | .invalid problems => utf8 "validate config: " ++ Problem.messages problems

/-- The name of the file that is searched for, without an ending. -/
def fileName : String := ".importsweep"

/-- The endings that are searched for, in this order. -/
def fileEndings : List String :=
  [".json", ".toml", ".yaml", ".yml", ".properties", ".props", ".prop", ".hcl", ".tfvars", ".dotenv",
    ".env", ".ini", ""]

def content? (tree : Tree) (path : Bytes) : Option Bytes :=
  match tree.lookup path with
  | .ok (.file content) => some content
  | _ => none

def search? (tree : Tree) (directories : List Bytes) : Option Bytes :=
  directories.findSome? fun directory =>
    fileEndings.findSome? fun ending =>
      content? tree (Path.join directory (utf8 (fileName ++ ending)))

/-- The entries of a file, in lower case. -/
def entries? (content : Bytes) : Option (List (Bytes × Value)) :=
  (Yaml.entries? content).map (lowerNames content.length)

/-- The directory of the user's own files, if it is known. -/
def homeDirectory? (environment : List (Bytes × Bytes)) : Option Bytes :=
  (environment.lookup (utf8 "HOME")).filter fun h => !h.isEmpty

/-- Loads the configuration from a given file, or else from the first one found in the project, the
working directory and the user's directory. -/
def load (tree : Tree) (environment : List (Bytes × Bytes)) (directory given root : Bytes) :
    Except LoadError Config := do
  let content ←
    if given.isEmpty then
      let directories := (if root.isEmpty then [] else [root]) ++ [directory] ++
        (homeDirectory? environment).toList
      pure ((search? tree (directories.map (Path.absolute directory))).getD [])
    else
      match tree.lookup (Path.absolute directory given) with
      | .ok (.file content) => pure content
      | .ok _ => .error (.isDirectory given)
      | .error reason => .error (.unreachable given reason)
  match entries? content with
  | none => .error .syntaxError
  | some file =>
    match ofSources? ⟨environment, file⟩ with
    | none => .error .decodeError
    | some c => if c.problems.isEmpty then .ok c else .error (.invalid c.problems)

end UnusedImports.Config
