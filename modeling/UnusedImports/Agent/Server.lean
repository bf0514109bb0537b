import UnusedImports.Agent.Call
import UnusedImports.Json.Printer
import UnusedImports.Metrics.Basic
import UnusedImports.Report.Json
import UnusedImports.Source.Scan
import UnusedImports.Sweep

namespace UnusedImports.Agent

def serverName : Bytes := utf8 "importsweep"

def maxCodeLength : Nat := 1048576

/-- Why a call fails. -/
inductive CallError where
  | emptyPath
  | relativePath (path : Bytes)
  | sweep (e : SweepError)
  | emptyCode
  | longCode (length : Nat)
  deriving DecidableEq

def CallError.message : CallError → Bytes
  | .emptyPath => utf8 "path parameter is required and must not be empty"
  | .relativePath path => utf8 "path must be absolute: " ++ path
  | .sweep e => e.message
  | .emptyCode => utf8 "code parameter is required and must not be empty"
  | .longCode length =>
    utf8 "code input exceeds maximum size: " ++ Bytes.ofNat length ++ utf8 " bytes (max " ++
      Bytes.ofNat maxCodeLength ++ utf8 ")"

/-- What a server works with. -/
structure Server where
  host : Host
  config : Config
  version : Bytes
  trace : Option Bytes

namespace Server

/-- A server; without version it is one under development. -/
def new (host : Host) (config : Config) (version : Bytes) (trace : Option Bytes) : Server :=
  ⟨host, config, if version = [] then utf8 "dev" else version, trace⟩

/-- The configuration of the sweep that a call asks for. A call can ask for more of the lexical
analysis and for less of the tools. -/
def configFor (c : Config) (alwaysLexical skipLinter skipExports : Bool) : Config :=
  { c with
    lexical := { c.lexical with always := c.lexical.always || alwaysLexical }
    linter := { c.linter with enabled := c.linter.enabled && !skipLinter }
    exports := { c.exports with enabled := c.exports.enabled && !skipExports } }

def run (s : Server) (start finish : Instant) : Call → Except CallError Json
  | .sweep path alwaysLexical skipLinter skipExports =>
    if path = [] then .error .emptyPath
    else if !Path.isAbsolute path then .error (.relativePath path)
    else
      let c := configFor s.config alwaysLexical skipLinter skipExports
      match (Sweep.run s.host c (Path.clean path) start finish).report with
      | .ok r => .ok r.toJson
      | .error e => .error (.sweep e)
  | .check code name =>
    if code = [] then .error .emptyCode
    else if maxCodeLength < code.length then .error (.longCode code.length)
    else
      let name := if name = [] then utf8 "input.ts" else name
      let findings := scanFile name (Lines.dropByteOrderMark code)
      .ok (.record [("findings", .array (findings.map Finding.toJson))])

/-- What a server answers to a call that it takes. -/
structure Reply where
  isError : Bool
  texts : List Bytes
  deriving DecidableEq, Repr

/-- The answer to a call: the value on indented lines, or what went wrong. Then follows the
identity of the trace. -/
def reply (s : Server) (start finish : Instant) (c : Call) : Reply :=
  let traced := s.trace.toList.map (utf8 "trace_id=" ++ ·)
  match s.run start finish c with
  | .ok v => ⟨false, v.pretty 0 :: traced⟩
  | .error e => ⟨true, e.message :: traced⟩

/-- The answer to a call of a tool by name, and the measurements with this call in them. A call
that the tool does not take is neither answered nor measured. -/
def handle (s : Server) (start finish : Instant) (m : Metrics) (tool : Bytes) (arguments : Json) :
    Metrics × Option Reply :=
  match Call.read? tool arguments with
  | none => (m, none)
  | some (t, c) =>
    let op := utf8 "mcp." ++ t.name
    let r := s.reply start finish c
    let status := if r.isError then Metrics.errorStatus else Metrics.okStatus
    let m := (m.beginRequest op).recordRequest op status (finish.since start)
    (m.endRequest op, some r)

end Server

end UnusedImports.Agent
