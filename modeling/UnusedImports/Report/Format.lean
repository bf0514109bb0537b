import UnusedImports.Report.Chart
import UnusedImports.Report.Json
import UnusedImports.Report.Text
import UnusedImports.Report.Yaml
import UnusedImports.Text.LowerCase
import UnusedImports.Text.Quoted
import UnusedImports.Text.Trim

namespace UnusedImports

inductive Format where
  | text
  | json
  | yaml
  | plot
  deriving DecidableEq, Repr

namespace Format

def all : List Format := [.text, .json, .yaml, .plot]

def name : Format → Bytes
  | .text => utf8 "text"
  | .json => utf8 "json"
  | .yaml => utf8 "yaml"
  | .plot => utf8 "plot"

def ofName? (s : Bytes) : Option Format := all.find? fun f => f.name == s

/-- The format of a name, without regard to case and blanks around it. -/
def parse? (s : Bytes) : Option Format := ofName? (Bytes.toLower (Bytes.trim s))

/-- What is said about a name that is no format's when a format is asked for. -/
def unknownMessage (s : Bytes) : Bytes :=
  utf8 "unknown report format: " ++ Quoted.quote s ++ utf8 " (want one of " ++
    Bytes.join (utf8 ", ") (all.map name) ++ utf8 ")"

end Format

namespace Report

inductive Rendered where
  | text (s : Bytes)
  | charts (cs : List Chart)
  | unknown (name : Bytes)

/-- A report in the format of a name; an empty name means text. -/
def render (name : Bytes) (o : TextOptions) (r : Report) : Rendered :=
  match (if name.isEmpty then some .text else Format.ofName? name) with
  | some .text => .text (r.renderText o)
  | some .json => .text r.renderJson
  | some .yaml => .text r.renderYaml
  | some .plot => .charts r.charts
  | none => .unknown name

def unknownFormatMessage (name : Bytes) : Bytes :=
  utf8 "unknown report format: " ++ Quoted.quote name

end Report

end UnusedImports
