import UnusedImports.Json.Basic

/-! An agent calls tools by name. A tool takes just the arguments that it names, each of its own
type. -/

namespace UnusedImports.Agent

inductive Call where
  | sweep (path : Bytes) (alwaysLexical skipLinter skipExports : Bool)
  | check (code name : Bytes)
  deriving DecidableEq, Repr

inductive ArgumentType where
  | text
  | truth
  deriving DecidableEq, Repr

def ArgumentType.admits : ArgumentType → Json → Bool
  | .text, .string _ => true
  | .truth, .bool _ => true
  | _, _ => false

/-- What a tool takes as an argument. -/
structure Parameter where
  name : String
  type : ArgumentType
  required : Bool

abbrev Arguments := List (Bytes × Json)

/-- A string among the arguments; empty if it is not there. -/
def text (arguments : Arguments) (name : String) : Bytes :=
  match Json.member? arguments (utf8 name) with
  | some (.string s) => s
  | _ => []

/-- A truth value among the arguments; false if it is not there. -/
def truth (arguments : Arguments) (name : String) : Bool :=
  match Json.member? arguments (utf8 name) with
  | some (.bool b) => b
  | _ => false

/-- A tool that agents can call. -/
structure Tool where
  name : Bytes
  parameters : List Parameter
  read : Arguments → Call

namespace Tool

/-- The tool that looks for unused imports in a text. -/
def check : Tool where
  name := utf8 "importsweep_check_source"
  parameters := [⟨"code", .text, true⟩, ⟨"filename", .text, false⟩]
  read as := .check (text as "code") (text as "filename")

/-- The tool that sweeps a project. -/
def sweep : Tool where
  name := utf8 "importsweep_scan"
  parameters := [⟨"path", .text, true⟩, ⟨"always_lexical", .truth, false⟩,
    ⟨"skip_linter", .truth, false⟩, ⟨"skip_exports", .truth, false⟩]
  read as := .sweep (text as "path") (truth as "always_lexical") (truth as "skip_linter")
    (truth as "skip_exports")

/-- The tools in the order of their names. -/
def all : List Tool := [check, sweep]

/-- Tests whether a tool takes some arguments: it has a parameter of each name, the value that
counts is of its type, and what must be there is there. -/
def takes (t : Tool) (arguments : Arguments) : Bool :=
  (arguments.all fun a => t.parameters.any fun p => utf8 p.name == a.1) &&
    t.parameters.all fun p =>
      match Json.member? arguments (utf8 p.name) with
      | some v => p.type.admits v
      | none => !p.required

end Tool

/-- The call that a tool's name and a value with its arguments stand for. -/
def Call.read? (tool : Bytes) (arguments : Json) : Option (Tool × Call) := do
  let t ← Tool.all.find? fun t => t.name == tool
  match arguments with
  | .object as => if t.takes as then some (t, t.read as) else none
  | _ => none

end UnusedImports.Agent
