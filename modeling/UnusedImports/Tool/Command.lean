import UnusedImports.Duration
import UnusedImports.Text.Bytes

/-! A runner answers a command; the adapters of the tools work with any runner. -/

namespace UnusedImports.Tool

/-- A command line to run in a directory. -/
structure Command where
  name : Bytes
  arguments : List Bytes
  directory : Bytes
  timeout : Duration

def Command.line (c : Command) : Bytes := Bytes.join (utf8 " ") (c.name :: c.arguments)

/-- What a run wrote and how it ended. -/
structure Output where
  stdout : Bytes
  stderr : Bytes
  exitCode : Int

/-- Both outputs one after the other, on separate lines if both hold something. -/
def Output.combined (o : Output) : Bytes :=
  if o.stderr.isEmpty then o.stdout
  else if o.stdout.isEmpty then o.stderr
  else o.stdout ++ utf8 "\n" ++ o.stderr

/-- How a run failed. What is several of these at once counts as the first of them. -/
inductive Failure where
  | exit (name : Bytes) (code : Int)
  | notFound (name detail : Bytes)
  | timeout (limit : Duration) (line : Bytes)
  | canceled (name : Bytes)
  | other (message : Bytes)
  deriving DecidableEq

def Failure.message : Failure → Bytes
  | .exit name code => name ++ utf8 ": exit status " ++ Bytes.ofInt code
  | .notFound name detail =>
    utf8 "tool not found: " ++ name ++ (if detail.isEmpty then [] else utf8 ": " ++ detail)
  | .timeout limit line => utf8 "tool timed out after " ++ limit.render ++ utf8 ": " ++ line
  | .canceled name => utf8 "run " ++ name ++ utf8 ": context canceled"
  | .other message => message

/-- What came of a command: what it produced, and how it failed if it did. -/
structure Reply where
  output : Output
  failure : Option Failure

abbrev Runner := Command → Reply

/-- How long a command may take that says nothing about it. -/
def defaultTimeout : Duration := ⟨120000000000⟩

/-- What shells and package runners print when a program is not installed. -/
def missingMarkers : List String :=
  ["command not found", ": not found", "Cannot find module", "could not determine executable",
   "canceled due to missing packages", "is not recognized as an internal or external command"]

/-- Tests whether an output says that the program is not installed. -/
def looksMissing (s : Bytes) : Bool := missingMarkers.any fun m => Bytes.contains (utf8 m) s

/-- The first findings up to a limit, of which zero and less mean none. -/
def capped {α : Type} (limit : Int) (xs : List α) : List α :=
  if 0 < limit then xs.take limit.toNat else xs

end UnusedImports.Tool
