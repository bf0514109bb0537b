import UnusedImports.Text.Quoted
import UnusedImports.Tool.Command

/-! A process writes and takes time in steps. One that takes longer than it may is killed and leaves
what it wrote before. -/

namespace UnusedImports.Tool

structure Step where
  stdout : Bytes
  stderr : Bytes
  takes : Duration
  status : Nat

/-- How a process ends by itself. -/
inductive Exit where
  | status (code : Nat)
  | signal

/-- The steps of a process and its end. -/
structure Process where
  steps : List Step
  exit : Exit

/-- The number that is told of an end; one by a signal has none. -/
def Exit.code : Exit → Int
  | .status code => code
  | .signal => -1

/-- The steps that start before a moment, if not all of them end before it. -/
def interrupted? (moment : Int) : List Step → Option (List Step)
  | [] => none
  | s :: rest =>
    if moment ≤ s.takes.nanoseconds then some [s]
    else (interrupted? (moment - s.takes.nanoseconds) rest).map (s :: ·)

def written (steps : List Step) (code : Int) : Output :=
  ⟨steps.flatMap (·.stdout), steps.flatMap (·.stderr), code⟩

/-- A program: what it does with arguments in an environment. -/
abbrev Program := List Bytes → List (Bytes × Bytes) → Process

/-- Why there is no program of a name. A name with a slash is a path. -/
def missingProgram (name : Bytes) : Bytes :=
  utf8 "exec: " ++ Quoted.quote name ++
    if name.any (· == Bytes.slash) then utf8 ": stat " ++ name ++ utf8 ": no such file or directory"
    else utf8 ": executable file not found in $PATH"

/-- How long a command may take: as long as it says, or the usual time if it says nothing. -/
def Command.limit (c : Command) : Duration :=
  if c.timeout.nanoseconds ≤ 0 then defaultTimeout else c.timeout

/-- Runs a command among some programs, in an environment, unless it was called off. -/
def execute (programs : Bytes → Option Program) (canceled : Bool)
    (environment : List (Bytes × Bytes)) (c : Command) : Reply :=
  match programs c.name with
  | none => ⟨⟨[], [], -1⟩, some (.notFound c.name (missingProgram c.name))⟩
  | some program =>
    if canceled then ⟨⟨[], [], 0⟩, some (.canceled c.name)⟩
    else
      let p := program c.arguments environment
      match interrupted? c.limit.nanoseconds p.steps with
      | some steps => ⟨written steps (-1), some (.timeout c.limit c.line)⟩
      | none =>
        let output := written p.steps p.exit.code
        ⟨output, if output.exitCode = 0 then none else some (.exit c.name output.exitCode)⟩

end UnusedImports.Tool
