import UnusedImports.Finding
import UnusedImports.Log.Record
import UnusedImports.Path
import UnusedImports.Text.Lines
import UnusedImports.Text.Trim
import UnusedImports.Tool.Command

/-! The export strategy reads lines of the form `path:line - name`. -/

namespace UnusedImports.Tool.TsPrune

/-- A line of the output: a path, a line number and a name. -/
structure Record where
  path : Bytes
  digits : Bytes
  name : Bytes

/-- The line number and the name after a colon, if they are there. -/
def tail? (s : Bytes) : Option (Bytes × Bytes) :=
  let digits := s.takeWhile Bytes.isDigit
  match Bytes.dropStart? (utf8 " - ") (s.dropWhile Bytes.isDigit) with
  | some rest =>
    let name := rest.takeWhile fun b =>
      !(b == 0x20 || b == 0x09 || b == 0x0a || b == 0x0c || b == 0x0d)
    if digits.isEmpty || name.isEmpty then none else some (digits, name)
  | none => none

/-- Reads a record with the shortest path, given the path's bytes already passed in reverse. -/
def record? : Bytes → Bytes → Option Record
  | _, [] => none
  | path, b :: s =>
    match (if b == ':'.toUInt8 && !path.isEmpty then tail? s else none) with
    | some (digits, name) => some ⟨path.reverse, digits, name⟩
    | none => record? (b :: path) s

/-- The number that decimal digits denote, if it fits 64 bits with a sign. -/
def lineNumber? (digits : Bytes) : Option Int :=
  let n := Bytes.digitsValue digits
  if n < 0x8000000000000000 then some n else none

/-- What a line of the output is. -/
inductive Line where
  | skipped
  | finding (f : Finding)
  | noise

def toFinding (root path : Bytes) (line : Int) (name : Bytes) : Finding :=
  ⟨Path.report root path, line, 0, name,
    utf8 "export '" ++ name ++ utf8 "' is not used by any other module", utf8 "unused-export",
    .tsPrune⟩

def readLine (root line : Bytes) : Line :=
  let line := Bytes.trim line
  if line.isEmpty || Bytes.contains (utf8 "used in module") line then .skipped
  else match record? [] line with
    | some r =>
      match lineNumber? r.digits with
      | some n => .finding (toFinding root r.path n r.name)
      | none => .noise
    | none => .noise

/-- What an output holds: its findings, and how many lines were not understood. -/
structure Parsed where
  findings : List Finding
  noise : Nat

/-- Why an output cannot be read. -/
inductive ParseError where
  | tooLong
  | noRecord (lines : Nat)

def ParseError.message (e : ParseError) : Bytes :=
  utf8 "unparseable ts-prune output: " ++ match e with
    | .tooLong => utf8 "bufio.Scanner: token too long"
    | .noRecord n => Bytes.ofNat n ++ utf8 " line(s) without path:line - name"

/-- The length from which on a line is too long. -/
def lineLimit : Nat := 1048576

/-- Reads an output. Lines that are not understood are passed over as long as some are. -/
def parse (root output : Bytes) : Except ParseError Parsed :=
  let lines := output.splitOn Bytes.newline
  if lines.any fun l => lineLimit ≤ l.length then .error .tooLong
  else
    let read := lines.map (readLine root)
    let findings := read.filterMap fun l =>
      match l with
      | .finding f => some f
      | _ => none
    let noise := (read.filter fun l =>
      match l with
      | .noise => true
      | _ => false).length
    if findings.isEmpty && 0 < noise then .error (.noRecord noise) else .ok ⟨findings, noise⟩

structure Options where
  command : Bytes
  arguments : List Bytes
  timeout : Duration
  /-- How many findings are listed at most; zero and less mean all. -/
  maxFindings : Int

def defaultCommand : Bytes := utf8 "npx"

/-- The arguments that make it report by its exit code too, without installing anything. -/
def defaultArguments : List Bytes := ["--no-install", "ts-prune", "--error"].map utf8

def defaultOptions : Options := ⟨defaultCommand, defaultArguments, defaultTimeout, 0⟩

def Options.complete (o : Options) : Options :=
  { o with
    command := if o.command.isEmpty then defaultCommand else o.command
    arguments := if o.arguments.isEmpty then defaultArguments else o.arguments }

def command (root : Bytes) (o : Options) : Command :=
  ⟨o.complete.command, o.complete.arguments, root, o.timeout⟩

/-- The result of a tool that is not there. -/
def notInstalled : Result := .notAvailable .tsPrune (utf8 "ts-prune is not installed")

/-- What the reply of ts-prune says. An exit code without any output is a failure. -/
def interpret (root : Bytes) (o : Options) (reply : Reply) : Log.Logged Result :=
  let exitCode := Log.attr "exit_code" (.int reply.output.exitCode)
  let read : Log.Logged Result :=
    match parse root reply.output.stdout with
    | .ok parsed =>
      let result := Result.found .tsPrune
        (capped o.maxFindings (Finding.sort parsed.findings)) parsed.findings.length
      if 0 < parsed.noise then
        .note .debug "ts-prune emitted unrecognized lines"
          [Log.attr "count" (.int parsed.noise)] result
      else .silent result
    | .error e =>
      if looksMissing reply.output.combined then .silent notInstalled
      else
        .note .warn "ts-prune output not understood" [exitCode, Log.attr "error" (.text e.message)]
          (.inconclusive .tsPrune e.message)
  match reply.failure with
  | none => read
  | some (.exit ..) =>
    if Bytes.isBlank reply.output.stdout then
      if looksMissing reply.output.combined then .silent notInstalled
      else
        .note .warn "ts-prune failed without output" [exitCode]
          (.inconclusive .tsPrune
            (utf8 "ts-prune exited " ++ Bytes.ofInt reply.output.exitCode ++
              utf8 " without output"))
    else read
  | some (.notFound name detail) =>
    .silent (.notAvailable .tsPrune (Failure.notFound name detail).message)
  | some (.timeout limit line) =>
    .note .warn "ts-prune timed out" [Log.attr "timeout" (.duration o.timeout)]
      (.inconclusive .tsPrune (Failure.timeout limit line).message)
  | some f => .silent (.inconclusive .tsPrune f.message)

def run (runner : Runner) (root : Bytes) (o : Options) : Log.Logged Result :=
  interpret root o (runner (command root o))

end UnusedImports.Tool.TsPrune
