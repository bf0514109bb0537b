import UnusedImports.Finding
import UnusedImports.Json.Decode
import UnusedImports.Json.Parser
import UnusedImports.Log.Record
import UnusedImports.Path
import UnusedImports.Text.Trim
import UnusedImports.Tool.Command

/-! The report of the linter is checked against its shape first; then its members are read by their
names without regard to case, the last of repeated ones winning. -/

namespace UnusedImports.Tool.Eslint

/-! ### The shape of a report -/

/-- A violation of the shape: where it is, and what is wrong there. -/
structure Violation where
  place : List Bytes
  description : Bytes

def Violation.render (v : Violation) : Bytes :=
  (if v.place.isEmpty then utf8 "(root)" else Bytes.join (utf8 ".") v.place) ++ utf8 ": " ++
    v.description

/-- Tests whether a number denotes an integer, however it is written. Exponents beyond a million
are not looked at. -/
def isIntegral (text : Bytes) : Bool :=
  let s := if text.head? == some 0x2d then text.tail else text
  let whole := s.takeWhile Bytes.isDigit
  let s := s.dropWhile Bytes.isDigit
  let places := if s.head? == some 0x2e then s.tail.takeWhile Bytes.isDigit else []
  let s := if s.head? == some 0x2e then s.tail.dropWhile Bytes.isDigit else s
  let s := s.tail
  let negative := s.head? == some 0x2d
  let power := Bytes.digitsValue (s.filter Bytes.isDigit)
  let mantissa := Bytes.digitsValue (whole ++ places)
  let exponent : Int := (if negative then -(power : Int) else power) - places.length
  if mantissa = 0 then power < 0x8000000000000000
  else if 1000000 < exponent.natAbs then false
  else 0 ≤ exponent || mantissa % Nat.pow 10 exponent.natAbs = 0

def typeName : Json → String
  | .null => "null"
  | .bool _ => "boolean"
  | .number t => if isIntegral t then "integer" else "number"
  | .string _ => "string"
  | .array _ => "array"
  | .object _ => "object"

def wrongType (place : List Bytes) (expected : String) (v : Json) : Violation :=
  ⟨place, utf8 "Invalid type. Expected: " ++ utf8 expected ++ utf8 ", given: " ++ utf8 (typeName v)⟩

/-- Checks a value that must have one of the given types, written as `expected`. -/
def checkType (types : List String) (expected : String) (place : List Bytes) (v : Json) :
    List Violation :=
  if types.contains (typeName v) then [] else [wrongType place expected v]

/-- Checks a member that may be missing. -/
def checkMember (members : List (Bytes × Json)) (place : List Bytes) (name : String)
    (check : List Bytes → Json → List Violation) : List Violation :=
  match Json.member? members (utf8 name) with
  | some v => check (place ++ [utf8 name]) v
  | none => []

def checkRequired (members : List (Bytes × Json)) (place : List Bytes) (name : String) :
    List Violation :=
  if (Json.member? members (utf8 name)).isSome then []
  else [⟨place, utf8 name ++ utf8 " is required"⟩]

def checkItems (place : List Bytes) (check : List Bytes → Json → List Violation) (v : Json) :
    List Violation :=
  match v with
  | .array items => items.zipIdx.flatMap fun (item, i) => check (place ++ [Bytes.ofNat i]) item
  | v => [wrongType place "array" v]

def checkMessage (place : List Bytes) (v : Json) : List Violation :=
  match v with
  | .object ms =>
    let member := checkMember ms place
    checkRequired ms place "message" ++
      member "ruleId" (checkType ["string", "null"] "[string,null]") ++
      member "severity" (checkType ["integer"] "integer") ++
      member "message" (checkType ["string"] "string") ++
      member "line" (checkType ["integer"] "integer") ++
      member "column" (checkType ["integer"] "integer") ++
      member "fatal" (checkType ["boolean"] "boolean")
  | v => [wrongType place "object" v]

def checkFile (place : List Bytes) (v : Json) : List Violation :=
  match v with
  | .object ms =>
    let member := checkMember ms place
    checkRequired ms place "filePath" ++ checkRequired ms place "messages" ++
      member "filePath" (checkType ["string"] "string") ++
      member "errorCount" (checkType ["integer"] "integer") ++
      member "warningCount" (checkType ["integer"] "integer") ++
      member "messages" (fun place v => checkItems place checkMessage v)
  | v => [wrongType place "object" v]

def checkReport (v : Json) : List Violation := checkItems [] checkFile v

/-! ### The contents of a report -/

/-- A message about a place in a file. -/
structure Message where
  rule : Option Bytes
  text : Bytes
  line : Int
  column : Int

structure FileReport where
  path : Bytes
  messages : List Message

/-- The text a string replaces; `null` leaves the text before. -/
def readText? (before : Bytes) : Json → Option Bytes
  | .string s => some s
  | .null => some before
  | _ => none

/-- The number a number replaces; `null` leaves the number before. -/
def readInt? (before : Int) : Json → Option Int
  | .number t => Json.integer? t
  | .null => some before
  | _ => none

def readMessageMember? (m : Message) (member : Bytes × Json) : Option Message :=
  let name := Json.foldCase member.1
  let v := member.2
  if name == utf8 "ruleid" then
    match v with
    | .string s => some { m with rule := some s }
    | .null => some { m with rule := none }
    | _ => none
  else if name == utf8 "message" then (readText? m.text v).map fun t => { m with text := t }
  else if name == utf8 "line" then (readInt? m.line v).map fun n => { m with line := n }
  else if name == utf8 "column" then (readInt? m.column v).map fun n => { m with column := n }
  else if name == utf8 "severity" then (readInt? 0 v).map fun _ => m
  else if name == utf8 "fatal" then
    match v with
    | .bool _ | .null => some m
    | _ => none
  else some m

/-- Reads a message over the one that stood in its place. -/
def readMessage? (before : Message) : Json → Option Message
  | .object ms => ms.foldlM readMessageMember? before
  | .null => some before
  | _ => none

/-- Reads messages over those that stood in their places. -/
def readMessages? : List Message → List Json → Option (List Message)
  | _, [] => some []
  | before, v :: vs => do
    let m ← readMessage? (before.head?.getD ⟨none, [], 0, 0⟩) v
    return m :: (← readMessages? before.tail vs)

def readFileMember? (f : FileReport) (member : Bytes × Json) : Option FileReport :=
  let name := Json.foldCase member.1
  if name == utf8 "filepath" then
    (readText? f.path member.2).map fun p => { f with path := p }
  else if name == utf8 "messages" then
    match member.2 with
    | .array vs => (readMessages? f.messages vs).map fun ms => { f with messages := ms }
    | .null => some { f with messages := [] }
    | _ => none
  else some f

def readReport? : Json → Option (List FileReport)
  | .array vs => vs.mapM fun v =>
    match v with
    | .object ms => ms.foldlM readFileMember? ⟨[], []⟩
    | .null => some ⟨[], []⟩
    | _ => none
  | _ => none

/-- The first text between apostrophes. -/
def quotedName : Bytes → Bytes
  | [] => []
  | b :: s =>
    if b == Bytes.singleQuote then
      let name := s.takeWhile (· != Bytes.singleQuote)
      if name.isEmpty || name.length == s.length then quotedName s else name
    else quotedName s

/-- Why an output is no report. -/
inductive ParseError where
  | empty
  | notJson
  | shape (violations : List Violation)
  | mismatch

/-- What is said about an output that is no report. Violations come in the order of their texts. -/
def ParseError.message (e : ParseError) : Bytes :=
  utf8 "unparseable eslint output: " ++ match e with
    | .empty => utf8 "empty output"
    | .notJson => utf8 "not JSON"
    | .shape vs => Bytes.join (utf8 "; ") ((vs.map Violation.render).mergeSort Bytes.le)
    | .mismatch => utf8 "json: cannot unmarshal"

/-- The findings of a report: the messages about the given rules, with file names relative to the
root. -/
def parse (root : Bytes) (rules : List Bytes) (output : Bytes) : Except ParseError (List Finding) :=
  let trimmed := Bytes.trim output
  if trimmed.isEmpty then .error .empty
  else match Json.parse? trimmed with
    | none => .error .notJson
    | some v =>
      match checkReport v with
      | [] =>
        match readReport? v with
        | none => .error .mismatch
        | some files => .ok <| files.flatMap fun f => f.messages.filterMap fun m =>
          match m.rule with
          | some rule =>
            if rules.contains rule then
              some ⟨Path.report root f.path, m.line, m.column, quotedName m.text, m.text, rule,
                .eslint⟩
            else none
          | none => none
      | violations => .error (.shape violations)

/-! ### The strategy -/

/-- How the linter is called and what of its report counts. -/
structure Options where
  command : Bytes
  arguments : List Bytes
  rules : List Bytes
  timeout : Duration
  /-- How many findings are listed at most; zero and less mean all. -/
  maxFindings : Int

def defaultCommand : Bytes := utf8 "npx"

/-- The arguments that make it report unused variables as JSON without installing anything. -/
def defaultArguments : List Bytes :=
  ["--no-install", "eslint", ".", "--ext", ".ts,.tsx,.js,.jsx", "--rule", "no-unused-vars: error",
   "--format", "json"].map utf8

def defaultRules : List Bytes := ["no-unused-vars", "@typescript-eslint/no-unused-vars"].map utf8

def defaultOptions : Options :=
  ⟨defaultCommand, defaultArguments, defaultRules, defaultTimeout, 0⟩

def Options.complete (o : Options) : Options :=
  { o with
    command := if o.command.isEmpty then defaultCommand else o.command
    arguments := if o.arguments.isEmpty then defaultArguments else o.arguments
    rules := if o.rules.isEmpty then defaultRules else o.rules }

def command (root : Bytes) (o : Options) : Command :=
  ⟨o.complete.command, o.complete.arguments, root, o.timeout⟩

/-- What the reply of the linter says. A run that ended with an exit code is read like any other,
because that is how findings are reported. -/
def interpret (root : Bytes) (o : Options) (reply : Reply) : Log.Logged Result :=
  let read : Log.Logged Result :=
    match parse root o.complete.rules reply.output.stdout with
    | .ok findings =>
      .silent (.found .eslint (capped o.maxFindings (Finding.sort findings)) findings.length)
    | .error e =>
      if looksMissing reply.output.combined then
        .silent (.notAvailable .eslint (utf8 "eslint is not installed"))
      else
        .note .warn "eslint output not understood"
          [Log.attr "exit_code" (.int reply.output.exitCode), Log.attr "error" (.text e.message)]
          (.inconclusive .eslint e.message)
  match reply.failure with
  | none => read
  | some (.exit ..) => read
  | some (.notFound name detail) =>
    .silent (.notAvailable .eslint (Failure.notFound name detail).message)
  | some (.timeout limit line) =>
    .note .warn "eslint timed out" [Log.attr "timeout" (.duration o.timeout)]
      (.inconclusive .eslint (Failure.timeout limit line).message)
  | some f => .silent (.inconclusive .eslint f.message)

def run (runner : Runner) (root : Bytes) (o : Options) : Log.Logged Result :=
  interpret root o (runner (command root o))

end UnusedImports.Tool.Eslint
