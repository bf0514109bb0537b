import UnusedImports.Tool.Programs

/-! Scripts of simple commands with quotes, variables and the redirection of one output to the
other. -/

namespace UnusedImports.Tool.Shell

/-! ### Reading -/

inductive Piece where
  | text (s : Bytes)
  /-- The value of a variable, which is split at blanks unless it is quoted. -/
  | value (name : Bytes) (quoted : Bool)
  deriving DecidableEq, Repr

/-- Where the outputs of a command go. -/
inductive Redirection where
  | outputToError
  | errorToOutput
  | dropOutput
  | dropError
  deriving DecidableEq, Repr

/-- What stands between two commands. -/
inductive Link where
  | always
  | onSuccess
  | onFailure
  deriving DecidableEq, Repr

inductive Token where
  | word (pieces : List Piece)
  | redirect (r : Redirection)
  | link (l : Link)
  deriving DecidableEq, Repr

/-- What the next byte of a script belongs to. -/
inductive Mode where
  | plain
  | single
  | double
  | escape (quoted : Bool)
  | name (read : Bytes) (braced quoted : Bool)
  | operator (b : UInt8)
  | target (ofError : Bool) (read : Bytes)
  deriving DecidableEq, Repr

/-- A script that was read in part. -/
structure Reading where
  /-- The tokens, the last one first. -/
  tokens : List Token
  word : Option (List Piece)
  mode : Mode

namespace Reading

def put (r : Reading) (b : UInt8) : Reading :=
  { r with word := some (match r.word.getD [] with
      | .text s :: ps => .text (s ++ [b]) :: ps
      | ps => .text [b] :: ps) }

/-- Ends the word, if there is one. -/
def endWord (r : Reading) : Reading :=
  match r.word with
  | some ps => { r with tokens := .word ps.reverse :: r.tokens, word := none }
  | none => r

def push (r : Reading) (t : Token) : Reading := { r.endWord with tokens := t :: r.endWord.tokens }

def putValue (r : Reading) (name : Bytes) (quoted : Bool) : Reading :=
  { r with word := some (.value name quoted :: r.word.getD []),
           mode := if quoted then .double else .plain }

def redirection? (ofError : Bool) (target : Bytes) : Option Redirection :=
  if target == utf8 "&2" && !ofError then some .outputToError
  else if target == utf8 "&1" && ofError then some .errorToOutput
  else if target == utf8 "/dev/null" then some (if ofError then .dropError else .dropOutput)
  else none

def endTarget (r : Reading) (ofError : Bool) (target : Bytes) : Reading :=
  { r with tokens := ((redirection? ofError target).map Token.redirect).toList ++ r.tokens,
           mode := .plain }

def isBlank (b : UInt8) : Bool := b == 0x20 || b == 0x09

def plainStep (r : Reading) (b : UInt8) : Reading :=
  let r := { r with mode := .plain }
  if isBlank b then r.endWord
  else if b == 0x3b || b == 0x0a then r.push (.link .always)
  else if b == 0x26 || b == 0x7c then { r.endWord with mode := .operator b }
  else if b == 0x27 then { r with word := some (r.word.getD []), mode := .single }
  else if b == 0x22 then { r with word := some (r.word.getD []), mode := .double }
  else if b == 0x5c then { r with mode := .escape false }
  else if b == 0x24 then { r with mode := .name [] false false }
  else if b == 0x3e then
    if r.word == some [.text (utf8 "2")] then { r with word := none, mode := .target true [] }
    else if r.word == some [.text (utf8 "1")] then { r with word := none, mode := .target false [] }
    else { r.endWord with mode := .target false [] }
  else r.put b

def doubleStep (r : Reading) (b : UInt8) : Reading :=
  let r := { r with mode := .double }
  if b == 0x22 then { r with mode := .plain }
  else if b == 0x5c then { r with mode := .escape true }
  else if b == 0x24 then { r with mode := .name [] false true }
  else r.put b

/-- Tests for a byte that the name of a variable may hold. -/
def isNameByte (b : UInt8) : Bool := Bytes.isAlpha b || Bytes.isDigit b || b == 0x5f

def step (r : Reading) (b : UInt8) : Reading :=
  match r.mode with
  | .plain => r.plainStep b
  | .double => r.doubleStep b
  | .single => if b == 0x27 then { r with mode := .plain } else r.put b
  | .escape true =>
    let r := { r with mode := .double }
    if b == 0x22 || b == 0x5c || b == 0x24 || b == 0x60 then r.put b else (r.put 0x5c).put b
  | .escape false => { r.put b with mode := .plain }
  | .name read braced quoted =>
    if braced then
      if b == 0x7d then r.putValue read quoted
      else { r with mode := .name (read ++ [b]) true quoted }
    else if read.isEmpty && b == 0x7b then { r with mode := .name [] true quoted }
    else if read.isEmpty && (b == 0x24 || b == 0x3f) then r.putValue [b] quoted
    else if isNameByte b then { r with mode := .name (read ++ [b]) false quoted }
    else
      let r := if read.isEmpty then r.put 0x24 else r.putValue read quoted
      if quoted then r.doubleStep b else r.plainStep b
  | .operator first =>
    if b == first then
      { r with tokens := .link (if first == 0x26 then .onSuccess else .onFailure) :: r.tokens,
               mode := .plain }
    else { r with tokens := .link .always :: r.tokens }.plainStep b
  | .target ofError read =>
    if isBlank b && read.isEmpty then r
    else if isBlank b || b == 0x3b || b == 0x0a then (r.endTarget ofError read).plainStep b
    else { r with mode := .target ofError (read ++ [b]) }

/-- The end of a script; there is none inside of quotes. -/
def finish? (r : Reading) : Option (List Token) :=
  match r.mode with
  | .single | .double | .escape true => none
  | .name _ true _ | .name _ _ true => none
  | .name read false false =>
    some (if read.isEmpty then r.put 0x24 else r.putValue read false).endWord.tokens.reverse
  | .target ofError read => some (r.endTarget ofError read).endWord.tokens.reverse
  | _ => some r.endWord.tokens.reverse

end Reading

def tokens? (script : Bytes) : Option (List Token) :=
  (script.foldl Reading.step ⟨[], none, .plain⟩).finish?

/-- A command: when it runs, its words and its redirections. -/
structure Command where
  link : Link
  words : List (List Piece)
  redirections : List Redirection

/-- The commands that some tokens form, of which the first follows a link. -/
def commands : Link → List (List Piece) → List Redirection → List Token → List Command
  | l, ws, rs, [] => [⟨l, ws.reverse, rs.reverse⟩]
  | l, ws, rs, .word w :: ts => commands l (w :: ws) rs ts
  | l, ws, rs, .redirect r :: ts => commands l ws (r :: rs) ts
  | l, ws, rs, .link next :: ts => ⟨l, ws.reverse, rs.reverse⟩ :: commands next [] [] ts

/-! ### Running -/

/-- A script that ran in part. -/
structure State where
  environment : List (Bytes × Bytes)
  /-- The steps, the last one first. -/
  steps : List Step
  status : Nat
  exit : Option Exit

/-- The text that stands for the process that runs the script. -/
def ownProcess : Bytes := utf8 "4096"

/-- The value of a variable; one that is not set is empty. -/
def State.value (s : State) (name : Bytes) : Bytes :=
  if name == utf8 "$" then ownProcess
  else if name == utf8 "?" then Bytes.ofNat s.status
  else (s.environment.lookup name).getD []

/-- Adds a piece to the fields of a word, the last one first. A value that is not quoted is split at
its blanks. -/
def State.expand (s : State) (fields : List Bytes) : Piece → List Bytes
  | .text t => (fields.head?.getD [] ++ t) :: fields.tail
  | .value name true => (fields.head?.getD [] ++ s.value name) :: fields.tail
  | .value name false =>
    match (s.value name).splitOnP fun b => Reading.isBlank b || b == 0x0a with
    | [] => fields
    | first :: more =>
      let start := fields.head?.getD [] ++ first
      let joined := if start.isEmpty && fields.isEmpty then [] else [start]
      (more.filter fun f => !f.isEmpty).reverse ++ joined ++ fields.tail

/-- The fields of a word. A word of nothing but empty quotes is an empty field. -/
def State.fields (s : State) (word : List Piece) : List Bytes :=
  if word.isEmpty then [[]] else (word.foldl s.expand []).reverse

def assignment? (field : Bytes) : Option (Bytes × Bytes) :=
  match Bytes.cut? (utf8 "=") field with
  | some (name, value) =>
    if name.head?.any (fun b => Reading.isNameByte b && !Bytes.isDigit b) &&
        name.all Reading.isNameByte then some (name, value) else none
  | none => none

/-- Sends the outputs of a step where a redirection says. -/
def redirect (step : Step) : Redirection → Step
  | .outputToError => { step with stdout := [], stderr := step.stderr ++ step.stdout }
  | .errorToOutput => { step with stdout := step.stdout ++ step.stderr, stderr := [] }
  | .dropOutput => { step with stdout := [] }
  | .dropError => { step with stderr := [] }

def State.took (s : State) (rs : List Redirection) (step : Step) : State :=
  { s with steps := rs.foldl redirect step :: s.steps, status := step.status }

def complaint (words : List Bytes) : Bytes :=
  utf8 "sh: 1: " ++ Bytes.join (utf8 ": ") words ++ utf8 "\n"

/-- Ends the script with a status, of which only the last byte counts. -/
def State.leave (s : State) (rs : List Redirection) (arguments : List Bytes) : State :=
  match arguments with
  | [] => { s with exit := some (.status s.status) }
  | a :: _ =>
    if !a.isEmpty && a.all Bytes.isDigit then
      { s with exit := some (.status (Bytes.digitsValue a % 256)) }
    else
      { s.took rs (.complain (complaint [utf8 "exit", utf8 "Illegal number", a]) 2) with
        exit := some (.status 2) }

def State.runFields (s : State) (rs : List Redirection) : List Bytes → State
  | [] => { s with status := 0 }
  | name :: arguments =>
    if name == utf8 "exit" then s.leave rs arguments
    else if name == utf8 ":" then s.took rs (.ofStatus 0)
    else if name == utf8 "echo" then s.took rs (echo true arguments)
    else if name == utf8 "kill" && arguments.getLast? == some ownProcess then
      if arguments.head? == some (utf8 "-0") then { s with status := 0 }
      else { s with exit := some .signal }
    else
      match standardPrograms.find? fun p => utf8 p.1 == name, assignment? name, arguments with
      | some p, _, _ => s.took rs (p.2 arguments)
      | none, some v, [] => { s with environment := v :: s.environment, status := 0 }
      | none, _, _ => s.took rs (.complain (complaint [name, utf8 "not found"]) 127)

/-- Runs a command, if the script has not ended and the last status is as it should be. -/
def State.run (s : State) (c : Command) : State :=
  let wanted := match c.link with
    | .always => true
    | .onSuccess => s.status == 0
    | .onFailure => s.status != 0
  if s.exit.isNone && wanted && !(c.words.isEmpty && c.redirections.isEmpty) then
    s.runFields c.redirections (c.words.flatMap s.fields)
  else s

def process (script : Bytes) (environment : List (Bytes × Bytes)) : Process :=
  match tokens? script with
  | none =>
    ⟨[.complain (complaint [utf8 "Syntax error", utf8 "Unterminated quoted string"]) 2], .status 2⟩
  | some ts =>
    let s := (commands .always [] [] ts).foldl State.run ⟨environment, [], 0, none⟩
    ⟨s.steps.reverse, s.exit.getD (.status s.status)⟩

/-- The shell, which runs the script that it is given after `-c`. -/
def program : Program
  | [option, script], environment =>
    if option == utf8 "-c" then process script environment else ⟨[], .status 2⟩
  | _, _ => ⟨[], .status 0⟩

end Shell

/-- The program of a name, or of a path to one of the usual directories: the shell or a standard
program. -/
def programOf? (name : Bytes) : Option Program :=
  let name := ["/bin/", "/usr/bin/"].findSome? (fun d => Bytes.dropStart? (utf8 d) name) |>.getD name
  if name == utf8 "sh" then some Shell.program
  else (standardPrograms.find? fun p => utf8 p.1 == name).map fun p arguments _ =>
    let step := p.2 arguments
    ⟨[step], .status step.status⟩

end UnusedImports.Tool
