import UnusedImports.CommandLine.Flag
import UnusedImports.Text.Distance
import UnusedImports.Text.LowerCase

/-! The first argument that is neither a flag nor the value of one names the command. -/

namespace UnusedImports.CommandLine

/-- What the program can be told to do. -/
inductive Command where
  | root
  | scan
  | serveEditor
  | serveAgent
  | version
  | help
  | completion
  deriving DecidableEq, Repr

namespace Command

def programName : String := "importsweep"

def name : Command → String
  | .root => ""
  | .scan => "scan"
  | .serveEditor => "lsp"
  | .serveAgent => "mcp"
  | .version => "version"
  | .help => "help"
  | .completion => "completion"

def all : List Command := [.scan, .serveEditor, .serveAgent, .version, .help, .completion]

def ofName? (s : Bytes) : Option Command := all.find? fun c => utf8 c.name == s

/-- Tests whether a command can be meant by a word that names none: at most two bytes are wrong, or
it is the beginning of the name. Case does not count. -/
def isLike (word : Bytes) (c : Command) : Bool :=
  let word := Bytes.toLower word
  Bytes.distance word (utf8 c.name) ≤ 2 || word.isPrefixOf (utf8 c.name)

/-- The commands that a word that names none can mean. -/
def suggestions (word : Bytes) : List Command :=
  (all.filter (· != .help)).filter (isLike word)

def commonFlags : List Flag :=
  [⟨"config", some 'c', .text⟩, ⟨"log-level", none, .text⟩, ⟨"log-json", none, .truth⟩]

def helpFlag : Flag := ⟨"help", some 'h', .truth⟩

def flags : Command → List Flag
  | .scan =>
    commonFlags ++ [helpFlag, ⟨"format", some 'f', .text⟩, ⟨"no-color", none, .truth⟩,
      ⟨"always-lexical", none, .truth⟩, ⟨"show-fix", none, .truth⟩, ⟨"metrics-file", none, .text⟩,
      ⟨"no-linter", none, .truth⟩, ⟨"no-exports", none, .truth⟩, ⟨"workers", none, .integer⟩,
      ⟨"max-file-size", none, .text⟩, ⟨"silent", none, .truth⟩]
  | _ => commonFlags ++ [helpFlag]

end Command

/-- Why a command line makes no sense. -/
inductive UsageError where
  | flag (e : FlagError)
  | unknownCommand (word : Bytes)
  | unwantedArgument (c : Command) (argument : Bytes)
  | tooManyArguments (limit received : Nat)
  deriving DecidableEq, Repr

/-- The end of a message about an unknown command: what can be meant. -/
def suggestionText : List Command → Bytes
  | [] => []
  | cs => utf8 "\n\nDid you mean this?\n" ++ cs.flatMap fun c => utf8 ("\t" ++ c.name ++ "\n")

/-- What is said about a command line that makes no sense. -/
def UsageError.message : UsageError → Bytes
  | .flag e => e.message
  | .unknownCommand word =>
    utf8 "unknown command " ++ Quoted.quote word ++ utf8 " for " ++
      Quoted.quote (utf8 Command.programName) ++ suggestionText (Command.suggestions word)
  | .unwantedArgument c argument =>
    utf8 "unknown command " ++ Quoted.quote argument ++ utf8 " for " ++
      Quoted.quote (utf8 (Command.programName ++ " " ++ c.name))
  | .tooManyArguments limit received =>
    utf8 "accepts at most " ++ Bytes.ofNat limit ++ utf8 " arg(s), received " ++ Bytes.ofNat received

/-- Tests for a flag without its value, if the value has to follow. Flags that are not known count
as such. -/
def wantsValue (flags : List Flag) (argument : Bytes) : Bool :=
  if argument.any (· == 0x3d) then false
  else
    match argument with
    | 0x2d :: 0x2d :: name =>
      !(flags.any fun f => utf8 f.name == name && f.kind = .truth)
    | [0x2d, letter] =>
      !(flags.any fun f => (f.letter.any fun l => utf8 l.toString == [letter]) && f.kind = .truth)
    | _ => false

/-- The first argument that is neither a flag nor the value of one, between the arguments before it,
the last one first, and those after it. A flag whose value would be the last argument ends the
search. -/
def commandWord? (flags : List Flag) :
    List Bytes → List Bytes → Option (List Bytes × Bytes × List Bytes)
  | _, [] => none
  | before, [s] =>
    if s.isEmpty || s.head? == some 0x2d then none else some (before, s, [])
  | before, [s, t] =>
    if s == utf8 "--" || wantsValue flags s then none
    else if s.isEmpty || s.head? == some 0x2d then commandWord? flags (s :: before) [t]
    else some (before, s, [t])
  | before, s :: t :: u :: rest =>
    if s == utf8 "--" then none
    else if wantsValue flags s then commandWord? flags (t :: s :: before) (u :: rest)
    else if s.isEmpty || s.head? == some 0x2d then commandWord? flags (s :: before) (t :: u :: rest)
    else some (before, s, t :: u :: rest)

/-- The command of a command line and the other arguments. -/
def findCommand (arguments : List Bytes) : Except UsageError (Command × List Bytes) :=
  match commandWord? Command.commonFlags [] arguments with
  | none => .ok (.root, arguments)
  | some (before, word, after) =>
    match Command.ofName? word with
    | some c => .ok (c, before.reverse ++ after)
    | none => .error (.unknownCommand word)

def checkArguments (c : Command) (arguments : List Bytes) : Except UsageError Unit :=
  match c with
  | .scan =>
    if 1 < arguments.length then .error (.tooManyArguments 1 arguments.length) else .ok ()
  | .serveEditor | .serveAgent | .version =>
    match arguments with
    | [] => .ok ()
    | a :: _ => .error (.unwantedArgument c a)
  | .root | .help | .completion => .ok ()

/-- A command with what it was given. If an explanation is asked for, the command is to help. -/
def read (arguments : List Bytes) : Except UsageError (Command × Parsed) := do
  let (c, rest) ← findCommand arguments
  match Parsed.parse c.flags rest with
  | .error e => .error (.flag e)
  | .ok p =>
    if p.isOn "help" then .ok (.help, p)
    else
      checkArguments c p.arguments
      .ok (c, p)

end UnusedImports.CommandLine
