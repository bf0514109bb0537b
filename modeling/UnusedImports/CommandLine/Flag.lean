import UnusedImports.Number.Integer
import UnusedImports.Text.Quoted

/-! Flags are written `--name value`, `--name=value`, `-n value`, `-nvalue` or `-n=value`. After
`--` there are only arguments. -/

namespace UnusedImports.CommandLine

inductive FlagKind where
  | text
  /-- A truth value; without one it is true. -/
  | truth
  | integer
  deriving DecidableEq, Repr

structure Flag where
  name : String
  letter : Option Char
  kind : FlagKind
  deriving DecidableEq, Repr

inductive FlagValue where
  | text (s : Bytes)
  | truth (b : Bool)
  | integer (n : Int)
  deriving DecidableEq, Repr

/-- Why a value is none that a flag takes. -/
inductive ValueFault where
  | noTruth
  | noInteger (fault : Integer.Fault)
  deriving DecidableEq, Repr

/-- What is said about a value that a flag does not take. -/
def ValueFault.message (value : Bytes) : ValueFault → Bytes
  | .noTruth => utf8 "strconv.ParseBool: parsing " ++ Quoted.quote value ++ utf8 ": invalid syntax"
  | .noInteger fault =>
    utf8 "strconv.ParseInt: parsing " ++ Quoted.quote value ++ utf8 ": " ++ fault.message

/-- Why flags cannot be read. -/
inductive FlagError where
  | malformed (argument : Bytes)
  | unknownName (name : Bytes)
  | unknownLetter (letter : UInt8) (letters : Bytes)
  | missingValue (name : Bytes)
  | missingLetterValue (letter : UInt8) (letters : Bytes)
  | invalidValue (flag : Flag) (value : Bytes) (fault : ValueFault)
  deriving DecidableEq, Repr

/-- The letter of a byte as it is shown: between single quotes. What is not ASCII shows as the code
point of the byte that its encoding starts with. -/
def quoteLetter (b : UInt8) : Bytes :=
  let c := if b < 0x80 then b.toNat else if b < 0xc0 then 0xc2 else 0xc3
  let body := if c == 0x27 then utf8 "\\'" else if c == 0x22 then utf8 "\"" else Quoted.escape c
  utf8 "'" ++ body ++ utf8 "'"

/-- A flag as it is named in messages, with its letter if it has one. -/
def Flag.title (f : Flag) : Bytes :=
  match f.letter with
  | some c => utf8 "-" ++ utf8 c.toString ++ utf8 ", --" ++ utf8 f.name
  | none => utf8 "--" ++ utf8 f.name

def FlagError.message : FlagError → Bytes
  | .malformed argument => utf8 "bad flag syntax: " ++ argument
  | .unknownName name => utf8 "unknown flag: --" ++ name
  | .unknownLetter letter letters =>
    utf8 "unknown shorthand flag: " ++ quoteLetter letter ++ utf8 " in -" ++ letters
  | .missingValue name => utf8 "flag needs an argument: --" ++ name
  | .missingLetterValue letter letters =>
    utf8 "flag needs an argument: " ++ quoteLetter letter ++ utf8 " in -" ++ letters
  | .invalidValue flag value fault =>
    utf8 "invalid argument " ++ Quoted.quote value ++ utf8 " for " ++ Quoted.quote flag.title ++
      utf8 " flag: " ++ fault.message value

def truth? (s : Bytes) : Option Bool :=
  if ["1", "t", "T", "TRUE", "true", "True"].any fun w => utf8 w == s then some true
  else if ["0", "f", "F", "FALSE", "false", "False"].any fun w => utf8 w == s then some false
  else none

def Flag.read (f : Flag) (s : Bytes) : Except ValueFault FlagValue :=
  match f.kind with
  | .text => .ok (.text s)
  | .truth =>
    match truth? s with
    | some b => .ok (.truth b)
    | none => .error .noTruth
  | .integer =>
    match Integer.read s with
    | .ok n => .ok (.integer n)
    | .error fault => .error (.noInteger fault)

/-- What was read of a command line. -/
structure Parsed where
  /-- The values given, with the names of their flags; as of the arguments, the last one first. -/
  values : List (String × FlagValue)
  arguments : List Bytes
  waiting : Option (Flag × FlagError)
  ended : Bool

namespace Parsed

def nothing : Parsed := ⟨[], [], none, false⟩

def give (p : Parsed) (f : Flag) (value : Bytes) : Except FlagError Parsed :=
  match f.read value with
  | .ok v => .ok { p with values := (f.name, v) :: p.values, waiting := none }
  | .error fault => .error (.invalidValue f value fault)

/-- Reads a flag by its name, which stands behind two dashes. -/
def long (flags : List Flag) (p : Parsed) (argument : Bytes) : Except FlagError Parsed :=
  let body := argument.drop 2
  if body.head?.any fun b => b == 0x2d || b == 0x3d then .error (.malformed argument)
  else
    let (name, value) := match Bytes.cut? (utf8 "=") body with
      | some (name, value) => (name, some value)
      | none => (body, none)
    match flags.find? fun f => utf8 f.name == name with
    | none => .error (.unknownName name)
    | some f =>
      match value with
      | some value => p.give f value
      | none =>
        if f.kind = .truth then p.give f (utf8 "true")
        else .ok { p with waiting := some (f, .missingValue name) }

/-- Reads flags by their letters, which stand behind one dash. -/
def short (flags : List Flag) (p : Parsed) : Bytes → Except FlagError Parsed
  | [] => .ok p
  | c :: rest =>
    if (utf8 "test.").isPrefixOf (c :: rest) then .ok p
    else
      match flags.find? fun f => f.letter.any fun l => utf8 l.toString == [c] with
      | none => .error (.unknownLetter c (c :: rest))
      | some f =>
        if rest.head? == some 0x3d && 1 < rest.length then p.give f rest.tail
        else if f.kind = .truth then do short flags (← p.give f (utf8 "true")) rest
        else if rest.isEmpty then
          .ok { p with waiting := some (f, .missingLetterValue c (c :: rest)) }
        else p.give f rest

def step (flags : List Flag) (p : Parsed) (argument : Bytes) : Except FlagError Parsed :=
  match p.waiting with
  | some (f, _) => p.give f argument
  | none =>
    if p.ended || argument.head? != some 0x2d || argument.length == 1 then
      .ok { p with arguments := argument :: p.arguments }
    else if argument == utf8 "--" then .ok { p with ended := true }
    else if (utf8 "--").isPrefixOf argument then long flags p argument
    else short flags p argument.tail

def parse (flags : List Flag) (arguments : List Bytes) : Except FlagError Parsed := do
  let p ← arguments.foldlM (step flags) nothing
  match p.waiting with
  | some (_, e) => .error e
  | none => .ok { p with arguments := p.arguments.reverse }

/-- The value that a flag was given last. -/
def value? (p : Parsed) (name : String) : Option FlagValue := p.values.lookup name

/-- The text that a flag was given. -/
def text? (p : Parsed) (name : String) : Option Bytes :=
  match p.value? name with
  | some (.text s) => some s
  | _ => none

/-- The truth value that a flag was given. -/
def truth? (p : Parsed) (name : String) : Option Bool :=
  match p.value? name with
  | some (.truth b) => some b
  | _ => none

/-- The number that a flag was given. -/
def integer? (p : Parsed) (name : String) : Option Int :=
  match p.value? name with
  | some (.integer n) => some n
  | _ => none

def isOn (p : Parsed) (name : String) : Bool := (p.truth? name).getD false

end Parsed

end UnusedImports.CommandLine
