import UnusedImports.Duration.Reader
import UnusedImports.Number.Integer
import UnusedImports.Number.Shortest
import UnusedImports.Text.LowerCase
import UnusedImports.Yaml.Value

/-! What is written need not have the type of the setting: numbers and truth values can be written
as texts, a list as a text with commas. -/

namespace UnusedImports.Config

open Yaml (Value)

/-! ## Types -/

/-- The number written as a floating-point number, without its sign. -/
def magnitude (mantissa exponent : Int) : Binary64 := Binary64.ofDecimal mantissa.natAbs exponent

/-- A value as a whole number of 64 bits. The least number stands for all that do not fit. -/
def toInt? : Value → Option Int
  | .int n => some (Integer.wrap n)
  | .decimal m e =>
    let n := (magnitude m e).floor
    if 0x8000000000000000 ≤ n then some Integer.least else some (if m < 0 then -(n : Int) else n)
  | .special _ => some Integer.least
  | .bool b => some (if b then 1 else 0)
  | .text s => if s.isEmpty then some 0 else (Integer.read s).toOption
  | _ => none

def truthWord? (s : Bytes) : Option Bool :=
  if Yaml.isOneOf ["1", "t", "T", "TRUE", "true", "True"] s then some true
  else if Yaml.isOneOf ["0", "f", "F", "FALSE", "false", "False", ""] s then some false
  else none

def toBool? : Value → Option Bool
  | .bool b => some b
  | .int n => some (n ≠ 0)
  | .decimal m _ => some (m ≠ 0)
  | .special _ => some true
  | .text s => truthWord? s
  | _ => none

/-- The name of an infinite number or of none. -/
def specialText (s : Bytes) : Bytes :=
  if s.head? == some 0x2d then utf8 "-Inf"
  else if (Bytes.toLower s) == utf8 ".nan" then utf8 "NaN" else utf8 "+Inf"

def toText? : Value → Option Bytes
  | .text s => some s
  | .bool b => some (utf8 (if b then "1" else "0"))
  | .int n => some (Bytes.ofInt n)
  | .decimal m e =>
    some ((if m < 0 then utf8 "-" else []) ++
      Shortest.positional (Shortest.decimal (magnitude m e)))
  | .special s => some (specialText s)
  | _ => none

/-- A value as a list of texts. A text is split at its commas, and what is no list is taken for the
only item of one. -/
def toTexts? : Value → Option (List Bytes)
  | .text s => some (if s.isEmpty then [] else s.splitOn 0x2c)
  | .list items => items.mapM fun item => match item with
    | .null => some []
    | item => toText? item
  | .map [] => some []
  | v => (toText? v).map fun s => [s]

/-- A value as a span of time: a text with units or a number of nanoseconds. -/
def toDuration? : Value → Option Duration
  | .text s => Duration.parse? s
  | v => (toInt? v).map fun n => ⟨n⟩

/-! ## Sources -/

/-- Where settings are looked up. -/
structure Sources where
  environment : List (Bytes × Bytes)
  file : List (Bytes × Value)

/-- What is known about a setting. -/
inductive Found where
  | given (v : Value)
  | usual
  | absent

/-- Entries with their names, and those inside of them, in lower case. -/
def lowerNames (fuel : Nat) (es : List (Bytes × Value)) : List (Bytes × Value) :=
  match fuel with
  | 0 => es
  | fuel + 1 => es.map fun e => (Bytes.toLower e.1, match e.2 with
    | .map inner => .map (lowerNames fuel inner)
    | v => v)

def environmentName (part : String) (name : Option String) : Bytes :=
  utf8 ("IMPORTSWEEP_" ++ part.toUpper ++ (name.map fun n => "_" ++ n.toUpper).getD "")

/-- The value of a variable; an empty one does not count. -/
def Sources.fromEnvironment? (s : Sources) (part : String) (name : Option String) : Option Bytes :=
  (s.environment.lookup (environmentName part name)).filter fun v => !v.isEmpty

/-- Tests for a value other than null. -/
def isSet : Value → Bool
  | .null => false
  | _ => true

/-- What the file says about a setting, in one name with a dot or inside of the part. -/
def Sources.inFile? (s : Sources) (part name : String) : Option Value :=
  let dotted := s.file.lookup (utf8 (part ++ "." ++ name))
  let nested := (s.file.lookup (utf8 part)).bind fun v => v.entries.lookup (utf8 name)
  match dotted with
  | some v => if isSet v then some v else nested.or dotted
  | none => nested

/-- What the file says about a part as a whole, if that is not a list of settings. -/
def Sources.wholePart? (s : Sources) (part : String) : Option Value :=
  match s.file.lookup (utf8 part) with
  | some (.map _) => none
  | v => v

/-- Looks up a setting. A part that the file leaves empty is as usual throughout, whatever the
environment says. A variable for the part as a whole hides what is not set by a variable of its
own. A setting without usual value is looked for in the environment only if the file mentions it. -/
def Sources.find (s : Sources) (part name : String) (hasUsual : Bool) : Found :=
  match s.wholePart? part with
  | some _ => if hasUsual then .usual else .absent
  | none =>
    let inFile := s.inFile? part name
    let mentioned := hasUsual || inFile.any fun v => match v with
      | .map [] => false
      | _ => true
    if !mentioned then .absent
    else
      match s.fromEnvironment? part (some name) with
      | some v => .given (.text v)
      | none =>
        if (s.fromEnvironment? part none).isSome then .absent
        else
          match inFile with
          | some v => if isSet v then .given v else if hasUsual then .usual else .absent
          | none => if hasUsual then .usual else .absent

/-- Tests whether a part is set to something else than settings: by the file, or by the environment
if the file leaves it empty. -/
def Sources.isSpoiled (s : Sources) (part : String) : Bool :=
  match s.wholePart? part with
  | some v => isSet v || (s.fromEnvironment? part none).isSome
  | none => false

/-- A setting as its type wants it: the given one if it can be converted, the usual one, or the
empty one of its type. -/
def Found.read? {α : Type} (convert : Value → Option α) (usual empty : α) : Found → Option α
  | .given v => convert v
  | .usual => some usual
  | .absent => some empty

end UnusedImports.Config
