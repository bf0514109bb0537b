import UnusedImports.Yaml.Resolve

namespace UnusedImports.Yaml

inductive Value where
  | null
  | bool (value : Bool)
  | int (value : Int)
  | decimal (mantissa exponent : Int)
  | special (text : Bytes)
  | timestamp
  | text (value : Bytes)
  | list (items : List Value)
  | map (entries : List (Bytes × Value))

namespace Value

def ofPlain (s : Bytes) : Value :=
  match resolve s with
  | .null => .null
  | .bool b => .bool b
  | .int n => .int n
  | .decimal m e => .decimal m e
  | .special => .special s
  | .timestamp => .timestamp
  | .text => .text s

def isNull : Value → Bool
  | .null => true
  | _ => false

/-- The named values of a map; nothing else has any. -/
def entries : Value → List (Bytes × Value)
  | .map es => es
  | _ => []

end Value

end UnusedImports.Yaml
