import UnusedImports.Text.Bytes

namespace UnusedImports.Yaml

inductive Token where
  | version (major minor : Nat)
  | abbreviation (handle long : Bytes)
  | documentStart
  | documentEnd
  | streamEnd
  | blockSequenceStart
  | blockMappingStart
  | blockEnd
  | flowSequenceStart
  | flowSequenceEnd
  | flowMappingStart
  | flowMappingEnd
  | blockEntry
  | flowEntry
  | key
  | value
  | alias (name : Bytes)
  | anchor (name : Bytes)
  | tag (handle suffix : Bytes)
  | scalar (text : Bytes) (plain : Bool)
  | invalid
  deriving DecidableEq, Repr

namespace Token

def isDirective : Token → Bool
  | .version _ _ | .abbreviation _ _ => true
  | _ => false

def isOutside : Token → Bool
  | .documentStart | .documentEnd | .streamEnd => true
  | t => t.isDirective

end Token

end UnusedImports.Yaml
