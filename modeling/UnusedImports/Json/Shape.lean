import UnusedImports.Json.Decode

/-! What a reader asks of a value before it takes it apart. A shape admits `null` everywhere. -/

namespace UnusedImports.Json

inductive Shape where
  | any
  | text
  | integer (low high : Int)
  /-- A string, or a whole number of 32 bits. -/
  | code
  | list (item : Shape)
  | record (members : List (String × Shape))

namespace Shape

def int32 : Shape := .integer (-0x80000000) 0x7fffffff

/-- A whole number of 32 bits without sign. -/
def uint32 : Shape := .integer 0 0xffffffff

mutual

def admits : Shape → Json → Bool
  | .any, _ => true
  | .text, v => v.text?.isSome
  | .integer low high, v => (v.bounded? low high).isSome
  | .code, v => v.text?.isSome || (v.bounded? (-0x80000000) 0x7fffffff).isSome
  | .list item, v => v.items?.any fun vs => vs.all (admits item)
  | .record members, v => v.isRecord && admitsMembers members v

/-- Tests whether all the members of a value that have one of the given names are of its shape. -/
def admitsMembers : List (String × Shape) → Json → Bool
  | [], _ => true
  | (name, shape) :: rest, v =>
    ((v.fields name).all fun w => shape.admits w) && admitsMembers rest v

end

end Shape

end UnusedImports.Json
