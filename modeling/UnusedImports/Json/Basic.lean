import UnusedImports.Text.Bytes

/-! Numbers keep the text they were written with, objects the order and the repetitions of members.
-/

namespace UnusedImports

inductive Json where
  | null
  | bool (value : Bool)
  | number (text : Bytes)
  | string (text : Bytes)
  | array (items : List Json)
  /-- Members in the order they are written, repetitions included. -/
  | object (members : List (Bytes × Json))
  deriving Inhabited

namespace Json

def ofInt (n : Int) : Json := .number (Bytes.ofInt n)

def ofNat (n : Nat) : Json := .number (Bytes.ofNat n)

/-- An object with members in the given order. -/
def record (members : List (String × Json)) : Json :=
  .object (members.map fun m => (utf8 m.1, m.2))

/-- The last value of a member, as repeated members override each other. -/
def member? (members : List (Bytes × Json)) (name : Bytes) : Option Json :=
  (members.reverse.find? fun m => m.1 == name).map (·.2)

end Json

end UnusedImports
