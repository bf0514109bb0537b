import UnusedImports.Duration

/-! Log records are data; writing them out is left to the handlers. -/

namespace UnusedImports.Log

structure Level where
  /-- The severity as a number; the named ones are four apart. -/
  value : Int
  deriving DecidableEq, Repr

namespace Level

/-- Details for the search of faults. -/
def debug : Level := ⟨-4⟩

def info : Level := ⟨0⟩

def warn : Level := ⟨4⟩

def error : Level := ⟨8⟩

end Level

inductive Value where
  | text (s : Bytes)
  | int (n : Int)
  | duration (d : Duration)
  deriving DecidableEq, Repr

abbrev Attribute := Bytes × Value

def attr (name : String) (v : Value) : Attribute := (utf8 name, v)

/-- Something to report about the program's work. -/
structure Record where
  level : Level
  message : Bytes
  attributes : List Attribute
  deriving DecidableEq, Repr

/-- A value together with the records written on the way to it. -/
structure Logged (α : Type) where
  value : α
  records : List Record

namespace Logged

/-- A value without records. -/
def silent {α : Type} (a : α) : Logged α := ⟨a, []⟩

def note {α : Type} (level : Level) (message : String) (attributes : List Attribute) (a : α) :
    Logged α :=
  ⟨a, [⟨level, utf8 message, attributes⟩]⟩

end Logged

end UnusedImports.Log
