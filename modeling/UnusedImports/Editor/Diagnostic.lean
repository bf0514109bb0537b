import UnusedImports.Editor.Document
import UnusedImports.Source.Scan

namespace UnusedImports.Editor

def serverName : Bytes := utf8 "importsweep"

/-- A remark about a part of a document. -/
structure Diagnostic where
  range : Range
  message : Bytes
  deriving DecidableEq, Repr

namespace Diagnostic

def ofBinding (d : Document) (b : Binding) : Diagnostic :=
  let start := lineOffset d.content b.nameLine + b.nameColumn - 1
  ⟨d.range start (start + b.name.length), unusedMessage b.name⟩

/-- The remark as a value: a warning about code that is not needed. -/
def toJson (d : Diagnostic) : Json :=
  .record [("range", d.range.toJson), ("severity", .ofNat 2), ("code", .string unusedImportRule),
    ("source", .string serverName), ("message", .string d.message), ("tags", .array [.ofNat 1])]

end Diagnostic

/-- The remarks about a document, in the order of its imports. -/
def diagnostics (extensions : List Bytes) (d : Document) : List Diagnostic :=
  if d.isHandled extensions then
    (analyze d.path d.content).unused.map (Diagnostic.ofBinding d)
  else []

end UnusedImports.Editor
