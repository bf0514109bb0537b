import UnusedImports.Editor.Position
import UnusedImports.Editor.Uri
import UnusedImports.Json.Basic
import UnusedImports.Path
import UnusedImports.Text.Lines

/-! A document may start with a byte order mark, which the analysis does not see. -/

namespace UnusedImports.Editor

structure Document where
  uri : Bytes
  text : Bytes
  deriving DecidableEq, Repr

namespace Document

def path (d : Document) : Bytes := Uri.toPath d.uri

/-- Its text without byte order mark. -/
def content (d : Document) : Bytes := Lines.dropByteOrderMark d.text

/-- The length of its byte order mark. -/
def shift (d : Document) : Nat := d.text.length - d.content.length

/-- The part of the document between two offsets of its content. -/
def range (d : Document) (start stop : Nat) : Range :=
  ⟨positionAt d.text (start + d.shift : Nat), positionAt d.text (stop + d.shift : Nat)⟩

/-- Tests whether a document is analyzed: the extension of its path, in lower case, is one of
those given. -/
def isHandled (extensions : List Bytes) (d : Document) : Bool :=
  (extensions : List Bytes).elem (Bytes.toLower (Path.extension d.path))

end Document

def Position.toJson (p : Position) : Json :=
  .record [("line", .ofNat p.line), ("character", .ofNat p.character)]

def Range.toJson (r : Range) : Json :=
  .record [("start", r.start.toJson), ("end", r.stop.toJson)]

end UnusedImports.Editor
