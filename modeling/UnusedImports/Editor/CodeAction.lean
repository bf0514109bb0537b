import UnusedImports.Edit
import UnusedImports.Editor.Document

namespace UnusedImports.Editor

/-- A part of a document and what replaces it. -/
structure TextEdit where
  range : Range
  text : Bytes
  deriving DecidableEq, Repr

/-- The edit of a document for an edit of its content. -/
def TextEdit.ofEdit (d : Document) (e : Edit) : TextEdit := ⟨d.range e.start e.stop, e.text⟩

def TextEdit.toJson (e : TextEdit) : Json :=
  .record [("range", e.range.toJson), ("newText", .string e.text)]

/-- Something that the editor can offer to do with a document. -/
structure CodeAction where
  title : Bytes
  uri : Bytes
  edits : List TextEdit
  deriving DecidableEq, Repr

namespace CodeAction

def toJson (a : CodeAction) : Json :=
  .record [("title", .string a.title), ("kind", .string (utf8 "quickfix")),
    ("edit", .record [("changes", .object [(a.uri, .array (a.edits.map TextEdit.toJson))])])]

def ofEdit (d : Document) (e : Edit) : CodeAction :=
  ⟨utf8 "Remove unused import " ++ Bytes.join (utf8 ", ") e.removed, d.uri, [.ofEdit d e]⟩

def ofAll (d : Document) (es : List Edit) : CodeAction :=
  ⟨utf8 "Remove all unused imports", d.uri, es.map (TextEdit.ofEdit d)⟩

end CodeAction

/-- Tests whether an edit touches a part of a document, or anything if none is given. -/
def touches (d : Document) (within : Option Range) (e : Edit) : Bool :=
  within.all fun r => r.overlaps (TextEdit.ofEdit d e).range

/-- The actions for a part of a document, or for all of it if no part is given. The action for all
edits joins the others if there are several edits in the document and one of them touches the
part. -/
def codeActions (extensions : List Bytes) (d : Document) (within : Option Range) :
    List CodeAction :=
  if d.isHandled extensions then
    let all := Edit.ofFile d.path d.content
    let here := all.filter (touches d within)
    here.map (CodeAction.ofEdit d) ++
      if 1 < all.length && !here.isEmpty then [.ofAll d all] else []
  else []

end UnusedImports.Editor
