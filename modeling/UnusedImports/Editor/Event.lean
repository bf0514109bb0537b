import UnusedImports.Editor.CodeAction
import UnusedImports.Editor.Diagnostic

/-! Each event of a document changes the text that is known of it. -/

namespace UnusedImports.Editor

/-- The texts of documents by their URIs. -/
structure Documents where
  texts : List (Bytes × Bytes)
  deriving DecidableEq, Repr

namespace Documents

def empty : Documents := ⟨[]⟩

def get? (ds : Documents) (uri : Bytes) : Option Bytes :=
  (ds.texts.find? fun d => d.1 == uri).map (·.2)

/-- Documents without one of them. -/
def erase (ds : Documents) (uri : Bytes) : Documents := ⟨ds.texts.filter fun d => d.1 != uri⟩

def set (ds : Documents) (uri text : Bytes) : Documents := ⟨(uri, text) :: (ds.erase uri).texts⟩

end Documents

inductive Change where
  | whole (text : Bytes)
  | part (range : Range) (text : Bytes)
  deriving DecidableEq, Repr

/-- A text after a change, given how the ends of a part are located in a text. What lies before the
start of the changed part is followed by the new text and by what lies behind its end, even if the
end comes before the start. -/
def Change.apply (locate : Bytes → Range → Nat × Nat) (old : Bytes) : Change → Bytes
  | .whole text => text
  | .part range text =>
    let (start, stop) := locate old range
    old.take start ++ text ++ old.drop stop

/-- What happens to a document in the editor. -/
inductive Event where
  | opened (uri text : Bytes)
  | changed (uri : Bytes) (changes : List Change)
  | saved (uri : Bytes) (text : Option Bytes)
  | closed (uri : Bytes)
  deriving DecidableEq, Repr

/-- Remarks that replace all earlier ones about a document. -/
structure Publication where
  uri : Bytes
  diagnostics : List Diagnostic
  deriving DecidableEq, Repr

namespace Event

/-- The documents after an event. A text that is not known counts as empty when it changes. -/
def update (locate : Bytes → Range → Nat × Nat) (ds : Documents) : Event → Documents
  | .opened uri text => ds.set uri text
  | .changed uri changes =>
    ds.set uri (changes.foldl (Change.apply locate) ((ds.get? uri).getD []))
  | .saved uri (some text) => ds.set uri text
  | .saved _ none => ds
  | .closed uri => ds.erase uri

def uri : Event → Bytes
  | .opened uri _ => uri
  | .changed uri _ => uri
  | .saved uri _ => uri
  | .closed uri => uri

/-- What is published after an event, given the documents after it: the remarks about the document,
none if it was closed. Nothing is published when a document is saved that is not known. -/
def publication (extensions : List Bytes) (after : Documents) : Event → Option Publication
  | .closed uri => some ⟨uri, []⟩
  | e => (after.get? e.uri).map fun text => ⟨e.uri, diagnostics extensions ⟨e.uri, text⟩⟩

end Event

/-- The actions for a part of a document that is known. -/
def Documents.codeActions (extensions : List Bytes) (ds : Documents) (uri : Bytes)
    (within : Range) : List CodeAction :=
  match ds.get? uri with
  | some text => Editor.codeActions extensions ⟨uri, text⟩ (some within)
  | none => []

end UnusedImports.Editor
