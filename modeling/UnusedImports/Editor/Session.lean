import UnusedImports.Editor.Request
import UnusedImports.Project.Enumerate

namespace UnusedImports.Editor

structure Session where
  extensions : List Bytes
  version : Bytes
  started : Bool
  documents : Documents

structure Response where
  result : Json
  publications : List Publication

def Publication.toJson (p : Publication) : Json :=
  .record [("uri", .string p.uri), ("diagnostics", .array (p.diagnostics.map Diagnostic.toJson))]

def publicationMethod : Bytes := utf8 "textDocument/publishDiagnostics"

namespace Session

/-- A session that has not started. Without extensions it takes the usual ones. -/
def new (extensions : List Bytes) (version : Bytes) : Session where
  extensions := if extensions.isEmpty then SourceOptions.defaultExtensions else extensions
  version := if version = [] then utf8 "dev" else version
  started := false
  documents := .empty

def introduction (s : Session) : Json :=
  .record [
    ("capabilities", .record [
      ("textDocumentSync",
        .record [("openClose", .bool true), ("change", .ofNat 1), ("save", .bool true)]),
      ("codeActionProvider", .bool true)]),
    ("serverInfo", .record [("name", .string serverName), ("version", .string s.version)])]

/-- Answers a request, given how the ends of a part are located in a text. -/
def answer (locate : Bytes → Range → Nat × Nat) (s : Session) : Request → Session × Response
  | .start => ({ s with started := true }, ⟨s.introduction, []⟩)
  | .stop => ({ s with started := false }, ⟨.null, []⟩)
  | .note => (s, ⟨.null, []⟩)
  | .event e =>
    let documents := e.update locate s.documents
    ({ s with documents }, ⟨.null, (e.publication s.extensions documents).toList⟩)
  | .actions uri within =>
    match s.documents.codeActions s.extensions uri within with
    | [] => (s, ⟨.null, []⟩)
    | as => (s, ⟨.array (as.map CodeAction.toJson), []⟩)

/-- Answers a call, or refuses it and stays as it is. Before the start of a session only the method
that starts it is answered. -/
def handle (s : Session) (method : Bytes) (parameters : Option Json) :
    Session × Except Refusal Response :=
  if !s.started && method != utf8 "initialize" then (s, .error .notStarted)
  else
    match Request.read method parameters with
    | .error e => (s, .error e)
    | .ok r =>
      let (s, response) := s.answer Range.offsets r
      (s, .ok response)

end Session

end UnusedImports.Editor
