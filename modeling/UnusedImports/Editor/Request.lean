import UnusedImports.Editor.Event
import UnusedImports.Json.Shape

/-! The editor calls methods by name, with a value that holds their parameters. -/

namespace UnusedImports.Editor

/-- What an editor can ask for. -/
inductive Request where
  | start
  | stop
  | note
  | event (e : Event)
  | actions (uri : Bytes) (within : Range)
  deriving DecidableEq, Repr

/-- Why a call is not answered. -/
inductive Refusal where
  | notStarted
  | unknownMethod
  | invalidParameters
  deriving DecidableEq, Repr

def notStartedMessage : Bytes := utf8 "server not initialized"

/-! ### Shapes of parameters -/

open Json (Shape)

def positionShape : Shape := .record [("line", .uint32), ("character", .uint32)]

def rangeShape : Shape := .record [("start", positionShape), ("end", positionShape)]

def locationShape : Shape := .record [("uri", .text), ("range", rangeShape)]

/-- The shape of parameters about a document, with more about the document and besides it. -/
def documentShape (more besides : List (String × Shape)) : Shape :=
  .record (("textDocument", .record (("uri", .text) :: more)) :: besides)

def diagnosticShape : Shape :=
  .record [("range", rangeShape), ("severity", .int32), ("code", .code),
    ("codeDescription", .record [("href", .text)]), ("source", .text), ("message", .text),
    ("tags", .list .int32),
    ("relatedInformation", .list (.record [("location", locationShape), ("message", .text)]))]

def startShape : Shape :=
  .record [("workDoneToken", .code), ("processId", .int32),
    ("clientInfo", .record [("name", .text), ("version", .text)]), ("locale", .text),
    ("rootPath", .text), ("rootUri", .text), ("capabilities", .record []), ("trace", .text),
    ("workspaceFolders", .list (.record [("uri", .text), ("name", .text)]))]

/-! ### Reading parameters -/

/-- A value read as a text, empty if it is none. -/
def textOf (j : Json) : Bytes := j.text?.getD []

def positionOf (j : Json) : Position :=
  ⟨.ofNat (((j.field "line").count?).getD 0), .ofNat (((j.field "character").count?).getD 0)⟩

def rangeOf (j : Json) : Range := ⟨positionOf (j.field "start"), positionOf (j.field "end")⟩

def changeOf (j : Json) : Change :=
  match j.field "range" with
  | .null => .whole (textOf (j.field "text"))
  | range => .part (rangeOf range) (textOf (j.field "text"))

def uriOf (parameters : Json) : Bytes := textOf ((parameters.field "textDocument").field "uri")

/-- A method: the shape of its parameters and how they are read. -/
structure Method where
  shape : Option Shape
  read : Json → Request

def methods : List (String × Method) :=
  [("initialize", ⟨some startShape, fun _ => .start⟩),
    ("initialized", ⟨some (.record []), fun _ => .note⟩),
    ("shutdown", ⟨none, fun _ => .stop⟩),
    ("$/setTrace", ⟨some (.record [("value", .text)]), fun _ => .note⟩),
    ("textDocument/didOpen",
      ⟨some (documentShape [("languageId", .text), ("version", .int32), ("text", .text)] []),
        fun p => .event (.opened (uriOf p) (textOf ((p.field "textDocument").field "text")))⟩),
    ("textDocument/didChange",
      ⟨some (documentShape [("version", .int32)]
          [("contentChanges", .list (.record [("range", rangeShape), ("rangeLength", .uint32),
            ("text", .text)]))]),
        fun p => .event (.changed (uriOf p)
          ((((p.field "contentChanges").items?).getD []).map changeOf))⟩),
    ("textDocument/didSave",
      ⟨some (documentShape [] [("text", .text)]),
        fun p => .event (.saved (uriOf p) (match p.field "text" with
          | .string s => some s
          | _ => none))⟩),
    ("textDocument/didClose",
      ⟨some (documentShape [] []), fun p => .event (.closed (uriOf p))⟩),
    ("textDocument/codeAction",
      ⟨some (documentShape [] [("workDoneToken", .code), ("partialResultToken", .code),
          ("range", rangeShape),
          ("context", .record [("diagnostics", .list diagnosticShape), ("only", .list .text)])]),
        fun p => .actions (uriOf p) (rangeOf (p.field "range"))⟩)]

/-- The request that a call stands for. Parameters can be missing only if the method has none. -/
def Request.read (method : Bytes) (parameters : Option Json) : Except Refusal Request :=
  match methods.find? fun m => utf8 m.1 == method with
  | none => .error .unknownMethod
  | some (_, m) =>
    if m.shape.all fun s => parameters.any s.admits then .ok (m.read (parameters.getD .null))
    else .error .invalidParameters

end UnusedImports.Editor
