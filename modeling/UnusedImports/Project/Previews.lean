import UnusedImports.Finding
import UnusedImports.Preview
import UnusedImports.Project.SourceFile

namespace UnusedImports

/-- Why there are no previews of called-off work. -/
def previewsCanceledReason : Bytes := utf8 "fix preview: context canceled"

/-- The names in order, each once. -/
def sortedNames (names : List Bytes) : List Bytes :=
  ((names.mergeSort Bytes.le).foldl (fun kept name =>
    if kept.head? == some name then kept else name :: kept) []).reverse

def lexicalFiles (findings : List Finding) : List Bytes :=
  sortedNames ((findings.filter fun f => f.strategy = .lexical).map (·.file))

/-- The previews of the files named by lexical findings, whose paths are taken from the root. Files
that cannot be loaded have none. -/
def previews (tree : Tree) (root : Bytes) (limit : Int) (findings : List Finding) : List Preview :=
  (lexicalFiles findings).filterMap fun name =>
    match SourceFile.load tree limit (if Path.isAbsolute name then name else Path.join root name) with
    | .ok f => Preview.ofFile? name f.path f.content
    | .error _ => none

/-- The previews, unless the work is called off before the first of them. -/
def previews? (tree : Tree) (canceled : Bool) (root : Bytes) (limit : Int)
    (findings : List Finding) : Option (List Preview) :=
  if canceled && !(lexicalFiles findings).isEmpty then none
  else some (previews tree root limit findings)

end UnusedImports
