import UnusedImports.Finding
import UnusedImports.Source.Usage

namespace UnusedImports

def unusedImportRule : Bytes := utf8 "unused-import"

def unusedMessage (name : Bytes) : Bytes := utf8 "'" ++ name ++ utf8 "' is imported but never used"

/-- The finding for an unused binding of a file. Its place is the `import` keyword's line; the
column of the name is given only if the name stands on that line. -/
def Binding.toFinding (path : Bytes) (b : Binding) : Finding where
  file := path
  line := b.line
  column := if b.nameLine = b.line then b.nameColumn else 0
  identifier := b.name
  message := unusedMessage b.name
  rule := unusedImportRule
  strategy := .lexical

def scanFile (path content : Bytes) : List Finding :=
  (analyze path content).unused.map (Binding.toFinding path)

end UnusedImports
