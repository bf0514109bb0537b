import UnusedImports.Diff.LineDiff
import UnusedImports.Edit

namespace UnusedImports

/-- What removing the unused imports of a file would change. -/
structure Preview where
  file : Bytes
  edits : List Edit
  diff : Bytes

/-- The preview for a file, reported under a name, if there is anything to change. -/
def Preview.ofFile? (name path content : Bytes) : Option Preview :=
  let edits := Edit.ofFile path content
  if edits.isEmpty then none
  else some ⟨name, edits, Diff.lineDiff name content (Edit.apply content edits)⟩

end UnusedImports
