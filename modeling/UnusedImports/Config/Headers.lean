import UnusedImports.Text.Trim

namespace UnusedImports.Config

/-- The header that a text of the form `name=value` denotes. -/
def header? (s : Bytes) : Option (Bytes × Bytes) :=
  match Bytes.cut? (utf8 "=") (Bytes.trim s) with
  | some (name, value) =>
    if Bytes.isBlank name then none else some (Bytes.trim name, Bytes.trim value)
  | none => none

/-- Headers with one of them set; the last value of a name counts. -/
def setHeader (hs : List (Bytes × Bytes)) (h : Bytes × Bytes) : List (Bytes × Bytes) :=
  hs.filter (fun old => old.1 != h.1) ++ [h]

/-- The headers of some entries, each of which may hold several with commas between them. What is no
header is left out. -/
def headers (entries : List Bytes) : List (Bytes × Bytes) :=
  ((entries.flatMap fun e => e.splitOn 0x2c).filterMap header?).foldl setHeader []

end UnusedImports.Config
