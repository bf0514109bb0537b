import UnusedImports.Path
import UnusedImports.Source.Lexer
import UnusedImports.Source.Reexport
import UnusedImports.Text.LowerCase
import Std.Data.HashMap

/-! An import is used when its name occurs as a word on a later line, outside every import
declaration and every re-export. -/

namespace UnusedImports

/-- The dialect of a file, by the extension of its name. -/
def Dialect.ofPath (path : Bytes) : Dialect :=
  let ext := Bytes.toLower (Path.extension path)
  if [".ts", ".mts", ".cts"].any fun e => ext == utf8 e then .assertions else .markup

namespace Usage

/-- The numbered tokens that lie in none of the given spans, which are in order and disjoint; those
already kept come in reverse. -/
def outside : List Span → List (Token × Nat) → List (Token × Nat) → List (Token × Nat)
  | [], ts, kept => kept.reverse ++ ts
  | _, [], kept => kept.reverse
  | r :: rs, (t, i) :: ts, kept =>
    if i < r.start then outside (r :: rs) ts ((t, i) :: kept)
    else if i < r.stop then outside (r :: rs) ts kept
    else outside rs ((t, i) :: ts) kept
termination_by rs ts => (rs.length, ts.length)

/-- The last line on which each word occurs. -/
def lastLines (ts : List (Token × Nat)) : Std.HashMap Bytes Nat :=
  ts.foldl (fun lines t =>
    if t.1.kind == .identifier then
      lines.insert t.1.text (max (lines.getD t.1.text 0) t.1.line)
    else lines) ∅

end Usage

/-- What the lexical analysis of a file finds. -/
structure Analysis where
  tokens : List Token
  declarations : List Declaration
  unused : List Binding

/-- Finds the unused imports of a file. -/
def analyze (path content : Bytes) : Analysis :=
  let tokens := tokenize (.ofPath path) content
  let declarations := importsOf tokens
  let outsideImports := Usage.outside (declarations.map (·.toSpan)) tokens.zipIdx []
  let lines := Usage.lastLines (Usage.outside (reexportsOf tokens) outsideImports [])
  let unused := declarations.flatMap fun d =>
    d.bindings.filter fun b => lines.getD b.name 0 ≤ d.line
  ⟨tokens, declarations, unused⟩

end UnusedImports
