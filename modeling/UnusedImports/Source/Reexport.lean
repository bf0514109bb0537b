import UnusedImports.Source.Import

/-! Clauses that export names of another module. The names in them use no import of this one. -/

namespace UnusedImports.Reexport

/-- The tokens after the braces or the star of an export, if there is one of them. After a star,
`as` takes one token along. -/
def dropExports? (ts : List Token) : Option (List Token) :=
  match ts with
  | [] => none
  | t :: rest =>
    if t.isPunctuator "\x7b" then some (Import.dropBraced rest)
    else if t.isPunctuator "*" then
      some (if rest.head?.any (·.isWord "as") then rest.drop 2 else rest)
    else none

/-- The tokens after a re-export, read after its keyword. -/
def dropClause? (ts : List Token) : Option (List Token) :=
  match dropExports? (if ts.head?.any (·.isWord "type") then ts.tail else ts) with
  | some (t :: s :: rest) => if t.isWord "from" && s.kind == .string then some rest else none
  | _ => none

theorem length_le_of_dropExports? {ts rest : List Token} (h : dropExports? ts = some rest) :
    rest.length ≤ ts.length := by
  unfold dropExports? at h
  split at h
  · contradiction
  · next t after =>
    have := Import.dropBraced_length_le after
    split at h
    · injection h with h; subst h; simp only [List.length_cons]; omega
    · split at h
      · injection h with h; subst h
        split <;> simp only [List.length_drop, List.length_cons] <;> omega
      · contradiction

theorem length_lt_of_dropClause? {ts rest : List Token} (h : dropClause? ts = some rest) :
    rest.length < ts.length := by
  unfold dropClause? at h
  split at h
  · next t s after he =>
    have h1 := length_le_of_dropExports? he
    have h2 : (if ts.head?.any (·.isWord "type") then ts.tail else ts).length ≤ ts.length := by
      split <;> simp
    split at h
    · injection h with h; subst h
      simp only [List.length_cons] at h1
      omega
    · contradiction
  · contradiction

/-- Finds the re-exports of a token list, given the token before it, the length of the whole list
that it ends, and the spans already found in reverse. -/
def findAll (total : Nat) (before : Option Token) (ts : List Token) (found : List Span) :
    List Span :=
  match ts with
  | [] => found.reverse
  | t :: rest =>
    if Import.isStatementWord "export" before t then
      match _h : dropClause? rest with
      | some after =>
        let start := total - (rest.length + 1)
        let stop := total - after.length
        findAll total ((t :: rest).take (stop - start)).getLast? after (⟨start, stop⟩ :: found)
      | none => findAll total (some t) rest found
    else findAll total (some t) rest found
termination_by ts.length
decreasing_by
  · have := length_lt_of_dropClause? _h
    simp only [List.length_cons]
    omega
  · simp
  · simp

end UnusedImports.Reexport

namespace UnusedImports

/-- The spans of the re-exports of a token list in order. -/
def reexportsOf (tokens : List Token) : List Span :=
  Reexport.findAll tokens.length none tokens []

end UnusedImports
