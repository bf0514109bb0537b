import UnusedImports.Proofs.Lexer.Name

/-! Trees of blocks, pairs, template literals and markup elements, how they are printed, and the
tokens that are read off them. -/

namespace UnusedImports.Markup

/-- The class and the bytes of a token, without its place. -/
abbrev Word := TokenKind × Bytes

def mark (s : String) : Word := (.punctuation, utf8 s)

mutual

inductive Expression where
  | name (text : Bytes)
  | braces (inner : Expression)
  | pair (first second : Expression)
  | template (text : Bytes) (rest : Substitutions)
  | element (el : Element)

/-- What follows a piece of a template literal: its end, or a substitution and the next piece. -/
inductive Substitutions where
  | done
  | more (inner : Expression) (text : Bytes) (rest : Substitutions)

/-- The attributes of a tag. Before each stands one space and a number of further ones. -/
inductive Attributes where
  | done
  | named (spaces : Nat) (name : Bytes) (value : Value) (rest : Attributes)
  | spread (spaces : Nat) (inner : Expression) (rest : Attributes)

/-- What follows the name of an attribute. -/
inductive Value where
  | absent
  | quoted (text : Bytes)
  | container (inner : Expression)

/-- What stands between two tags. -/
inductive Children where
  | done
  | text (text : Bytes) (rest : Children)
  | container (inner : Expression) (rest : Children)
  | element (el : Element) (rest : Children)

/-- A markup element: one tag that closes itself, two tags with a name, or two without. -/
inductive Element where
  | closed (name : Bytes) (attributes : Attributes)
  | paired (name : Bytes) (attributes : Attributes) (children : Children)
  | fragment (children : Children)

end

/-! ### Printing -/

mutual

def Expression.print : Expression → Bytes
  | .name text => text
  | .braces inner => utf8 "\x7b" ++ inner.print ++ utf8 "\x7d"
  | .pair first second => utf8 "(" ++ first.print ++ utf8 "," ++ second.print ++ utf8 ")"
  | .template text rest => utf8 "`" ++ text ++ rest.print
  | .element el => utf8 "<" ++ el.print

def Substitutions.print : Substitutions → Bytes
  | .done => utf8 "`"
  | .more inner text rest => utf8 "$\x7b" ++ inner.print ++ utf8 "\x7d" ++ text ++ rest.print

def Attributes.print : Attributes → Bytes
  | .done => []
  | .named spaces name value rest =>
    List.replicate (spaces + 1) ' '.toUInt8 ++ name ++ value.print ++ rest.print
  | .spread spaces inner rest =>
    List.replicate (spaces + 1) ' '.toUInt8 ++ utf8 "\x7b" ++ utf8 "..." ++ inner.print ++
      utf8 "\x7d" ++ rest.print

def Value.print : Value → Bytes
  | .absent => []
  | .quoted text => utf8 "=" ++ utf8 "\"" ++ text ++ utf8 "\""
  | .container inner => utf8 "=" ++ utf8 "\x7b" ++ inner.print ++ utf8 "\x7d"

def Children.print : Children → Bytes
  | .done => []
  | .text text rest => text ++ rest.print
  | .container inner rest => utf8 "\x7b" ++ inner.print ++ utf8 "\x7d" ++ rest.print
  | .element el rest => utf8 "<" ++ el.print ++ rest.print

/-- An element without the `<` in front of it. -/
def Element.print : Element → Bytes
  | .closed name attributes => name ++ attributes.print ++ utf8 "/>"
  | .paired name attributes children =>
    name ++ attributes.print ++ utf8 ">" ++ children.print ++ utf8 "</" ++ name ++ utf8 ">"
  | .fragment children => utf8 ">" ++ children.print ++ utf8 "</" ++ utf8 ">"

end

/-! ### Tokens -/

mutual

def Expression.words : Expression → List Word
  | .name text => [(.identifier, text)]
  | .braces inner => mark "\x7b" :: inner.words ++ [mark "\x7d"]
  | .pair first second => mark "(" :: first.words ++ mark "," :: second.words ++ [mark ")"]
  | .template text rest => rest.words (utf8 "`" ++ text)
  | .element el => mark "<" :: el.words

/-- The tokens from a piece of a template literal on. The last piece holds the closing backtick. -/
def Substitutions.words (piece : Bytes) : Substitutions → List Word
  | .done => [(.template, piece ++ utf8 "`")]
  | .more inner text rest =>
    (.template, piece) :: mark "$\x7b" :: inner.words ++ mark "\x7d" :: rest.words text

def Attributes.words : Attributes → List Word
  | .done => []
  | .named _ name value rest => (.identifier, name) :: value.words ++ rest.words
  | .spread _ inner rest =>
    mark "\x7b" :: mark "..." :: inner.words ++ mark "\x7d" :: rest.words

def Value.words : Value → List Word
  | .absent => []
  | .quoted text => [mark "=", (.string, utf8 "\"" ++ text ++ utf8 "\"")]
  | .container inner => mark "=" :: mark "\x7b" :: inner.words ++ [mark "\x7d"]

def Children.words : Children → List Word
  | .done => []
  | .text text rest => (.markupText, text) :: rest.words
  | .container inner rest => mark "\x7b" :: inner.words ++ mark "\x7d" :: rest.words
  | .element el rest => mark "<" :: el.words ++ rest.words

def Element.words : Element → List Word
  | .closed name attributes => (.identifier, name) :: attributes.words ++ [mark "/>"]
  | .paired name attributes children =>
    (.identifier, name) :: attributes.words ++ mark ">" :: children.words ++
      [mark "</", (.identifier, name), mark ">"]
  | .fragment children => mark ">" :: children.words ++ [mark "</", mark ">"]

end

/-! ### The trees that are meant -/

/-- A piece of a template literal has no backtick, no backslash and no opening of a substitution. -/
def IsPiece (s : Bytes) : Prop :=
  Bytes.backtick ∉ s ∧ Bytes.backslash ∉ s ∧ ¬ utf8 "$\x7b" <:+: s

instance (s : Bytes) : Decidable (IsPiece s) := inferInstanceAs (Decidable (_ ∧ _ ∧ _))

/-- Text between tags is not empty and opens neither a tag nor a container. -/
def IsText (s : Bytes) : Prop := s ≠ [] ∧ '<'.toUInt8 ∉ s ∧ Bytes.openBrace ∉ s

instance (s : Bytes) : Decidable (IsText s) := inferInstanceAs (Decidable (_ ∧ _ ∧ _))

def Attributes.firstName? : Attributes → Option Bytes
  | .done => none
  | .named _ name _ _ => some name
  | .spread _ _ rest => rest.firstName?

/-- Text comes first. -/
def Children.startsWithText : Children → Bool
  | .text _ _ => true
  | _ => false

mutual

def Expression.WellFormed : Expression → Prop
  | .name text => IsName text
  | .braces inner => inner.WellFormed
  | .pair first second => first.WellFormed ∧ second.WellFormed
  | .template text rest => IsPiece text ∧ rest.WellFormed
  | .element el => el.WellFormed

def Substitutions.WellFormed : Substitutions → Prop
  | .done => True
  | .more inner text rest => inner.WellFormed ∧ IsPiece text ∧ rest.WellFormed

def Attributes.WellFormed : Attributes → Prop
  | .done => True
  | .named _ name value rest => IsName name ∧ value.WellFormed ∧ rest.WellFormed
  | .spread _ inner rest => inner.WellFormed ∧ rest.WellFormed

def Value.WellFormed : Value → Prop
  | .absent => True
  | .quoted text => Bytes.doubleQuote ∉ text
  | .container inner => inner.WellFormed

/-- No two texts stand next to one another. -/
def Children.WellFormed : Children → Prop
  | .done => True
  | .text text rest => IsText text ∧ rest.startsWithText = false ∧ rest.WellFormed
  | .container inner rest => inner.WellFormed ∧ rest.WellFormed
  | .element el rest => el.WellFormed ∧ rest.WellFormed

/-- The first named attribute is not `extends`, which would make the tag a type parameter. -/
def Element.WellFormed : Element → Prop
  | .closed name attributes =>
    IsName name ∧ attributes.firstName? ≠ some (utf8 "extends") ∧ attributes.WellFormed
  | .paired name attributes children =>
    IsName name ∧ attributes.firstName? ≠ some (utf8 "extends") ∧ attributes.WellFormed ∧
      children.WellFormed
  | .fragment children => children.WellFormed

end

end UnusedImports.Markup
