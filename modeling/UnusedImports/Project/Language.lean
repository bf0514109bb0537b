import UnusedImports.Path
import UnusedImports.Text.Lines
import UnusedImports.Text.LowerCase

/-! The language of a file, told from its first line, its extension and sometimes its content. -/

namespace UnusedImports.Language

/-- The language of files that none is known for. -/
def unknown : Bytes := utf8 "Other"

def isSpace (b : UInt8) : Bool :=
  b == 0x20 || b == 0x09 || b == 0x0a || b == 0x0c || b == 0x0d

def isWord (b : UInt8) : Bool := Bytes.isAlpha b || Bytes.isDigit b || b == '_'.toUInt8

def words (s : Bytes) : List Bytes := (s.splitOnP isSpace).filter fun w => !w.isEmpty

/-- The program that a first line of the form `#!…` names: the last element of its path, or the
argument if the path is that of `env`. -/
def interpreter? (content : Bytes) : Option Bytes := do
  let line ← Bytes.dropStart? (utf8 "#!") (content.takeWhile (· != Bytes.newline))
  match words line with
  | [] => none
  | program :: arguments =>
    if Bytes.contains (utf8 "env") program then arguments.head?
    else (program.splitOn Bytes.slash).getLast?

/-- Tests whether a text mentions the document type that gives away a catalogue of messages. -/
def hasCatalogueTag (content : Bytes) : Bool :=
  Bytes.anySuffix (fun s =>
    match Bytes.dropStart? (utf8 "<TS") s with
    | some (b :: _) => !isWord b
    | some [] => true
    | none => false) content

/-- Tests whether a text continues with a string that starts with `react`. -/
def quotesReact : Bytes → Bool
  | q :: s => (q == Bytes.doubleQuote || q == Bytes.singleQuote) && (utf8 "react").isPrefixOf s
  | [] => false

/-- Tests for `from` or `require` with the module `react`. -/
def namesReact (s : Bytes) : Bool :=
  (match Bytes.dropStart? (utf8 "from") s with
    | some t => t.head?.any isSpace && quotesReact (t.dropWhile isSpace)
    | none => false) ||
  (match Bytes.dropStart? (utf8 "require(") s with
    | some t => quotesReact t
    | none => false)

/-- Tests whether a text after the word `import` names the module `react` later on the line, with
something between the two. -/
def importsReact : Bytes → Bool
  | [] => false
  | b :: s => b != Bytes.newline && (namesReact s || importsReact s)

/-- Tests whether a line of a text starts, after white space, with what a test accepts. -/
def anyLine (test : Bytes → Bool) (content : Bytes) : Bool :=
  test (content.dropWhile isSpace) ||
    Bytes.anySuffix (fun s => match s with
      | Bytes.newline :: rest => test (rest.dropWhile isSpace)
      | _ => false) content

/-- Tests whether a line imports `react` or refers to other declarations. -/
def looksLikeComponents (content : Bytes) : Bool :=
  anyLine (fun s =>
    ((Bytes.dropStart? (utf8 "import") s).any importsReact) ||
    (match Bytes.dropStart? (utf8 "///") s with
      | some t => match Bytes.dropStart? (utf8 "<reference") (t.dropWhile isSpace) with
        | some u => u.head?.any isSpace
        | none => false
      | none => false)) content

def declaresMarkup (content : Bytes) : Bool :=
  anyLine (fun s =>
    match Bytes.dropStart? (utf8 "<?xml") ((s.take 5).map lower ++ s.drop 5) with
    | some t => t.head?.any isSpace &&
      (utf8 "version").isPrefixOf (((t.dropWhile isSpace).take 7).map lower)
    | none => false) content
where
  lower (b : UInt8) : UInt8 := if 0x41 ≤ b && b ≤ 0x5a then b + 0x20 else b

/-- The language of a file by its extension, and by its content where the extension is shared. -/
def ofExtension (ext content : Bytes) : Bytes :=
  if [".js", ".mjs", ".es6"].any fun e => ext == utf8 e then utf8 "JavaScript"
  else if ext == utf8 ".jsx" then utf8 "JSX"
  else if ext == utf8 ".vue" then utf8 "Vue"
  else if ext == utf8 ".ts" then
    if hasCatalogueTag content then utf8 "XML" else utf8 "TypeScript"
  else if ext == utf8 ".tsx" then
    if looksLikeComponents content then utf8 "TSX"
    else if declaresMarkup content then utf8 "XML" else utf8 "TSX"
  else unknown

/-- The language of a file with the given path and content. -/
def detect (path content : Bytes) : Bytes :=
  if Lines.isBinary content then unknown
  else if interpreter? content == some (utf8 "node") then utf8 "JavaScript"
  else ofExtension (Bytes.toLower (Path.extension path)) content

/-- Number of bytes that a count of languages looks at. -/
def sniffLength : Nat := 4096

end UnusedImports.Language
