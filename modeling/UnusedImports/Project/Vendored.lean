import UnusedImports.Text.Bytes

/-! Paths that by convention hold other people's code. A directory is tested with a slash at its
end. -/

namespace UnusedImports.Vendored

def below (name : String) (path : Bytes) : Bool :=
  (utf8 (name ++ "/")).isPrefixOf path || Bytes.contains (utf8 ("/" ++ name ++ "/")) path

/-- Directories of other people's code, wherever they stand. -/
def directories : List String := ["cache", "dist", "testdata", "env"]

def endings : List String :=
  ["node_modules/", "bower_components/", "vendor/", "vendors/", "extern/", "external/"] ++
    ["3rd", "third", "Third"].flatMap fun number =>
      ["", "-", "_"].flatMap fun separator =>
        ["party/", "Party/"].map fun party => number ++ separator ++ party

def starts : List String := ["deps/", "test/fixtures/", "tests/fixtures/", "Test/fixtures/",
  "Tests/fixtures/"]

def suffixes : List String :=
  [".min.js", "-min.js", ".min.css", "-min.css", ".d.ts"]

/-- Tests whether a path ends with `.js` and has an element that starts with a library's name, with
an accepted text between the two. -/
def namesScript (name : String) (accept : Bytes → Bool) (path : Bytes) : Bool :=
  match Bytes.dropEnd? (utf8 ".js") path with
  | none => false
  | some stem => Bytes.anySuffix (fun s =>
      (Bytes.dropStart? (utf8 ("/" ++ name)) s).any accept) (Bytes.slash :: stem)

/-- Tests for a text without a dot. -/
def dotless (s : Bytes) : Bool := s.all (· != '.'.toUInt8)

/-- Tests for a version of two or three numbers after a hyphen, the first of one digit. -/
def isVersion (s : Bytes) : Bool :=
  match s with
  | hyphen :: rest =>
    hyphen == '-'.toUInt8 &&
      (match rest.splitOn '.'.toUInt8 with
        | major :: minor :: more =>
          major.length == 1 && more.length ≤ 1 &&
            (major :: minor :: more).all fun n => !n.isEmpty && n.all Bytes.isDigit
        | _ => false)
  | [] => false

/-- Tests for an optional version mark `.v` with digits, then no dot. -/
def isMarkedVersion (s : Bytes) : Bool :=
  dotless s ||
    match Bytes.dropStart? (utf8 ".v") s with
    | some rest => rest.head?.any Bytes.isDigit && dotless rest
    | none => false

/-- Tests for nothing or a hyphen with a text without dots. -/
def isHyphenated (s : Bytes) : Bool :=
  s.isEmpty || (s.head? == some '-'.toUInt8 && dotless s)

/-- Tests whether a path below the root holds other people's code. -/
def contains (path : Bytes) : Bool :=
  directories.any (below · path) ||
  (endings.any fun e => Bytes.contains (utf8 e) path) ||
  (starts.any fun s => (utf8 s).isPrefixOf path) ||
  (suffixes.any fun s => (utf8 s).isSuffixOf path) ||
  namesScript "jquery" (fun s => dotless s || isVersion s) path ||
  namesScript "angular" dotless path ||
  namesScript "d3" isMarkedVersion path ||
  namesScript "react" isHyphenated path

end UnusedImports.Vendored
