import UnusedImports.Project.Vendored
import UnusedImports.Text.LowerCase
import UnusedImports.Text.Trim
import UnusedImports.Tree

/-! Symbolic links are not entered; a link counts as the file it leads to if that lies below the
root. -/

namespace UnusedImports

/-- Which files of a project are its sources. -/
structure SourceOptions where
  /-- Wanted extensions; an empty list stands for the usual ones. -/
  extensions : List Bytes
  ignoredDirectories : List Bytes
  skipVendored : Bool

namespace SourceOptions

def defaultExtensions : List Bytes := [".ts", ".tsx", ".js", ".jsx"].map utf8

/-- Directories that usually hold no sources. -/
def defaultIgnored : List Bytes :=
  ["node_modules", "dist", "build", ".next", ".git", "coverage", "out"].map utf8

def default : SourceOptions := ⟨defaultExtensions, defaultIgnored, false⟩

/-- An extension as it is compared: trimmed, in lower case and with its dot. -/
def normalizeExtension (ext : Bytes) : Bytes :=
  let ext := Bytes.toLower (Bytes.trim ext)
  if ext.isEmpty || ext.head? == some '.'.toUInt8 then ext else '.'.toUInt8 :: ext

/-- The wanted extensions as they are compared. -/
def wanted (o : SourceOptions) : List Bytes :=
  ((if o.extensions.isEmpty then defaultExtensions else o.extensions).map
    normalizeExtension).filter fun e => !e.isEmpty

def wants (o : SourceOptions) (path : Bytes) : Bool :=
  o.wanted.contains (Bytes.toLower (Path.extension path))

/-- Tests whether a directory below the root is left out. -/
def ignores (o : SourceOptions) (way : List Bytes) : Bool :=
  (way.getLast?.any fun name => !name.isEmpty && o.ignoredDirectories.contains name) ||
    (o.skipVendored && Vendored.contains (Bytes.join (utf8 "/") way ++ utf8 "/"))

end SourceOptions

/-- Why the files of a project cannot be listed. -/
inductive RootError where
  | missing (root : Bytes)
  | notDirectory (root : Bytes)
  | unreachable (root : Bytes) (reason : Tree.Dead)
  | canceled (root : Bytes)
  deriving DecidableEq, Repr

def RootError.message : RootError → Bytes
  | .missing root => utf8 "scan root not found: " ++ root
  | .notDirectory root => utf8 "scan root is not a directory: " ++ root
  | .unreachable root reason =>
    utf8 "stat " ++ root ++ utf8 ": stat " ++ root ++ utf8 ": " ++ reason.message
  | .canceled root => utf8 "walk " ++ root ++ utf8 ": context canceled"

/-- Tests whether a path without links lies in the directory that another leads to: the way from
one to the other does not start by going up. -/
def liesWithin (root way : List Bytes) : Bool :=
  (Path.relative? (Path.rooted root) (Path.rooted way)).any fun rel => !Path.isOutward rel

/-- Tests whether a link leads to a regular file below the directory at the end of a way. -/
def leadsInside (tree : Tree) (root : List Bytes) (path : Bytes) : Bool :=
  match tree.resolve path with
  | .ok way => liesWithin root way && (match tree.get? way with
    | some (.file _) => true
    | _ => false)
  | .error _ => false

/-- Tests whether something found below the root at the end of a way is a source file. -/
def isSource (tree : Tree) (o : SourceOptions) (root : Bytes) (resolved way : List Bytes)
    (node : Tree) : Bool :=
  o.wants (Tree.pathBelow root way) &&
    !(o.skipVendored && Vendored.contains (Bytes.join (utf8 "/") way)) &&
    match node with
    | .file _ => true
    | .link _ => leadsInside tree resolved (Tree.pathBelow root way)
    | .directory _ => false

/-- The source files below an absolute root, in bytewise order. -/
def enumerate (tree : Tree) (canceled : Bool) (root : Bytes) (o : SourceOptions) :
    Except RootError (List Bytes) :=
  match tree.lookup root with
  | .error .missing => .error (.missing root)
  | .error reason => .error (.unreachable root reason)
  | .ok (.directory _) =>
    if canceled then .error (.canceled root)
    else
      match tree.resolve root, tree.entryAt root with
      | .ok resolved, .ok top =>
        let found := (top.leaves fun way => !o.ignores way).filter fun e =>
          isSource tree o root resolved e.1 e.2
        .ok ((found.map fun e => Tree.pathBelow root e.1).mergeSort Bytes.le)
      | .error reason, _ => .error (.unreachable root reason)
      | _, .error reason => .error (.unreachable root reason)
  | .ok _ => .error (.notDirectory root)

end UnusedImports
