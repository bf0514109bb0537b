import UnusedImports.Project.Language
import UnusedImports.Tree

namespace UnusedImports

structure SourceFile where
  path : Bytes
  content : Bytes

namespace SourceFile

/-- The file with a path and the given bytes. -/
def ofContent (path content : Bytes) : SourceFile := ⟨path, Lines.dropByteOrderMark content⟩

def language (f : SourceFile) : Bytes := Language.detect f.path f.content

/-- Why a file cannot be loaded. -/
inductive LoadError where
  | unreachable (path : Bytes) (reason : Tree.Dead)
  | tooLarge (path : Bytes) (size : Nat)
  | isDirectory (path : Bytes)
  | binary (path : Bytes)
  deriving DecidableEq, Repr

def LoadError.message : LoadError → Bytes
  | .unreachable path reason =>
    utf8 "stat " ++ path ++ utf8 ": stat " ++ path ++ utf8 ": " ++ reason.message
  | .tooLarge path size =>
    utf8 "file exceeds size limit: " ++ path ++ utf8 " (" ++ Bytes.ofNat size ++ utf8 " bytes)"
  | .isDirectory path => utf8 "read " ++ path ++ utf8 ": read " ++ path ++ utf8 ": is a directory"
  | .binary path => utf8 "binary file: " ++ path

/-- The size that a directory is listed with. -/
def directorySize : Nat := 4096

def sizeOf : Tree → Nat
  | .file content => content.length
  | _ => directorySize

/-- Tests whether a size breaks a limit; a limit of zero or less is none. -/
def exceeds (limit : Int) (size : Nat) : Bool := 0 < limit && limit < size

/-- The file at an absolute path, if it can be loaded. -/
def load (tree : Tree) (limit : Int) (path : Bytes) : Except LoadError SourceFile :=
  match tree.lookup path with
  | .error reason => .error (.unreachable path reason)
  | .ok node =>
    if exceeds limit (sizeOf node) then .error (.tooLarge path (sizeOf node))
    else
      match node with
      | .file content =>
        if Lines.isBinary content then .error (.binary path) else .ok (ofContent path content)
      | _ => .error (.isDirectory path)

end SourceFile

namespace Language

/-- The language of the file at an absolute path, by its first bytes. A file that cannot be read is
judged by its name. -/
def ofFile (tree : Tree) (path : Bytes) : Bytes :=
  match tree.lookup path with
  | .ok (.file content) => detect path (content.take sniffLength)
  | _ => detect path []

def increment (name : Bytes) : List (Bytes × Int) → List (Bytes × Int)
  | [] => [(name, 1)]
  | c :: cs => if c.1 == name then (name, c.2 + 1) :: cs else c :: increment name cs

def counts (tree : Tree) (paths : List Bytes) : List (Bytes × Int) :=
  paths.foldl (fun counts path => increment (ofFile tree path) counts) []

end Language

end UnusedImports
