import UnusedImports.Path

/-! A file system as a value. Paths are followed the way an operating system does it, through links
wherever they stand, up to a number of them. -/

namespace UnusedImports

/-- A file, a symbolic link or a directory with its named entries. -/
inductive Tree where
  | file (content : Bytes)
  | link (target : Bytes)
  | directory (entries : List (Bytes × Tree))

namespace Tree

/-- A directory without entries. -/
def empty : Tree := .directory []

/-- The entries of a directory; nothing else has any. -/
def entries : Tree → List (Bytes × Tree)
  | .directory es => es
  | _ => []

def child? (t : Tree) (name : Bytes) : Option Tree := t.entries.lookup name

def get? (t : Tree) : List Bytes → Option Tree
  | [] => some t
  | name :: way => (t.child? name).bind fun u => u.get? way

/-- Entries with one of them replaced or, if there is none of the name, added. -/
def putEntry (name : Bytes) (t : Tree) : List (Bytes × Tree) → List (Bytes × Tree)
  | [] => [(name, t)]
  | e :: es => if e.1 == name then (name, t) :: es else e :: putEntry name t es

/-- A tree with something placed at the end of a way, whose directories are made as needed. -/
def insert (t : Tree) (new : Tree) : List Bytes → Tree
  | [] => new
  | name :: way =>
    .directory (putEntry name (((t.child? name).getD empty).insert new way) t.entries)

/-- Why a path leads nowhere. -/
inductive Dead where
  | missing
  | notDirectory
  | tooManyLinks
  deriving DecidableEq, Repr

def Dead.message : Dead → Bytes
  | .missing => utf8 "no such file or directory"
  | .notDirectory => utf8 "not a directory"
  | .tooManyLinks => utf8 "too many levels of symbolic links"

/-- Follows a path from a directory of the tree, through at most the given number of symbolic links.
The result is the way to the same place without any link. -/
def follow (top : Tree) (links : Nat) (here : List Bytes) (path : List Bytes) :
    Except Dead (List Bytes) :=
  match path with
  | [] => .ok here
  | name :: path =>
    match top.get? here with
    | none => .error .missing
    | some (.file _) => .error .notDirectory
    | some (.link _) => .error .notDirectory
    | some (.directory es) =>
      if name.isEmpty || name == utf8 "." then follow top links here path
      else if name == utf8 ".." then follow top links here.dropLast path
      else
        match es.lookup name with
        | none => .error .missing
        | some (.link target) =>
          match links with
          | 0 => .error .tooManyLinks
          | links + 1 =>
            follow top links (if Path.isAbsolute target then [] else here)
              (target.splitOn Bytes.slash ++ path)
        | some _ => follow top links (here ++ [name]) path
termination_by (links, path.length)

/-- Number of symbolic links that opening a file follows. -/
def openLinks : Nat := 40

/-- Number of symbolic links that resolving a path follows. -/
def resolveLinks : Nat := 255

/-- The way without links to where an absolute path leads. -/
def resolve (top : Tree) (path : Bytes) : Except Dead (List Bytes) :=
  follow top resolveLinks [] (path.splitOn Bytes.slash)

/-- What is found at an absolute path when it is opened. -/
def lookup (top : Tree) (path : Bytes) : Except Dead Tree := do
  let way ← follow top openLinks [] (path.splitOn Bytes.slash)
  match top.get? way with
  | some t => .ok t
  | none => .error .missing

/-- What stands at an absolute path itself, which may be a link. -/
def entryAt (top : Tree) (path : Bytes) : Except Dead Tree := do
  match (Path.cleanElements path).reverse with
  | [] => .ok top
  | name :: parents =>
    let way ← follow top openLinks [] parents.reverse
    match (top.get? way).bind (·.child? name) with
    | some t => .ok t
    | none => .error .missing

/-- Why a file cannot be written. -/
inductive WriteError where
  | unreachable (reason : Dead)
  | occupied
  deriving DecidableEq, Repr

def WriteError.message : WriteError → Bytes
  | .unreachable reason => reason.message
  | .occupied => utf8 "file exists"

/-- The tree after a file is written at an absolute path. It takes the place of a file or a link of
its name; its directory must exist. -/
def write (top : Tree) (path content : Bytes) : Except WriteError Tree :=
  let (parent, name) := Path.splitName path
  match follow top openLinks [] (parent.splitOn Bytes.slash) with
  | .error reason => .error (.unreachable reason)
  | .ok way =>
    match top.get? way with
    | some (.directory es) =>
      if name.isEmpty || name == utf8 "." || name == utf8 ".." then .error .occupied
      else
        match es.lookup name with
        | some (.directory _) => .error .occupied
        | _ => .ok (top.insert (.file content) (way ++ [name]))
    | _ => .error (.unreachable .notDirectory)

/-- The path below a directory that a way leads to. -/
def pathBelow (directory : Bytes) (way : List Bytes) : Bytes :=
  Bytes.join (utf8 "/") ((if directory == utf8 "/" then [] else directory) :: way)

/-- Everything but directories in the entries of the directory at the end of a way, each with its own
way. A directory among them is entered only if the test accepts its way. -/
def leavesOf (enter : List Bytes → Bool) (way : List Bytes) :
    List (Bytes × Tree) → List (List Bytes × Tree)
  | [] => []
  | (name, .directory es) :: rest =>
    (if enter (way ++ [name]) then leavesOf enter (way ++ [name]) es else []) ++
      leavesOf enter way rest
  | (name, .file content) :: rest =>
    (way ++ [name], .file content) :: leavesOf enter way rest
  | (name, .link target) :: rest => (way ++ [name], .link target) :: leavesOf enter way rest

/-- Everything but directories in a tree, each with the way to it. A directory below the top is
entered only if the test accepts its way. -/
def leaves (enter : List Bytes → Bool) (t : Tree) : List (List Bytes × Tree) :=
  match t with
  | .directory es => leavesOf enter [] es
  | t => [([], t)]

end Tree

end UnusedImports
