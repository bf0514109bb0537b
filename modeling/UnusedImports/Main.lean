import Std.Time.DateTime.Timestamp
import UnusedImports.CommandLine.Run

/-! The program takes a picture of the part of the file system that a run looks at, runs, and writes
what the run leaves behind. -/

namespace UnusedImports.Program

/-- What stands in a directory under a name, with all that is below it. What cannot be read is left
out. -/
partial def snapshot (e : IO.FS.DirEntry) : IO (Option (Bytes × Tree)) := do
  try
    let tree ← match (← e.path.symlinkMetadata).type with
      | .file => pure (some (Tree.file (← IO.FS.readBinFile e.path).data.toList))
      | .symlink => pure (some (Tree.link (utf8 (← IO.FS.realPath e.path).toString)))
      | .dir => pure (some (Tree.directory (← (← e.path.readDir).toList.filterMapM snapshot)))
      | .other => pure none
    return tree.map fun t => (utf8 e.fileName, t)
  catch _ => return none

def text (s : Bytes) : String := (String.fromUTF8? ⟨s.toArray⟩).getD ""

/-- A tree with what stands at an absolute path of the file system. -/
def load (t : Tree) (path : Bytes) : IO Tree := do
  let (parent, name) := Path.splitName (Path.clean path)
  match ← snapshot ⟨text parent, text name⟩ with
  | some (_, found) => return t.insert found (Path.cleanElements path)
  | none => return t

/-- The paths that a run looks at: the working directory, what the command line names, and the
user's configuration. -/
def interests (directory home : Bytes) (arguments : List Bytes) : List Bytes :=
  let named := match CommandLine.read arguments with
    | .ok (_, p) => (p.text? "config").toList ++ (p.text? "metrics-file").toList ++ p.arguments
    | .error _ => []
  let settings := [".yaml", ".yml"].map fun e =>
    Path.join home (utf8 (Config.fileName ++ e))
  directory :: (named.map (Path.absolute directory)) ++ settings

def environment : IO (List (Bytes × Bytes)) := do
  (utf8 "HOME" :: Config.variableNames).filterMapM fun n => do
    return (← IO.getEnv (text n)).map fun v => (n, utf8 v)

def now : IO Instant := do
  return ⟨(← Std.Time.Timestamp.now).toNanosecondsSinceUnixEpoch.toInt⟩

def put (stream : IO.FS.Stream) (s : Bytes) : IO Unit := do
  stream.write ⟨s.toArray⟩
  stream.flush

def run (arguments : List String) : IO UInt32 := do
  let arguments := arguments.map utf8
  let start ← now
  let directory := utf8 (← IO.currentDir).toString
  let environment ← environment
  let home := (environment.lookup (utf8 "HOME")).getD []
  let tree ← (interests directory home arguments).foldlM load Tree.empty
  let missing : Tool.Runner := fun c => ⟨⟨[], [], -1⟩, some (.notFound c.name [])⟩
  let o := CommandLine.run
    ⟨⟨tree, false, missing⟩, environment, directory, .unknown, start, ← now⟩ arguments
  put (← IO.getStdout) o.output
  put (← IO.getStderr) o.messages
  if let some (path, content) := o.written then
    IO.FS.writeBinFile (text path) ⟨content.toArray⟩
  if let some f := o.failure then
    if o.exitCode == 2 then
      put (← IO.getStderr) (utf8 "Error: " ++ f.message ++ utf8 "\n")
  return o.exitCode.toUInt32

end UnusedImports.Program

def main (arguments : List String) : IO UInt32 := UnusedImports.Program.run arguments
