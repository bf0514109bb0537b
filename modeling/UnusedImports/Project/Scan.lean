import UnusedImports.Log.Record
import UnusedImports.Project.SourceFile
import UnusedImports.Source.Scan

/-! The lexical strategy: every file is analyzed on its own, and what cannot be loaded is counted.
-/

namespace UnusedImports

/-- What a scan of many files found. -/
structure ProjectScan where
  findings : List Finding
  scanned : Nat
  skipped : Nat
  lines : Nat

/-- How the files of a project are scanned. -/
structure ScanSettings where
  /-- The root that paths are reported from; if empty, they are reported as they are. -/
  root : Bytes
  /-- Largest size of a file in bytes; zero and less mean no limit. -/
  limit : Int

/-- The findings of one file, reported from the root. -/
def ScanSettings.findingsOf (s : ScanSettings) (f : SourceFile) : List Finding :=
  (scanFile f.path f.content).map fun x => { x with file := Path.report s.root x.file }

/-- What the scan of one file found. -/
structure FileScan where
  findings : List Finding
  lines : Nat

def ScanSettings.scanOf (s : ScanSettings) (f : SourceFile) : FileScan :=
  ⟨s.findingsOf f, Lines.count f.content⟩

/-- The scan of the file at a path, if it can be loaded. -/
def ScanSettings.scanPath? (s : ScanSettings) (tree : Tree) (path : Bytes) : Option FileScan :=
  (SourceFile.load tree s.limit path).toOption.map s.scanOf

namespace ProjectScan

/-- Counts one file in: what its scan found, or that it could not be loaded. -/
def add (r : ProjectScan) : Option FileScan → ProjectScan
  | none => { r with skipped := r.skipped + 1 }
  | some f =>
    { r with
      findings := r.findings ++ f.findings
      scanned := r.scanned + 1
      lines := r.lines + f.lines }

/-- The scan of many files from the scans of each. -/
def ofSlots (slots : List (Option FileScan)) : ProjectScan :=
  let r := slots.foldl add ⟨[], 0, 0, 0⟩
  { r with findings := Finding.sort r.findings }

end ProjectScan

/-- The record about a file that could not be loaded. -/
def skippedRecord (path : Bytes) (e : SourceFile.LoadError) : Log.Record :=
  ⟨.debug, utf8 "skipping file",
    [Log.attr "path" (.text path), Log.attr "error" (.text e.message)]⟩

def scanFiles (tree : Tree) (s : ScanSettings) (paths : List Bytes) : Log.Logged ProjectScan :=
  let outcomes := paths.map fun path => (path, SourceFile.load tree s.limit path)
  { value := .ofSlots (outcomes.map fun o => o.2.toOption.map s.scanOf)
    records := outcomes.filterMap fun o => match o.2 with
      | .error e => some (skippedRecord o.1 e)
      | .ok _ => none }

/-- Why a scan of called-off work has no result. -/
def scanCanceledReason : Bytes := utf8 "lexical scan: context canceled"

/-- Scans files unless the work is called off before the first of them. -/
def scanFiles? (tree : Tree) (canceled : Bool) (s : ScanSettings) (paths : List Bytes) :
    Option (Log.Logged ProjectScan) :=
  if canceled && !paths.isEmpty then none else some (scanFiles tree s paths)

/-- The lexical strategy's result, with the number of lines it read. -/
def lexicalStrategy (tree : Tree) (canceled : Bool) (s : ScanSettings) (paths : List Bytes) :
    Log.Logged (Result × Nat) :=
  match scanFiles? tree canceled s paths with
  | some r =>
    ⟨(.found .lexical r.value.findings r.value.findings.length, r.value.lines), r.records⟩
  | none => .silent (.inconclusive .lexical scanCanceledReason, 0)

end UnusedImports
