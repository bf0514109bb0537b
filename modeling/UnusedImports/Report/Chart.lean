import UnusedImports.Report.Basic

/-! The data of the bar charts that picture a report. -/

namespace UnusedImports.Report

structure Series where
  name : Bytes
  stack : Bytes
  color : Bytes
  values : List Int

structure Chart where
  title : Bytes
  subtitle : Bytes
  labels : List Bytes
  axis : Bytes
  series : List Series

def topFiles : Nat := 20

def strategyChart (r : Report) : Chart where
  title := utf8 "Findings per strategy"
  subtitle := utf8 "Detected versus kept after deduplication"
  labels := r.strategies.map fun s => s.strategy.name ++ utf8 " (" ++ s.status.name ++ utf8 ")"
  axis := utf8 "Findings"
  series :=
    [⟨utf8 "Detected", [], [], r.strategies.map Summary.total⟩,
     ⟨utf8 "Unique", [], [], r.strategies.map Summary.unique⟩]

/-- The files with most findings, by strategy. -/
def filesChart (r : Report) : Chart :=
  let count (file : Bytes) : Nat := (r.findings.filter fun f => f.file == file).length
  let files := (r.findings.map Finding.file).eraseDups.map fun f => (f, count f)
  let sorted := files.mergeSort fun a b => b.2 < a.2 || (a.2 = b.2 && Bytes.le a.1 b.1)
  let files := (sorted.take topFiles).map (·.1)
  let bars (tag : Tag) (color : String) : Series :=
    ⟨tag.name, utf8 "findings", utf8 color, files.map fun file =>
      ((r.findings.filter fun f => f.file == file && f.strategy = tag).length : Int)⟩
  { title := utf8 "Files with most findings"
    subtitle := utf8 "Top " ++ Bytes.ofNat topFiles ++ utf8 " files"
    labels := files
    axis := utf8 "Findings"
    series := [bars .eslint "#5470c6", bars .tsPrune "#91cc75", bars .lexical "#fac858"] }

def languageChart (r : Report) : Chart :=
  let languages := r.languages.mergeSort fun a b => Bytes.le a.1 b.1
  { title := utf8 "Scanned files by language"
    subtitle := Bytes.ofInt r.filesScanned ++ utf8 " file(s)"
    labels := languages.map (·.1)
    axis := utf8 "Files"
    series := [⟨utf8 "Files", [], [], languages.map (·.2)⟩] }

def charts (r : Report) : List Chart := [strategyChart r, filesChart r, languageChart r]

end UnusedImports.Report
