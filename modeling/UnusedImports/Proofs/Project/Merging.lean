import UnusedImports.Project.Scan
import UnusedImports.Proofs.Report.Order
import Mathlib

/-! Lexical findings that compare as equal are the same, so that the order of the files does not
matter. -/

namespace UnusedImports

/-! ### Findings that compare as equal -/

namespace Finding

theorem order_eq_eq_iff (f g : Finding) :
    order f g = .eq ↔ f.file = g.file ∧ f.line = g.line ∧ f.column = g.column ∧
      f.identifier = g.identifier := by
  simp only [order, Ordering.then_eq_eq, Std.LawfulEqOrd.compare_eq_iff_eq]

theorem Le.antisymm {f g : Finding} (hfg : f.Le g) (hgf : g.Le f) :
    f.file = g.file ∧ f.line = g.line ∧ f.column = g.column ∧ f.identifier = g.identifier := by
  rw [← order_eq_eq_iff]
  exact Std.OrientedCmp.isLE_antisymm ((isLE_order_iff f g).mpr hfg) ((isLE_order_iff g f).mpr hgf)

/-- Where findings that compare as equal are the same, their order before does not matter. -/
theorem sort_eq_of_perm {fs gs : List Finding} (h : fs.Perm gs)
    (hsame : ∀ f ∈ fs, ∀ g ∈ fs, f.Le g → g.Le f → f = g) : sort fs = sort gs := by
  have hmem : ∀ {f}, f ∈ sort fs → f ∈ fs := fun hf => (sort_perm fs).mem_iff.mp hf
  have hmem' : ∀ {f}, f ∈ sort gs → f ∈ fs := fun hf => h.mem_iff.mpr ((sort_perm gs).mem_iff.mp hf)
  exact List.Perm.eq_of_pairwise (fun f g hf hg => hsame f (hmem hf) g (hmem' hg))
    (sort_pairwise fs) (sort_pairwise gs) ((sort_perm fs).trans (h.trans (sort_perm gs).symm))

/-- A finding of the lexical analysis says nothing that its place and its name do not tell. -/
structure IsLexical (f : Finding) : Prop where
  message : f.message = unusedMessage f.identifier
  rule : f.rule = unusedImportRule
  strategy : f.strategy = .lexical

theorem IsLexical.eq_of_le {f g : Finding} (hf : f.IsLexical) (hg : g.IsLexical) (hfg : f.Le g)
    (hgf : g.Le f) : f = g := by
  obtain ⟨hfile, hline, hcolumn, hidentifier⟩ := hfg.antisymm hgf
  have hmessage : f.message = g.message := by rw [hf.message, hg.message, hidentifier]
  have hrule : f.rule = g.rule := hf.rule.trans hg.rule.symm
  have hstrategy : f.strategy = g.strategy := hf.strategy.trans hg.strategy.symm
  cases f
  cases g
  simp_all

end Finding

def ScanSettings.reported (s : ScanSettings) (path content : Bytes) : List Finding :=
  (scanFile path content).map fun f => { f with file := Path.report s.root path }

theorem isLexical_of_mem_reported {s : ScanSettings} {path content : Bytes} {f : Finding}
    (hf : f ∈ s.reported path content) : f.IsLexical := by
  simp only [ScanSettings.reported, scanFile, List.map_map, List.mem_map] at hf
  obtain ⟨b, _, rfl⟩ := hf
  exact ⟨rfl, rfl, rfl⟩

theorem findingsOf_eq_reported (s : ScanSettings) (file : SourceFile) :
    s.findingsOf file = s.reported file.path file.content := by
  simp [ScanSettings.findingsOf, ScanSettings.reported, scanFile, Binding.toFinding]

theorem SourceFile.path_eq_of_load {tree : Tree} {limit : Int} {path : Bytes} {file : SourceFile}
    (h : load tree limit path = .ok file) : file.path = path := by
  grind [load, ofContent]

/-! ### Merged scans -/

namespace ProjectScan

theorem foldl_add (slots : List (Option FileScan)) (r : ProjectScan) :
    slots.foldl add r =
      { findings := r.findings ++ (slots.reduceOption).flatMap (·.findings)
        scanned := r.scanned + slots.reduceOption.length
        skipped := r.skipped + slots.countP Option.isNone
        lines := r.lines + (slots.reduceOption.map (·.lines)).sum } := by
  induction slots generalizing r with
  | nil => simp [List.reduceOption]
  | cons slot slots ih =>
      rw [List.foldl_cons, ih]
      cases slot with
      | none => simp [add, List.reduceOption_cons_of_none, Nat.add_assoc, Nat.add_comm 1]
      | some f => simp [add, List.reduceOption_cons_of_some, Nat.add_assoc, Nat.add_comm 1]

end ProjectScan

/-- The content of the file at a path, if it can be loaded. -/
def ScanSettings.contentAt? (s : ScanSettings) (tree : Tree) (path : Bytes) : Option Bytes :=
  (SourceFile.load tree s.limit path).toOption.map (·.content)

/-- The paths that can be loaded, each with its content. -/
def ScanSettings.loaded (s : ScanSettings) (tree : Tree) (paths : List Bytes) :
    List (Bytes × Bytes) :=
  paths.filterMap fun path => (s.contentAt? tree path).map (path, ·)

variable (tree : Tree) (s : ScanSettings)

theorem scanPath?_eq (path : Bytes) :
    s.scanPath? tree path =
      (s.contentAt? tree path).map fun content =>
        ⟨s.reported path content, Lines.count content⟩ := by
  rw [ScanSettings.scanPath?, ScanSettings.contentAt?]
  cases h : SourceFile.load tree s.limit path with
  | error e => rfl
  | ok file =>
      have hfindings := findingsOf_eq_reported s file
      rw [SourceFile.path_eq_of_load h] at hfindings
      simp [Except.toOption, ScanSettings.scanOf, hfindings]

variable (paths : List Bytes)

theorem value_scanFiles_eq_ofSlots :
    (scanFiles tree s paths).value = .ofSlots (paths.map (s.scanPath? tree)) := by
  simp only [scanFiles, List.map_map]
  rfl

theorem length_loaded :
    (s.loaded tree paths).length = paths.countP fun path => (s.contentAt? tree path).isSome := by
  simp [ScanSettings.loaded, List.length_filterMap_eq_countP]

theorem reduceOption_scanPath? :
    (paths.map (s.scanPath? tree)).reduceOption =
      (s.loaded tree paths).map fun file => ⟨s.reported file.1 file.2, Lines.count file.2⟩ := by
  simp only [List.reduceOption, List.filterMap_map, ScanSettings.loaded, List.map_filterMap]
  apply List.filterMap_congr
  intro path _
  simp [scanPath?_eq, Function.comp_def]

theorem value_scanFiles :
    (scanFiles tree s paths).value =
      { findings :=
          Finding.sort ((s.loaded tree paths).flatMap fun file => s.reported file.1 file.2)
        scanned := paths.countP fun path => (s.contentAt? tree path).isSome
        skipped := paths.countP fun path => (s.contentAt? tree path).isNone
        lines := ((s.loaded tree paths).map fun file => Lines.count file.2).sum } := by
  have hskipped : (paths.map (s.scanPath? tree)).countP Option.isNone =
      paths.countP fun path => (s.contentAt? tree path).isNone := by
    simp [List.countP_map, Function.comp_def, scanPath?_eq]
  rw [value_scanFiles_eq_ofSlots, ProjectScan.ofSlots, ProjectScan.foldl_add,
    reduceOption_scanPath?, hskipped, ← length_loaded]
  simp [List.flatMap_map, Function.comp_def]

theorem value_scanFiles_perm {paths paths' : List Bytes} (h : paths.Perm paths') :
    (scanFiles tree s paths).value = (scanFiles tree s paths').value := by
  have hloaded : (s.loaded tree paths).Perm (s.loaded tree paths') := h.filterMap _
  have hfindings : Finding.sort ((s.loaded tree paths).flatMap fun f => s.reported f.1 f.2) =
      Finding.sort ((s.loaded tree paths').flatMap fun f => s.reported f.1 f.2) := by
    apply Finding.sort_eq_of_perm (hloaded.flatMap_right _)
    intro f hf g hg hfg hgf
    obtain ⟨_, _, hf⟩ := List.mem_flatMap.mp hf
    obtain ⟨_, _, hg⟩ := List.mem_flatMap.mp hg
    exact (isLexical_of_mem_reported hf).eq_of_le (isLexical_of_mem_reported hg) hfg hgf
  rw [value_scanFiles, value_scanFiles, hfindings, h.countP_eq, h.countP_eq,
    (hloaded.map _).sum_eq]

end UnusedImports
