import UnusedImports.Report.Basic

namespace UnusedImports.Report

/-- A hint on what to do next, and the command that does it. -/
structure Recommendation where
  text : Bytes
  command : Bytes

/-- What to do next, by what was found and which tools were missing. -/
def recommendations (r : Report) : List Recommendation :=
  let found := 0 < r.totalFindings
  let missing (tag : Tag) : Bool := (r.summary? tag).any (·.status == .notAvailable)
  let hint (text command : String) : Recommendation := ⟨utf8 text, utf8 command⟩
  (if found then
    [hint "Run ESLint with --fix to remove unused imports automatically:"
      "npx eslint . --ext .ts,.tsx,.js,.jsx --fix"] else []) ++
  (if missing .tsPrune then
    [hint "Install ts-prune for unused export detection:" "npm install --save-dev ts-prune"]
  else []) ++
  (if missing .eslint then
    [hint "Install ESLint for scope-aware unused variable detection:"
      "npm install --save-dev eslint"] else []) ++
  (if found then
    [hint "Configure your editor to highlight unused imports, or serve diagnostics with:"
      "importsweep lsp",
     hint "Keep imports tidy with an organizer such as organize-imports-cli:"
      "npx organize-imports-cli tsconfig.json"] else [])

end UnusedImports.Report
