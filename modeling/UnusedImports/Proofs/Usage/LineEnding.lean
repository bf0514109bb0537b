import UnusedImports.Proofs.Lexer.LineEnding
import UnusedImports.Proofs.Usage.Unused
import Mathlib

/-! The analysis looks at tokens through what their outlines keep, and a text with carriage returns
has the same outlines. -/

namespace UnusedImports

open Bytes

/-! ### Uses and unused bindings -/

namespace Usage

/-- Spans and lines of declarations do not depend on the names of modules. -/
theorem map_importsOf_outline {α : Type} {f : Declaration → α}
    (hf : ∀ d : Declaration, f d.outline = f d) (tokens : List Token) :
    (importsOf (tokens.map Token.outline)).map f = (importsOf tokens).map f := by
  have h := congrArg (List.map f) (importsOf_outline tokens)
  simpa only [List.map_map, Function.comp_def, hf] using h

theorem usedAfter_outline (tokens : List Token) (line : Nat) (name : Bytes) :
    UsedAfter (tokens.map Token.outline) line name ↔ UsedAfter tokens line name := by
  have himports : ∀ i, (∀ d ∈ importsOf (tokens.map Token.outline), ¬ d.toSpan.Covers i) ↔
      ∀ d ∈ importsOf tokens, ¬ d.toSpan.Covers i := fun i => by
    have hspans := map_importsOf_outline (f := fun d => d.toSpan) (fun _ => rfl) tokens
    rw [← List.forall_mem_map (f := fun d : Declaration => d.toSpan) (P := fun r => ¬ r.Covers i),
      hspans, List.forall_mem_map]
  have hword : ∀ t : Token, t.outline.kind = .identifier ∧ t.outline.text = name ↔
      t.kind = .identifier ∧ t.text = name := fun t =>
    and_congr_right fun hkind => by rw [Token.outline_text_of_identifier (t := t) hkind]
  unfold UsedAfter
  simp only [Fin.exists_iff, Fin.getElem_fin, List.length_map, List.getElem_map, ← and_assoc,
    hword, himports, reexportsOf_outline, Token.outline_line]

end Usage

/-! ### Findings -/

def findingsOf (path : Bytes) (tokens : List Token) : List Finding :=
  (importsOf tokens).flatMap fun d =>
    (d.bindings.filter fun b => ¬ Usage.UsedAfter tokens d.line b.name).map (Binding.toFinding path)

theorem scanFile_eq_findingsOf (path content : Bytes) :
    scanFile path content = findingsOf path (tokenize (.ofPath path) content) := by
  simp only [scanFile, analyze, findingsOf, Usage.lastLine_le_iff, List.map_flatMap]

theorem findingsOf_outline (path : Bytes) (tokens : List Token) :
    findingsOf path (tokens.map Token.outline) = findingsOf path tokens := by
  have hdeclaration : ∀ d : Declaration,
      (d.outline.bindings.filter fun b => ¬ Usage.UsedAfter tokens d.outline.line b.name).map
          (Binding.toFinding path) =
        (d.bindings.filter fun b => ¬ Usage.UsedAfter tokens d.line b.name).map
          (Binding.toFinding path) := fun d => by
    simp only [Declaration.outline, List.filter_map, List.map_map]
    rfl
  unfold findingsOf
  simp only [Usage.usedAfter_outline, List.flatMap_def]
  rw [Usage.map_importsOf_outline hdeclaration]

/-- A text with carriage returns has the same findings, if no quoted literal and no regular
expression in its code has a line break behind a backslash. -/
theorem scanFile_crlf {path content : Bytes}
    (h : ∀ t, ReadInCode (.ofPath path) content t → ¬ t.ContinuesLine) :
    scanFile path (crlf content) = scanFile path content := by
  rw [scanFile_eq_findingsOf, scanFile_eq_findingsOf, ← findingsOf_outline, tokenize_crlf h,
    findingsOf_outline]

set_option maxRecDepth 4000 in
/-- A line break in a template and one behind a comment. -/
theorem scanFile_crlf_template :
    (∀ t, ReadInCode (.ofPath (utf8 "a.ts"))
      (utf8 "import b from \"x\";\nlet s = \x60a\n\x60; // b\n") t → ¬ t.ContinuesLine) ∧
    scanFile (utf8 "a.ts") (crlf (utf8 "import b from \"x\";\nlet s = \x60a\n\x60; // b\n")) =
      scanFile (utf8 "a.ts") (utf8 "import b from \"x\";\nlet s = \x60a\n\x60; // b\n") := by
  have hpath : Dialect.ofPath (utf8 "a.ts") = .assertions := by cbv
  have htokens : tokenize .assertions
      (utf8 "import b from \"x\";\nlet s = \x60a\n\x60; // b\n") =
      [⟨⟨0, 1, 1⟩, .identifier, utf8 "import"⟩, ⟨⟨7, 1, 8⟩, .identifier, utf8 "b"⟩,
        ⟨⟨9, 1, 10⟩, .identifier, utf8 "from"⟩, ⟨⟨14, 1, 15⟩, .string, utf8 "\"x\""⟩,
        ⟨⟨17, 1, 18⟩, .punctuation, utf8 ";"⟩, ⟨⟨19, 2, 1⟩, .identifier, utf8 "let"⟩,
        ⟨⟨23, 2, 5⟩, .identifier, utf8 "s"⟩, ⟨⟨25, 2, 7⟩, .punctuation, utf8 "="⟩,
        ⟨⟨27, 2, 9⟩, .template, utf8 "\x60a\n\x60"⟩, ⟨⟨31, 3, 2⟩, .punctuation, utf8 ";"⟩] := by
    cbv
  have hbreaks : ∀ t ∈ tokenize (.ofPath (utf8 "a.ts"))
      (utf8 "import b from \"x\";\nlet s = \x60a\n\x60; // b\n"), ¬ t.ContinuesLine := by
    rw [hpath, htokens]
    decide
  exact ⟨fun t ht => hbreaks t ht.mem_tokenize,
    scanFile_crlf fun t ht => hbreaks t ht.mem_tokenize⟩

set_option maxRecDepth 8000 in
/-- A quoted literal goes on behind a line break with a backslash, but not behind one with a
carriage return: the rest of the literal becomes a word, and the import counts as used. -/
theorem scanFile_crlf_continued :
    carriageReturn ∉ utf8 "import b from \"x\";\nconst s = \"a\\\nb\";\n" ∧
    scanFile (utf8 "a.js")
        (crlf (utf8 "import b from \"x\";\nconst s = \"a\\\nb\";\n")) ≠
      scanFile (utf8 "a.js") (utf8 "import b from \"x\";\nconst s = \"a\\\nb\";\n") := by
  have hfound : (scanFile (utf8 "a.js")
      (utf8 "import b from \"x\";\nconst s = \"a\\\nb\";\n")).map (·.identifier) =
        [utf8 "b"] := by cbv
  have hlost : scanFile (utf8 "a.js")
      (crlf (utf8 "import b from \"x\";\nconst s = \"a\\\nb\";\n")) = [] := by cbv
  refine ⟨by decide, fun heq => ?_⟩
  rw [← heq, hlost] at hfound
  cases hfound

end UnusedImports
