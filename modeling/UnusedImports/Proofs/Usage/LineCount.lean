import UnusedImports.Diff.LineDiff
import UnusedImports.Proofs.Edit.InRange
import UnusedImports.Proofs.Lexer.Inside
import UnusedImports.Proofs.Text.Lines
import UnusedImports.Source.Scan

/-! A token has as many lines before it as there are line feeds, and the text goes on behind these.
-/

namespace UnusedImports

/-- Lines of a text are counted from one. -/
def Lines.Has (content : Bytes) (line : Nat) : Prop := 1 ≤ line ∧ line ≤ count content

variable {content : Bytes} {dialect : Dialect} {t : Token} {d : Declaration} {b : Binding}

theorem has_line_of_mem_tokenize (ht : t ∈ tokenize dialect content) :
    Lines.Has content t.line := by
  have hline : t.line = 1 + (content.take t.offset).count Bytes.newline :=
    congrArg Position.line ((placed_of_mem_tokenize ht).place.trans (Position.advance_start _))
  have hlt : (content.take t.offset).count Bytes.newline < Lines.count content :=
    Lines.count_take_lt <| (offset_lt_or_getLast? ht).imp_right fun hlast =>
      ⟨Bytes.closeBrace, hlast, by decide⟩
  exact ⟨by omega, by omega⟩

theorem has_line_of_mem_importsOf (hd : d ∈ importsOf (tokenize dialect content)) :
    Lines.Has content d.line := by
  obtain ⟨front, t, rest, heq, -, rfl⟩ := exists_keyword_of_mem_importsOf hd
  exact has_line_of_mem_tokenize (heq ▸ List.mem_append_right front List.mem_cons_self)

theorem has_nameLine_of_mem_bindings (hd : d ∈ importsOf (tokenize dialect content))
    (hb : b ∈ d.bindings) : Lines.Has content b.nameLine := by
  obtain ⟨_, t, _, _, ht, hnamed⟩ := (liesIn_of_mem_importsOf hd).names b hb
  exact hnamed.line ▸ has_line_of_mem_tokenize (List.mem_of_getElem? ht)

/-- All counts of the lines of a text agree, and tokens, declarations, names and findings are on
lines that are counted. -/
theorem lines_agree (content : Bytes) :
    (Lines.split content).length = Lines.count content ∧
      (Diff.bareLines content).length = Lines.count content ∧
      (Lines.count content = 0 ↔ content = []) ∧
      (∀ dialect, (∀ t ∈ tokenize dialect content, Lines.Has content t.line) ∧
        ∀ d ∈ importsOf (tokenize dialect content), Lines.Has content d.line ∧
          ∀ b ∈ d.bindings, Lines.Has content b.line ∧ Lines.Has content b.nameLine) ∧
      ∀ path, ∀ f ∈ scanFile path content,
        ∃ line : Nat, f.line = line ∧ Lines.Has content line := by
  refine ⟨Lines.length_split content, ?_, Lines.count_eq_zero_iff content, fun dialect =>
    ⟨fun t ht => has_line_of_mem_tokenize ht, fun d hd => ⟨has_line_of_mem_importsOf hd,
      fun b hb => ⟨?_, has_nameLine_of_mem_bindings hd hb⟩⟩⟩, fun path f hf => ?_⟩
  · rw [Diff.bareLines, List.length_map, Lines.length_splitAfter]
  · exact line_of_mem_bindings hd hb ▸ has_line_of_mem_importsOf hd
  · obtain ⟨b, hunused, rfl⟩ := List.mem_map.mp hf
    obtain ⟨d, hd, hfilter⟩ := List.mem_flatMap.mp hunused
    have hb : b ∈ d.bindings := (List.mem_filter.mp hfilter).1
    exact ⟨b.line, rfl, line_of_mem_bindings hd hb ▸ has_line_of_mem_importsOf hd⟩

end UnusedImports
