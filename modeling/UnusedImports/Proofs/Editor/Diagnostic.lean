import UnusedImports.Editor.Diagnostic
import UnusedImports.Proofs.Editor.Document
import UnusedImports.Proofs.Import.Alias
import UnusedImports.Proofs.Lexer.Boundary
import UnusedImports.Proofs.Lexer.Place
import Mathlib

/-! A diagnostic goes back from the line and the column of a token to an offset, and from there to a
position. -/

namespace UnusedImports.Editor

/-! ### From lines back to offsets -/

theorem offsetAfterLines_newline (n : Nat) (s : Bytes) :
    offsetAfterLines (n + 1) (Bytes.newline :: s) = offsetAfterLines n s + 1 := by
  simp [offsetAfterLines, List.idxOf?_cons, Nat.add_comm]

/-- A byte that ends no line comes before the start of every later line. -/
theorem offsetAfterLines_cons {b : UInt8} (hb : b ≠ Bytes.newline) (n : Nat) (s : Bytes) :
    offsetAfterLines (n + 1) (b :: s) = offsetAfterLines (n + 1) s + 1 := by
  cases hs : s.idxOf? Bytes.newline with
  | none => simp [offsetAfterLines, List.idxOf?_cons, hb, hs]
  | some i =>
      simp [offsetAfterLines, List.idxOf?_cons, hb, hs]
      omega

/-- The line behind a line feed starts there. -/
theorem offsetAfterLines_line (front back : Bytes) :
    offsetAfterLines (front.count Bytes.newline + 1) (front ++ Bytes.newline :: back) =
      front.length + 1 := by
  induction front with
  | nil =>
      rw [List.count_nil, List.nil_append, offsetAfterLines_newline]
      rfl
  | cons b front ih =>
      by_cases hb : b = Bytes.newline
      · rw [hb, List.count_cons_self, List.cons_append, offsetAfterLines_newline, ih]
        rfl
      · rw [List.count_cons_of_ne hb, List.cons_append, offsetAfterLines_cons hb, ih]
        rfl

/-- The last line of a front of a text starts behind as many lines as the front has line feeds. -/
theorem offsetAfterLines_count (front back : Bytes) :
    offsetAfterLines (front.count Bytes.newline) (front ++ back) +
      (front.reverse.takeWhile (· != Bytes.newline)).length = front.length := by
  induction front using List.reverseRecOn generalizing back with
  | nil => simp [offsetAfterLines]
  | append_singleton front b ih =>
      rw [List.append_assoc, List.singleton_append, List.reverse_append, List.count_append]
      by_cases hb : b = Bytes.newline
      · subst hb
        simp [offsetAfterLines_line]
      · have hfront := ih (b :: back)
        simp [hb]
        omega

/-- The line and the column of a token lead back to its offset. -/
theorem lineOffset_of_placed {content : Bytes} {t : Token} (h : t.Placed content) :
    lineOffset content t.line + t.column - 1 = t.offset := by
  have hplace := h.place.trans (UnusedImports.Position.advance_start _)
  have hline : t.line = 1 + (content.take t.offset).count Bytes.newline :=
    congrArg UnusedImports.Position.line hplace
  have hcolumn : t.column =
      1 + ((content.take t.offset).reverse.takeWhile (· != Bytes.newline)).length :=
    congrArg UnusedImports.Position.column hplace
  have hinside := h.inside
  have hoffset := offsetAfterLines_count (content.take t.offset) (content.drop t.offset)
  rw [List.take_append_drop, List.length_take] at hoffset
  have hlines : ((t.line : Int) - 1).toNat = (content.take t.offset).count Bytes.newline := by omega
  rw [lineOffset, hlines, hcolumn]
  omega

/-! ### Diagnostics -/

namespace Diagnostic

/-- A diagnostic underlines the alias of a binding, in the declaration that introduces it: its range
covers the bytes of that token in the text of the document, and they are the name. -/
def Underlines (d : Document) (mark : Bytes) (g : Diagnostic) (b : Binding) : Prop :=
  ∃ e ∈ (analyze d.path d.content).declarations, b ∈ e.bindings ∧
    ∃ front t next back,
      e.own (analyze d.path d.content).tokens = front ++ t :: next :: back ∧
      b.NamedBy t ∧ Import.ClosesName next ∧
      g.range.Covers d.text (t.offset + mark.length) (t.offset + b.name.length + mark.length) ∧
      (d.text.drop (t.offset + mark.length)).take b.name.length = b.name

variable {d : Document} {mark : Bytes}

/-- The diagnostic for a name that a declaration introduces underlines its alias. -/
theorem ofBinding_underlines (hmark : d.Marked mark) (hcontent : Utf8.WellFormed d.content)
    {e : Declaration} (he : e ∈ (analyze d.path d.content).declarations) {b : Binding}
    (hb : b ∈ e.bindings) : (ofBinding d b).Underlines d mark b := by
  obtain ⟨front, t, next, back, hown, hname, hnext⟩ := exists_alias_of_mem_importsOf he hb
  have ht : t ∈ tokenize (.ofPath d.path) d.content := by
    have hmem : t ∈ e.own (tokenize (.ofPath d.path) d.content) := by
      rw [hown]
      simp
    exact mem_of_mem_own hmem
  have hplaced := placed_of_mem_tokenize ht
  have hinside := hplaced.inside
  obtain ⟨hstart, hstop⟩ := boundary_of_mem_tokenize hcontent ht
  have hrange : (ofBinding d b).range = d.range t.offset (t.offset + t.text.length) := by
    rw [ofBinding, hname.line, hname.column, lineOffset_of_placed hplaced, hname.name]
  refine ⟨e, he, hb, front, t, next, back, hown, hname, hnext, ?_⟩
  rw [hrange, hname.name]
  refine ⟨hmark.range_covers hstart (by omega) hstop hinside, ?_⟩
  rw [hmark.text_eq, Nat.add_comm, List.drop_length_add_append]
  exact hplaced.text_eq.symm

end Diagnostic

/-- For a document that is analyzed and well formed, there is a diagnostic for each unused name of
its content, in order, and it underlines the alias of that name in the document, behind a byte order
mark if there is one, where 32 bits hold both ends of the name. -/
theorem diagnostics_underline (extensions : List Bytes) (d : Document)
    (hhandled : d.isHandled extensions = true) (hvalid : Utf8.isValid d.text = true) :
    ∃ mark, d.Marked mark ∧
      List.Forall₂ (fun g b => g.message = unusedMessage b.name ∧ g.Underlines d mark b)
        (diagnostics extensions d) (analyze d.path d.content).unused := by
  obtain ⟨mark, hmark⟩ := d.exists_marked
  refine ⟨mark, hmark, ?_⟩
  rw [diagnostics, if_pos hhandled, List.forall₂_map_left_iff, List.forall₂_same]
  intro b hb
  obtain ⟨e, he, hfilter⟩ := List.mem_flatMap.mp hb
  exact ⟨rfl, Diagnostic.ofBinding_underlines hmark (hmark.wellFormed_content hvalid) he
    (List.mem_filter.mp hfilter).1⟩

/-- A document with a byte order mark and a character of two code units, where a declaration on two
lines says one of its names twice. -/
def sampleUnused : Document :=
  ⟨utf8 "file:///a.ts", Lines.byteOrderMark ++ utf8 "/*😀*/import b,\x7b\na as a\x7dfrom'a'"⟩

set_option maxRecDepth 2000
theorem diagnostics_underline_sample :
    sampleUnused.isHandled [utf8 ".ts"] = true ∧ Utf8.isValid sampleUnused.text = true ∧
      (diagnostics [utf8 ".ts"] sampleUnused).map (·.range) =
        [⟨⟨0, 14⟩, ⟨0, 15⟩⟩, ⟨⟨1, 5⟩, ⟨1, 6⟩⟩] ∧
      sampleUnused.Marked Lines.byteOrderMark ∧
      List.Forall₂
        (fun g b => g.message = unusedMessage b.name ∧
          g.Underlines sampleUnused Lines.byteOrderMark b)
        (diagnostics [utf8 ".ts"] sampleUnused)
        (analyze sampleUnused.path sampleUnused.content).unused := by
  have hhandled : sampleUnused.isHandled [utf8 ".ts"] = true := by decide +kernel
  have hvalid : Utf8.isValid sampleUnused.text = true := by decide +kernel
  obtain ⟨mark, hmark, hunderline⟩ :=
    diagnostics_underline [utf8 ".ts"] sampleUnused hhandled hvalid
  obtain rfl : mark = Lines.byteOrderMark :=
    hmark.mark_eq.trans (if_pos (List.prefix_append _ _))
  exact ⟨hhandled, hvalid, by cbv, hmark, hunderline⟩

end UnusedImports.Editor
