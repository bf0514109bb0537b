import UnusedImports.Editor.Document
import UnusedImports.Proofs.Editor.Position

/-! An offset between code points of the content is one of the text as well, further on by the
length of the mark. -/

namespace UnusedImports

theorem Utf8.Boundary.append {s : Bytes} {i : Nat} (h : Boundary s i) {front : Bytes}
    (hfront : WellFormed front) : Boundary (front ++ s) (i + front.length) := by
  rw [Boundary, Nat.add_comm, List.take_length_add_append, List.drop_length_add_append]
  exact ⟨hfront.append h.1, h.2⟩

theorem Lines.wellFormed_byteOrderMark : Utf8.WellFormed byteOrderMark :=
  ⟨[0xfeff], by simp [Utf8.IsScalar], by decide⟩

namespace Editor

/-- What a document has in front of its content: a byte order mark if its text starts with one. -/
structure Document.Marked (d : Document) (mark : Bytes) : Prop where
  text_eq : d.text = mark ++ d.content
  mark_eq : mark = if Lines.byteOrderMark <+: d.text then Lines.byteOrderMark else []

theorem Document.exists_marked (d : Document) : ∃ mark, d.Marked mark := by
  refine ⟨_, ?_, rfl⟩
  rw [content, Lines.dropByteOrderMark, Bytes.dropStart?]
  by_cases hmarked : Lines.byteOrderMark <+: d.text
  · obtain ⟨rest, hrest⟩ := hmarked
    simp [← hrest]
  · have hnone : Lines.byteOrderMark.isPrefixOf d.text = false := by
      rwa [← Bool.not_eq_true, List.isPrefixOf_iff_prefix]
    simp [hmarked, hnone]

namespace Document.Marked

variable {d : Document} {mark : Bytes}

theorem length_eq (h : d.Marked mark) : mark.length = d.shift := by
  have hlength := congrArg List.length h.text_eq
  rw [List.length_append] at hlength
  rw [shift]
  omega

theorem wellFormed (h : d.Marked mark) : Utf8.WellFormed mark := by
  rw [h.mark_eq]
  split
  · exact Lines.wellFormed_byteOrderMark
  · exact .nil

theorem wellFormed_content (h : d.Marked mark) (hvalid : Utf8.isValid d.text = true) :
    Utf8.WellFormed d.content :=
  .of_append (h.text_eq ▸ (Utf8.isValid_iff d.text).mp hvalid) h.wellFormed

/-- A part of the document between offsets of its content covers what lies behind the mark. -/
theorem range_covers (h : d.Marked mark) {i j : Nat} (hi : Utf8.Boundary d.content i)
    (hle : i ≤ d.content.length) (hj : Utf8.Boundary d.content j) (hle' : j ≤ d.content.length) :
    (d.range i j).Covers d.text (i + mark.length) (j + mark.length) := by
  have hlength : d.text.length = mark.length + d.content.length := by
    rw [h.text_eq, List.length_append]
  have hstart := hi.append h.wellFormed
  have hstop := hj.append h.wellFormed
  rw [← h.text_eq] at hstart hstop
  rw [range, ← h.length_eq]
  exact Range.covers_of_boundary hstart (by omega) hstop (by omega)

end Document.Marked

end Editor

end UnusedImports
