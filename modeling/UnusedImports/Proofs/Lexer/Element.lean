import UnusedImports.Proofs.Lexer.Reach
import UnusedImports.Proofs.Text.Search

/-! The search for the end of an element reads all of the text, but only a `>` can make it succeed.
-/

namespace UnusedImports

namespace Lexer

/-! ### The closing tag -/

def closingTag (name : Bytes) : Bytes := utf8 "</" ++ name ++ utf8 ">"

theorem notMem_closingTag {name : Bytes} {b : UInt8} (hname : name.all isTagByte = true)
    (hb : isTagByte b = false) (hmarks : b ∉ utf8 "</>") : b ∉ closingTag name := by
  have hparts : b ∉ utf8 "</" ∧ b ∉ utf8 ">" := by
    have hsplit : utf8 "</>" = utf8 "</" ++ utf8 ">" := rfl
    rwa [hsplit, List.mem_append, not_or] at hmarks
  rw [closingTag, List.mem_append, List.mem_append, not_or, not_or]
  refine ⟨⟨hparts.1, fun hmem => ?_⟩, hparts.2⟩
  rw [List.all_eq_true.mp hname b hmem] at hb
  cases hb

theorem mem_closingTag (name : Bytes) : '>'.toUInt8 ∈ closingTag name :=
  List.mem_append_right _ (by decide)

theorem isTagByte_newline : isTagByte Bytes.newline = false := by decide

/-- A text without `>` has no part in a closing tag, if a line ends behind it. -/
theorem closingTag_infix_append {name part rest : Bytes} (hname : name.all isTagByte = true)
    (hpart : '>'.toUInt8 ∉ part) (hrest : EndsLine rest) :
    closingTag name <:+: part ++ rest ↔ closingTag name <:+: rest := by
  have hno : ¬ closingTag name <:+: part := fun hin =>
    hpart (hin.subset (mem_closingTag name))
  have hempty : ¬ closingTag name <:+: [] := fun hin => nomatch hin.subset (mem_closingTag name)
  rcases hrest with rfl | hhead
  · rw [List.append_nil]
    exact iff_of_false hno hempty
  · obtain ⟨s, rfl⟩ := List.head?_eq_some_iff.mp hhead
    have hbreak := notMem_closingTag hname isTagByte_newline (by decide)
    have hline := Bytes.infix_append_cons hbreak [] s
    rw [List.nil_append] at hline
    rw [Bytes.infix_append_cons hbreak, hline, or_iff_right hno, or_iff_right hempty]

/-! ### The end of the opening tag -/

/-- Tests whether the first `>` of a text comes right behind a slash. -/
def closesItself (s : Bytes) : Bool :=
  let head := s.takeWhile (· != '>'.toUInt8)
  head.length < s.length && head.getLast? == some Bytes.slash

theorem closedLater_eq (s : Bytes) :
    closedLater s = (closesItself (s.dropWhile isTagByte) ||
      Bytes.contains (closingTag (s.takeWhile isTagByte)) (s.dropWhile isTagByte)) := rfl

theorem forall_ne_of_notMem {s : Bytes} (h : '>'.toUInt8 ∉ s) :
    ∀ b ∈ s, (b != '>'.toUInt8) = true := by
  intro b hb
  rw [bne_iff_ne]
  rintro rfl
  exact h hb

theorem closesItself_cons {front : Bytes} (h : '>'.toUInt8 ∉ front) (rest : Bytes) :
    closesItself (front ++ '>'.toUInt8 :: rest) = (front.getLast? == some Bytes.slash) := by
  unfold closesItself
  rw [List.takeWhile_append_of_pos (forall_ne_of_notMem h)]
  simp

theorem closesItself_of_notMem {s : Bytes} (h : '>'.toUInt8 ∉ s) : closesItself s = false := by
  have hhead : (s ++ []).takeWhile (· != '>'.toUInt8) = s ++ [].takeWhile (· != '>'.toUInt8) :=
    List.takeWhile_append_of_pos (forall_ne_of_notMem h)
  rw [List.takeWhile_nil, List.append_nil] at hhead
  unfold closesItself
  rw [hhead]
  simp

/-- A front with a `>` decides, and one without does not matter, if what follows it does not start
with one. -/
theorem closesItself_append (front : Bytes) {rest : Bytes}
    (hrest : rest.head? ≠ some '>'.toUInt8) :
    closesItself (front ++ rest) =
      if '>'.toUInt8 ∈ front then closesItself front else closesItself rest := by
  split
  · next h =>
    obtain ⟨u, v, rfl, hu⟩ := List.eq_append_cons_of_mem h
    rw [List.append_assoc, List.cons_append, closesItself_cons hu, closesItself_cons hu]
  · next h =>
    by_cases hmem : '>'.toUInt8 ∈ rest
    · obtain ⟨u, v, rfl, hu⟩ := List.eq_append_cons_of_mem hmem
      have hne : u ≠ [] := by
        rintro rfl
        exact hrest rfl
      rw [← List.append_assoc, closesItself_cons (by simp [h, hu]), closesItself_cons hu,
        List.getLast?_append, List.getLast?_eq_some_getLast hne, Option.some_or]
    · rw [closesItself_of_notMem hmem, closesItself_of_notMem (by simp [h, hmem])]

/-! ### Both together -/

/-- What stands between a semicolon and the end of its line does not matter, if it has no `>`. -/
theorem closedLater_append (a : Bytes) {part rest : Bytes} (hpart : '>'.toUInt8 ∉ part)
    (hrest : EndsLine rest) :
    closedLater (a ++ ';'.toUInt8 :: (part ++ rest)) =
      closedLater (a ++ ';'.toUInt8 :: rest) := by
  have hstop : isTagByte ';'.toUInt8 = false := by decide
  have hhead : rest.head? ≠ some '>'.toUInt8 := by
    rcases hrest with rfl | hhead
    · exact nofun
    · rw [hhead]
      decide
  have hself :
      closesItself (';'.toUInt8 :: (part ++ rest)) = closesItself (';'.toUInt8 :: rest) := by
    have hlong := closesItself_append (';'.toUInt8 :: part) hhead
    have hshort := closesItself_append [';'.toUInt8] hhead
    rw [if_neg (by rw [List.mem_cons, not_or]; exact ⟨by decide, hpart⟩)] at hlong
    exact hlong.trans hshort.symm
  have hname : (a.takeWhile isTagByte).all isTagByte = true := List.all_takeWhile
  have hmark := notMem_closingTag hname hstop (by decide)
  have hsearch : Bytes.contains (closingTag (a.takeWhile isTagByte))
        (a.dropWhile isTagByte ++ ';'.toUInt8 :: (part ++ rest)) =
      Bytes.contains (closingTag (a.takeWhile isTagByte))
        (a.dropWhile isTagByte ++ ';'.toUInt8 :: rest) := by
    rw [Bool.eq_iff_iff, Bytes.contains_iff, Bytes.contains_iff, Bytes.infix_append_cons hmark,
      Bytes.infix_append_cons hmark, closingTag_infix_append hname hpart hrest]
  have hmarks : ∀ z : Bytes, (';'.toUInt8 :: z).head? ≠ some '>'.toUInt8 := fun z => by
    rw [List.head?_cons]
    decide
  rw [closedLater_eq, closedLater_eq, Bytes.takeWhile_stop hstop, Bytes.takeWhile_stop hstop,
    Bytes.dropWhile_stop hstop, Bytes.dropWhile_stop hstop, hsearch,
    closesItself_append _ (hmarks _), closesItself_append _ (hmarks _), hself]

end Lexer

end UnusedImports
