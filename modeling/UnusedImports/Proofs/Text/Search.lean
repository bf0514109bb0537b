import UnusedImports.Text.Bytes
import Mathlib.Data.List.Infix

/-! A byte that a part of a text lacks is one that no occurrence of the part reaches over. -/

namespace UnusedImports.Bytes

/-- No piece of a split has the byte that the text was split on. -/
theorem notMem_of_mem_splitOn {b : UInt8} {s part : Bytes} (h : part ∈ s.splitOn b) :
    b ∉ part := by
  induction s generalizing part with
  | nil =>
      obtain rfl : part = [] := by simpa using h
      exact List.not_mem_nil
  | cons c s ih =>
      rw [List.splitOn_cons_eq_if_modifyHead] at h
      by_cases hc : c = b
      · rw [if_pos (by simp [hc]), List.mem_cons] at h
        obtain rfl | h := h
        · exact List.not_mem_nil
        · exact ih h
      · rw [if_neg (by simp [hc])] at h
        obtain ⟨first, parts, hparts⟩ :=
          List.exists_cons_of_ne_nil (List.splitOn_ne_nil b s)
        rw [hparts, List.modifyHead_cons, List.mem_cons] at h
        obtain rfl | h := h
        · have hfirst := ih (hparts ▸ List.mem_cons_self)
          simp [Ne.symm hc, hfirst]
        · exact ih (hparts ▸ List.mem_cons_of_mem first h)

/-- A byte that a text does not have ends the search for that text. -/
theorem isPrefixOf_append {b : UInt8} {part : Bytes} (h : b ∉ part) (a x : Bytes) :
    part.isPrefixOf (a ++ b :: x) = part.isPrefixOf a := by
  induction part generalizing a with
  | nil => simp
  | cons p part ih =>
      rw [List.mem_cons, not_or] at h
      obtain ⟨hp, hpart⟩ := h
      cases a with
      | nil => simp [List.isPrefixOf, Ne.symm hp]
      | cons c a => simp [List.isPrefixOf, ih hpart]

theorem find?_go_isSome (part s : Bytes) (n : Nat) :
    (find?.go part s n).isSome = true ↔ part <:+: s := by
  induction s generalizing n with
  | nil => simp [find?.go]
  | cons b s ih =>
      rw [find?.go, List.infix_cons_iff, ← List.isPrefixOf_iff_prefix, ← ih (n + 1)]
      split
      · next h => simp [h]
      · next h => simp [h]

theorem contains_iff (part s : Bytes) : contains part s = true ↔ part <:+: s :=
  find?_go_isSome part s 0

/-- A text that lacks a byte occurs on one side of that byte. -/
theorem infix_append_cons {b : UInt8} {part : Bytes} (h : b ∉ part) (u v : Bytes) :
    part <:+: u ++ b :: v ↔ part <:+: u ∨ part <:+: v := by
  have hfront : ∀ u, part <+: u ++ b :: v → part <+: u := by
    intro u hpre
    rwa [← List.isPrefixOf_iff_prefix, isPrefixOf_append h, List.isPrefixOf_iff_prefix] at hpre
  refine ⟨fun hin => ?_, fun hin => ?_⟩
  · induction u with
    | nil =>
        rcases List.infix_cons_iff.mp hin with hpre | hin
        · exact .inl (hfront [] hpre).isInfix
        · exact .inr hin
    | cons c u ih =>
        rcases List.infix_cons_iff.mp hin with hpre | hin
        · exact .inl (hfront (c :: u) hpre).isInfix
        · exact (ih hin).imp_left List.infix_cons
  · rcases hin with hin | hin
    · exact hin.trans (List.prefix_append u _).isInfix
    · exact hin.trans ((List.suffix_cons b v).trans (List.suffix_append u _)).isInfix

theorem dropStart?_eq_some {part s rest : Bytes} :
    dropStart? part s = some rest ↔ s = part ++ rest := by
  rw [dropStart?, Option.ite_none_right_eq_some, List.isPrefixOf_iff_prefix, Option.some_inj]
  constructor
  · rintro ⟨⟨tail, rfl⟩, rfl⟩
    rw [List.drop_left]
  · rintro rfl
    exact ⟨List.prefix_append part rest, List.drop_left⟩

/-- A text is read up to the first byte that a test refuses. -/
theorem span_append {p : UInt8 → Bool} {a z : Bytes} (ha : ∀ b ∈ a, p b = true)
    (hz : ∀ b ∈ z.head?, p b = false) :
    (a ++ z).takeWhile p = a ∧ (a ++ z).dropWhile p = z := by
  rw [List.takeWhile_append_of_pos ha, List.dropWhile_append_of_pos ha]
  cases z with
  | nil => simp
  | cons b z => simp [hz b rfl]

theorem head?_dropWhile {p : UInt8 → Bool} {s : Bytes} :
    ∀ b ∈ (s.dropWhile p).head?, p b = false := by
  intro b hb
  have h := List.head?_dropWhile_not p s
  rwa [Option.mem_def.mp hb] at h

theorem takeWhile_stop {p : UInt8 → Bool} {b : UInt8} (hb : p b = false) (a z : Bytes) :
    (a ++ b :: z).takeWhile p = a.takeWhile p := by
  induction a with
  | nil => simp [hb]
  | cons c a ih => simp [List.takeWhile_cons, ih]

theorem dropWhile_stop {p : UInt8 → Bool} {b : UInt8} (hb : p b = false) (a z : Bytes) :
    (a ++ b :: z).dropWhile p = a.dropWhile p ++ b :: z := by
  induction a with
  | nil => simp [hb]
  | cons c a ih =>
      simp only [List.cons_append, List.dropWhile_cons, ih]
      split <;> rfl

end UnusedImports.Bytes
