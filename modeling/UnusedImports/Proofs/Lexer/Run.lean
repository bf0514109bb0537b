import UnusedImports.Source.Lexer
import Mathlib.Logic.Relation

namespace UnusedImports.Lexer

theorem run_of_rest_eq_nil {dialect : Dialect} {lx : Lexer} (h : lx.settle.rest = []) :
    lx.run dialect = lx.settle := by
  rw [run, if_pos h]

theorem run_of_rest_ne_nil {dialect : Dialect} {lx : Lexer} (h : lx.settle.rest ≠ []) :
    lx.run dialect = (lx.settle.scan dialect).run dialect := by
  rw [run, if_neg h]

/-! ### Settling -/

theorem settle_of_not_children {lx : Lexer} (h : lx.frames.head? ≠ some .children) :
    lx.settle = lx.skip (Lexeme.triviaLength lx.rest 0) := by
  unfold settle
  split
  · next hframes => exact absurd (by rw [hframes]; rfl) h
  · rfl

theorem settle_of_children {lx : Lexer} (h : lx.frames.head? = some .children) :
    lx.settle = lx := by
  unfold settle
  split
  · rfl
  · next hnot =>
    obtain ⟨fs, hfs⟩ := List.head?_eq_some_iff.mp h
    exact absurd hfs (hnot fs)

/-! ### Modes -/

/-- A lexer that is neither in a tag nor in the text of an element. -/
structure InCode (lx : Lexer) : Prop where
  not_children : lx.frames.head? ≠ some .children
  not_tag : ∀ closing named attributes, lx.frames.head? ≠ some (.tag closing named attributes)

theorem InCode.congr {lx twin : Lexer} (h : lx.InCode) (hframes : twin.frames = lx.frames) :
    twin.InCode :=
  ⟨by rw [hframes]; exact h.not_children, by rw [hframes]; exact h.not_tag⟩

theorem scan_of_children {dialect : Dialect} {lx : Lexer}
    (h : lx.frames.head? = some .children) : lx.scan dialect = lx.scanChildren := by
  obtain ⟨fs, hframes⟩ := List.head?_eq_some_iff.mp h
  unfold scan
  rw [hframes]

theorem scan_of_tag {dialect : Dialect} {lx : Lexer} {closing named : Bool} {attributes : Nat}
    (h : lx.frames.head? = some (.tag closing named attributes)) :
    lx.scan dialect = lx.scanTag closing named attributes := by
  obtain ⟨fs, hframes⟩ := List.head?_eq_some_iff.mp h
  unfold scan
  rw [hframes]

theorem InCode.scan_eq {lx : Lexer} (h : lx.InCode) (dialect : Dialect) :
    lx.scan dialect = lx.scanCode dialect := by
  unfold scan
  split
  · next hframes => exact absurd (by rw [hframes]; rfl) h.not_children
  · next hframes => exact absurd (by rw [hframes]; rfl) (h.not_tag _ _ _)
  · rfl

/-- The mode in which a step reads on. -/
theorem scan_cases (dialect : Dialect) (lx : Lexer) :
    (lx.frames.head? = some .children ∧ lx.scan dialect = lx.scanChildren) ∨
      (∃ closing named attributes, lx.frames.head? = some (.tag closing named attributes) ∧
        lx.scan dialect = lx.scanTag closing named attributes) ∨
      (lx.InCode ∧ lx.scan dialect = lx.scanCode dialect) := by
  by_cases hchildren : lx.frames.head? = some .children
  · exact .inl ⟨hchildren, scan_of_children hchildren⟩
  · by_cases htag : ∃ closing named attributes,
        lx.frames.head? = some (.tag closing named attributes)
    · obtain ⟨_, _, _, htag⟩ := htag
      exact .inr (.inl ⟨_, _, _, htag, scan_of_tag htag⟩)
    · have hcode : lx.InCode := ⟨hchildren, fun _ _ _ h => htag ⟨_, _, _, h⟩⟩
      exact .inr (.inr ⟨hcode, hcode.scan_eq dialect⟩)

/-! ### Whole runs -/

/-- A round of a run: blanks are passed over, and a step is taken. -/
def Round (dialect : Dialect) (lx next : Lexer) : Prop :=
  lx.settle.rest ≠ [] ∧ lx.settle.scan dialect = next

theorem run_of_rounds {dialect : Dialect} {lx next : Lexer}
    (h : Relation.ReflTransGen (Round dialect) lx next) : next.run dialect = lx.run dialect := by
  induction h with
  | refl => rfl
  | tail _ hround ih => rw [← ih, run_of_rest_ne_nil hround.1, hround.2]

/-- What settling keeps, and reading on at a byte keeps, is kept by rounds. -/
theorem rounds_preserve {P : Lexer → Prop} {dialect : Dialect}
    (hsettle : ∀ lx, P lx → P lx.settle)
    (hscan : ∀ lx, lx.rest ≠ [] → P lx → P (lx.scan dialect)) {lx next : Lexer}
    (hrounds : Relation.ReflTransGen (Round dialect) lx next) (h : P lx) : P next := by
  induction hrounds with
  | refl => exact h
  | tail _ hround ih => exact hround.2 ▸ hscan _ hround.1 (hsettle _ ih)

/-- A run reads the whole text. -/
theorem run_rest (dialect : Dialect) (lx : Lexer) : (lx.run dialect).rest = [] := by
  fun_induction run dialect lx with
  | case1 lx h => exact h
  | case2 lx h ih => exact ih

/-- What settling keeps, and reading on at a byte keeps, holds at the end of a run. -/
theorem run_preserves {P : Lexer → Prop} {dialect : Dialect}
    (hsettle : ∀ lx, P lx → P lx.settle)
    (hscan : ∀ lx, lx.rest ≠ [] → P lx → P (lx.scan dialect)) {lx : Lexer} (h : P lx) :
    P (lx.run dialect) := by
  fun_induction run dialect lx with
  | case1 lx _ => exact hsettle lx h
  | case2 lx hne ih => exact ih (hscan _ hne (hsettle lx h))

end UnusedImports.Lexer
