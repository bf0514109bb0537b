import UnusedImports.Proofs.Lexer.Coverage
import UnusedImports.Proofs.Lexer.Reach

/-! A token starts where a byte is left to read. Only a piece of a template may start at the end of
its text. -/

namespace UnusedImports

namespace Lexer

variable {dialect : Dialect} {lx next : Lexer} {n : Nat}

/-- What is emitted from one lexer to another starts before the end of the text. -/
def StartsInside (lx next : Lexer) : Prop :=
  ∀ t ∈ next.tokens, t ∈ lx.tokens ∨ t.offset < lx.position.offset + lx.rest.length

theorem startsInside_refl (lx : Lexer) : StartsInside lx lx := fun _ ht => .inl ht

theorem startsInside_emit (hne : lx.rest ≠ []) (kind : TokenKind) (n : Nat) :
    StartsInside lx (lx.emit kind n) := by
  intro t ht
  rcases List.mem_cons.mp ht with rfl | ht
  · exact .inr (Nat.lt_add_of_pos_right (List.length_pos_iff.mpr hne))
  · exact .inl ht

/-- What is emitted behind a token starts inside the same text. -/
theorem StartsInside.after_emit {kind : TokenKind} (h : StartsInside (lx.emit kind n) next)
    (hne : lx.rest ≠ []) (hn : n ≤ lx.rest.length) : StartsInside lx next := by
  intro t ht
  rcases h t ht with hmem | hlt
  · exact startsInside_emit hne kind n t hmem
  · rw [Emits.offset_emit, emit_rest, List.length_take, List.length_drop] at hlt
    exact .inr (by omega)

theorem scanTemplate_startsInside {k : Nat} (hne : lx.rest ≠ []) (hk : k ≤ lx.rest.length) :
    StartsInside lx (lx.scanTemplate k) := by
  have hle := Lexeme.templateLength_le (lx.rest.drop k) k
  rw [List.length_drop, Nat.add_sub_cancel' hk] at hle
  unfold scanTemplate
  split
  · next n hlength =>
    rw [hlength] at hle
    simp only [if_true] at hle
    have hmark : (lx.emit .template n).rest ≠ [] := List.ne_nil_of_length_pos <| by
      rw [emit_rest, List.length_drop]
      omega
    exact (startsInside_emit hmark .punctuation 2).after_emit hne (by omega)
  · exact startsInside_emit hne _ _

theorem BraceRule.startsInside (h : BraceRule lx next) (hne : lx.rest ≠ [])
    (hmore : lx.rest.drop 1 ≠ []) : StartsInside lx next := by
  have hbrace := startsInside_emit hne .punctuation 1
  cases h with
  | substitution =>
      have hpiece : StartsInside (lx.emit .punctuation 1).pop
          ((lx.emit .punctuation 1).pop.scanTemplate 0) :=
        scanTemplate_startsInside hmore (Nat.zero_le _)
      exact StartsInside.after_emit hpiece hne (List.length_pos_iff.mpr hne)
  | container => exact hbrace
  | block => exact hbrace

/-- A right brace that comes last may have an empty piece of a template behind it. -/
theorem CodeRule.startsInside (h : CodeRule dialect lx next) (hne : lx.rest ≠ [])
    (hbrace : lx.rest ≠ [Bytes.closeBrace]) : StartsInside lx next := by
  cases h with
  | done => exact startsInside_refl lx
  | template => exact scanTemplate_startsInside hne (List.length_pos_iff.mpr hne)
  | openBrace => exact startsInside_emit hne _ _
  | closeBrace hrest =>
      refine lx.scanCloseBrace_rule.startsInside hne fun hlast => hbrace ?_
      rw [hrest, List.drop_one, List.tail_cons] at hlast
      rw [hrest, hlast]
  | openTag => exact startsInside_emit hne _ _
  | plain => exact startsInside_emit hne _ _

theorem TagRule.startsInside {closing named : Bool} {attributes : Nat}
    (h : TagRule closing named attributes lx next) (hne : lx.rest ≠ []) :
    StartsInside lx next := by
  cases h with
  | done => exact startsInside_refl lx
  | givenUp => exact startsInside_refl lx
  | _ => exact startsInside_emit hne _ _

theorem OpeningRule.startsInside (h : OpeningRule lx next) : StartsInside lx next := by
  cases h with
  | done => exact startsInside_refl lx
  | container hrest => exact startsInside_emit (hrest ▸ List.cons_ne_nil _ _) _ _
  | tag hrest => exact startsInside_emit (hrest ▸ List.cons_ne_nil _ _) _ _

theorem scanChildren_startsInside (hne : lx.rest ≠ []) : StartsInside lx lx.scanChildren := by
  have hopening := lx.scanMarkup.scanOpening_rule.startsInside
  rw [scanChildren_eq]
  rcases lx.scanMarkup_cases with ⟨-, htext⟩ | ⟨-, htext⟩
  · rwa [htext] at hopening ⊢
  · have hle := Lexeme.markupLength_le lx.rest 0
    rw [htext] at hopening ⊢
    exact hopening.after_emit hne (by omega)

/-- A step emits inside the text, unless it reads a right brace that comes last. -/
theorem scan_startsInside (dialect : Dialect) (hne : lx.rest ≠ [])
    (hbrace : lx.rest ≠ [Bytes.closeBrace]) : StartsInside lx (lx.scan dialect) := by
  rcases scan_cases dialect lx with ⟨_, hscan⟩ | ⟨_, _, _, _, hscan⟩ | ⟨_, hscan⟩
  · exact hscan ▸ scanChildren_startsInside hne
  · exact hscan ▸ (scanTag_rule _ _ _ lx).startsInside hne
  · exact hscan ▸ (scanCode_rule dialect lx).startsInside hne hbrace

end Lexer

/-- A token starts before the end of its text, or the text ends with a right brace. -/
theorem offset_lt_or_getLast? {dialect : Dialect} {source : Bytes} {t : Token}
    (ht : t ∈ tokenize dialect source) :
    t.offset < source.length ∨ source.getLast? = some Bytes.closeBrace := by
  obtain ⟨lx, hreads, hne, hnew, hmem, -⟩ := Lexer.exists_scan_of_mem_run
    (Lexer.readsFrom_skipHashbang source) (List.mem_reverse.mp ht) (by simp)
  by_cases hbrace : lx.rest = [Bytes.closeBrace]
  · right
    have hrest := hreads.rest_eq
    rw [hbrace] at hrest
    rw [← List.take_append_drop lx.position.offset source, ← hrest, List.getLast?_concat]
  · left
    rw [← hreads.offset_add]
    exact (Lexer.scan_startsInside dialect hne hbrace t hmem).resolve_left hnew

end UnusedImports
