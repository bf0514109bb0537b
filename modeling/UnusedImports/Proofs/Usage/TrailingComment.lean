import UnusedImports.Proofs.Lexer.Comment
import UnusedImports.Proofs.Lexer.Element
import UnusedImports.Proofs.Lexer.Place
import UnusedImports.Source.Usage

/-! The lexer moves over a comment as it does over spaces. What may still see the comment is what
reads ahead: a regular expression tried on the same line, and the search for the end of an element.
-/

namespace UnusedImports

/-! ### Semicolons are read in code -/

namespace Lexer

/-- One lexer has no semicolon that another has not. -/
def Silent (lx next : Lexer) : Prop :=
  ∀ t ∈ next.tokens, t.isPunctuator ";" = true → t ∈ lx.tokens

namespace Silent

variable {lx next : Lexer}

theorem refl (lx : Lexer) : Silent lx lx := fun _ ht _ => ht

theorem emit (h : Silent lx next) (kind : TokenKind) (n : Nat)
    (hother : kind ≠ .punctuation ∨ next.rest.head? ≠ some ';'.toUInt8) :
    Silent lx (next.emit kind n) := by
  intro t ht hmark
  rcases List.mem_cons.mp ht with rfl | ht
  · simp only [Token.isPunctuator, Bool.and_eq_true, beq_iff_eq] at hmark
    obtain ⟨rfl, htext⟩ := hmark
    refine absurd ?_ (hother.resolve_left (by simp))
    have hhead := congrArg List.head? htext
    cases n with
    | zero => cases hhead
    | succ n => rwa [List.head?_take, if_neg (Nat.succ_ne_zero n)] at hhead
  · exact h t ht hmark

theorem scanTemplate (h : Silent lx next) (k : Nat) : Silent lx (next.scanTemplate k) := by
  have hpiece : ∀ n, Silent lx (next.emit .template n) := fun n => h.emit .template n (.inl nofun)
  unfold Lexer.scanTemplate
  split
  · next n hlength =>
    obtain ⟨hle, rest, hrest⟩ := Lexeme.drop_templateLength hlength
    rw [List.drop_drop, Nat.add_sub_cancel' hle] at hrest
    refine (hpiece n).emit .punctuation 2 (.inr ?_)
    rw [emit_rest, hrest]
    exact fun hhead => absurd (Option.some.inj hhead) (by decide)
  · exact hpiece _

theorem scanOpenTag (h : Silent lx next) (hhead : next.rest.head? ≠ some ';'.toUInt8) :
    Silent lx next.scanOpenTag := h.emit _ _ (.inr hhead)

/-- A token that starts with something else than a semicolon. -/
theorem of_emit {b : UInt8} {s : Bytes} (hrest : lx.rest = b :: s) (hb : b ≠ ';'.toUInt8)
    (kind : TokenKind) (n : Nat) : Silent lx (lx.emit kind n) :=
  (refl lx).emit kind n (.inr (by simpa [hrest] using hb))

theorem of_braceRule {s : Bytes} (hrule : BraceRule lx next)
    (hrest : lx.rest = Bytes.closeBrace :: s) : Silent lx next := by
  have hbrace := of_emit hrest (by decide) .punctuation 1
  cases hrule with
  | substitution =>
      have hpop : Silent lx (lx.emit .punctuation 1).pop := hbrace
      exact hpop.scanTemplate 0
  | container => exact hbrace
  | block => exact hbrace

theorem of_tagRule {closing named : Bool} {attributes : Nat}
    (hrule : TagRule closing named attributes lx next) : Silent lx next := by
  have hname : ∀ n, Silent lx (lx.emit .identifier n) := fun n =>
    (refl lx).emit .identifier n (.inl nofun)
  cases hrule with
  | done => exact refl lx
  | opened hrest => exact of_emit hrest (by decide) _ _
  | closed hrest => exact of_emit hrest (by decide) _ _
  | stray hrest => exact of_emit hrest (by decide) _ _
  | closesItself hrest => exact of_emit hrest (by decide) _ _
  | container hrest => exact of_emit hrest (by decide) _ _
  | quoted => exact (refl lx).emit .string _ (.inl nofun)
  | joint hrest hjoint =>
      refine of_emit hrest ?_ _ _
      rcases hjoint with rfl | rfl | rfl <;> decide
  | tagName => exact hname _
  | constraint => exact hname _
  | attributeName => exact hname _
  | givenUp => exact refl lx

theorem scanMarkup (lx : Lexer) : Silent lx lx.scanMarkup := by
  rcases lx.scanMarkup_cases with ⟨-, htext⟩ | ⟨-, htext⟩
  · rw [htext]
    exact refl lx
  · rw [htext]
    exact (refl lx).emit .markupText _ (.inl nofun)

theorem openingRule (h : Silent lx next) {last : Lexer} (hrule : OpeningRule next last)
    (hhead : next.rest.head? ≠ some ';'.toUInt8) : Silent lx last := by
  cases hrule with
  | done => exact h
  | container => exact h.emit .punctuation 1 (.inr hhead)
  | tag => exact h.scanOpenTag hhead

theorem scanChildren (lx : Lexer) : Silent lx lx.scanChildren := by
  refine (scanMarkup lx).openingRule lx.scanMarkup.scanOpening_rule fun hhead => ?_
  obtain ⟨s, hs⟩ := List.head?_eq_some_iff.mp hhead
  rw [scanMarkup_rest] at hs
  rcases Lexeme.opens_of_markupLength (n := 0) hs with hb | ⟨hb, -⟩
  · exact absurd hb (by decide)
  · exact absurd hb (by decide)

end Silent

/-- Code has two kinds of steps: those that read no semicolon, and those that emit one token. -/
theorem CodeRule.silent_or {dialect : Dialect} {lx next : Lexer} (h : CodeRule dialect lx next) :
    Silent lx next ∨ ∃ kind n, next = lx.emit kind n := by
  cases h with
  | done => exact .inl (.refl lx)
  | template => exact .inl ((Silent.refl lx).scanTemplate 1)
  | openBrace hrest => exact .inl (Silent.of_emit hrest (by decide) _ _)
  | closeBrace hrest => exact .inl (.of_braceRule lx.scanCloseBrace_rule hrest)
  | openTag hrest =>
      exact .inl ((Silent.refl lx).scanOpenTag (by rw [hrest, List.head?_cons]; decide))
  | plain => exact .inr ⟨_, _, rfl⟩

/-- A step that reads a semicolon reads it in code, and nothing behind it. -/
theorem scan_semicolon {dialect : Dialect} {lx : Lexer} {t : Token}
    (ht : t ∈ (lx.scan dialect).tokens) (hnew : t ∉ lx.tokens)
    (hmark : t.isPunctuator ";" = true) :
    (lx.scan dialect).position.offset = t.offset + 1 ∧
      (lx.scan dialect).frames.head? ≠ some .children := by
  have hloud : ¬ Silent lx (lx.scan dialect) := fun h => hnew (h t ht hmark)
  rcases scan_cases dialect lx with
    ⟨-, hscan⟩ | ⟨closing, named, attributes, -, hscan⟩ | ⟨hcode, hscan⟩
  · exact absurd (hscan ▸ Silent.scanChildren lx) hloud
  · exact absurd (hscan ▸ .of_tagRule (scanTag_rule closing named attributes lx)) hloud
  · rw [hscan] at ht hloud ⊢
    obtain ⟨kind, n, hemit⟩ := (scanCode_rule dialect lx).silent_or.resolve_left hloud
    rw [hemit] at ht ⊢
    refine ⟨?_, hcode.not_children⟩
    obtain rfl := (List.mem_cons.mp ht).resolve_right hnew
    have htext : lx.rest.take n = utf8 ";" := by
      simp only [Token.isPunctuator, Bool.and_eq_true, beq_iff_eq] at hmark
      exact hmark.2
    rw [Emits.offset_emit, htext]
    rfl

end Lexer

/-- No token starts or goes on in the trivia behind a semicolon. -/
theorem tokenize_apart_semicolon {dialect : Dialect} {source : Bytes} {t u : Token}
    (ht : t ∈ tokenize dialect source) (hmark : t.isPunctuator ";" = true)
    (hu : u ∈ tokenize dialect source) :
    u.offset + u.text.length ≤ t.offset + 1 ∨
      t.offset + 1 + Lexeme.triviaLength (source.drop (t.offset + 1)) 0 ≤ u.offset := by
  rw [tokenize, List.mem_reverse] at ht hu
  obtain ⟨lx, hreads, hne, hnew, hscan, hrun⟩ := Lexer.exists_scan_of_mem_run
    (Lexer.readsFrom_skipHashbang source) ht (by simp)
  obtain ⟨hoffset, hcode⟩ := Lexer.scan_semicolon hscan hnew hmark
  obtain ⟨front, hsource, hposition, hwritten⟩ := hreads.scan hne dialect
  have hlength : front.length = t.offset + 1 := by
    rw [← hoffset, hposition, Position.advance_start]
  have hdrop : source.drop (t.offset + 1) = (lx.scan dialect).rest := by
    rw [hsource, ← hlength, List.drop_left]
  rw [← hrun] at hu
  rcases Lexer.le_offset_of_mem_run hu with hu | hle
  · have := (hwritten.placed u hu).inside
    exact .inl (by omega)
  · obtain ⟨k, hk, hrest, -⟩ := Lexeme.triviaLength_spec (lx.scan dialect).rest 0
    have := Lexer.le_offset_settle hcode (Nat.le_of_eq rfl) (by omega)
    rw [hdrop]
    exact .inr (by omega)

/-! ### Spaces behind a semicolon -/

/-- Spaces that reach from a semicolon to the end of its line. -/
structure TrailingSpaces (dialect : Dialect) (front : Bytes) (n : Nat) (back : Bytes) : Prop where
  semicolon : ∃ t ∈ tokenize dialect (front ++ (List.replicate n 0x20 ++ back)),
    t.isPunctuator ";" = true ∧ t.offset + 1 = front.length
  endsLine : EndsLine back

theorem trivia_spaces (n : Nat) (rest : Bytes) : Trivia (List.replicate n 0x20) rest := by
  have hblanked : blanked (List.replicate n 0x20) = List.replicate n 0x20 := by
    simp [blanked]
  exact hblanked ▸ trivia_blanked (List.replicate n 0x20) rest

namespace TrailingSpaces

variable {dialect : Dialect} {front back : Bytes} {n : Nat}

/-- What is before the spaces ends with the semicolon. -/
theorem getLast_front (h : TrailingSpaces dialect front n back) :
    front.getLast? = some ';'.toUInt8 := by
  obtain ⟨t, ht, hmark, hend⟩ := h.semicolon
  obtain rfl | ⟨a, b, rfl⟩ := List.eq_nil_or_concat front
  · simp at hend
  · have htext := (placed_of_mem_tokenize ht).text_eq
    simp only [Token.isPunctuator, Bool.and_eq_true, beq_iff_eq] at hmark
    have hlength : t.offset = a.length := by simpa using hend
    rw [hmark.2, hlength, List.concat_eq_append, List.append_assoc, List.drop_left] at htext
    have hb : ';'.toUInt8 = b := (List.cons.inj htext).1
    rw [List.concat_eq_append, List.getLast?_concat, hb]

theorem liesInGap (h : TrailingSpaces dialect front n back) :
    LiesInGap dialect front (List.replicate n 0x20) back front.length := by
  obtain ⟨t, ht, hmark, hend⟩ := h.semicolon
  refine .of_apart (Nat.le_refl _) (.inr ⟨t, ht, ?_⟩) ?_ (.inl ?_)
  · simp only [Token.isPunctuator, Bool.and_eq_true, beq_iff_eq] at hmark
    have hone : (utf8 ";").length = 1 := rfl
    rw [Token.Covers, hmark.2]
    omega
  · intro u hu
    rw [List.length_replicate, ← hend]
    refine (tokenize_apart_semicolon ht hmark hu).imp_right fun hle => ?_
    rw [hend, List.drop_left, Lexeme.triviaLength_append (trivia_spaces n back),
      List.length_replicate] at hle
    omega
  · rw [List.drop_length]
    exact .nil _

end TrailingSpaces

/-- A line break that is not escaped ends the search for a regular expression, whatever follows. -/
theorem Lexeme.regexLength?_of_newline {u v x y : Bytes} (hu : u.getLast? ≠ some Bytes.backslash)
    {bracketed : Bool} {n : Nat}
    (h : regexLength? (u ++ Bytes.newline :: (v ++ x)) bracketed n = none) :
    regexLength? (u ++ Bytes.newline :: (v ++ y)) bracketed n = none := by
  obtain ⟨-, -, hlast⟩ := regexFront_spec u bracketed n
  rw [regexLength?_append _ _ _ _ _ rfl] at h ⊢
  cases hfront : regexFront u bracketed n with
  | ended result =>
      rw [hfront] at h
      exact h
  | inside open? => exact regexLength?_of_endsLine (.inr rfl) _ _
  | escaping open? => exact absurd (hlast open? hfront) hu

theorem map_newline_of_notMem {s : Bytes} (h : Bytes.newline ∉ s) :
    s.map (· == Bytes.newline) = List.replicate s.length false := by
  rw [List.eq_replicate_iff]
  refine ⟨List.length_map _, fun b hb => ?_⟩
  obtain ⟨c, hc, rfl⟩ := List.mem_map.mp hb
  exact beq_eq_false_iff_ne.mpr fun heq => h (heq ▸ hc)

/-! ### The result -/

/-- Spaces from a semicolon to the end of its line may be replaced by a comment of the same length
without a change to the analysis. The comment must have no `>`, and a slash that was tried as the
start of a regular expression must be on an earlier line. -/
theorem analyze_trailing_comment {path front text back : Bytes}
    (hpath : Dialect.ofPath path = .assertions)
    (h : TrailingSpaces .assertions front (text.length + 2) back) (hbreak : Bytes.newline ∉ text)
    (hclose : '>'.toUInt8 ∉ text)
    (htried : ∀ t, Tried (tokenize .assertions
        (front ++ (List.replicate (text.length + 2) 0x20 ++ back))) t → t.offset < front.length →
      ∃ u v, front.drop t.offset = u ++ Bytes.newline :: v ∧ u.getLast? ≠ some Bytes.backslash) :
    analyze path (front ++ (utf8 "//" ++ text ++ back)) =
      analyze path (front ++ (List.replicate (text.length + 2) 0x20 ++ back)) := by
  have htokens : tokenize .assertions (front ++ (utf8 "//" ++ text ++ back)) =
      tokenize .assertions (front ++ (List.replicate (text.length + 2) 0x20 ++ back)) := by
    have hlast := h.getLast_front
    refine tokenize_interchange ⟨trivia_spaces _ back, (Comment.line hbreak h.endsLine).trivia, ?_,
      ⟨0x20, rfl, .inl rfl, by decide⟩, ⟨Bytes.slash, rfl, .inr (.inl rfl), ?_⟩, ?_, ?_⟩ h.liesInGap
    · have hslashes : Bytes.newline ∉ utf8 "//" ++ text := by
        rw [List.mem_append, not_or]
        exact ⟨by decide, hbreak⟩
      have htwo : (utf8 "//").length = 2 := rfl
      rw [map_newline_of_notMem hslashes, List.map_replicate, List.length_append, htwo,
        Nat.add_comm 2]
      rfl
    · rintro ⟨a, rfl⟩
      rw [List.getLast?_concat] at hlast
      exact absurd (Option.some.inj hlast) (by decide)
    · intro t ht a ha hnone
      have hlt : t.offset < front.length := by
        by_contra hge
        rw [List.drop_eq_nil_of_le (by omega)] at ha
        cases ha
      obtain ⟨u, v, huv, hescape⟩ := htried t ht hlt
      rw [ha] at huv
      cases u with
      | nil => exact absurd (List.cons.inj huv).1 (by decide)
      | cons p u =>
          rw [List.cons_append] at huv
          obtain ⟨rfl, rfl⟩ := List.cons.inj huv
          simp only [List.append_assoc, List.cons_append] at hnone ⊢
          refine Lexeme.regexLength?_of_newline (fun hu => hescape ?_) hnone
          rw [List.getLast?_cons, hu]
          rfl
    · rintro - a ⟨l, rfl⟩
      obtain rfl | ⟨a, b, rfl⟩ := List.eq_nil_or_concat a
      · rw [List.getLast?_concat] at hlast
        exact absurd (Option.some.inj hlast) (by decide)
      · have hb : b = ';'.toUInt8 := by
          rw [List.concat_eq_append, ← List.cons_append, ← List.append_assoc,
            List.getLast?_concat] at hlast
          exact Option.some.inj hlast
        have hspaces : '>'.toUInt8 ∉ List.replicate (text.length + 2) 0x20 := fun hmem =>
          absurd (List.eq_of_mem_replicate hmem) (by decide)
        have hcomment : '>'.toUInt8 ∉ utf8 "//" ++ text := by
          rw [List.mem_append, not_or]
          exact ⟨by decide, hclose⟩
        have hsplit : ∀ rest, a.concat b ++ rest = a ++ ';'.toUInt8 :: rest := fun rest => by
          rw [List.concat_eq_append, hb, List.append_assoc]
          rfl
        rw [hsplit, hsplit]
        exact (Lexer.closedLater_append a hcomment h.endsLine).trans
          (Lexer.closedLater_append a hspaces h.endsLine).symm
  simp only [analyze, hpath, htokens]

set_option maxRecDepth 4000 in
/-- A closing tag that the comment does not finish leaves a type assertion one. -/
theorem analyze_trailing_comment_assertion :
    Dialect.ofPath (utf8 "a.ts") = .assertions ∧
      TrailingSpaces .assertions (utf8 "=/\n<F>y;") 6 [] ∧
      analyze (utf8 "a.ts") (utf8 "=/\n<F>y;" ++ (utf8 "//" ++ utf8 " </F" ++ [])) =
        analyze (utf8 "a.ts") (utf8 "=/\n<F>y;" ++ (List.replicate 6 0x20 ++ [])) := by
  have hpath : Dialect.ofPath (utf8 "a.ts") = .assertions := by cbv
  have htokens : tokenize .assertions (utf8 "=/\n<F>y;" ++ (List.replicate 6 0x20 ++ [])) =
      [⟨⟨0, 1, 1⟩, .punctuation, utf8 "="⟩, ⟨⟨1, 1, 2⟩, .punctuation, utf8 "/"⟩,
        ⟨⟨3, 2, 1⟩, .punctuation, utf8 "<"⟩, ⟨⟨4, 2, 2⟩, .identifier, utf8 "F"⟩,
        ⟨⟨5, 2, 3⟩, .punctuation, utf8 ">"⟩, ⟨⟨6, 2, 4⟩, .identifier, utf8 "y"⟩,
        ⟨⟨7, 2, 5⟩, .punctuation, utf8 ";"⟩] := by cbv
  have hspaces : TrailingSpaces .assertions (utf8 "=/\n<F>y;") 6 [] := by
    refine ⟨?_, .inl rfl⟩
    rw [htokens]
    decide
  refine ⟨hpath, hspaces,
    analyze_trailing_comment hpath hspaces (by decide) (by decide) fun t ht _ => ?_⟩
  obtain ⟨before, after, hsplit, hslash, -⟩ := ht
  have hmem : t ∈ before ++ t :: after := by simp
  have honly : ∀ u ∈ tokenize .assertions (utf8 "=/\n<F>y;" ++ (List.replicate 6 0x20 ++ [])),
      u.isPunctuator "/" = true → u.offset = 1 := by
    rw [htokens]
    decide
  rw [honly t (hsplit ▸ hmem) hslash]
  exact ⟨utf8 "/", utf8 "<F>y;", rfl, by decide⟩

set_option maxRecDepth 8000 in
/-- A closing tag in a comment makes an element of the text up to it, and hides a word in that
text. -/
theorem analyze_trailing_comment_closes :
    Dialect.ofPath (utf8 "a.ts") = .assertions ∧
      TrailingSpaces .assertions (utf8 "import B from \"b\";\nlet x = <>B;") 6 [] ∧
      Bytes.newline ∉ utf8 " </>" ∧
      (analyze (utf8 "a.ts") (utf8 "import B from \"b\";\nlet x = <>B;" ++
        (utf8 "//" ++ utf8 " </>" ++ []))).unused ≠
      (analyze (utf8 "a.ts") (utf8 "import B from \"b\";\nlet x = <>B;" ++
        (List.replicate 6 0x20 ++ []))).unused := by
  have hcomment : (analyze (utf8 "a.ts") (utf8 "import B from \"b\";\nlet x = <>B;" ++
      (utf8 "//" ++ utf8 " </>" ++ []))).unused.map (·.name) = [utf8 "B"] := by cbv
  have hspaces : (analyze (utf8 "a.ts") (utf8 "import B from \"b\";\nlet x = <>B;" ++
      (List.replicate 6 0x20 ++ []))).unused = [] := by cbv
  have hsemicolon : (tokenize .assertions (utf8 "import B from \"b\";\nlet x = <>B;" ++
      (List.replicate 6 0x20 ++ []))).getLast? =
        some ⟨⟨30, 2, 12⟩, .punctuation, utf8 ";"⟩ := by cbv
  refine ⟨by cbv, ⟨⟨_, List.mem_of_getLast? hsemicolon, by decide, rfl⟩, .inl rfl⟩, by decide, ?_⟩
  intro heq
  rw [heq, hspaces] at hcomment
  cases hcomment

end UnusedImports
