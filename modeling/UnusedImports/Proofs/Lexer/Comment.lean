import UnusedImports.Proofs.Lexer.Exchange
import Mathlib

/-! A comment can be made blank without a change to any token, unless a backslash right before it
hides the slash that it starts with. -/

namespace UnusedImports

/-! ### Comments -/

/-- A comment, given the text after it. -/
inductive Comment : Bytes → Bytes → Prop where
  | line {text rest} : Bytes.newline ∉ text → EndsLine rest → Comment (utf8 "//" ++ text) rest
  | block {text rest} : ¬ utf8 "*/" <:+: text ++ utf8 "*" →
      Comment (utf8 "/*" ++ text ++ utf8 "*/") rest
  | unclosed {text} : ¬ utf8 "*/" <:+: text → Comment (utf8 "/*" ++ text) []

/-- Makes a text blank, its line breaks apart. -/
def blanked (s : Bytes) : Bytes := s.map fun b => if b == Bytes.newline then b else 0x20

namespace Comment

variable {comment rest : Bytes}

theorem trivia (h : Comment comment rest) : Trivia comment rest := by
  cases h with
  | line htext hend => simpa using Trivia.lineComment htext (by simpa using hend) (.nil rest)
  | block htext => simpa using Trivia.blockComment htext (.nil rest)
  | unclosed htext => exact .openComment htext

theorem head (h : Comment comment rest) : ∃ s, comment = Bytes.slash :: s ∧ s ≠ [] := by
  cases h with
  | @line text rest => exact ⟨Bytes.slash :: text, rfl, by simp⟩
  | @block text rest => exact ⟨'*'.toUInt8 :: text ++ utf8 "*/", rfl, by simp⟩
  | @unclosed text => exact ⟨'*'.toUInt8 :: text, rfl, by simp⟩

/-- A comment that its closing does not end is ended by its line or by the text. -/
theorem block_or_endsLine (h : Comment comment rest) :
    (∃ text, comment = utf8 "/*" ++ text ++ utf8 "*/") ∨ EndsLine rest := by
  cases h with
  | line _ hend => exact .inr hend
  | block => exact .inl ⟨_, rfl⟩
  | unclosed => exact .inr (.inl rfl)

end Comment

theorem map_blanked (s : Bytes) :
    (blanked s).map (· == Bytes.newline) = s.map (· == Bytes.newline) := by
  rw [blanked, List.map_map]
  refine List.map_congr_left fun b _ => ?_
  by_cases hb : b = Bytes.newline
  · simp [hb]
  · simp [hb]
    decide

theorem trivia_blanked (s rest : Bytes) : Trivia (blanked s) rest := by
  induction s with
  | nil => exact .nil rest
  | cons b s ih =>
      by_cases hb : b = Bytes.newline
      · subst hb
        exact .blank (c := 0x0a) (by decide) ih
      · have hcons : blanked (b :: s) = 0x20 :: blanked s := by simp [blanked, hb]
        rw [hcons]
        exact .blank (c := 0x20) (by decide) ih

/-! ### The search for the end of a regular expression -/

namespace Lexeme

/-- Whether there is an end does not depend on what has been counted. -/
theorem regexLength?_none {s : Bytes} {bracketed : Bool} {n : Nat}
    (h : regexLength? s bracketed n = none) (m : Nat) : regexLength? s bracketed m = none := by
  fun_induction regexLength? s bracketed n generalizing m with
  | case1 => rw [regexLength?]
  | case2 => cases h
  | case3 b br n hb => rw [regexLength?, if_neg hb]
  | case4 b c s br n hb => rw [regexLength?, if_pos hb]
  | case5 b c s br n hb hc ih => rw [regexLength?, if_neg hb, if_pos hc, ih h]
  | case6 b c s br n hb hc hd ih => rw [regexLength?, if_neg hb, if_neg hc, if_pos hd, ih h]
  | case7 b c s br n hb hc hd he ih =>
      rw [regexLength?, if_neg hb, if_neg hc, if_neg hd, if_pos he, ih h]
  | case8 => cases h
  | case9 b c s br n hb hc hd he hf ih =>
      rw [regexLength?, if_neg hb, if_neg hc, if_neg hd, if_neg he, if_neg hf, ih h]

/-- The search reads over spaces, and ends at a line break. -/
theorem regexLength?_blanked {s rest : Bytes} {bracketed : Bool}
    (h : Bytes.newline ∈ s ∨ ∀ n, regexLength? rest bracketed n = none) (n : Nat) :
    regexLength? (blanked s ++ rest) bracketed n = none := by
  induction s generalizing n with
  | nil => exact (h.resolve_left (by simp)) n
  | cons b s ih =>
      by_cases hb : b = Bytes.newline
      · subst hb
        exact regexLength?_of_endsLine (.inr rfl) bracketed n
      · have hcons : blanked (b :: s) = 0x20 :: blanked s := by simp [blanked, hb]
        have htail := ih (h.imp_left fun hmem =>
          (List.mem_cons.mp hmem).resolve_left (Ne.symm hb)) (n + 1)
        rw [hcons, List.cons_append]
        by_cases hnil : blanked s ++ rest = []
        · rw [hnil]
          rfl
        · rw [regexLength?_cons _ hnil]
          exact htail

theorem regexLength?_slash (rest : Bytes) (n : Nat) :
    regexLength? (Bytes.slash :: rest) false n ≠ none := by
  cases rest with
  | nil => exact nofun
  | cons c rest => exact nofun

/-- Where a search that reads a block comment goes on behind it, it does so between brackets. -/
theorem regexLength?_block {text rest : Bytes} {bracketed : Bool} {n : Nat}
    (h : regexLength? (text ++ utf8 "*/" ++ rest) bracketed n = none) :
    Bytes.newline ∈ text ∨ ((bracketed = true ∨ '['.toUInt8 ∈ text) ∧
      ∀ m, regexLength? rest true m = none) := by
  have hsplit : text ++ utf8 "*/" ++ rest = (text ++ ['*'.toUInt8]) ++ Bytes.slash :: rest := by
    simp [closing_eq]
  obtain ⟨hended, hinside, hescaping⟩ := regexFront_spec (text ++ ['*'.toUInt8]) bracketed n
  rw [hsplit, regexLength?_append _ _ _ _ _ rfl] at h
  cases hfront : regexFront (text ++ ['*'.toUInt8]) bracketed n with
  | ended result =>
      rw [hfront] at h
      dsimp only at h
      subst h
      have hmem := hended hfront
      rw [List.mem_append, List.mem_singleton] at hmem
      exact .inl (hmem.resolve_right (by decide))
  | inside open? =>
      rw [hfront] at h
      dsimp only at h
      cases open? with
      | false => exact absurd h (regexLength?_slash rest _)
      | true =>
          have hbracket := (hinside hfront).imp_right fun hmem =>
            (List.mem_append.mp hmem).resolve_right (by decide)
          refine .inr ⟨hbracket, ?_⟩
          by_cases hnil : rest = []
          · subst hnil
            exact fun _ => rfl
          · rw [regexLength?_cons _ hnil] at h
            exact regexLength?_none h
  | escaping open? =>
      have hlast := hescaping open? hfront
      rw [List.getLast?_concat] at hlast
      exact absurd (Option.some.inj hlast) (by decide)

end Lexeme

/-- A slash that starts no regular expression because of a comment starts none without it, unless a
bracket in the comment was the cause. -/
theorem Comment.regexLength?_blanked {comment rest : Bytes} (h : Comment comment rest) {a : Bytes}
    (hescape : a.getLast? = some Bytes.backslash → utf8 "/*" <+: comment →
      '['.toUInt8 ∈ comment → Bytes.newline ∈ comment)
    (hnone : Lexeme.regexLength? (a ++ (comment ++ rest)) false 1 = none) :
    Lexeme.regexLength? (a ++ (blanked comment ++ rest)) false 1 = none := by
  obtain ⟨s, rfl, -⟩ := h.head
  have hblank : blanked (Bytes.slash :: s) = 0x20 :: blanked s := rfl
  obtain ⟨-, -, hlast⟩ := Lexeme.regexFront_spec a false 1
  rw [List.cons_append, Lexeme.regexLength?_append _ _ _ _ _ rfl] at hnone
  rw [hblank, List.cons_append, Lexeme.regexLength?_append _ _ _ _ _ rfl]
  cases hfront : Lexeme.regexFront a false 1 with
  | ended result =>
      rw [hfront] at hnone
      exact hnone
  | inside open? =>
      rw [hfront] at hnone
      dsimp only at hnone ⊢
      rw [← List.cons_append] at hnone
      rw [← List.cons_append, ← hblank]
      apply Lexeme.regexLength?_blanked
      rcases h.block_or_endsLine with ⟨text, htext⟩ | hend
      · rw [htext] at hnone ⊢
        rcases Lexeme.regexLength?_block hnone with hbreak | ⟨hopen, hrest⟩
        · exact .inl (List.mem_append_left _ hbreak)
        · cases open? with
          | false => exact absurd hnone (Lexeme.regexLength?_slash _ _)
          | true => exact .inr hrest
      · exact .inr (Lexeme.regexLength?_of_endsLine hend _)
  | escaping open? =>
      rw [hfront] at hnone
      dsimp only at hnone ⊢
      apply Lexeme.regexLength?_blanked
      rcases h.block_or_endsLine with ⟨text, htext⟩ | hend
      · obtain rfl : s = '*'.toUInt8 :: text ++ utf8 "*/" := List.cons.inj htext |>.2
        have hbreak := hescape (hlast _ hfront) ⟨text ++ utf8 "*/", rfl⟩
        rcases Lexeme.regexLength?_block hnone with hmem | ⟨hopen, hrest⟩
        · exact .inl (List.mem_append_left _ hmem)
        · cases open? with
          | true => exact .inr hrest
          | false =>
              have hmem := hbreak (List.mem_cons_of_mem _ (List.mem_append_left _
                (hopen.resolve_left nofun)))
              exact .inl ((List.mem_cons.mp hmem).resolve_left (by decide))
      · exact .inr (Lexeme.regexLength?_of_endsLine hend _)

/-! ### The result -/

/-- A comment that is moved over can be made blank: all tokens stay the same, with their texts and
their places. The comment must not be one with a bracket, on one line, right behind a backslash. -/
theorem tokenize_blanked {front comment back : Bytes} {start : Nat} (h : Comment comment back)
    (hgap : LiesInGap .markup front comment back start)
    (hescape : front.getLast? = some Bytes.backslash → utf8 "/*" <+: comment →
      '['.toUInt8 ∈ comment → Bytes.newline ∈ comment) :
    tokenize .markup (front ++ (blanked comment ++ back)) =
      tokenize .markup (front ++ (comment ++ back)) := by
  obtain ⟨s, hs, -⟩ := h.head
  refine tokenize_interchange ⟨h.trivia, trivia_blanked comment back, map_blanked comment, ?_, ?_,
    ?_, nofun⟩ hgap
  · exact ⟨Bytes.slash, by simp [hs], .inr (.inl rfl), by decide⟩
  · exact ⟨0x20, by rw [hs]; rfl, .inl rfl, fun _ => rfl⟩
  · intro t _ a ha hnone
    refine h.regexLength?_blanked (fun hlast => hescape ?_) hnone
    rw [← List.take_append_drop t.offset front, ha, List.getLast?_append, List.getLast?_cons, hlast]
    rfl

set_option maxRecDepth 4000 in
/-- A division, a backslash and a comment with a bracket and a line break in it. -/
theorem tokenize_blanked_sample :
    Comment (utf8 "/*[\n'*/") (utf8 "/b") ∧
      LiesInGap .markup (utf8 "a = /\\") (utf8 "/*[\n'*/") (utf8 "/b") 6 ∧
      tokenize .markup (utf8 "a = /\\" ++ (blanked (utf8 "/*[\n'*/") ++ utf8 "/b")) =
        tokenize .markup (utf8 "a = /\\" ++ (utf8 "/*[\n'*/" ++ utf8 "/b")) := by
  have hcomment : Comment (utf8 "/*" ++ utf8 "[\n'" ++ utf8 "*/") (utf8 "/b") := .block (by decide)
  have htokens : tokenize .markup (utf8 "a = /\\" ++ (utf8 "/*[\n'*/" ++ utf8 "/b")) =
      [⟨⟨0, 1, 1⟩, .identifier, utf8 "a"⟩, ⟨⟨2, 1, 3⟩, .punctuation, utf8 "="⟩,
        ⟨⟨4, 1, 5⟩, .punctuation, utf8 "/"⟩, ⟨⟨5, 1, 6⟩, .punctuation, utf8 "\\"⟩,
        ⟨⟨13, 2, 4⟩, .punctuation, utf8 "/"⟩, ⟨⟨14, 2, 5⟩, .identifier, utf8 "b"⟩] := by cbv
  have hgap : LiesInGap .markup (utf8 "a = /\\") (utf8 "/*[\n'*/") (utf8 "/b") 6 := by
    refine .of_apart (by decide) (.inr ?_) ?_ (.inl (.nil _))
    · rw [htokens]
      decide
    · rw [htokens]
      decide
  exact ⟨hcomment, hgap, tokenize_blanked hcomment hgap fun _ _ _ => by decide⟩

set_option maxRecDepth 4000 in
/-- Without a line break, the bracket in the comment keeps what is around it from being read as a
regular expression. -/
theorem tokenize_blanked_bracket :
    Comment (utf8 "/*[*/") (utf8 "x/") ∧
      LiesInGap .markup (utf8 "=/\\") (utf8 "/*[*/") (utf8 "x/") 3 ∧
      tokenize .markup (utf8 "=/\\" ++ (blanked (utf8 "/*[*/") ++ utf8 "x/")) ≠
        tokenize .markup (utf8 "=/\\" ++ (utf8 "/*[*/" ++ utf8 "x/")) := by
  have hcomment : Comment (utf8 "/*" ++ utf8 "[" ++ utf8 "*/") (utf8 "x/") := .block (by decide)
  have htokens : tokenize .markup (utf8 "=/\\" ++ (utf8 "/*[*/" ++ utf8 "x/")) =
      [⟨⟨0, 1, 1⟩, .punctuation, utf8 "="⟩, ⟨⟨1, 1, 2⟩, .punctuation, utf8 "/"⟩,
        ⟨⟨2, 1, 3⟩, .punctuation, utf8 "\\"⟩, ⟨⟨8, 1, 9⟩, .identifier, utf8 "x"⟩,
        ⟨⟨9, 1, 10⟩, .punctuation, utf8 "/"⟩] := by cbv
  have hblank : tokenize .markup (utf8 "=/\\" ++ (blanked (utf8 "/*[*/") ++ utf8 "x/")) =
      [⟨⟨0, 1, 1⟩, .punctuation, utf8 "="⟩, ⟨⟨1, 1, 2⟩, .regex, utf8 "/\\     x/"⟩] := by cbv
  refine ⟨hcomment, .of_apart (by decide) (.inr ?_) ?_ (.inl (.nil _)), ?_⟩
  · rw [htokens]
    decide
  · rw [htokens]
    decide
  · rw [htokens, hblank]
    decide

end UnusedImports
