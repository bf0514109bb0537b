import UnusedImports.Proofs.Lexer.Class
import UnusedImports.Proofs.Markup.Steps

/-! Texts of names, quoted literals and a few marks, with spaces between them, are read in both
dialects alike. -/

namespace UnusedImports

open Markup

/-! ### Quoted literals -/

theorem unquoted_of_forall {quote : UInt8} {s : Bytes}
    (h : ∀ b ∈ s, b ≠ Bytes.newline ∧ b ≠ Bytes.backslash ∧ b ≠ quote) : Unquoted quote s := by
  induction s with
  | nil => exact .nil
  | cons b s ih =>
      obtain ⟨hbreak, hslash, hquote⟩ := h b List.mem_cons_self
      exact .plain hslash hquote hbreak (ih fun x hx => h x (List.mem_cons_of_mem b hx))

theorem Lexeme.stringLength_of_unquoted {quote : UInt8} {s : Bytes} (hquote : Bytes.IsQuote quote)
    (h : Unquoted quote s) (rest : Bytes) (n : Nat) :
    stringLength quote (s ++ quote :: rest) n = n + s.length + 1 := by
  have hslash : quote ≠ Bytes.backslash := by
    rcases hquote with rfl | rfl
    · decide
    · decide
  have hbreak : quote ≠ Bytes.newline := by
    rcases hquote with rfl | rfl
    · decide
    · decide
  induction h generalizing n with
  | nil =>
      cases rest with
      | nil => simp [stringLength, hbreak]
      | cons c rest => simp [stringLength, hslash]
  | @plain b s hb hb' hb'' _ ih =>
      obtain ⟨c, t, ht⟩ : ∃ c t, s ++ quote :: rest = c :: t :=
        List.exists_cons_of_ne_nil (by simp)
      have hstep := ih (n + 1)
      rw [ht] at hstep
      rw [List.cons_append, ht, stringLength]
      simp only [beq_iff_eq, hb, hb', hb'', if_false, hstep, List.length_cons]
      omega
  | @escaped b s _ ih =>
      rw [List.cons_append, List.cons_append, stringLength, if_pos (by rfl), ih]
      simp only [List.length_cons]
      omega

/-! ### Words of a text -/

/-- The marks that stand for themselves wherever code is read. -/
def loneMarks : List UInt8 :=
  [','.toUInt8, ';'.toUInt8, ':'.toUInt8, '*'.toUInt8, Bytes.openBrace, Bytes.closeBrace]

/-- A word that is read alike wherever code is: a name, a literal with its quotes, or a mark that
stands for itself. -/
inductive IsOrdinary : Word → Prop where
  | name {n} : IsName n → IsOrdinary (.identifier, n)
  | quoted {quote text} : Bytes.IsQuote quote → Unquoted quote text →
      IsOrdinary (.string, quote :: text ++ [quote])
  | mark {b} : b ∈ loneMarks → IsOrdinary (.punctuation, [b])

/-- A text that ends a word before it. A name ends where no code point continues it. -/
def EndsWord (w : Word) (rest : Bytes) : Prop :=
  w.1 = .identifier → Identifier.isContinue (Utf8.decode rest).1 = false

/-- A text and the words that it spells up to its back, of which nothing is said. -/
inductive Spelled (back : Bytes) : Bytes → List Word → Prop where
  | nil : Spelled back back []
  | space {s ws} : Spelled back s ws → Spelled back (' '.toUInt8 :: s) ws
  | word {w s ws} : IsOrdinary w → EndsWord w s → Spelled back s ws →
      Spelled back (w.2 ++ s) (w :: ws)

namespace Spelled

variable {back mid s : Bytes} {ws vs : List Word}

theorem name {n : Bytes} (hn : IsName n) (hs : EndsName s) (h : Spelled back s ws) :
    Spelled back (n ++ s) ((.identifier, n) :: ws) := .word (.name hn) (fun _ => hs.1) h

theorem mark {b : UInt8} (hb : b ∈ loneMarks) (h : Spelled back s ws) :
    Spelled back (b :: s) ((.punctuation, [b]) :: ws) := .word (.mark hb) nofun h

theorem quoted {quote : UInt8} {text : Bytes} (hquote : Bytes.IsQuote quote)
    (htext : Unquoted quote text) (h : Spelled back s ws) :
    Spelled back (quote :: text ++ quote :: s) ((.string, quote :: text ++ [quote]) :: ws) := by
  have hall : Spelled back ((quote :: text ++ [quote]) ++ s) _ := .word (.quoted hquote htext) nofun h
  simpa using hall

theorem trans (h : Spelled mid s ws) (hmid : Spelled back mid vs) : Spelled back s (ws ++ vs) := by
  induction h with
  | nil => exact hmid
  | space _ ih => exact .space ih
  | word hw hs _ ih => exact .word hw hs ih

end Spelled

def braceDepth (depth : Nat) (w : Word) : Nat :=
  if w = mark "\x7b" then depth + 1 else if w = mark "\x7d" then depth - 1 else depth

/-! ### Reading a spelled text -/

namespace Lexer

variable {dialect : Dialect} {lx : Lexer} {s back : Bytes} {ws : List Word}

def wordsRead (lx : Lexer) : List Word := lx.tokens.reverse.map Token.word

theorem wordsRead_emit (kind : TokenKind) (n : Nat) (lx : Lexer) :
    (lx.emit kind n).wordsRead = lx.wordsRead ++ [(kind, lx.rest.take n)] := by
  simp [wordsRead, emit, Token.word]

theorem settle_of_frames_nil (h : lx.frames = []) :
    lx.settle = lx.skip (Lexeme.triviaLength lx.rest 0) :=
  settle_of_not_children (by simp [h])

/-- A space in code is moved over. -/
theorem run_space (hframes : lx.frames = []) (hrest : lx.rest = ' '.toUInt8 :: s) :
    lx.run dialect = (lx.skip 1).run dialect := by
  have hlength : Lexeme.triviaLength lx.rest 0 = 1 + Lexeme.triviaLength s 0 := by
    rw [hrest, Lexeme.triviaLength, ← Lexeme.triviaLength_add]
    rfl
  have hsettle : lx.settle = (lx.skip 1).settle := by
    rw [settle_of_frames_nil hframes, settle_of_frames_nil (by simpa using hframes), hlength]
    simp [skip, hrest, Position.advance, Nat.add_comm 1]
  rw [run, hsettle, ← run]

/-- A step at the start of a token. -/
theorem run_token (hframes : lx.frames = []) (hstart : StartsToken lx.rest) :
    lx.run dialect = (lx.scanCode dialect).run dialect := by
  have hsettle := settle_of_startsToken lx hstart
  rw [run_of_rest_ne_nil (by rw [hsettle]; exact hstart.1), hsettle]
  have hcode : lx.InCode := ⟨by simp [hframes], fun _ _ _ => by simp [hframes]⟩
  rw [hcode.scan_eq]

/-- Where a quote comes, a literal is read. -/
theorem scanCode_quote {quote : UInt8} (hquote : Bytes.IsQuote quote)
    (hrest : lx.rest = quote :: s) :
    lx.scanCode dialect = lx.emit .string (Lexeme.stringLength quote s 1) := by
  unfold scanCode
  rw [hrest]
  rcases hquote with rfl | rfl
  · rfl
  · rfl

theorem eq_of_mem_loneMarks {b : UInt8} (hb : b ∈ loneMarks) :
    b = ','.toUInt8 ∨ b = ';'.toUInt8 ∨ b = ':'.toUInt8 ∨ b = '*'.toUInt8 ∨
      b = Bytes.openBrace ∨ b = Bytes.closeBrace := by
  simpa [loneMarks] using hb

/-- A mark is read alone. Outside of frames, a brace changes nothing but the depth. -/
theorem scanCode_mark {b : UInt8} (hb : b ∈ loneMarks) (hframes : lx.frames = [])
    (hrest : lx.rest = b :: s) :
    lx.scanCode dialect =
      { lx.emit .punctuation 1 with depth := braceDepth lx.depth (.punctuation, [b]) } := by
  unfold scanCode scanCloseBrace
  rw [hrest, hframes]
  rcases eq_of_mem_loneMarks hb with rfl | rfl | rfl | rfl | rfl | rfl
  all_goals rfl

theorem startsToken_ordinary {w : Word} (hw : IsOrdinary w) (s : Bytes) :
    StartsToken (w.2 ++ s) := by
  cases hw with
  | name hn => exact startsToken_name hn s
  | quoted hquote _ =>
      rcases hquote with rfl | rfl
      all_goals exact startsToken_of_not_slash (by decide) rfl
  | mark hb =>
      rcases eq_of_mem_loneMarks hb with rfl | rfl | rfl | rfl | rfl | rfl
      all_goals exact startsToken_of_not_slash (by decide) rfl

/-- An ordinary word is read to its end. -/
theorem scanCode_ordinary {w : Word} (hw : IsOrdinary w) (hs : EndsWord w s)
    (hframes : lx.frames = []) (hrest : lx.rest = w.2 ++ s) :
    lx.scanCode dialect = { lx.emit w.1 w.2.length with depth := braceDepth lx.depth w } := by
  cases hw with
  | name hn => exact scanCode_name hn (hs rfl) hrest
  | @quoted quote text hquote htext =>
      have hsplit : lx.rest = quote :: (text ++ quote :: s) := by simpa using hrest
      have hlength : 1 + text.length + 1 = (quote :: text ++ [quote]).length := by simp; omega
      have hdepth : braceDepth lx.depth (.string, quote :: text ++ [quote]) = lx.depth := by
        simp [braceDepth, Markup.mark]
      rw [scanCode_quote hquote hsplit, Lexeme.stringLength_of_unquoted hquote htext, hlength,
        hdepth]
      rfl
  | mark hb => exact scanCode_mark hb hframes hrest

/-- A lexer that has read some words of code and comes to a text with nothing open. -/
structure Arrives (lx : Lexer) (dialect : Dialect) (back : Bytes) (ws : List Word)
    (next : Lexer) : Prop where
  run : lx.run dialect = next.run dialect
  rest : next.rest = back
  frames : next.frames = []
  depth : next.depth = ws.foldl braceDepth lx.depth
  words : next.wordsRead = lx.wordsRead ++ ws

theorem exists_arrives (dialect : Dialect) (lx : Lexer) (h : Spelled back lx.rest ws)
    (hframes : lx.frames = []) : ∃ next, lx.Arrives dialect back ws next := by
  generalize hrest : lx.rest = s at h
  induction h generalizing lx with
  | nil => exact ⟨lx, rfl, hrest, hframes, rfl, by simp⟩
  | @space s ws _ ih =>
      have hskip : (lx.skip 1).rest = s := by
        rw [skip_rest, hrest]
        rfl
      obtain ⟨next, hnext⟩ := ih (lx.skip 1) hframes hskip
      exact ⟨next, (run_space hframes hrest).trans hnext.run, hnext.rest, hnext.frames,
        hnext.depth, hnext.words⟩
  | @word w s ws hw hs _ ih =>
      have hscan : lx.scanCode dialect = _ := scanCode_ordinary hw hs hframes hrest
      have hdrop : (lx.scanCode dialect).rest = s := by
        rw [hscan]
        change lx.rest.drop w.2.length = s
        rw [hrest, List.drop_left]
      have hwords : (lx.scanCode dialect).wordsRead = lx.wordsRead ++ [w] := by
        rw [hscan]
        change (lx.emit w.1 w.2.length).wordsRead = _
        rw [wordsRead_emit, hrest, List.take_left]
      have hstart : StartsToken lx.rest := hrest ▸ startsToken_ordinary hw s
      have hopen : (lx.scanCode dialect).frames = [] := by
        rw [hscan]
        exact hframes
      obtain ⟨next, hnext⟩ := ih _ hopen hdrop
      refine ⟨next, (run_token hframes hstart).trans hnext.run, hnext.rest, hnext.frames, ?_, ?_⟩
      · rw [hnext.depth, hscan, List.foldl_cons]
      · rw [hnext.words, hwords, List.append_assoc]
        rfl

/-- A run ends behind a text that is spelled to its end. -/
theorem wordsRead_run (h : Spelled [] lx.rest ws) (hframes : lx.frames = []) :
    (lx.run dialect).wordsRead = lx.wordsRead ++ ws := by
  obtain ⟨next, hnext⟩ := exists_arrives dialect lx h hframes
  have hsettle : next.settle.rest = [] := by
    rw [settle_of_frames_nil hnext.frames, skip_rest, hnext.rest, List.drop_nil]
  rw [hnext.run, run_of_rest_eq_nil hsettle, settle_of_frames_nil hnext.frames, ← hnext.words]
  rfl

end Lexer

/-- A text that does not start like a script is read as the words that it spells. -/
theorem word_tokenize {s : Bytes} {ws : List Word} (h : Spelled [] s ws)
    (hscript : (utf8 "#!").isPrefixOf s = false) (dialect : Dialect) :
    (tokenize dialect s).map Token.word = ws := by
  have hstart : (Lexer.ofSource s).skipHashbang = Lexer.ofSource s := by
    rw [Lexer.skipHashbang, if_neg (by simp [Lexer.ofSource, hscript])]
  have hrun : ((Lexer.ofSource s).run dialect).wordsRead = [] ++ ws :=
    Lexer.wordsRead_run h rfl
  rw [tokenize, hstart]
  exact hrun

end UnusedImports
