import UnusedImports.Proofs.Lexer.Coverage
import UnusedImports.Proofs.Lexer.Spelling

/-! What a lexer reads next is told by the text before it, by what is open, and by whether an
operand may come. -/

namespace UnusedImports.Lexer

open Markup

/-! ### Two lexers in the same text -/

/-- Two lexers at the same text with the same things open. They have read the same words, each
behind its own front. -/
structure Twin (front front' : List Word) (lx twin : Lexer) : Prop where
  rest : twin.rest = lx.rest
  depth : twin.depth = lx.depth
  frames : twin.frames = lx.frames
  operand : twin.operandAllowed = lx.operandAllowed
  words : ∃ new, lx.wordsRead = front ++ new ∧ twin.wordsRead = front' ++ new

namespace Twin

variable {front front' : List Word} {lx twin next : Lexer}

theorem skip (h : Twin front front' lx twin) (n : Nat) :
    Twin front front' (lx.skip n) (twin.skip n) :=
  ⟨congrArg (List.drop n) h.rest, h.depth, h.frames, h.operand, h.words⟩

theorem emit (h : Twin front front' lx twin) (kind : TokenKind) (n : Nat) :
    Twin front front' (lx.emit kind n) (twin.emit kind n) := by
  obtain ⟨new, hwords, hwords'⟩ := h.words
  refine ⟨congrArg (List.drop n) h.rest, h.depth, h.frames, ?_, ?_⟩
  · simp only [operandAllowed, Lexer.emit, h.rest]
    rfl
  · refine ⟨new ++ [(kind, lx.rest.take n)], ?_, ?_⟩
    · rw [wordsRead_emit, hwords, List.append_assoc]
    · rw [wordsRead_emit, hwords', h.rest, List.append_assoc]

theorem push (h : Twin front front' lx twin) (f : Frame) :
    Twin front front' (lx.push f) (twin.push f) :=
  ⟨h.rest, h.depth, congrArg (f :: ·) h.frames, h.operand, h.words⟩

theorem pop (h : Twin front front' lx twin) : Twin front front' lx.pop twin.pop :=
  ⟨h.rest, h.depth, congrArg List.tail h.frames, h.operand, h.words⟩

theorem deepen (h : Twin front front' lx twin) (depth : Nat) :
    Twin front front' { lx with depth } { twin with depth } :=
  ⟨h.rest, rfl, h.frames, h.operand, h.words⟩

theorem scanTemplate (h : Twin front front' lx twin) (k : Nat) :
    Twin front front' (lx.scanTemplate k) (twin.scanTemplate k) := by
  unfold Lexer.scanTemplate
  rw [h.rest, h.depth]
  split
  · exact ((h.emit _ _).emit _ _).push _
  · exact h.emit _ _

/-! The rule that applies to one of them applies to the other. -/

theorem braceRule (h : Twin front front' lx twin) (hrule : BraceRule lx next) :
    ∃ next', BraceRule twin next' ∧ Twin front front' next next' := by
  have hbrace := h.emit .punctuation 1
  cases hrule with
  | substitution hframes =>
      exact ⟨_, .substitution (by rw [h.frames, h.depth, hframes]), hbrace.pop.scanTemplate 0⟩
  | container hframes =>
      exact ⟨_, .container (by rw [h.frames, h.depth, hframes]), hbrace.pop⟩
  | block htemplate hcontainer =>
      refine ⟨_, .block (by rwa [h.frames, h.depth]) (by rwa [h.frames, h.depth]), ?_⟩
      rw [h.depth]
      exact hbrace.deepen _

theorem scanCloseBrace (h : Twin front front' lx twin) :
    Twin front front' lx.scanCloseBrace twin.scanCloseBrace := by
  obtain ⟨next', hrule, hnext⟩ := h.braceRule lx.scanCloseBrace_rule
  rwa [hrule.eq]

theorem scanOpenTag (h : Twin front front' lx twin) :
    Twin front front' lx.scanOpenTag twin.scanOpenTag := by
  unfold Lexer.scanOpenTag
  rw [h.rest]
  exact (h.emit _ _).push _

theorem opensMarkup_eq (h : Twin front front' lx twin) (dialect : Dialect) (s : Bytes) :
    twin.opensMarkup dialect s = lx.opensMarkup dialect s := by
  rw [opensMarkup, opensMarkup, h.operand]

theorem codeRule {dialect : Dialect} (h : Twin front front' lx twin)
    (hrule : CodeRule dialect lx next) :
    ∃ next', CodeRule dialect twin next' ∧ Twin front front' next next' := by
  cases hrule with
  | done hrest => exact ⟨_, .done (h.rest.trans hrest), h⟩
  | template hrest => exact ⟨_, .template (h.rest.trans hrest), h.scanTemplate 1⟩
  | openBrace hrest =>
      refine ⟨_, .openBrace (h.rest.trans hrest), ?_⟩
      rw [h.depth]
      exact (h.emit _ _).deepen _
  | closeBrace hrest => exact ⟨_, .closeBrace (h.rest.trans hrest), h.scanCloseBrace⟩
  | openTag hrest hopens =>
      exact ⟨_, .openTag (h.rest.trans hrest) (h.opensMarkup_eq dialect _ ▸ hopens), h.scanOpenTag⟩
  | plain hrest htick hopen hclose hmarkup =>
      refine ⟨_, .plain (h.rest.trans hrest) htick hopen hclose
        (h.opensMarkup_eq dialect _ ▸ hmarkup), ?_⟩
      rw [h.operand]
      exact h.emit _ _

theorem tagRule {closing named : Bool} {attributes : Nat} (h : Twin front front' lx twin)
    (hrule : TagRule closing named attributes lx next) :
    ∃ next', TagRule closing named attributes twin next' ∧ Twin front front' next next' := by
  have hclose := (h.emit .punctuation 1).pop
  cases hrule with
  | done hrest => exact ⟨_, .done (h.rest.trans hrest), h⟩
  | opened hrest hopening => exact ⟨_, .opened (h.rest.trans hrest) hopening, hclose.push _⟩
  | closed hrest hclosing hchildren =>
      exact ⟨_, .closed (h.rest.trans hrest) hclosing (h.frames ▸ hchildren), hclose.pop⟩
  | stray hrest hclosing hchildren =>
      exact ⟨_, .stray (h.rest.trans hrest) hclosing (h.frames ▸ hchildren), hclose⟩
  | closesItself hrest hopening =>
      exact ⟨_, .closesItself (h.rest.trans hrest) hopening, (h.emit _ _).pop⟩
  | container hrest hnamed =>
      refine ⟨_, .container (h.rest.trans hrest) hnamed, ?_⟩
      rw [h.depth]
      exact (h.emit _ _).push _
  | quoted hrest hquote hnamed =>
      exact ⟨_, .quoted (h.rest.trans hrest) hquote hnamed, h.emit _ _⟩
  | joint hrest hjoint => exact ⟨_, .joint (h.rest.trans hrest) hjoint, h.emit _ _⟩
  | tagName hrest hname hnamed =>
      exact ⟨_, .tagName (h.rest.trans hrest) hname hnamed, (h.emit _ _).pop.push _⟩
  | constraint hrest hname hnamed hextends =>
      exact ⟨_, .constraint (h.rest.trans hrest) hname hnamed hextends, (h.emit _ _).pop⟩
  | attributeName hrest hname hnamed hextends =>
      exact ⟨_, .attributeName (h.rest.trans hrest) hname hnamed hextends, (h.emit _ _).pop.push _⟩
  | givenUp hrest hend hself hopen hquote hjoint hname =>
      exact ⟨_, .givenUp (h.rest.trans hrest) hend hself hopen hquote hjoint hname, h.pop⟩

theorem scanMarkup (h : Twin front front' lx twin) :
    Twin front front' lx.scanMarkup twin.scanMarkup := by
  unfold Lexer.scanMarkup
  rw [h.rest]
  dsimp only
  split
  · exact h
  · exact h.emit _ _

theorem openingRule (h : Twin front front' lx twin) (hrule : OpeningRule lx next) :
    ∃ next', OpeningRule twin next' ∧ Twin front front' next next' := by
  cases hrule with
  | done hrest => exact ⟨_, .done (h.rest.trans hrest), h⟩
  | container hrest =>
      refine ⟨_, .container (h.rest.trans hrest), ?_⟩
      rw [h.depth]
      exact (h.emit _ _).push _
  | tag hrest hbrace => exact ⟨_, .tag (h.rest.trans hrest) hbrace, h.scanOpenTag⟩

theorem scan (h : Twin front front' lx twin) (dialect : Dialect) :
    Twin front front' (lx.scan dialect) (twin.scan dialect) := by
  unfold Lexer.scan
  rw [h.frames]
  split
  · obtain ⟨next', hrule, hnext⟩ := h.scanMarkup.openingRule (scanOpening_rule _)
    rwa [scanChildren_eq twin, hrule.eq]
  · obtain ⟨next', hrule, hnext⟩ := h.tagRule (scanTag_rule _ _ _ lx)
    rwa [hrule.eq]
  · obtain ⟨next', hrule, hnext⟩ := h.codeRule (scanCode_rule dialect lx)
    rwa [hrule.eq]

theorem settle (h : Twin front front' lx twin) : Twin front front' lx.settle twin.settle := by
  unfold Lexer.settle
  rw [h.frames, h.rest]
  split
  · exact h
  · exact h.skip _

theorem run (h : Twin front front' lx twin) (dialect : Dialect) :
    Twin front front' (lx.run dialect) (twin.run dialect) := by
  fun_induction Lexer.run dialect lx generalizing twin with
  | case1 lx hend =>
      rw [run_of_rest_eq_nil (by rw [h.settle.rest, hend])]
      exact h.settle
  | case2 lx hne ih =>
      have hmore : twin.settle.rest ≠ [] := by rwa [h.settle.rest]
      rw [run_of_rest_ne_nil hmore]
      exact ih (h.settle.scan dialect)

/-- Lexers whose last words are the same allow an operand alike. -/
theorem of_last {w : Word} {ws ws' : List Word} (hrest : twin.rest = lx.rest)
    (hdepth : twin.depth = lx.depth) (hframes : twin.frames = lx.frames)
    (hwords : lx.wordsRead = ws ++ [w]) (hwords' : twin.wordsRead = ws' ++ [w]) :
    Twin (ws ++ [w]) (ws' ++ [w]) lx twin := by
  refine ⟨hrest, hdepth, hframes, ?_, [], by simpa using hwords, by simpa using hwords'⟩
  have hlast : ∀ {m : Lexer} {vs : List Word}, m.wordsRead = vs ++ [w] →
      m.operandAllowed = startsOperand ⟨.start, w.1, w.2⟩ := by
    intro m vs hm
    have hhead := congrArg List.getLast? hm
    rw [wordsRead, List.getLast?_map, List.getLast?_reverse, List.getLast?_concat,
      Option.map_eq_some_iff] at hhead
    obtain ⟨t, ht, rfl⟩ := hhead
    rw [operandAllowed, ht]
    rfl
  rw [hlast hwords, hlast hwords']

end Twin

/-! ### Plain code -/

/-- A word that opens neither a template nor a tag. -/
def IsPlain (w : Word) : Prop := w.1 ≠ .template ∧ w ≠ mark "<" ∧ w ≠ mark "</"

instance (w : Word) : Decidable (IsPlain w) :=
  inferInstanceAs (Decidable (w.1 ≠ .template ∧ w ≠ mark "<" ∧ w ≠ mark "</"))

variable {dialect : Dialect} {lx : Lexer}

theorem emit_length (kind : TokenKind) (n : Nat) (lx : Lexer) :
    lx.emit kind (lx.rest.take n).length = lx.emit kind n := by
  have htake : lx.rest.take (lx.rest.take n).length = lx.rest.take n := by
    rw [List.length_take, ← List.take_eq_take_min]
  have hdrop : lx.rest.drop (lx.rest.take n).length = lx.rest.drop n := by
    have hsame := List.take_append_drop (lx.rest.take n).length lx.rest
    rw [htake] at hsame
    exact List.append_cancel_left (hsame.trans (List.take_append_drop n lx.rest).symm)
  simp only [emit, skip, htake, hdrop]

/-- A word of code is a name. -/
theorem isName_of_plainLexeme {operand : Bool} {b : UInt8} {s : Bytes} (htick : b ≠ Bytes.backtick)
    (h : (plainLexeme operand b s).1 = .identifier) :
    IsName ((b :: s).take (plainLexeme operand b s).2) := by
  have hclass := lexical_plainLexeme operand s htick
  rw [h] at hclass
  exact hclass.isName

theorem exists_wordsRead_scanTemplate (k : Nat) (lx : Lexer) :
    ∃ text more, (lx.scanTemplate k).wordsRead = lx.wordsRead ++ (.template, text) :: more := by
  unfold scanTemplate
  split
  · next n _ =>
    refine ⟨lx.rest.take n, [(.punctuation, (lx.rest.drop n).take 2)], ?_⟩
    change ((lx.emit .template n).emit .punctuation 2).wordsRead = _
    rw [wordsRead_emit, wordsRead_emit, List.append_assoc]
    rfl
  · exact ⟨_, [], wordsRead_emit _ _ lx⟩

/-- A token of code that is no brace leaves the depth of braces. -/
theorem braceDepth_plainLexeme {operand : Bool} {b : UInt8} (s : Bytes)
    (hopen : b ≠ Bytes.openBrace) (hclose : b ≠ Bytes.closeBrace) (depth : Nat) :
    braceDepth depth ((plainLexeme operand b s).1,
      (b :: s).take (plainLexeme operand b s).2) = depth := by
  have hfirst : ∀ m, b ≠ m → (b :: s).take (plainLexeme operand b s).2 ≠ [m] := by
    intro m hm heq
    rw [← Nat.sub_add_cancel (plainLexeme_pos operand b s), List.take_succ_cons] at heq
    exact hm (List.cons.inj heq).1
  rw [braceDepth, if_neg, if_neg]
  · exact fun heq => hfirst Bytes.closeBrace hclose (congrArg Prod.snd heq)
  · exact fun heq => hfirst Bytes.openBrace hopen (congrArg Prod.snd heq)

/-- Where nothing is open, a step reads one word of plain code, or a word that opens something. -/
theorem CodeRule.plain_or {next : Lexer} (h : CodeRule dialect lx next) (hframes : lx.frames = [])
    (hne : lx.rest ≠ []) :
    (∃ w more, next.wordsRead = lx.wordsRead ++ w :: more ∧ ¬ IsPlain w) ∨
      ∃ w, next = { lx.emit w.1 w.2.length with depth := braceDepth lx.depth w } ∧
        lx.rest.take w.2.length = w.2 ∧ (w.1 = .identifier → IsName w.2) := by
  cases h with
  | done hrest => exact absurd hrest hne
  | template =>
      obtain ⟨text, more, hwords⟩ := exists_wordsRead_scanTemplate 1 lx
      exact .inl ⟨_, more, hwords, fun hplain => hplain.1 rfl⟩
  | openBrace hrest =>
      exact .inr ⟨(.punctuation, [Bytes.openBrace]), rfl, by rw [hrest]; rfl, by simp⟩
  | closeBrace hrest =>
      have hblock : BraceRule lx _ := .block (by simp [hframes]) (by simp [hframes])
      exact .inr ⟨(.punctuation, [Bytes.closeBrace]), hblock.eq, by rw [hrest]; rfl, by simp⟩
  | openTag hrest =>
      refine .inl ⟨_, [], wordsRead_emit _ _ lx, fun hplain => ?_⟩
      rw [hrest] at hplain
      split at hplain
      · next hslash =>
        obtain ⟨t, rfl⟩ := List.head?_eq_some_iff.mp (beq_iff_eq.mp hslash)
        exact hplain.2.2 rfl
      · exact hplain.2.1 rfl
  | @plain b s hrest htick hopen hclose =>
      refine .inr ⟨((plainLexeme lx.operandAllowed b s).1,
        lx.rest.take (plainLexeme lx.operandAllowed b s).2), ?_, ?_, fun hkind => ?_⟩
      · rw [emit_length, hrest, braceDepth_plainLexeme s hopen hclose]
        rfl
      · rw [List.length_take, ← List.take_eq_take_min]
      · rw [hrest]
        exact isName_of_plainLexeme htick hkind

theorem exists_wordsRead_run (dialect : Dialect) (lx : Lexer) :
    ∃ new, (lx.run dialect).wordsRead = lx.wordsRead ++ new := by
  obtain ⟨ts, hts⟩ := tokens_suffix_run dialect lx
  exact ⟨ts.reverse.map Token.word, by simp [wordsRead, ← hts]⟩

/-- A run that reads words of plain code first comes to the text behind them with nothing open. -/
theorem exists_arrives_of_words {source : Bytes} {ws more : List Word} (hframes : lx.frames = [])
    (hreads : lx.ReadsFrom source) (hplain : ∀ w ∈ ws, IsPlain w)
    (hwords : (lx.run dialect).wordsRead = lx.wordsRead ++ (ws ++ more)) :
    ∃ next, lx.Arrives dialect next.rest ws next ∧ next.ReadsFrom source ∧
      ∀ w ∈ ws, w.1 = .identifier → IsName w.2 := by
  induction ws generalizing lx with
  | nil => exact ⟨lx, ⟨rfl, rfl, hframes, rfl, by simp⟩, hreads, by simp⟩
  | cons w ws ih =>
      obtain ⟨hw, hplainTail⟩ := List.forall_mem_cons.mp hplain
      have hne : lx.settle.rest ≠ [] := by
        intro hend
        rw [run_of_rest_eq_nil hend, wordsRead, settle_tokens] at hwords
        have hlength := congrArg List.length hwords
        simp [wordsRead] at hlength
      have hsettled : lx.settle.frames = [] := by rw [settle_frames, hframes]
      have hsame : lx.settle.wordsRead = lx.wordsRead := by rw [wordsRead, settle_tokens]; rfl
      have hcode : lx.settle.InCode := ⟨by rw [hsettled]; simp, fun _ _ _ => by rw [hsettled]; simp⟩
      have hscan : lx.settle.scan dialect = lx.settle.scanCode dialect := hcode.scan_eq dialect
      have hnext : (lx.settle.scanCode dialect).ReadsFrom source :=
        hscan ▸ hreads.settle.scan hne dialect
      obtain ⟨new, hnew⟩ := exists_wordsRead_run dialect (lx.settle.scanCode dialect)
      rw [run_of_rest_ne_nil hne, hscan, hnew] at hwords
      rcases (scanCode_rule dialect lx.settle).plain_or hsettled hne with ⟨v, vs, hread, hv⟩ | ⟨v, hread, htext, hname⟩
      · rw [hread, hsame, List.append_assoc] at hwords
        obtain ⟨rfl, -⟩ := List.cons.inj (List.append_cancel_left hwords)
        exact absurd hw hv
      · have hstep : (lx.settle.scanCode dialect).wordsRead = lx.wordsRead ++ [v] := by
          rw [hread]
          change (lx.settle.emit v.1 v.2.length).wordsRead = _
          rw [wordsRead_emit, htext, hsame]
        rw [hstep, List.append_assoc] at hwords
        obtain ⟨rfl, hmore⟩ := List.cons.inj (List.append_cancel_left hwords)
        have hopen : (lx.settle.scanCode dialect).frames = [] := by
          rw [hread]
          exact hsettled
        obtain ⟨next, hnext, hreads', hnames⟩ :=
          ih hopen hnext hplainTail (hnew.trans (congrArg _ hmore))
        refine ⟨next, ⟨?_, rfl, hnext.frames, ?_, ?_⟩, hreads', ?_⟩
        · rw [run_of_rest_ne_nil hne, hscan, hnext.run]
        · rw [hnext.depth, hread, List.foldl_cons]
          rw [settle_of_frames_nil hframes]
          rfl
        · rw [hnext.words, hstep, List.append_assoc]
          rfl
        · exact List.forall_mem_cons.mpr ⟨hname, hnames⟩

/-- Where nothing is open, the next token is the first thing behind blanks and comments. -/
theorem offset_of_run {t : Token} {more : List Token} (hframes : lx.frames = [])
    (hrun : (lx.run dialect).tokens.reverse = lx.tokens.reverse ++ t :: more) :
    lx.settle.rest ≠ [] ∧ t.offset = lx.settle.position.offset := by
  have hne : lx.settle.rest ≠ [] := by
    intro hend
    rw [run_of_rest_eq_nil hend, settle_tokens] at hrun
    simpa using congrArg List.length hrun
  refine ⟨hne, ?_⟩
  have hsettled : lx.settle.frames = [] := by rw [settle_frames, hframes]
  have hcode : lx.settle.InCode := ⟨by rw [hsettled]; simp, fun _ _ _ => by rw [hsettled]; simp⟩
  rw [run_of_rest_ne_nil hne] at hrun
  rcases (emits_scan dialect lx.settle).tokens_cases with ⟨hsame, _⟩ | ⟨u, new, hnew, hu⟩
  · -- A step that reads something emits it.
    have hwords := congrArg (List.map Token.word ∘ List.reverse) hsame
    rw [hcode.scan_eq] at hwords
    change (lx.settle.scanCode dialect).wordsRead = lx.settle.wordsRead at hwords
    rcases (scanCode_rule dialect lx.settle).plain_or hsettled hne with ⟨w, ws, hread, _⟩ | ⟨w, hread, _⟩
    · rw [hread] at hwords
      simpa using congrArg List.length hwords
    · rw [hread] at hwords
      change (lx.settle.emit w.1 w.2.length).wordsRead = _ at hwords
      rw [wordsRead_emit] at hwords
      simpa using congrArg List.length hwords
  · obtain ⟨last, hlast⟩ := tokens_suffix_run dialect (lx.settle.scan dialect)
    rw [← hlast, hnew, settle_tokens] at hrun
    simp only [List.reverse_append, List.reverse_cons, List.append_assoc] at hrun
    obtain ⟨rfl, -⟩ := List.cons.inj (List.append_cancel_left hrun)
    exact hu

end UnusedImports.Lexer
