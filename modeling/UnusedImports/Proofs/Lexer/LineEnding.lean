import UnusedImports.Proofs.Import.Outline
import UnusedImports.Proofs.Lexer.CarriageReturn
import UnusedImports.Proofs.Lexer.Coverage

/-! A lexer on a text and one on the same text with carriage returns take the same steps. The two
part only if a literal goes on behind a line break. -/

namespace UnusedImports

open Bytes

/-! ### Places and outlines -/

theorem Position.advance_crlf {p q : Position} (hline : q.line = p.line)
    (hcolumn : q.column = p.column) (s : Bytes) :
    (q.advance (crlf s)).line = (p.advance s).line ∧
      (q.advance (crlf s)).column = (p.advance s).column := by
  induction s generalizing p q with
  | nil => exact ⟨hline, hcolumn⟩
  | cons b s ih =>
      by_cases hb : b = newline
      · subst hb
        exact ih (congrArg (· + 1) hline) rfl
      · have hplain : ∀ r : Position, r.next b = ⟨r.offset + 1, r.line, r.column + 1⟩ := fun r => by
          simp [next, hb]
        rw [crlf_cons hb]
        refine ih (p := p.next b) (q := q.next b) ?_ ?_
        · rw [hplain, hplain]
          exact hline
        · rw [hplain, hplain]
          exact congrArg (· + 1) hcolumn

theorem Position.line_advance_of_notMem {s : Bytes} (h : newline ∉ s) (p : Position) :
    (p.advance s).line = p.line := by
  induction s generalizing p with
  | nil => rfl
  | cons b s ih =>
      rw [List.mem_cons, not_or] at h
      have hnext : (p.next b).line = p.line := by
        simp [next, Ne.symm h.1]
      exact (ih h.2 (p.next b)).trans hnext

namespace Token

/-- A literal may have other text, if it reads `as` no more and no less. -/
theorem outline_eq {p q : Position} (hline : q.line = p.line) (hcolumn : q.column = p.column)
    {kind : TokenKind} {text text' : Bytes}
    (hword : kind = .identifier ∨ kind = .punctuation → text' = text)
    (has : text' = utf8 "as" ↔ text = utf8 "as") :
    (⟨q, kind, text'⟩ : Token).outline = (⟨p, kind, text⟩ : Token).outline := by
  have hsame : text' = text ∨ ¬ (kind = .identifier ∨ kind = .punctuation) ∧
      text' ≠ utf8 "as" ∧ text ≠ utf8 "as" := by
    by_cases hkind : kind = .identifier ∨ kind = .punctuation
    · exact .inl (hword hkind)
    · by_cases htext : text = utf8 "as"
      · exact .inl ((has.mpr htext).trans htext.symm)
      · exact .inr ⟨hkind, fun h => htext (has.mp h), htext⟩
  rcases hsame with rfl | ⟨hkind, htext', htext⟩
  · simp [outline, hline, hcolumn]
  · rw [not_or] at hkind
    simp [outline, hline, hcolumn, hkind, htext', htext]

theorem outline_crlf {p q : Position} (hline : q.line = p.line) (hcolumn : q.column = p.column)
    {kind : TokenKind} {text : Bytes}
    (hword : kind = .identifier ∨ kind = .punctuation → newline ∉ text) :
    (⟨q, kind, crlf text⟩ : Token).outline = (⟨p, kind, text⟩ : Token).outline := by
  refine outline_eq hline hcolumn (fun hkind => crlf_of_notMem (hword hkind)) ?_
  by_cases hmem : newline ∈ text
  · have hreturn : carriageReturn ∈ crlf text :=
      List.mem_flatMap.mpr ⟨newline, hmem, List.mem_cons_self⟩
    refine iff_of_false (fun h => ?_) (fun h => ?_)
    · rw [h] at hreturn
      exact absurd hreturn (by decide)
    · rw [h] at hmem
      exact absurd hmem (by decide)
  · rw [crlf_of_notMem hmem]

/-- A quoted literal or a regular expression with a line break behind a backslash. -/
def ContinuesLine (t : Token) : Prop :=
  (t.kind = .string ∨ t.kind = .regex) ∧ Lexeme.Continues t.text

instance (t : Token) : Decidable t.ContinuesLine := inferInstanceAs (Decidable (_ ∧ _ <:+: _))

end Token

namespace Lexer

theorem startsOperand_outline (t : Token) : startsOperand t.outline = startsOperand t := by
  have hmark : t.outline.isPunctuator = t.isPunctuator := funext t.outline_isPunctuator
  have hword : t.outline.isWord = t.isWord := funext t.outline_isWord
  unfold startsOperand
  rw [Token.outline_kind, hmark, hword]

/-! ### Two lexers -/

/-- Two lexers have read the same, up to offsets and line endings. -/
structure Alike (lx twin : Lexer) : Prop where
  line : twin.position.line = lx.position.line
  depth : twin.depth = lx.depth
  frames : twin.frames = lx.frames
  tokens : twin.tokens.map Token.outline = lx.tokens.map Token.outline

/-- The second lexer reads on in the same text with carriage returns. -/
structure Alongside (lx twin : Lexer) : Prop extends Alike lx twin where
  column : twin.position.column = lx.position.column
  rest : twin.rest = crlf lx.rest

/-- The second lexer has read the carriage return of a line break already. -/
structure Ahead (lx twin : Lexer) : Prop extends Alike lx twin where
  rest : ∃ z, lx.rest = newline :: z ∧ twin.rest = newline :: crlf z
  outside : lx.frames.head? ≠ some .children

variable {lx twin next : Lexer}

namespace Alongside

theorem push (h : Alongside lx twin) (f : Frame) : Alongside (lx.push f) (twin.push f) where
  line := h.line
  depth := h.depth
  frames := congrArg (f :: ·) h.frames
  tokens := h.tokens
  column := h.column
  rest := h.rest

theorem pop (h : Alongside lx twin) : Alongside lx.pop twin.pop where
  line := h.line
  depth := h.depth
  frames := congrArg List.tail h.frames
  tokens := h.tokens
  column := h.column
  rest := h.rest

theorem deepen (h : Alongside lx twin) (depth : Nat) :
    Alongside { lx with depth } { twin with depth } where
  line := h.line
  depth := rfl
  frames := h.frames
  tokens := h.tokens
  column := h.column
  rest := h.rest

/-- Both lexers move over the same text. -/
theorem skip (h : Alongside lx twin) {k m : Nat} (htake : twin.rest.take m = crlf (lx.rest.take k))
    (hdrop : twin.rest.drop m = crlf (lx.rest.drop k)) : Alongside (lx.skip k) (twin.skip m) := by
  obtain ⟨hline, hcolumn⟩ := Position.advance_crlf h.line h.column (lx.rest.take k)
  rw [← htake] at hline hcolumn
  exact ⟨⟨hline, h.depth, h.frames, h.tokens⟩, hcolumn, hdrop⟩

theorem emit (h : Alongside lx twin) (kind : TokenKind) {k m : Nat}
    (hword : kind = .identifier ∨ kind = .punctuation → newline ∉ lx.rest.take k)
    (htake : twin.rest.take m = crlf (lx.rest.take k))
    (hdrop : twin.rest.drop m = crlf (lx.rest.drop k)) :
    Alongside (lx.emit kind k) (twin.emit kind m) := by
  have hskip := h.skip htake hdrop
  refine ⟨⟨hskip.line, hskip.depth, hskip.frames, ?_⟩, hskip.column, hskip.rest⟩
  have htoken := Token.outline_crlf h.line h.column hword
  rw [← htake] at htoken
  exact List.cons_eq_cons.mpr ⟨htoken, h.tokens⟩

/-- A token in one line. -/
theorem emit_line (h : Alongside lx twin) (kind : TokenKind) {k : Nat}
    (hline : newline ∉ lx.rest.take k) : Alongside (lx.emit kind k) (twin.emit kind k) := by
  obtain ⟨htake, hdrop⟩ := take_crlf_of_notMem hline
  rw [← h.rest] at htake hdrop
  exact h.emit kind (fun _ => hline) (by rw [htake, crlf_of_notMem hline]) hdrop

/-- A literal that starts in one line, and that may go on in others. -/
theorem emit_literal (h : Alongside lx twin) {kind : TokenKind}
    (hkind : ¬ (kind = .identifier ∨ kind = .punctuation)) {k : Nat}
    (hline : newline ∉ lx.rest.take k) (j : Nat) :
    Alongside (lx.emit kind (k + j))
      (twin.emit kind (k + (crlf ((lx.rest.drop k).take j)).length)) := by
  obtain ⟨htake, hdrop⟩ := take_crlf_of_notMem hline
  rw [← h.rest] at htake hdrop
  refine h.emit kind (absurd · hkind) ?_ ?_
  · rw [List.take_add, List.take_add, htake, hdrop, take_crlf, crlf_append, crlf_of_notMem hline]
  · rw [← List.drop_drop, ← List.drop_drop, hdrop, drop_crlf]

theorem operandAllowed_eq (h : Alongside lx twin) : twin.operandAllowed = lx.operandAllowed := by
  have hhead := congrArg (fun ts => ts.head?.all startsOperand) h.tokens
  have hall : ∀ o : Option Token,
      (o.map Token.outline).all startsOperand = o.all startsOperand := by
    rintro (_ | t)
    · rfl
    · exact startsOperand_outline t
  simp only [List.head?_map, hall] at hhead
  exact hhead

end Alongside

namespace Ahead

/-- A line break that follows text in one line. -/
theorem of_skip (h : Alongside lx twin) {k : Nat} {z : Bytes} (hline : newline ∉ lx.rest.take k)
    (hbreak : lx.rest.drop k = newline :: z) (houtside : lx.frames.head? ≠ some .children) :
    twin.rest.take (k + 1) = lx.rest.take k ++ [carriageReturn] ∧
      Ahead (lx.skip k) (twin.skip (k + 1)) := by
  obtain ⟨htake, hdrop⟩ := take_crlf_of_notMem hline
  rw [← h.rest] at htake hdrop
  rw [hbreak, crlf_newline] at hdrop
  have hmore : twin.rest.take (k + 1) = lx.rest.take k ++ [carriageReturn] := by
    rw [List.take_add, htake, hdrop]
    rfl
  have hreturn : newline ∉ lx.rest.take k ++ [carriageReturn] := by
    rw [List.mem_append, not_or]
    exact ⟨hline, by decide⟩
  refine ⟨hmore, ⟨⟨?_, h.depth, h.frames, h.tokens⟩, ⟨z, hbreak, ?_⟩, houtside⟩⟩
  · have hlong := Position.line_advance_of_notMem hreturn twin.position
    have hshort := Position.line_advance_of_notMem hline lx.position
    rw [← hmore] at hlong
    exact hlong.trans (h.line.trans hshort.symm)
  · rw [skip_rest, ← List.drop_drop, hdrop]
    rfl

theorem of_emit (h : Alongside lx twin) {kind : TokenKind} {k : Nat} {z : Bytes}
    (hkind : ¬ (kind = .identifier ∨ kind = .punctuation)) (hline : newline ∉ lx.rest.take k)
    (hbreak : lx.rest.drop k = newline :: z) (has : lx.rest.take k ≠ utf8 "as")
    (houtside : lx.frames.head? ≠ some .children) :
    Ahead (lx.emit kind k) (twin.emit kind (k + 1)) := by
  obtain ⟨hmore, hskip⟩ := of_skip h hline hbreak houtside
  refine ⟨⟨hskip.line, hskip.depth, hskip.frames, ?_⟩, hskip.rest, hskip.outside⟩
  have hnot : lx.rest.take k ++ [carriageReturn] ≠ utf8 "as" := fun heq => by
    have hlast := congrArg List.getLast? heq
    rw [List.getLast?_concat] at hlast
    exact absurd (Option.some.inj hlast) (by decide)
  have htoken : (⟨twin.position, kind, lx.rest.take k ++ [carriageReturn]⟩ : Token).outline =
      (⟨lx.position, kind, lx.rest.take k⟩ : Token).outline :=
    Token.outline_eq h.line h.column (absurd · hkind) (iff_of_false hnot has)
  rw [← hmore] at htoken
  exact List.cons_eq_cons.mpr ⟨htoken, h.tokens⟩

end Ahead

/-! ### Settling -/

theorem Alongside.settle (h : Alongside lx twin) : Alongside lx.settle twin.settle := by
  by_cases hframes : lx.frames.head? = some .children
  · rw [settle_of_children hframes, settle_of_children (by rwa [h.frames])]
    exact h
  · rw [settle_of_not_children hframes, settle_of_not_children (by rwa [h.frames])]
    obtain ⟨k, -, hk, hspec⟩ := Lexeme.triviaLength_crlf lx.rest 0 0
    rw [hk, h.rest, hspec, Nat.zero_add, Nat.zero_add]
    refine h.skip ?_ ?_
    · rw [h.rest, take_crlf]
    · rw [h.rest, drop_crlf]

/-- The line break is moved over, and both lexers are at the start of the next line. -/
theorem Ahead.settle (h : Ahead lx twin) : Alongside lx.settle twin.settle := by
  obtain ⟨z, hz, htwin⟩ := h.rest
  rw [settle_of_not_children h.outside, settle_of_not_children (by rw [h.frames]; exact h.outside)]
  obtain ⟨k, -, hk, hspec⟩ := Lexeme.triviaLength_crlf z 1 1
  have hlong : Lexeme.triviaLength lx.rest 0 = k + 1 := by
    rw [hz, Lexeme.triviaLength_newline, hk, Nat.add_comm]
  have hshort : Lexeme.triviaLength twin.rest 0 = (crlf (z.take k)).length + 1 := by
    rw [htwin, Lexeme.triviaLength_newline, hspec, Nat.add_comm]
  obtain ⟨hline, hcolumn⟩ := Position.advance_crlf (p := lx.position.next newline)
    (q := twin.position.next newline) (congrArg (· + 1) h.line) rfl (z.take k)
  have hposition : (lx.skip (k + 1)).position = (lx.position.next newline).advance (z.take k) := by
    simp only [Lexer.skip, hz, List.take_succ_cons]
    rfl
  have hposition' : (twin.skip ((crlf (z.take k)).length + 1)).position =
      (twin.position.next newline).advance (crlf (z.take k)) := by
    simp only [Lexer.skip, htwin, List.take_succ_cons, take_crlf]
    rfl
  rw [hlong, hshort]
  refine ⟨⟨?_, h.depth, h.frames, h.tokens⟩, ?_, ?_⟩
  · rw [hposition, hposition', hline]
  · rw [hposition, hposition', hcolumn]
  · rw [skip_rest, skip_rest, hz, htwin, List.drop_succ_cons, List.drop_succ_cons, drop_crlf]

/-! ### Reading on -/

/-- A name in a tag stays in its line. -/
theorem StartsName.crlf {b : UInt8} {s : Bytes} {n : Nat} (h : StartsName (b :: s) n)
    (hb : b ≠ newline) : StartsName (b :: Bytes.crlf s) n ∧ newline ∉ (b :: s).take n := by
  obtain ⟨hname, hword⟩ := Lexeme.nameLength_crlf hb s _ rfl
  rw [h.length] at hname hword
  refine ⟨⟨?_, ?_⟩, hword⟩
  · rw [(Utf8.decode_crlf hb s).1]
    exact h.start
  · rw [(Utf8.decode_crlf hb s).1]
    exact hname

/-- Two lexers read the same on the same text, apart from line endings. -/
def Near (lx twin : Lexer) : Prop := Alongside lx twin ∨ Ahead lx twin

theorem Near.settle (h : Near lx twin) : Alongside lx.settle twin.settle :=
  h.elim Alongside.settle Ahead.settle

namespace Alongside

theorem notMem_take_one {b : UInt8} (hb : b ≠ newline) {s : Bytes} (hs : lx.rest = b :: s) :
    newline ∉ lx.rest.take 1 := by
  rw [hs]
  simpa using Ne.symm hb

theorem scanTemplate (h : Alongside lx twin) {k : Nat} (hline : newline ∉ lx.rest.take k) :
    Alongside (lx.scanTemplate k) (twin.scanTemplate k) := by
  obtain ⟨hlength, hend⟩ := Lexeme.templateLength_crlf (lx.rest.drop k)
  obtain ⟨j, -, hj, hspec⟩ := hlength k k
  have hpiece := h.emit_literal (show ¬ (TokenKind.template = .identifier ∨ _) by simp) hline j
  have hdrop := (take_crlf_of_notMem hline).2
  rw [← h.rest] at hdrop
  unfold Lexer.scanTemplate
  rw [hdrop, h.depth]
  cases hlong : Lexeme.templateLength (lx.rest.drop k) k with
  | mk n e =>
      obtain rfl : n = k + j := by simpa [hlong] using hj
      have hshort : Lexeme.templateLength (crlf (lx.rest.drop k)) k = (_, e) :=
        Prod.ext hspec (by rw [hend k k, hlong])
      rw [hshort]
      cases e with
      | substitution =>
          refine (hpiece.emit_line .punctuation ?_).push _
          obtain ⟨hle, rest, hrest⟩ := Lexeme.drop_templateLength hlong
          rw [List.drop_drop, Nat.add_sub_cancel' hle] at hrest
          rw [emit_rest, hrest]
          exact fun hmem => absurd (List.mem_of_mem_take (l := utf8 "$\x7b") (i := 2) hmem)
            (by decide)
      | closed => exact hpiece
      | unterminated => exact hpiece

/-- In front of a byte that is no line break the second lexer has that byte, too. -/
theorem rest_cons (h : Alongside lx twin) {b : UInt8} {s : Bytes} (hs : lx.rest = b :: s)
    (hb : b ≠ newline) : twin.rest = b :: crlf s := by
  rw [h.rest, hs, crlf_cons hb]

theorem emit_one (h : Alongside lx twin) {b : UInt8} {s : Bytes} (hs : lx.rest = b :: s)
    (hb : b ≠ newline) : Alongside (lx.emit .punctuation 1) (twin.emit .punctuation 1) :=
  h.emit_line .punctuation (notMem_take_one hb hs)

theorem braceRule (h : Alongside lx twin) {s : Bytes} (hs : lx.rest = closeBrace :: s)
    (hrule : BraceRule lx next) : ∃ next', BraceRule twin next' ∧ Alongside next next' := by
  have hbrace := h.emit_one hs (by decide)
  cases hrule with
  | substitution hframes =>
      exact ⟨_, .substitution (by rw [h.frames, h.depth, hframes]),
        hbrace.pop.scanTemplate (by simp)⟩
  | container hframes =>
      exact ⟨_, .container (by rw [h.frames, h.depth, hframes]), hbrace.pop⟩
  | block htemplate hcontainer =>
      refine ⟨_, .block (by rwa [h.frames, h.depth]) (by rwa [h.frames, h.depth]), ?_⟩
      rw [h.depth]
      exact hbrace.deepen _

theorem scanOpenTag (h : Alongside lx twin) {s : Bytes} (hs : lx.rest = '<'.toUInt8 :: s) :
    Alongside lx.scanOpenTag twin.scanOpenTag := by
  have htwin : twin.rest = '<'.toUInt8 :: crlf s := by rw [h.rest, hs, crlf_cons (by decide)]
  unfold Lexer.scanOpenTag
  rw [htwin, hs]
  dsimp only [List.tail_cons]
  rw [head?_crlf (by decide) (by decide)]
  refine (h.emit_line .punctuation ?_).push _
  split
  · next hclose =>
    obtain ⟨t, rfl⟩ := List.head?_eq_some_iff.mp (beq_iff_eq.mp hclose)
    rw [hs]
    simp only [List.take_succ_cons, List.take_zero]
    decide
  · exact notMem_take_one (by decide) hs

theorem opensMarkup_eq (h : Alongside lx twin) (dialect : Dialect) (s : Bytes) :
    twin.opensMarkup dialect (crlf s) = lx.opensMarkup dialect s := by
  have hempty : (crlf s).isEmpty = s.isEmpty := by
    rw [Bool.eq_iff_iff, List.isEmpty_iff, List.isEmpty_iff, crlf_eq_nil]
  unfold opensMarkup
  rw [h.operandAllowed_eq, head?_crlf (by decide) (by decide), hempty, Utf8.isStart_decode_crlf,
    closedLater_crlf]

theorem ne_newline_of_settled (hsettled : lx.rest.head? ≠ some newline) ⦃b : UInt8⦄ ⦃s : Bytes⦄
    (hs : lx.rest = b :: s) : b ≠ newline := by
  rintro rfl
  exact hsettled (by rw [hs]; rfl)

/-- In code, only a quoted literal that is not closed makes the second lexer read ahead. -/
theorem codeRule {dialect : Dialect} (h : Alongside lx twin)
    (houtside : lx.frames.head? ≠ some .children) (hsettled : lx.rest.head? ≠ some newline)
    (hrule : CodeRule dialect lx next)
    (hbreaks : ∀ t, next.tokens = t :: lx.tokens → ¬ t.ContinuesLine) :
    ∃ next', CodeRule dialect twin next' ∧ Near next next' := by
  have hline := ne_newline_of_settled hsettled
  cases hrule with
  | done hs => exact ⟨_, .done (by rw [h.rest, hs, crlf_nil]), .inl h⟩
  | template hs =>
      exact ⟨_, .template (h.rest_cons hs (hline hs)),
        .inl (h.scanTemplate (notMem_take_one (hline hs) hs))⟩
  | openBrace hs =>
      refine ⟨_, .openBrace (h.rest_cons hs (hline hs)), .inl ?_⟩
      rw [h.depth]
      exact (h.emit_one hs (hline hs)).deepen _
  | closeBrace hs =>
      obtain ⟨next', hbrace, hnext⟩ := h.braceRule hs lx.scanCloseBrace_rule
      exact ⟨_, .closeBrace (h.rest_cons hs (hline hs)), .inl (hbrace.eq ▸ hnext)⟩
  | openTag hs hopens =>
      exact ⟨_, .openTag (h.rest_cons hs (hline hs)) (h.opensMarkup_eq dialect _ ▸ hopens),
        .inl (h.scanOpenTag hs)⟩
  | @plain b s hs htick hopen hclose hmarkup =>
      have hb := hline hs
      refine ⟨_, .plain (h.rest_cons hs hb) htick hopen hclose
        (h.opensMarkup_eq dialect s ▸ hmarkup), ?_⟩
      have hnew := hbreaks _ rfl
      rw [h.operandAllowed_eq]
      rcases plainLexeme_crlf lx.operandAllowed hb s with
        ⟨hwhole, heq | ⟨z, hkind, hquote, hrest, heq⟩⟩ | hescape
      · rw [heq]
        exact .inl (h.emit_line _ (by rwa [hs]))
      · rw [heq, hkind]
        refine .inr (.of_emit h (by simp) (by rwa [hs]) (by rw [hs, hrest]) ?_ houtside)
        intro has
        have hhead := congrArg List.head? has
        rw [hs, List.head?_take] at hhead
        split at hhead
        · cases hhead
        · obtain rfl : b = 'a'.toUInt8 := Option.some.inj hhead
          rcases hquote with hquote | hquote <;> exact absurd hquote (by decide)
      · exact absurd (by rwa [hs]) hnew

theorem name {b : UInt8} {s : Bytes} {n : Nat} (h : Alongside lx twin) (hs : lx.rest = b :: s)
    (hb : b ≠ newline) (hname : StartsName (b :: s) n) :
    StartsName (b :: crlf s) n ∧ (b :: crlf s).take n = (b :: s).take n ∧
      Alongside (lx.emit .identifier n) (twin.emit .identifier n) := by
  obtain ⟨hname, hword⟩ := hname.crlf hb
  obtain ⟨htake, -⟩ := take_crlf_of_notMem hword
  rw [crlf_cons hb] at htake
  exact ⟨hname, htake, h.emit_line .identifier (by rwa [hs])⟩

theorem tagRule {closing named : Bool} {attributes : Nat} (h : Alongside lx twin)
    (hsettled : lx.rest.head? ≠ some newline) (hrule : TagRule closing named attributes lx next) :
    ∃ next', TagRule closing named attributes twin next' ∧ Alongside next next' := by
  have hline := ne_newline_of_settled hsettled
  cases hrule with
  | done hs => exact ⟨_, .done (by rw [h.rest, hs, crlf_nil]), h⟩
  | opened hs hopening =>
      exact ⟨_, .opened (h.rest_cons hs (hline hs)) hopening,
        (h.emit_one hs (hline hs)).pop.push _⟩
  | closed hs hclosing hchildren =>
      exact ⟨_, .closed (h.rest_cons hs (hline hs)) hclosing (h.frames ▸ hchildren),
        (h.emit_one hs (hline hs)).pop.pop⟩
  | stray hs hclosing hchildren =>
      exact ⟨_, .stray (h.rest_cons hs (hline hs)) hclosing (h.frames ▸ hchildren),
        (h.emit_one hs (hline hs)).pop⟩
  | closesItself hs hopening =>
      have htwin := h.rest_cons hs (hline hs)
      rw [crlf_cons (by decide)] at htwin
      refine ⟨_, .closesItself htwin hopening, (h.emit_line .punctuation ?_).pop⟩
      rw [hs]
      simp only [List.take_succ_cons, List.take_zero]
      decide
  | container hs hnamed =>
      refine ⟨_, .container (h.rest_cons hs (hline hs)) hnamed, ?_⟩
      rw [h.depth]
      exact (h.emit_one hs (hline hs)).push _
  | @quoted b s hs hquote hnamed =>
      obtain ⟨j, -, hj, hspec⟩ := Lexeme.attributeLength_crlf hquote s 1 1
      have hstring := h.emit_literal (show ¬ (TokenKind.string = .identifier ∨ _) by simp)
        (notMem_take_one (hline hs) hs) j
      rw [hs, List.drop_succ_cons, List.drop_zero, ← hj, ← hspec] at hstring
      exact ⟨_, .quoted (h.rest_cons hs (hline hs)) hquote hnamed, hstring⟩
  | joint hs hjoint =>
      exact ⟨_, .joint (h.rest_cons hs (hline hs)) hjoint, h.emit_one hs (hline hs)⟩
  | tagName hs hstart hnamed =>
      obtain ⟨hstart, -, hread⟩ := h.name hs (hline hs) hstart
      exact ⟨_, .tagName (h.rest_cons hs (hline hs)) hstart hnamed, hread.pop.push _⟩
  | constraint hs hstart hnamed hextends =>
      obtain ⟨hstart, htake, hread⟩ := h.name hs (hline hs) hstart
      exact ⟨_, .constraint (h.rest_cons hs (hline hs)) hstart hnamed (htake ▸ hextends),
        hread.pop⟩
  | attributeName hs hstart hnamed hextends =>
      obtain ⟨hstart, htake, hread⟩ := h.name hs (hline hs) hstart
      exact ⟨_, .attributeName (h.rest_cons hs (hline hs)) hstart hnamed (htake ▸ hextends),
        hread.pop.push _⟩
  | givenUp hs hend hself hopen hquote hjoint hnone =>
      refine ⟨_, .givenUp (h.rest_cons hs (hline hs)) hend ?_ hopen hquote hjoint ?_, h.pop⟩
      · rwa [← beq_iff_eq (a := (crlf _).head?), head?_crlf (by decide) (by decide), beq_iff_eq]
      · rwa [(Utf8.decode_crlf (hline hs) _).1]

theorem scanMarkup (h : Alongside lx twin) : Alongside lx.scanMarkup twin.scanMarkup := by
  obtain ⟨k, hle, hk, hspec⟩ := Lexeme.markupLength_crlf lx.rest 0 0
  have htext := h.emit_literal (show ¬ (TokenKind.markupText = .identifier ∨ _) by simp)
    (show newline ∉ lx.rest.take 0 by simp) k
  rw [List.drop_zero, ← hk, ← hspec, ← h.rest] at htext
  have hzero : (Lexeme.markupLength twin.rest 0 == 0) = (Lexeme.markupLength lx.rest 0 == 0) := by
    rw [Bool.eq_iff_iff, beq_iff_eq, beq_iff_eq, h.rest, hspec, hk, Nat.zero_add, Nat.zero_add,
      List.length_eq_zero_iff, crlf_eq_nil, List.take_eq_nil_iff]
    refine ⟨fun hnil => hnil.elim id fun hrest => ?_, .inl⟩
    rw [hrest] at hle
    exact Nat.le_zero.mp hle
  unfold Lexer.scanMarkup
  dsimp only
  rw [hzero]
  split
  · exact h
  · exact htext

theorem openingRule (h : Alongside lx twin) (hrule : OpeningRule lx next)
    (hopens : ∀ b s, lx.rest = b :: s → b = openBrace ∨ b = '<'.toUInt8) :
    ∃ next', OpeningRule twin next' ∧ Alongside next next' := by
  cases hrule with
  | done hs => exact ⟨_, .done (by rw [h.rest, hs, crlf_nil]), h⟩
  | container hs =>
      refine ⟨_, .container (h.rest_cons hs (by decide)), ?_⟩
      rw [h.depth]
      exact (h.emit_one hs (by decide)).push _
  | tag hs hbrace =>
      obtain rfl := (hopens _ _ hs).resolve_left hbrace
      exact ⟨_, .tag (h.rest_cons hs (by decide)) hbrace, h.scanOpenTag hs⟩

theorem scanChildren (h : Alongside lx twin) : Alongside lx.scanChildren twin.scanChildren := by
  obtain ⟨next', hrule, hnext⟩ := h.scanMarkup.openingRule lx.scanMarkup.scanOpening_rule
    fun b s hs => by
      rw [scanMarkup_rest] at hs
      exact (Lexeme.opens_of_markupLength (n := 0) hs).imp_right And.left
  rwa [scanChildren_eq twin, hrule.eq]

/-- A step from a place that is no line break. -/
theorem scan (h : Alongside lx twin) (dialect : Dialect)
    (hsettled : lx.frames.head? ≠ some .children → lx.rest.head? ≠ some newline)
    (hbreaks : lx.InCode → ∀ t, (lx.scan dialect).tokens = t :: lx.tokens → ¬ t.ContinuesLine) :
    Near (lx.scan dialect) (twin.scan dialect) := by
  rcases scan_cases dialect lx with
    ⟨hframes, hscan⟩ | ⟨closing, named, attributes, hframes, hscan⟩ | ⟨hcode, hscan⟩
  · rw [hscan, scan_of_children (by rwa [h.frames])]
    exact .inl h.scanChildren
  · rw [hscan, scan_of_tag (by rwa [h.frames])]
    obtain ⟨next', hrule, hnext⟩ := h.tagRule (hsettled (by simp [hframes]))
      (scanTag_rule closing named attributes lx)
    exact .inl (hrule.eq ▸ hnext)
  · rw [hscan] at hbreaks ⊢
    rw [(hcode.congr h.frames).scan_eq dialect]
    obtain ⟨next', hrule, hnext⟩ := h.codeRule hcode.not_children (hsettled hcode.not_children)
      (scanCode_rule dialect lx) (hbreaks hcode)
    rwa [hrule.eq]

end Alongside

/-! ### Whole runs -/

/-- Behind blanks there is no line break. -/
theorem settle_rest_head? {lx : Lexer} (houtside : lx.settle.frames.head? ≠ some .children) :
    lx.settle.rest.head? ≠ some newline := by
  intro hhead
  rw [settle_frames] at houtside
  have hsettled := Lexeme.triviaLength_settled lx.rest
  rw [settle_of_not_children houtside, skip_rest] at hhead
  obtain ⟨z, hz⟩ := List.head?_eq_some_iff.mp hhead
  have hle := Lexeme.le_triviaLength z 1
  rw [hz, Lexeme.triviaLength_newline, Nat.zero_add] at hsettled
  omega

/-- Some round from here on is in code and reads one token. -/
def ReadsInCode (dialect : Dialect) (lx : Lexer) (t : Token) : Prop :=
  ∃ next, Relation.ReflTransGen (Round dialect) lx next ∧ next.settle.InCode ∧
    (next.settle.scan dialect).tokens = t :: next.settle.tokens

theorem ReadsInCode.mem_run {dialect : Dialect} {t : Token} (h : lx.ReadsInCode dialect t) :
    t ∈ (lx.run dialect).tokens := by
  obtain ⟨next, hrounds, hcode, hread⟩ := h
  have hmore : next.settle.rest ≠ [] := fun hnil => by
    rw [hcode.scan_eq dialect, (CodeRule.done hnil).eq] at hread
    exact absurd hread.symm (List.cons_ne_self _ _)
  rw [← run_of_rounds hrounds, run_of_rest_ne_nil hmore]
  refine (tokens_suffix_run dialect _).subset ?_
  rw [hread]
  exact List.mem_cons_self

theorem Near.tokens_run (h : Near lx twin) (dialect : Dialect)
    (hbreaks : ∀ t, lx.ReadsInCode dialect t → ¬ t.ContinuesLine) :
    (twin.run dialect).tokens.map Token.outline = (lx.run dialect).tokens.map Token.outline := by
  fun_induction run dialect lx generalizing twin with
  | case1 lx hend =>
      have hsettle := h.settle
      rw [run_of_rest_eq_nil (by rw [hsettle.rest, hend, crlf_nil])]
      exact hsettle.tokens
  | case2 lx hmore ih =>
      have hsettle := h.settle
      rw [run_of_rest_ne_nil (by rwa [hsettle.rest, ne_eq, crlf_eq_nil])]
      refine ih (hsettle.scan dialect settle_rest_head? fun hcode t hread => ?_) ?_
      · exact hbreaks t ⟨lx, .refl, hcode, hread⟩
      · rintro t ⟨next, hrounds, hread⟩
        exact hbreaks t ⟨next, .head ⟨hmore, rfl⟩ hrounds, hread⟩

/-- The line of the interpreter takes along its carriage return. -/
theorem near_skipHashbang (s : Bytes) :
    Near (ofSource s).skipHashbang (ofSource (crlf s)).skipHashbang := by
  have hstart : Alongside (ofSource s) (ofSource (crlf s)) :=
    ⟨⟨rfl, rfl, rfl, rfl⟩, rfl, rfl⟩
  have hscript : (utf8 "#!").isPrefixOf (crlf s) = (utf8 "#!").isPrefixOf s := by
    rcases crlf_cases s with ⟨-, heq⟩ | ⟨a, z, -, rfl, heq⟩
    · rw [heq]
    · rw [heq, isPrefixOf_append (by decide), isPrefixOf_append (by decide)]
  by_cases hprefix : utf8 "#!" <+: s
  · have hprefix' : utf8 "#!" <+: crlf s := by
      rwa [← List.isPrefixOf_iff_prefix, hscript, List.isPrefixOf_iff_prefix]
    rw [skipHashbang_script hprefix, skipHashbang_script hprefix']
    rcases crlf_cases s with ⟨hs, heq⟩ | ⟨a, z, ha, hs, heq⟩
    · have hline : newline ∉ s.take (Lexeme.lineLength s 0) := fun hmem =>
        hs (List.mem_of_mem_take hmem)
      obtain ⟨htake, hdrop⟩ := take_crlf_of_notMem hline
      have hlength : Lexeme.lineLength (crlf s) 0 = Lexeme.lineLength s 0 := by rw [heq]
      rw [hlength]
      exact .inl (hstart.skip (htake.trans (crlf_of_notMem hline).symm) hdrop)
    · have hreturn : newline ∉ a ++ [carriageReturn] := by
        rw [List.mem_append, not_or]
        exact ⟨ha, by decide⟩
      have hlong : Lexeme.lineLength s 0 = a.length := by
        rw [hs, Lexeme.lineLength_of_endsLine ha (.inr rfl), Nat.zero_add]
      have hshort : Lexeme.lineLength (crlf s) 0 = a.length + 1 := by
        rw [heq, List.append_cons, Lexeme.lineLength_of_endsLine hreturn (.inr rfl), Nat.zero_add,
          List.length_append]
        rfl
      rw [hlong, hshort]
      refine .inr (Ahead.of_skip (z := z) hstart ?_ ?_ ?_).2
      · rw [show (ofSource s).rest = a ++ newline :: z from hs, List.take_left]
        exact ha
      · rw [show (ofSource s).rest = a ++ newline :: z from hs, List.drop_left]
      · simp [ofSource]
  · have hprefix' : ¬ utf8 "#!" <+: crlf s := by
      rwa [← List.isPrefixOf_iff_prefix, hscript, List.isPrefixOf_iff_prefix]
    rw [skipHashbang_plain hprefix, skipHashbang_plain hprefix']
    exact .inl hstart

end Lexer

/-- A token of a text that is read in code, so neither in a tag nor as the text of an element. -/
def ReadInCode (dialect : Dialect) (source : Bytes) (t : Token) : Prop :=
  (Lexer.ofSource source).skipHashbang.ReadsInCode dialect t

theorem ReadInCode.mem_tokenize {dialect : Dialect} {source : Bytes} {t : Token}
    (h : ReadInCode dialect source t) : t ∈ tokenize dialect source :=
  List.mem_reverse.mpr h.mem_run

/-- A text with carriage returns has the same tokens, on the same lines and in the same columns,
if no literal of its code has a line break behind a backslash. -/
theorem tokenize_crlf {dialect : Dialect} {source : Bytes}
    (h : ∀ t, ReadInCode dialect source t → ¬ t.ContinuesLine) :
    (tokenize dialect (crlf source)).map Token.outline =
      (tokenize dialect source).map Token.outline := by
  have hrun := (Lexer.near_skipHashbang source).tokens_run dialect h
  rw [tokenize, tokenize, List.map_reverse, List.map_reverse, hrun]

end UnusedImports
