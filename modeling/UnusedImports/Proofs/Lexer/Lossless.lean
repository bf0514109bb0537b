import UnusedImports.Proofs.Lexer.Rules
import UnusedImports.Proofs.Lexer.Trivia
import Mathlib.Data.List.Induction

/-! The tokens of a text and the gaps between them are the text again, and every gap is filled with
blanks and comments. -/

namespace UnusedImports

/-! ### Places -/

/-- The place after a text: a line for each line break, a column for each byte after the last. -/
theorem Position.advance_start (s : Bytes) :
    Position.start.advance s = ⟨s.length, 1 + s.count Bytes.newline,
      1 + (s.reverse.takeWhile (· != Bytes.newline)).length⟩ := by
  induction s using List.reverseRecOn with
  | nil => rfl
  | append_singleton s b ih =>
      rw [Position.advance] at ih ⊢
      rw [List.foldl_append, ih]
      by_cases hb : b = Bytes.newline
      · simp [hb, Position.next]
        omega
      · simp [hb, Position.next]
        omega

/-! ### Texts with their tokens -/

/-- The interpreter line of a script. -/
def Hashbang (line rest : Bytes) : Prop :=
  utf8 "#!" <+: line ∧ Bytes.newline ∉ line ∧ EndsLine rest

/-- A text that has been read up to some place, what follows that place, and the tokens read, latest
first. Only the piece of a template may be empty. -/
inductive Written : Bytes → Bytes → List Token → Prop where
  | start (rest) : Written [] rest []
  | hashbang {line rest} : Hashbang line rest → Written line rest []
  | trivia {front gap rest tokens} : Written front (gap ++ rest) tokens → Trivia gap rest →
      Written (front ++ gap) rest tokens
  | token {front text rest tokens} (kind) : Written front (text ++ rest) tokens →
      (kind ≠ .template → text ≠ []) →
      Written (front ++ text) rest (⟨Position.start.advance front, kind, text⟩ :: tokens)

namespace Token

/-- A token covers the offsets of its bytes. -/
def Covers (t : Token) (i : Nat) : Prop := t.offset ≤ i ∧ i < t.offset + t.text.length

instance (t : Token) (i : Nat) : Decidable (t.Covers i) := inferInstanceAs (Decidable (_ ∧ _))

/-- A token is placed in a text that has its bytes where it says. -/
structure Placed (s : Bytes) (t : Token) : Prop where
  inside : t.offset + t.text.length ≤ s.length
  text_eq : t.text = (s.drop t.offset).take t.text.length
  place : t.toPosition = Position.start.advance (s.take t.offset)

theorem Placed.append {s : Bytes} {t : Token} (h : t.Placed s) (more : Bytes) :
    t.Placed (s ++ more) := by
  have hle := h.inside
  refine ⟨by simp only [List.length_append]; omega, ?_, ?_⟩
  · rw [List.drop_append_of_le_length (by omega),
      List.take_append_of_le_length (by simp only [List.length_drop]; omega)]
    exact h.text_eq
  · rw [List.take_append_of_le_length (by omega)]
    exact h.place

/-- From a token on a text is the token and what follows it. -/
theorem Placed.drop_eq {s : Bytes} {t : Token} (h : t.Placed s) :
    s.drop t.offset = t.text ++ s.drop (t.offset + t.text.length) := by
  have hsplit := List.take_append_drop t.text.length (s.drop t.offset)
  rw [← h.text_eq, List.drop_drop] at hsplit
  exact hsplit.symm

theorem placed_after (front text : Bytes) (kind : TokenKind) :
    Placed (front ++ text) ⟨Position.start.advance front, kind, text⟩ := by
  have hoffset : (Position.start.advance front).offset = front.length := by
    rw [Position.advance_start]
  refine ⟨?_, ?_, ?_⟩
  · simp [hoffset]
  · simp [hoffset]
  · simp [hoffset]

end Token

namespace Written

variable {front rest : Bytes} {tokens : List Token}

theorem placed (h : Written front rest tokens) : ∀ t ∈ tokens, t.Placed front := by
  induction h with
  | start => simp
  | hashbang => simp
  | trivia _ _ ih => exact fun t ht => (ih t ht).append _
  | token kind _ _ ih =>
      intro t ht
      rcases List.mem_cons.mp ht with rfl | ht
      · exact Token.placed_after _ _ kind
      · exact (ih t ht).append _

/-- Tokens come in order and do not overlap. -/
theorem ordered (h : Written front rest tokens) :
    tokens.Pairwise fun u t => t.offset + t.text.length ≤ u.offset := by
  induction h with
  | start => exact .nil
  | hashbang => exact .nil
  | trivia _ _ ih => exact ih
  | @token front text rest tokens kind h _ ih =>
      refine .cons ?_ ih
      intro t ht
      rw [Position.advance_start]
      exact (h.placed t ht).inside

theorem nonempty (h : Written front rest tokens) :
    ∀ t ∈ tokens, t.kind ≠ .template → t.text ≠ [] := by
  induction h with
  | start => simp
  | hashbang => simp
  | trivia _ _ ih => exact ih
  | token kind _ hkind ih =>
      intro t ht
      rcases List.mem_cons.mp ht with rfl | ht
      · exact hkind
      · exact ih t ht

end Written

/-! ### Gaps -/

/-- A longest stretch of a text of which no byte belongs to a token. -/
structure IsGap (s : Bytes) (tokens : List Token) (i j : Nat) : Prop where
  lt : i < j
  inside : j ≤ s.length
  uncovered : ∀ k, i ≤ k → k < j → ∀ t ∈ tokens, ¬ t.Covers k
  left : i = 0 ∨ ∃ t ∈ tokens, t.Covers (i - 1)
  right : j = s.length ∨ ∃ t ∈ tokens, t.Covers j

/-- A gap holds trivia. Only at the start of the text may an interpreter line come first. -/
def FillsGap (i : Nat) (gap rest : Bytes) : Prop :=
  Trivia gap rest ∨
    (i = 0 ∧ ∃ line tail, gap = line ++ tail ∧ Hashbang line (tail ++ rest) ∧ Trivia tail rest)

theorem FillsGap.append {i : Nat} {first second rest : Bytes}
    (h : FillsGap i first (second ++ rest)) (hsecond : Trivia second rest) :
    FillsGap i (first ++ second) rest := by
  rcases h with h | ⟨hi, line, tail, rfl, hline, htail⟩
  · exact .inl (h.append hsecond)
  · refine .inr ⟨hi, line, tail ++ second, by simp, ?_, htail.append hsecond⟩
    simpa using hline

namespace Written

variable {front rest : Bytes} {tokens : List Token}

/-- A gap of a longer text that ends inside the shorter one is a gap of the shorter one, where the
tokens that came with the longer one start at its end. -/
theorem isGap_of_append {more : Bytes} (new : List Token) {i j : Nat}
    (hnew : ∀ t ∈ new, front.length ≤ t.offset) (hj : j ≤ front.length)
    (hright : j = front.length ∨ ∃ t ∈ tokens, t.Covers j)
    (h : IsGap (front ++ more) (new ++ tokens) i j) : IsGap front tokens i j := by
  refine ⟨h.lt, hj, ?_, ?_, hright⟩
  · intro k hik hkj t ht
    exact h.uncovered k hik hkj t (List.mem_append_right new ht)
  · rcases h.left with hi | ⟨t, ht, hcovers⟩
    · exact .inl hi
    · rcases List.mem_append.mp ht with ht | ht
      · have := hnew t ht
        have := hcovers.1
        have := h.lt
        omega
      · exact .inr ⟨t, ht, hcovers⟩

theorem lt_of_covers (h : Written front rest tokens) {t : Token} {k : Nat} (ht : t ∈ tokens)
    (hk : t.Covers k) : k < front.length := by
  have := (h.placed t ht).inside
  have := hk.2
  omega

/-- A gap inside the shorter text is filled in the longer one as it is in the shorter one. -/
theorem fillsGap_append {more : Bytes} {i j : Nat} (hj : j ≤ front.length)
    (h : FillsGap i ((front.take j).drop i) (front.drop j ++ (more ++ rest))) :
    FillsGap i (((front ++ more).take j).drop i) ((front ++ more).drop j ++ rest) := by
  rwa [List.take_append_of_le_length hj, List.drop_append_of_le_length hj, List.append_assoc]

/-- New trivia ends the last gap, which may have begun before it. -/
theorem fillsGap_trivia {gap : Bytes} {i : Nat} (htrivia : Trivia gap rest)
    (hgap : IsGap (front ++ gap) tokens i (front ++ gap).length) (hi : i ≤ front.length)
    (hfill : IsGap front tokens i front.length → FillsGap i (front.drop i) (gap ++ rest)) :
    FillsGap i ((front ++ gap).drop i) rest := by
  rw [List.drop_append_of_le_length hi]
  rcases Nat.lt_or_eq_of_le hi with hlt | rfl
  · have hold : IsGap front tokens i front.length := by
      refine ⟨hlt, Nat.le_refl _, ?_, hgap.left, .inl rfl⟩
      intro k hik hk
      exact hgap.uncovered k hik (by simp only [List.length_append]; omega)
    exact (hfill hold).append htrivia
  · rw [List.drop_length]
    exact .inl htrivia

/-- No byte of a gap belongs to the new token, so the gap ends where that token starts at the
latest. -/
theorem isGap_of_token {text : Bytes} {kind : TokenKind} {i j : Nat}
    (hgap : IsGap (front ++ text) (⟨Position.start.advance front, kind, text⟩ :: tokens) i j) :
    j ≤ front.length ∧ IsGap front tokens i j := by
  have hoffset : (Position.start.advance front).offset = front.length := by
    rw [Position.advance_start]
  have hfresh : ∀ k, i ≤ k → k < j → k < front.length + text.length → k < front.length := by
    intro k hik hkj hlt
    have hnot := hgap.uncovered k hik hkj _ List.mem_cons_self
    simp only [Token.Covers, hoffset, not_and] at hnot
    omega
  have hlt := hgap.lt
  have hinside := hgap.inside
  have hlast := hfresh (j - 1) (by omega) (by omega)
    (by simp only [List.length_append] at hinside; omega)
  have hright : j = front.length ∨ ∃ t ∈ tokens, t.Covers j := by
    rcases hgap.right with hj | ⟨t, ht, hcovers⟩
    · simp only [List.length_append] at hj
      exact .inl (by omega)
    · rcases List.mem_cons.mp ht with rfl | ht
      · simp only [Token.Covers, hoffset] at hcovers
        exact .inl (by omega)
      · exact .inr ⟨t, ht, hcovers⟩
  exact ⟨by omega, isGap_of_append [_] (by simp [hoffset]) (by omega) hright hgap⟩

/-- Every gap of the text that has been read is filled with trivia. -/
theorem fillsGap (h : Written front rest tokens) :
    ∀ i j, IsGap front tokens i j →
      FillsGap i ((front.take j).drop i) (front.drop j ++ rest) := by
  induction h with
  | start =>
      intro i j hgap
      have := hgap.lt
      have := hgap.inside
      simp at this
      omega
  | @hashbang line rest hline =>
      intro i j hgap
      have hi : i = 0 := by simpa using hgap.left
      have hj : j = line.length := by simpa using hgap.right
      subst hi hj
      refine .inr ⟨rfl, line, [], by simp, by simpa using hline, ?_⟩
      simpa using Trivia.nil rest
  | @trivia front gap rest tokens h htrivia ih =>
      intro i j hgap
      rcases hgap.right with rfl | ⟨t, ht, hcovers⟩
      · have hi : i ≤ front.length := by
          rcases hgap.left with hi | ⟨t, ht, hcovers⟩
          · omega
          · have := h.lt_of_covers ht hcovers
            omega
        rw [List.take_length, List.drop_length, List.nil_append]
        exact fillsGap_trivia htrivia hgap hi fun hold => by simpa using ih i front.length hold
      · have hj := h.lt_of_covers ht hcovers
        have hold : IsGap front tokens i j :=
          isGap_of_append [] (by simp) (by omega) (.inr ⟨t, ht, hcovers⟩) hgap
        exact fillsGap_append (by omega) (ih i j hold)
  | token kind h hkind ih =>
      intro i j hgap
      obtain ⟨hj, hold⟩ := isGap_of_token hgap
      exact fillsGap_append hj (ih i j hold)

end Written

/-! ### The lexer -/

namespace Lexeme

/-- A piece of a template that a substitution ends is followed by the opening of that. -/
theorem drop_templateLength {s : Bytes} {n m : Nat}
    (h : templateLength s n = (m, .substitution)) :
    n ≤ m ∧ ∃ rest, s.drop (m - n) = utf8 "$\x7b" ++ rest := by
  fun_induction templateLength s n with
  | case1 => simp at h
  | case2 b n => split at h <;> simp at h
  | case3 b c s n hb ih =>
      obtain ⟨hle, rest, hrest⟩ := ih h
      refine ⟨by omega, rest, ?_⟩
      rw [← hrest, show m - n = m - (n + 2) + 2 by omega]
      rfl
  | case4 => simp at h
  | case5 b c s n hb hc hd =>
      obtain ⟨rfl, _⟩ := Prod.mk.inj h
      simp only [Bool.and_eq_true, beq_iff_eq] at hd
      obtain ⟨rfl, rfl⟩ := hd
      exact ⟨Nat.le_refl _, s, by simp; rfl⟩
  | case6 b c s n hb hc hd ih =>
      obtain ⟨hle, rest, hrest⟩ := ih h
      refine ⟨by omega, rest, ?_⟩
      rw [← hrest, show m - n = m - (n + 1) + 1 by omega]
      rfl

end Lexeme

namespace Lexer

/-- The lexer stands inside a source: what it has read, with its tokens, and what it has not are
that source. -/
def ReadsFrom (source : Bytes) (lx : Lexer) : Prop :=
  ∃ front, source = front ++ lx.rest ∧ lx.position = Position.start.advance front ∧
    Written front lx.rest lx.tokens

variable {source : Bytes} {lx next : Lexer}

theorem advance_append (p : Position) (s t : Bytes) :
    p.advance (s ++ t) = (p.advance s).advance t := List.foldl_append

theorem ReadsFrom.emit (h : lx.ReadsFrom source) (kind : TokenKind) (n : Nat)
    (hkind : kind ≠ .template → lx.rest ≠ [] ∧ 0 < n) : (lx.emit kind n).ReadsFrom source := by
  obtain ⟨front, hsource, hposition, hwritten⟩ := h
  have hsplit : lx.rest = lx.rest.take n ++ lx.rest.drop n := (List.take_append_drop n _).symm
  refine ⟨front ++ lx.rest.take n, ?_, ?_, ?_⟩
  · rw [hsource, emit_rest, List.append_assoc, List.take_append_drop]
  · rw [advance_append, ← hposition]
    rfl
  · rw [hsplit] at hwritten
    have hne : kind ≠ .template → lx.rest.take n ≠ [] := fun hk => by
      simpa [hkind hk] using Nat.ne_of_gt (hkind hk).2
    have htoken := hwritten.token kind hne
    rw [← hposition] at htoken
    exact htoken

/-- Emitting a token of at least one byte. -/
theorem ReadsFrom.emit_pos (h : lx.ReadsFrom source) (kind : TokenKind) {n : Nat}
    (hne : lx.rest ≠ []) (hn : 0 < n) : (lx.emit kind n).ReadsFrom source :=
  h.emit kind n fun _ => ⟨hne, hn⟩

theorem ReadsFrom.settle (h : lx.ReadsFrom source) : lx.settle.ReadsFrom source := by
  unfold Lexer.settle
  split
  · exact h
  · obtain ⟨front, hsource, hposition, hwritten⟩ := h
    obtain ⟨k, hk, _, htrivia⟩ := Lexeme.triviaLength_spec lx.rest 0
    rw [hk, Nat.zero_add]
    refine ⟨front ++ lx.rest.take k, ?_, ?_, ?_⟩
    · rw [hsource, skip_rest, List.append_assoc, List.take_append_drop]
    · rw [advance_append, ← hposition]
      rfl
    · rw [← List.take_append_drop k lx.rest] at hwritten
      exact hwritten.trivia htrivia

theorem ReadsFrom.scanTemplate (h : lx.ReadsFrom source) (k : Nat) :
    (lx.scanTemplate k).ReadsFrom source := by
  have hpiece : ∀ n, (lx.emit .template n).ReadsFrom source :=
    fun n => h.emit .template n (by simp)
  unfold Lexer.scanTemplate
  split
  · next n hlength =>
    obtain ⟨hle, rest, hrest⟩ := Lexeme.drop_templateLength hlength
    rw [List.drop_drop, Nat.add_sub_cancel' hle] at hrest
    refine (hpiece n).emit_pos .punctuation ?_ (by decide)
    rw [emit_rest, hrest]
    exact List.cons_ne_nil _ _
  · exact hpiece _

theorem ReadsFrom.braceRule (h : lx.ReadsFrom source) (hne : lx.rest ≠ [])
    (hrule : BraceRule lx next) : next.ReadsFrom source := by
  have hbrace : (lx.emit .punctuation 1).ReadsFrom source := h.emit_pos _ hne Nat.one_pos
  cases hrule with
  | substitution =>
      have hpop : (lx.emit .punctuation 1).pop.ReadsFrom source := hbrace
      exact hpop.scanTemplate 0
  | container => exact hbrace
  | block => exact hbrace

theorem ReadsFrom.scanOpenTag (h : lx.ReadsFrom source) (hne : lx.rest ≠ []) :
    lx.scanOpenTag.ReadsFrom source := by
  unfold Lexer.scanOpenTag
  refine h.emit_pos .punctuation hne ?_
  split
  · decide
  · decide

theorem ReadsFrom.codeRule {dialect : Dialect} (h : lx.ReadsFrom source) (hne : lx.rest ≠ [])
    (hrule : CodeRule dialect lx next) : next.ReadsFrom source := by
  cases hrule with
  | done => exact h
  | template => exact h.scanTemplate 1
  | openBrace => exact h.emit_pos .punctuation hne Nat.one_pos
  | closeBrace => exact h.braceRule hne lx.scanCloseBrace_rule
  | openTag => exact h.scanOpenTag hne
  | plain => exact h.emit_pos _ hne (plainLexeme_pos _ _ _)

theorem ReadsFrom.tagRule {closing named : Bool} {attributes : Nat} (h : lx.ReadsFrom source)
    (hne : lx.rest ≠ []) (hrule : TagRule closing named attributes lx next) :
    next.ReadsFrom source := by
  have hmark : ∀ n, 0 < n → (lx.emit .punctuation n).ReadsFrom source :=
    fun n hn => h.emit_pos .punctuation hne hn
  cases hrule with
  | done => exact h
  | opened => exact hmark 1 (by decide)
  | closed => exact hmark 1 (by decide)
  | stray => exact hmark 1 (by decide)
  | closesItself => exact hmark 2 (by decide)
  | container => exact hmark 1 (by decide)
  | quoted => exact h.emit_pos .string hne (Lexeme.le_attributeLength _ _ 1)
  | joint => exact hmark 1 (by decide)
  | tagName _ hname => exact h.emit_pos .identifier hne hname.pos
  | constraint _ hname => exact h.emit_pos .identifier hne hname.pos
  | attributeName _ hname => exact h.emit_pos .identifier hne hname.pos
  | givenUp => exact h

theorem ReadsFrom.openingRule (h : lx.ReadsFrom source) (hrule : OpeningRule lx next) :
    next.ReadsFrom source := by
  cases hrule with
  | done => exact h
  | container hrest => exact h.emit_pos .punctuation (hrest ▸ List.cons_ne_nil _ _) Nat.one_pos
  | tag hrest => exact h.scanOpenTag (hrest ▸ List.cons_ne_nil _ _)

theorem ReadsFrom.scanMarkup (h : lx.ReadsFrom source) (hne : lx.rest ≠ []) :
    lx.scanMarkup.ReadsFrom source := by
  rcases lx.scanMarkup_cases with ⟨-, htext⟩ | ⟨hpos, htext⟩
  · rwa [htext]
  · rw [htext]
    exact h.emit_pos .markupText hne hpos

/-- Reading on stays inside the source. -/
theorem ReadsFrom.scan (h : lx.ReadsFrom source) (hne : lx.rest ≠ []) (dialect : Dialect) :
    (lx.scan dialect).ReadsFrom source := by
  unfold Lexer.scan
  split
  · exact (h.scanMarkup hne).openingRule (scanOpening_rule _)
  · exact h.tagRule hne (scanTag_rule _ _ _ lx)
  · exact h.codeRule hne (scanCode_rule dialect lx)

theorem readsFrom_skipHashbang (source : Bytes) :
    (ofSource source).skipHashbang.ReadsFrom source := by
  unfold skipHashbang
  split
  · next hprefix =>
    obtain ⟨tail, rfl⟩ := List.isPrefixOf_iff_prefix.mp hprefix
    obtain ⟨k, hk, _, hline, hend⟩ := Lexeme.lineLength_spec tail 2
    have hlength : Lexeme.lineLength (ofSource (utf8 "#!" ++ tail)).rest 0 =
        (utf8 "#!").length + k := hk
    rw [hlength]
    refine ⟨(utf8 "#!" ++ tail).take ((utf8 "#!").length + k),
      (List.take_append_drop _ _).symm, rfl, ?_⟩
    rw [skip_rest, ofSource, List.take_length_add_append, List.drop_length_add_append]
    refine .hashbang ⟨List.prefix_append _ _, ?_, hend⟩
    rw [List.mem_append, not_or]
    exact ⟨by decide, hline⟩
  · exact ⟨[], rfl, rfl, .start _⟩

theorem ReadsFrom.run (h : lx.ReadsFrom source) (dialect : Dialect) :
    (lx.run dialect).ReadsFrom source :=
  run_preserves (P := ReadsFrom source) (fun _ h => h.settle) (fun _ hne h => h.scan hne dialect) h

end Lexer

/-- The tokens read from a text, latest first, account for all of it. -/
theorem written_tokenize (dialect : Dialect) (source : Bytes) :
    Written source [] (tokenize dialect source).reverse := by
  obtain ⟨front, hsource, _, hwritten⟩ :=
    (Lexer.readsFrom_skipHashbang source).run dialect
  rw [Lexer.run_rest, List.append_nil] at hsource
  rw [Lexer.run_rest, ← hsource] at hwritten
  simpa [tokenize] using hwritten

/-! ### The result -/

/-- Tokens that account for a source. Each has its bytes, its line and its column where it says;
they come in order without overlap; only a piece of a template may be empty; and every longest
stretch of bytes outside all tokens is white space and comments. -/
structure Lossless (source : Bytes) (tokens : List Token) : Prop where
  inside : ∀ t ∈ tokens, t.offset + t.text.length ≤ source.length
  text_eq : ∀ t ∈ tokens, t.text = (source.drop t.offset).take t.text.length
  ordered : tokens.Pairwise fun t u => t.offset + t.text.length ≤ u.offset
  nonempty : ∀ t ∈ tokens, t.kind ≠ .template → t.text ≠ []
  line_eq : ∀ t ∈ tokens, t.line = 1 + (source.take t.offset).count Bytes.newline
  column_eq : ∀ t ∈ tokens,
    t.column = 1 + ((source.take t.offset).reverse.takeWhile (· != Bytes.newline)).length
  gaps : ∀ i j, IsGap source tokens i j → FillsGap i ((source.take j).drop i) (source.drop j)

/-- The lexer keeps every byte of every text, in both dialects. -/
theorem tokenize_lossless (dialect : Dialect) (source : Bytes) :
    Lossless source (tokenize dialect source) := by
  have hwritten := written_tokenize dialect source
  have hplaced : ∀ t ∈ tokenize dialect source, t.Placed source := by
    intro t ht
    exact hwritten.placed t (List.mem_reverse.mpr ht)
  have hposition : ∀ t ∈ tokenize dialect source, t.toPosition = _ := fun t ht =>
    (hplaced t ht).place.trans (Position.advance_start _)
  refine ⟨fun t ht => (hplaced t ht).inside, fun t ht => (hplaced t ht).text_eq, ?_, ?_, ?_, ?_, ?_⟩
  · exact List.pairwise_reverse.mp hwritten.ordered
  · intro t ht
    exact hwritten.nonempty t (List.mem_reverse.mpr ht)
  · intro t ht
    exact congrArg Position.line (hposition t ht)
  · intro t ht
    exact congrArg Position.column (hposition t ht)
  · intro i j hgap
    have hfill := hwritten.fillsGap i j ⟨hgap.lt, hgap.inside, by simpa using hgap.uncovered,
      by simpa using hgap.left, by simpa using hgap.right⟩
    rwa [List.append_nil] at hfill

end UnusedImports
