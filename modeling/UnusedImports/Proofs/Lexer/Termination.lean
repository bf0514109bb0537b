import UnusedImports.Proofs.Lexer.Coverage
import UnusedImports.Proofs.Lexer.Reach

/-! A round reads at least one byte, or gives up one tag and nothing else, and each frame that is
opened claims a byte of its own. -/

namespace UnusedImports.Lexer

/-! ### Elementary updates -/

/-- One lexer comes from another by elementary updates that read a number of bytes and open a number
of frames. Bytes are read only if they are there, and a frame is opened only if more bytes have been
read than frames were opened. -/
inductive Moves (lx : Lexer) : Lexer → Nat → Nat → Prop where
  | refl : Moves lx lx 0 0
  | skip {next bytes opened n} : Moves lx next bytes opened → n ≤ next.rest.length →
      Moves lx (next.skip n) (bytes + n) opened
  | emit {next bytes opened n} (kind) : Moves lx next bytes opened → n ≤ next.rest.length →
      Moves lx (next.emit kind n) (bytes + n) opened
  | push {next bytes opened} (f) : Moves lx next bytes opened → opened < bytes →
      Moves lx (next.push f) bytes (opened + 1)
  | pop {next bytes opened} : Moves lx next bytes opened → Moves lx next.pop bytes opened
  | braces {next bytes opened} (depth) : Moves lx next bytes opened →
      Moves lx { next with depth } bytes opened

namespace Moves

variable {lx mid next : Lexer} {bytes more opened opening : Nat}

/-- The bytes that are read are those that are left no longer. -/
theorem length_eq (h : Moves lx next bytes opened) :
    bytes + next.rest.length = lx.rest.length := by
  induction h with
  | refl => exact Nat.zero_add _
  | skip _ hn ih =>
      rw [skip_rest, List.length_drop]
      omega
  | emit _ _ hn ih =>
      rw [emit_rest, List.length_drop]
      omega
  | push _ _ _ ih => exact ih
  | pop _ ih => exact ih
  | braces _ _ ih => exact ih

/-- The cursor moves by just the bytes that are read. -/
theorem offset_eq (h : Moves lx next bytes opened) :
    next.position.offset = lx.position.offset + bytes := by
  induction h with
  | refl => rfl
  | @skip next bytes opened n _ hn ih =>
      have hskip : (next.skip n).position.offset =
          next.position.offset + (next.rest.take n).length := Position.offset_advance _ _
      rw [hskip, List.length_take, ih]
      omega
  | emit _ _ hn ih =>
      rw [Emits.offset_emit, List.length_take, ih]
      omega
  | push _ _ _ ih => exact ih
  | pop _ ih => exact ih
  | braces _ _ ih => exact ih

theorem opened_le (h : Moves lx next bytes opened) : opened ≤ bytes := by
  induction h with
  | refl => exact Nat.le_refl 0
  | skip _ _ ih => exact Nat.le_add_right_of_le ih
  | emit _ _ _ ih => exact Nat.le_add_right_of_le ih
  | push _ _ hpaid _ => exact hpaid
  | pop _ ih => exact ih
  | braces _ _ ih => exact ih

theorem frames_length_le (h : Moves lx next bytes opened) :
    next.frames.length ≤ lx.frames.length + opened := by
  induction h with
  | refl => exact Nat.le_refl _
  | skip _ _ ih => exact ih
  | emit _ _ _ ih => exact ih
  | push _ _ _ ih => exact Nat.succ_le_succ ih
  | pop _ ih =>
      rw [pop_frames, List.length_tail]
      omega
  | braces _ _ ih => exact ih

theorem trans (h : Moves lx mid bytes opened) (hmid : Moves mid next more opening) :
    Moves lx next (bytes + more) (opened + opening) := by
  induction hmid with
  | refl => exact h
  | skip _ hn ih => exact (Nat.add_assoc ..) ▸ ih.skip hn
  | emit kind _ hn ih => exact (Nat.add_assoc ..) ▸ ih.emit kind hn
  | push f _ hpaid ih => exact ih.push f (Nat.add_lt_add_of_le_of_lt h.opened_le hpaid)
  | pop _ ih => exact ih.pop
  | braces depth _ ih => exact ih.braces depth

end Moves

/-! ### Steps -/

variable {lx : Lexer}

theorem plainLexeme_le (operand : Bool) (b : UInt8) (s : Bytes) :
    (plainLexeme operand b s).2 ≤ (b :: s).length := by
  have hsize := Utf8.decode_size_le (b :: s)
  have hword := Lexeme.wordLength_le ((b :: s).drop (Utf8.decode (b :: s)).2)
    (Utf8.decode (b :: s)).2
  have hnumber := Lexeme.numberLength_le s
  have hstring := Lexeme.stringLength_le b s 1
  have hname := Lexeme.wordLength_le s 1
  have hmark := Lexeme.punctuatorLength_le b s
  simp only [List.length_drop, List.length_cons] at hsize hword ⊢
  unfold plainLexeme
  dsimp only
  repeat' split
  all_goals try omega
  next n hregex =>
    have hflags := Lexeme.wordLength_le ((b :: s).drop n) n
    have hbody := Lexeme.regexLength?_le hregex
    simp only [List.length_drop, List.length_cons] at hflags
    omega

theorem exists_moves_scanTemplate {k : Nat} (hk : k ≤ lx.rest.length) :
    ∃ bytes opened, Moves lx (lx.scanTemplate k) bytes opened := by
  have hle := Lexeme.templateLength_le (lx.rest.drop k) k
  rw [List.length_drop, Nat.add_sub_cancel' hk] at hle
  unfold scanTemplate
  split
  · next n hlength =>
    rw [hlength] at hle
    simp only [if_true] at hle
    -- The piece may be empty, but the mark behind it has two bytes to pay for the frame.
    have hpiece := Moves.refl.emit .template (Nat.le_of_add_right_le hle)
    have hmark := hpiece.emit .punctuation (n := 2) (by rw [emit_rest, List.length_drop]; omega)
    exact ⟨_, _, hmark.push (.template lx.depth) (by omega)⟩
  · next n ending hnot hlength =>
    rw [hlength] at hle
    exact ⟨_, _, Moves.refl.emit .template (Nat.le_of_add_right_le hle)⟩

theorem BraceRule.exists_moves {next : Lexer} (h : BraceRule lx next) (hne : lx.rest ≠ []) :
    ∃ bytes opened, Moves lx next bytes opened := by
  have hbrace := Moves.refl.emit .punctuation (List.length_pos_iff.mpr hne)
  cases h with
  | substitution =>
      have hpiece : ∃ bytes opened, Moves (lx.emit .punctuation 1).pop
          ((lx.emit .punctuation 1).pop.scanTemplate 0) bytes opened :=
        exists_moves_scanTemplate (Nat.zero_le _)
      obtain ⟨bytes, opened, hpiece⟩ := hpiece
      exact ⟨_, _, hbrace.pop.trans hpiece⟩
  | container => exact ⟨_, _, hbrace.pop⟩
  | block => exact ⟨_, _, hbrace.braces _⟩

theorem exists_moves_scanOpenTag (h : lx.rest ≠ []) :
    ∃ bytes opened, Moves lx lx.scanOpenTag bytes opened := by
  have hpos := List.length_pos_iff.mpr h
  have hread : ∀ n, 0 < n → n ≤ lx.rest.length → ∀ f,
      ∃ bytes opened, Moves lx ((lx.emit .punctuation n).push f) bytes opened := fun n hn hle f =>
    ⟨_, _, (Moves.refl.emit .punctuation hle).push f (by omega)⟩
  unfold scanOpenTag
  dsimp only
  split
  · next hslash =>
    have htail : lx.rest.tail ≠ [] := fun hnil => by
      rw [hnil] at hslash
      cases hslash
    have hlength := List.length_pos_iff.mpr htail
    rw [List.length_tail] at hlength
    exact hread 2 (by decide) (by omega) _
  · exact hread 1 (by decide) hpos _

theorem CodeRule.exists_moves {dialect : Dialect} {next : Lexer}
    (h : CodeRule dialect lx next) (hne : lx.rest ≠ []) :
    ∃ bytes opened, Moves lx next bytes opened := by
  have hpos := List.length_pos_iff.mpr hne
  cases h with
  | done => exact ⟨_, _, .refl⟩
  | template => exact exists_moves_scanTemplate hpos
  | openBrace => exact ⟨_, _, (Moves.refl.emit .punctuation hpos).braces _⟩
  | closeBrace => exact lx.scanCloseBrace_rule.exists_moves hne
  | openTag => exact exists_moves_scanOpenTag hne
  | @plain b s hrest =>
      exact ⟨_, _, Moves.refl.emit _ (hrest ▸ plainLexeme_le lx.operandAllowed b s)⟩

theorem TagRule.exists_moves {closing named : Bool} {attributes : Nat} {next : Lexer}
    (h : TagRule closing named attributes lx next) (hne : lx.rest ≠ []) :
    ∃ bytes opened, Moves lx next bytes opened := by
  have hmark := Moves.refl.emit .punctuation (List.length_pos_iff.mpr hne)
  have hread : ∀ {b s n}, lx.rest = b :: s → StartsName (b :: s) n → n ≤ lx.rest.length :=
    fun hrest hname => hrest ▸ hname.le
  cases h with
  | done => exact ⟨_, _, .refl⟩
  | opened => exact ⟨_, _, hmark.pop.push _ Nat.zero_lt_one⟩
  | closed => exact ⟨_, _, hmark.pop.pop⟩
  | stray => exact ⟨_, _, hmark.pop⟩
  | closesItself hrest => exact ⟨_, _, (Moves.refl.emit .punctuation (by simp [hrest])).pop⟩
  | container => exact ⟨_, _, hmark.push _ Nat.zero_lt_one⟩
  | @quoted b s hrest =>
      have hstring := Lexeme.attributeLength_le b s 1
      exact ⟨_, _, Moves.refl.emit .string (by rw [hrest, List.length_cons]; omega)⟩
  | joint => exact ⟨_, _, hmark⟩
  | tagName hrest hname =>
      have hpos := hname.pos
      exact ⟨_, _, (Moves.refl.emit .identifier (hread hrest hname)).pop.push _ (by omega)⟩
  | constraint hrest hname =>
      exact ⟨_, _, (Moves.refl.emit .identifier (hread hrest hname)).pop⟩
  | attributeName hrest hname =>
      have hpos := hname.pos
      exact ⟨_, _, (Moves.refl.emit .identifier (hread hrest hname)).pop.push _ (by omega)⟩
  | givenUp => exact ⟨_, _, Moves.refl.pop⟩

theorem exists_moves_scanMarkup (lx : Lexer) :
    ∃ bytes, Moves lx lx.scanMarkup bytes 0 := by
  rcases lx.scanMarkup_cases with ⟨-, htext⟩ | ⟨-, htext⟩
  · rw [htext]
    exact ⟨_, .refl⟩
  · have hle := Lexeme.markupLength_le lx.rest 0
    rw [htext]
    exact ⟨_, Moves.refl.emit .markupText (by omega)⟩

theorem OpeningRule.exists_moves {next : Lexer} (h : OpeningRule lx next) :
    ∃ bytes opened, Moves lx next bytes opened := by
  cases h with
  | done => exact ⟨_, _, .refl⟩
  | container hrest =>
      have hpos : 1 ≤ lx.rest.length := by simp [hrest]
      exact ⟨_, _, (Moves.refl.emit .punctuation hpos).push _ Nat.zero_lt_one⟩
  | tag hrest => exact exists_moves_scanOpenTag (hrest ▸ List.cons_ne_nil _ _)

theorem exists_moves_scan (dialect : Dialect) (h : lx.rest ≠ []) :
    ∃ bytes opened, Moves lx (lx.scan dialect) bytes opened := by
  unfold scan
  split
  · obtain ⟨bytes, htext⟩ := exists_moves_scanMarkup lx
    obtain ⟨more, opened, hopening⟩ := lx.scanMarkup.scanOpening_rule.exists_moves
    exact ⟨_, _, htext.trans hopening⟩
  · exact (scanTag_rule _ _ _ lx).exists_moves h
  · exact (scanCode_rule dialect lx).exists_moves h

theorem exists_moves_settle (lx : Lexer) : ∃ bytes, Moves lx lx.settle bytes 0 := by
  unfold settle
  split
  · exact ⟨_, .refl⟩
  · have hle := Lexeme.triviaLength_le lx.rest 0
    exact ⟨_, Moves.refl.skip (by omega)⟩

/-! ### Rounds -/

theorem settle_eq_or_lt (lx : Lexer) :
    lx.settle = lx ∨ lx.settle.rest.length < lx.rest.length := by
  have hle := Lexeme.triviaLength_le lx.rest 0
  unfold settle
  split
  · exact .inl rfl
  · by_cases hzero : Lexeme.triviaLength lx.rest 0 = 0
    · left
      rw [hzero]
      rfl
    · right
      rw [skip_rest, List.length_drop]
      omega

theorem scan_lt_or_eq_pop (dialect : Dialect) (h : lx.rest ≠ []) :
    (lx.scan dialect).rest.length < lx.rest.length ∨
      ∃ closing named attributes outer, lx.frames = .tag closing named attributes :: outer ∧
        lx.scan dialect = lx.pop := by
  rcases scan_cases dialect lx with ⟨_, hscan⟩ | ⟨closing, named, attributes, hframe, hscan⟩ |
    ⟨_, hscan⟩
  · exact .inl (hscan ▸ scanChildren_progress h)
  · obtain ⟨outer, hframes⟩ := List.head?_eq_some_iff.mp hframe
    rw [hscan]
    exact (scanTag_lt_or_eq_pop _ _ _ h).imp_right fun hpop => ⟨_, _, _, outer, hframes, hpop⟩
  · exact .inl (hscan ▸ scanCode_progress dialect h)

/-- What a round from one lexer to another does to the cursor and to the frames. It moves the cursor
ahead inside the source, or leaves it and gives up a tag, and it pays a byte for each frame that it
opens. -/
structure Advances (source : Bytes) (lx next : Lexer) : Prop where
  moves : ∃ bytes opened, Moves lx next bytes opened ∧ opened ≤ bytes ∧
    next.position.offset = lx.position.offset + bytes
  inside : next.position.offset ≤ source.length ∧ next.rest = source.drop next.position.offset
  progress : lx.position.offset < next.position.offset ∨
    ∃ closing named attributes outer, lx.frames = .tag closing named attributes :: outer ∧
      next = lx.pop
  decreases : Prod.Lex (· < ·) (· < ·) (next.rest.length, next.frames.length)
    (lx.rest.length, lx.frames.length)

variable {source : Bytes} {dialect : Dialect} {next : Lexer}

theorem Round.exists_moves (h : Round dialect lx next) :
    ∃ bytes opened, Moves lx next bytes opened := by
  obtain ⟨hne, rfl⟩ := h
  obtain ⟨gap, hgap⟩ := exists_moves_settle lx
  obtain ⟨bytes, opened, hmoves⟩ := exists_moves_scan dialect hne
  exact ⟨_, _, hgap.trans hmoves⟩

theorem Round.lt_or_eq_pop (h : Round dialect lx next) :
    next.rest.length < lx.rest.length ∨
      ∃ closing named attributes outer, lx.frames = .tag closing named attributes :: outer ∧
        next = lx.pop := by
  obtain ⟨hne, rfl⟩ := h
  have hle := settle_rest_le lx
  rcases scan_lt_or_eq_pop dialect hne with hlt | hpop
  · exact .inl (Nat.lt_of_lt_of_le hlt hle)
  · obtain ⟨closing, named, attributes, outer, hframes, hscan⟩ := hpop
    -- A tag that is given up behind a blank still leaves less to read.
    rcases settle_eq_or_lt lx with hsettle | hlt
    · rw [hsettle] at hframes hscan ⊢
      exact .inr ⟨closing, named, attributes, outer, hframes, hscan⟩
    · rw [hscan]
      exact .inl hlt

theorem Round.readsFrom (h : Round dialect lx next) (hreads : lx.ReadsFrom source) :
    next.ReadsFrom source :=
  h.2 ▸ hreads.settle.scan h.1 dialect

theorem Round.advances (h : Round dialect lx next) (hreads : lx.ReadsFrom source) :
    Advances source lx next := by
  obtain ⟨bytes, opened, hmoves⟩ := h.exists_moves
  have hnext := h.readsFrom hreads
  have hoffset := hmoves.offset_eq
  have hlength := hmoves.length_eq
  have hwhole := hnext.offset_add
  refine ⟨⟨bytes, opened, hmoves, hmoves.opened_le, hoffset⟩, ⟨by omega, hnext.rest_eq⟩, ?_, ?_⟩
  · exact h.lt_or_eq_pop.imp_left fun hlt => by omega
  · rcases h.lt_or_eq_pop with hlt | ⟨_, _, _, outer, hframes, rfl⟩
    · exact .left _ _ hlt
    · rw [pop_rest, pop_frames, hframes]
      exact .right _ (Nat.lt_succ_self _)

/-- A round takes from two for each byte left and one for each frame. -/
theorem Round.weight_lt (h : Round dialect lx next) :
    2 * next.rest.length + next.frames.length < 2 * lx.rest.length + lx.frames.length := by
  obtain ⟨bytes, opened, hmoves⟩ := h.exists_moves
  have hlength := hmoves.length_eq
  have hopened := hmoves.opened_le
  have hframes := hmoves.frames_length_le
  rcases h.lt_or_eq_pop with hlt | ⟨_, _, _, outer, htag, rfl⟩
  · omega
  · rw [pop_rest, pop_frames, htag, List.tail_cons, List.length_cons]
    omega

theorem length_le_of_isChain {states : List Lexer}
    (h : (lx :: states).IsChain (Round dialect)) :
    states.length ≤ 2 * lx.rest.length + lx.frames.length := by
  induction states generalizing lx with
  | nil => exact Nat.zero_le _
  | cons next states ih =>
      obtain ⟨hround, htail⟩ := List.isChain_cons_cons.mp h
      have hweight := hround.weight_lt
      have hrest := ih htail
      rw [List.length_cons]
      omega

theorem exists_rounds_run (dialect : Dialect) (lx : Lexer) :
    ∃ last, Relation.ReflTransGen (Round dialect) lx last ∧ last.settle.rest = [] ∧
      lx.run dialect = last.settle := by
  fun_induction run dialect lx with
  | case1 lx hend => exact ⟨lx, .refl, hend, rfl⟩
  | case2 lx hmore ih =>
      obtain ⟨last, hrounds, hlast⟩ := ih
      exact ⟨last, .head ⟨hmore, rfl⟩ hrounds, hlast⟩

/-- From every text the rounds come to an end, where the cursor is behind the last byte and the
tokens are those of the text, and each of them advances. -/
theorem run_terminates (dialect : Dialect) (source : Bytes) :
    (∀ states, ((ofSource source).skipHashbang :: states).IsChain (Round dialect) →
        states.length ≤ 2 * source.length) ∧
      (∃ last, Relation.ReflTransGen (Round dialect) (ofSource source).skipHashbang last ∧
        last.settle.rest = [] ∧ last.settle.position.offset = source.length ∧
        tokenize dialect source = last.settle.tokens.reverse) ∧
      ∀ lx next, Relation.ReflTransGen (Round dialect) (ofSource source).skipHashbang lx →
        Round dialect lx next → Advances source lx next := by
  have hstart := readsFrom_skipHashbang source
  refine ⟨?_, ?_, ?_⟩
  · intro states hstates
    have hlength := hstart.offset_add
    have hle := length_le_of_isChain hstates
    rw [skipHashbang_frames, List.length_nil] at hle
    omega
  · obtain ⟨last, hrounds, hend, hrun⟩ := exists_rounds_run dialect (ofSource source).skipHashbang
    have hlength := (hstart.run dialect).offset_add
    rw [hrun, hend, List.length_nil, Nat.add_zero] at hlength
    exact ⟨last, hrounds, hend, hlength, by rw [tokenize, hrun]⟩
  · intro lx next hrounds hround
    exact hround.advances (rounds_preserve (fun _ h => h.settle)
      (fun _ hne h => h.scan hne dialect) hrounds hstart)

end UnusedImports.Lexer
