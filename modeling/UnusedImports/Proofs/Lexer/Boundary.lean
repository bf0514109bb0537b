import UnusedImports.Proofs.Lexer.Coverage

/-! # Modes and classes of the tokens of a text -/

namespace UnusedImports

variable {dialect : Dialect} {source : Bytes} {mode : Mode} {t : Token}

/-! ### Modes -/

namespace Lexer

variable {lx next : Lexer} {new : List Token}

/-- A lexer stands at its place in a source. -/
structure StandsIn (source : Bytes) (lx : Lexer) : Prop where
  offset_le : lx.position.offset ≤ source.length
  rest_eq : lx.rest = source.drop lx.position.offset

theorem ReadsFrom.standsIn (h : lx.ReadsFrom source) : lx.StandsIn source :=
  ⟨by have := h.offset_add; omega, h.rest_eq⟩

theorem StandsIn.emit (h : lx.StandsIn source) (kind : TokenKind) (n : Nat) :
    (lx.emit kind n).StandsIn source := by
  have hlength := congrArg List.length h.rest_eq
  have hle := h.offset_le
  rw [List.length_drop] at hlength
  refine ⟨?_, ?_⟩
  · rw [Emits.offset_emit, List.length_take]
    omega
  · rw [Emits.offset_emit, emit_rest, ← List.drop_drop, ← h.rest_eq, List.length_take]
    rcases Nat.le_total n lx.rest.length with hn | hn
    · rw [Nat.min_eq_left hn]
    · rw [Nat.min_eq_right hn, List.drop_of_length_le hn, List.drop_length]

theorem Adds.standsIn (h : Adds mode lx next new) (hlx : lx.StandsIn source) :
    next.StandsIn source := by
  induction h with
  | refl => exact hlx
  | token _ _ _ ih => exact ih.emit _ _
  | opened _ _ _ ih => exact ⟨ih.offset_le, ih.rest_eq⟩

theorem Adds.tokens_eq (h : Adds mode lx next new) : next.tokens = new ++ lx.tokens := by
  induction h with
  | refl => rfl
  | token _ _ _ ih => exact congrArg (_ :: ·) ih
  | opened _ _ _ ih => exact ih

/-- A token that is read has the bytes of its class. -/
theorem Adds.lexical (h : Adds mode lx next new) (hlx : lx.StandsIn source) (ht : t ∈ new) :
    Lexical mode t.kind t.text (source.drop (t.offset + t.text.length)) := by
  induction h with
  | refl => cases ht
  | @token next _ kind n hadds hclass _ ih =>
      rcases List.mem_cons.mp ht with rfl | ht
      · have hbehind := ((hadds.standsIn hlx).emit kind n).rest_eq
        rw [emit_rest, Emits.offset_emit] at hbehind
        exact hbehind ▸ hclass
      · exact ih ht
  | opened _ _ _ ih => exact ih ht

theorem mode_settle (lx : Lexer) : lx.settle.mode = lx.mode := by
  rw [Lexer.mode, settle_frames, Lexer.mode]

/-- One of the rounds from here on reads a token in a mode. -/
def ReadsIn (dialect : Dialect) (lx : Lexer) (mode : Mode) (t : Token) : Prop :=
  ∃ last next new, Relation.ReflTransGen (Round dialect) lx last ∧ Round dialect last next ∧
    last.mode = mode ∧ next.tokens = new ++ last.tokens ∧ t ∈ new

theorem ReadsIn.exists_adds (h : lx.ReadsIn dialect mode t) :
    ∃ last new, Relation.ReflTransGen (Round dialect) lx last ∧
      Adds mode last.settle (last.settle.scan dialect) new ∧ t ∈ new ∧ last.settle.rest ≠ [] := by
  obtain ⟨last, _, new, hrounds, ⟨hne, rfl⟩, rfl, htokens, ht⟩ := h
  obtain ⟨read, hadds, -⟩ := parses_scan dialect last.settle
  rw [mode_settle] at hadds
  rw [hadds.tokens_eq, settle_tokens] at htokens
  exact ⟨last, read, hrounds, hadds, List.append_cancel_right htokens ▸ ht, hne⟩

theorem ReadsIn.mem_run (h : lx.ReadsIn dialect mode t) : t ∈ (lx.run dialect).tokens := by
  obtain ⟨last, new, hrounds, hadds, ht, hne⟩ := h.exists_adds
  rw [← run_of_rounds hrounds, run_of_rest_ne_nil hne]
  refine (tokens_suffix_run dialect _).subset ?_
  rw [hadds.tokens_eq]
  exact List.mem_append_left _ ht

/-- A token that a run adds is read in some mode. -/
theorem exists_readsIn_of_mem_run (ht : t ∈ (lx.run dialect).tokens) :
    t ∈ lx.tokens ∨ ∃ mode, lx.ReadsIn dialect mode t := by
  fun_induction run dialect lx with
  | case1 lx hend => exact .inl (by rwa [settle_tokens] at ht)
  | case2 lx hmore ih =>
      rcases ih ht with ht | ⟨mode, last, next, new, hrounds, hlast⟩
      · obtain ⟨new, hadds, -⟩ := parses_scan dialect lx.settle
        have htokens := hadds.tokens_eq
        rw [settle_tokens] at htokens
        rw [htokens] at ht
        rcases List.mem_append.mp ht with ht | ht
        · exact .inr ⟨lx.mode, lx, _, new, .refl, ⟨hmore, rfl⟩, rfl, htokens, ht⟩
        · exact .inl ht
      · exact .inr ⟨mode, last, next, new, .head ⟨hmore, rfl⟩ hrounds, hlast⟩

end Lexer

/-- A token of a text that is read in a mode. -/
def ReadIn (dialect : Dialect) (source : Bytes) (mode : Mode) (t : Token) : Prop :=
  (Lexer.ofSource source).skipHashbang.ReadsIn dialect mode t

theorem ReadIn.mem_tokenize (h : ReadIn dialect source mode t) : t ∈ tokenize dialect source :=
  List.mem_reverse.mpr h.mem_run

theorem exists_readIn_of_mem_tokenize (ht : t ∈ tokenize dialect source) :
    ∃ mode, ReadIn dialect source mode t := by
  rcases Lexer.exists_readsIn_of_mem_run (List.mem_reverse.mp ht) with ht | hread
  · rw [Lexer.skipHashbang_tokens] at ht
    cases ht
  · exact hread

/-- A token has the bytes of its class in the mode that reads it. -/
theorem ReadIn.lexical (h : ReadIn dialect source mode t) :
    Lexical mode t.kind t.text (source.drop (t.offset + t.text.length)) := by
  obtain ⟨last, new, hrounds, hadds, ht, -⟩ := h.exists_adds
  have hlast : last.ReadsFrom source :=
    Lexer.rounds_preserve (fun _ h => h.settle) (fun _ hne h => h.scan hne dialect) hrounds
      (Lexer.readsFrom_skipHashbang source)
  exact hadds.lexical hlast.settle.standsIn ht

theorem lexical_of_mem_tokenize (ht : t ∈ tokenize dialect source) :
    ∃ mode, Lexical mode t.kind t.text (source.drop (t.offset + t.text.length)) :=
  let ⟨mode, hread⟩ := exists_readIn_of_mem_tokenize ht
  ⟨mode, hread.lexical⟩

/-! ### Names and literals -/

theorem IsName.exists_codePoints {s : Bytes} (h : IsName s) :
    ∃ cs, s = Utf8.ofCodePoints cs ∧ ∀ c ∈ cs, Identifier.isContinue c = true := by
  obtain ⟨c, cs, rfl, hc, hcs⟩ := h
  refine ⟨c :: cs, rfl, ?_⟩
  intro x hx
  rcases List.mem_cons.mp hx with rfl | hx
  · exact Identifier.isContinue_of_isStart hc
  · exact hcs x hx

theorem IsTagName.exists_codePoints {s : Bytes} (h : IsTagName s) :
    ∃ cs, s = Utf8.ofCodePoints cs ∧
      ∀ c ∈ cs, Identifier.isContinue c = true ∨ c = '-'.toNat := by
  obtain ⟨name, groups, rfl, hname, hgroups⟩ := h
  obtain ⟨cs, rfl, hcs⟩ := hname.exists_codePoints
  have htail : groups.flatMap hyphenated =
      Utf8.ofCodePoints (groups.flatMap ('-'.toNat :: ·)) := by
    rw [Utf8.ofCodePoints, List.flatMap_assoc]
    rfl
  refine ⟨cs ++ groups.flatMap ('-'.toNat :: ·), by rw [htail, Utf8.ofCodePoints_append], ?_⟩
  intro c hc
  rcases List.mem_append.mp hc with hc | hc
  · exact .inl (hcs c hc)
  · obtain ⟨group, hgroup, hc⟩ := List.mem_flatMap.mp hc
    exact (List.mem_cons.mp hc).symm.imp_left (hgroups group hgroup c)

namespace Lexical

variable {text rest : Bytes} {kind : TokenKind}

theorem exists_codePoints (h : Lexical mode .identifier text rest) :
    ∃ cs, text = Utf8.ofCodePoints cs ∧
      ∀ c ∈ cs, Identifier.isContinue c = true ∨ c = '-'.toNat := by
  cases h with
  | word hname _ =>
      obtain ⟨cs, htext, hcs⟩ := hname.exists_codePoints
      exact ⟨cs, htext, fun c hc => .inl (hcs c hc)⟩
  | tagName hname _ => exact hname.exists_codePoints

/-- Behind a name comes no code point that continues it. -/
theorem isContinue_decode (h : Lexical mode .identifier text rest) :
    Identifier.isContinue (Utf8.decode rest).1 = false := by
  cases h with
  | word _ hends => exact hends
  | tagName _ hends => exact hends.1

theorem isScalar_of_continues {c : Nat} (h : Identifier.isContinue c = true ∨ c = '-'.toNat) :
    Utf8.IsScalar c := by
  rcases h with h | rfl
  · exact Identifier.isScalar_of_isContinue h
  · exact .inl (by decide)

theorem newline_notMem (h : Lexical mode .identifier text rest) : Bytes.newline ∉ text := by
  obtain ⟨cs, rfl, hcs⟩ := h.exists_codePoints
  intro hmem
  have hbreak := hcs _ (Utf8.toNat_mem_of_mem_ofCodePoints
    (fun c hc => isScalar_of_continues (hcs c hc)) hmem (by decide))
  exact absurd hbreak (by decide)

/-- A literal in quotes ends with a quote or with its line. -/
theorem string_cases (h : Lexical mode .string text rest) :
    (∃ front quote, Bytes.IsQuote quote ∧ text = front ++ [quote]) ∨ EndsLine rest := by
  cases h with
  | @string quote inner ending _ hquote _ hend =>
      cases hend with
      | closed => exact .inl ⟨quote :: inner, quote, hquote, rfl⟩
      | line hends => exact .inr hends
      | stray => exact .inr (.inl rfl)
  | @attributeString quote inner ending _ hquote _ hend =>
      rcases hend with rfl | ⟨-, rfl⟩
      · exact .inl ⟨quote :: inner, quote, hquote, rfl⟩
      · exact .inr (.inl rfl)

end Lexical

/-! ### Ends of tokens -/

/-- A text that ends between code points if it starts so: before an ASCII byte, behind one and then
whole code points, or behind a byte that encodes nothing. -/
def EndsWhole (text rest : Bytes) : Prop :=
  (∀ b ∈ rest.head?, b < 0x80) ∨
    (∃ front back, text = front ++ back ∧ (∀ b ∈ front.getLast?, b < 0x80) ∧
      Utf8.WellFormed back) ∨
    ∃ b, text = [b] ∧ Utf8.decode (b :: rest) = (CodePoint.replacement, 1)

theorem EndsLine.head_ascii {rest : Bytes} (h : EndsLine rest) : ∀ b ∈ rest.head?, b < 0x80 := by
  rcases h with rfl | hhead
  · simp
  · rw [hhead]
    exact fun b hb => by cases hb; decide

namespace EndsWhole

variable {text rest : Bytes}

theorem of_wellFormed (h : Utf8.WellFormed text) : EndsWhole text rest :=
  .inr (.inl ⟨[], text, rfl, by simp, h⟩)

/-- The last byte is an ASCII byte. -/
theorem of_last {b : UInt8} (hb : b < 0x80) (front rest : Bytes) :
    EndsWhole (front ++ [b]) rest :=
  .inr (.inl ⟨front ++ [b], [], by simp, by simpa using hb, .nil⟩)

theorem wellFormed (h : EndsWhole text rest) (hwf : Utf8.WellFormed (text ++ rest)) :
    Utf8.WellFormed text ∧ Utf8.WellFormed rest := by
  rcases h with hhead | ⟨front, back, rfl, hlast, hback⟩ | ⟨b, rfl, hdecode⟩
  · exact hwf.cut_head hhead
  · have htext : Utf8.WellFormed (front ++ back) := by
      rcases List.eq_nil_or_concat front with rfl | ⟨front, b, rfl⟩
      · exact hback
      · have hb : b < 0x80 := hlast b (by simp)
        simp only [List.concat_eq_append, List.append_assoc] at hwf ⊢
        exact (hwf.cut hb).1.append ((Utf8.WellFormed.ascii hb).append hback)
    exact ⟨htext, hwf.of_append htext⟩
  · rw [List.singleton_append] at hwf
    have hcut := hwf.cut_decode
    rw [hdecode] at hcut
    exact hcut

end EndsWhole

namespace Lexical

variable {text rest : Bytes} {kind : TokenKind}

theorem longMarks_ascii : ∀ name ∈ longMarks, (utf8 name).all (· < 0x80) = true := by decide

theorem isQuote_ascii {b : UInt8} (h : Bytes.IsQuote b) : b < 0x80 := by
  rcases h with rfl | rfl
  · decide
  · decide

theorem opensMarkup_ascii {b : UInt8} (h : OpensMarkup rest) (hb : b ∈ rest.head?) :
    b < 0x80 ∧ Identifier.isContinue b.toNat = false := by
  obtain ⟨_, s, rfl, rfl | ⟨rfl, -⟩⟩ := h
  · cases hb
    decide
  · cases hb
    decide

theorem isNumberByte_ascii {b : UInt8} (h : Lexeme.isNumberByte b = true) : b < 0x80 := by
  rw [Lexeme.isNumberByte, Bool.or_eq_true, Bool.and_eq_true, decide_eq_true_eq, beq_iff_eq] at h
  rcases h with ⟨-, h⟩ | rfl
  · exact h
  · decide

theorem number_ascii (h : Lexical mode .number text rest) : ∀ b ∈ text, b < 0x80 := by
  cases h with
  | @number b text _ hb htext _ =>
      intro x hx
      rcases List.mem_cons.mp hx with rfl | hx
      · rcases hb with hdigit | ⟨rfl, -⟩
        · exact isNumberByte_ascii (Lexeme.isNumberByte_of_isDigit hdigit)
        · decide
      · exact isNumberByte_ascii (htext x hx)

theorem endsWhole (h : Lexical mode kind text rest) : EndsWhole text rest := by
  have hnames : ∀ cs : List Nat, (∀ c ∈ cs, Identifier.isContinue c = true) →
      Utf8.WellFormed (Utf8.ofCodePoints cs) := fun cs hcs =>
    ⟨cs, fun c hc => Identifier.isScalar_of_isContinue (hcs c hc), rfl⟩
  cases h with
  | word hname _ =>
      obtain ⟨cs, rfl, hcs⟩ := hname.exists_codePoints
      exact .of_wellFormed (hnames cs hcs)
  | tagName hname _ =>
      obtain ⟨cs, rfl, hcs⟩ := hname.exists_codePoints
      exact .of_wellFormed ⟨cs, fun c hc => isScalar_of_continues (hcs c hc), rfl⟩
  | privateName hname _ _ =>
      obtain ⟨cs, rfl, hcs⟩ := hname.exists_codePoints
      exact .of_wellFormed ((Utf8.WellFormed.ascii (by decide)).append (hnames cs hcs))
  | number hb htext hrest =>
      exact .of_wellFormed (.of_ascii (number_ascii (.number hb htext hrest)))
  | @string quote text _ _ hquote _ hend =>
      cases hend with
      | closed => exact .of_last (isQuote_ascii hquote) (quote :: text) rest
      | line hends => exact .inl hends.head_ascii
      | stray => exact .inl (by simp)
  | @attributeString quote text _ _ hquote _ hend =>
      rcases hend with rfl | ⟨-, rfl⟩
      · exact .of_last (isQuote_ascii hquote) (quote :: text) rest
      · exact .inl (by simp)
  | @template opening text _ _ _ _ hend =>
      cases hend with
      | closed =>
          rw [← List.append_assoc]
          exact .of_last (by decide) (opening ++ text) rest
      | substitution => exact .inl fun b hb => by cases hb; decide
      | text => exact .inl (by simp)
      | stray => exact .inl (by simp)
  | @regex text flags _ _ hflags _ =>
      refine .inr (.inl ⟨Bytes.slash :: text ++ [Bytes.slash], Utf8.ofCodePoints flags, by simp,
        ?_, hnames flags hflags⟩)
      rw [List.getLast?_concat]
      exact fun b hb => by cases hb; decide
  | markupText _ _ hrest =>
      rcases hrest with rfl | hopens
      · exact .inl (by simp)
      · exact .inl fun b hb => (opensMarkup_ascii hopens hb).1
  | longMark hname _ =>
      have hascii := longMarks_ascii _ hname
      rw [List.all_eq_true] at hascii
      exact .of_wellFormed (.of_ascii fun b hb => of_decide_eq_true (hascii b hb))
  | mark hb _ _ _ => exact .of_wellFormed (.ascii hb)
  | @other b s hb _ =>
      rcases Utf8.decode_cases b s with ⟨hscalar, htake⟩ | hinvalid
      · rw [htake]
        exact .of_wellFormed (.encode hscalar)
      · refine .inr (.inr ⟨b, ?_, ?_⟩)
        · rw [hinvalid]
          rfl
        · rw [hinvalid]
          exact hinvalid

end Lexical

/-! ### Well-formed texts -/

/-- A block comment ends with a slash. -/
theorem Lexeme.closed_eq (text : Bytes) :
    utf8 "/*" ++ text ++ utf8 "*/" = (utf8 "/*" ++ text ++ utf8 "*") ++ [Bytes.slash] := by
  simp [closing_eq]
  rfl

theorem Trivia.wellFormed {gap rest : Bytes} (h : Trivia gap rest)
    (hwf : Utf8.WellFormed (gap ++ rest)) : Utf8.WellFormed gap ∧ Utf8.WellFormed rest := by
  induction h with
  | nil => exact ⟨.nil, hwf⟩
  | @blank c gap rest hc _ ih =>
      have hscalar := Lexeme.isScalar_of_isBlank hc
      rw [List.append_assoc] at hwf
      obtain ⟨hgap, hrest⟩ := ih (hwf.of_encode_append hscalar)
      exact ⟨(Utf8.WellFormed.encode hscalar).append hgap, hrest⟩
  | @lineComment text gap rest _ hend _ ih =>
      rw [List.append_assoc] at hwf
      obtain ⟨htext, hnext⟩ := hwf.cut_head hend.head_ascii
      obtain ⟨hgap, hrest⟩ := ih hnext
      exact ⟨htext.append hgap, hrest⟩
  | @blockComment text gap rest _ _ ih =>
      rw [Lexeme.closed_eq, List.append_assoc] at hwf
      rw [Lexeme.closed_eq]
      obtain ⟨hcomment, hnext⟩ := (EndsWhole.of_last (by decide) _ _).wellFormed hwf
      obtain ⟨hgap, hrest⟩ := ih hnext
      exact ⟨hcomment.append hgap, hrest⟩
  | openComment => exact ⟨by simpa using hwf, .nil⟩

namespace Written

variable {front rest : Bytes} {tokens : List Token}

/-- What has been read of a well-formed text ends at a boundary, and so do the tokens in it. -/
theorem boundaries (h : Written front rest tokens) (hsource : source = front ++ rest)
    (hwf : Utf8.WellFormed source)
    (hends : ∀ t ∈ tokens, EndsWhole t.text (source.drop (t.offset + t.text.length))) :
    Utf8.WellFormed front ∧ Utf8.WellFormed rest ∧ ∀ t ∈ tokens,
      Utf8.Boundary source t.offset ∧ Utf8.Boundary source (t.offset + t.text.length) := by
  induction h with
  | start rest => exact ⟨.nil, by simpa [hsource] using hwf, by simp⟩
  | @hashbang line rest hline =>
      rw [hsource] at hwf
      obtain ⟨hfront, hrest⟩ := hwf.cut_head hline.2.2.head_ascii
      exact ⟨hfront, hrest, by simp⟩
  | trivia _ htrivia ih =>
      rw [List.append_assoc] at hsource
      obtain ⟨hfront, hrest, htokens⟩ := ih hsource hends
      obtain ⟨hgap, hrest⟩ := htrivia.wellFormed hrest
      exact ⟨hfront.append hgap, hrest, htokens⟩
  | @token front text rest tokens kind _ _ ih =>
      rw [List.append_assoc] at hsource
      obtain ⟨hfront, hrest, htokens⟩ :=
        ih hsource fun t ht => hends t (List.mem_cons_of_mem _ ht)
      have hoffset : (Position.start.advance front).offset = front.length := by
        rw [Position.advance_start]
      have hnew := hends _ List.mem_cons_self
      simp only [hoffset, hsource, List.drop_length_add_append, List.drop_left] at hnew
      obtain ⟨htext, hrest⟩ := hnew.wellFormed hrest
      refine ⟨hfront.append htext, hrest, ?_⟩
      intro t ht
      rcases List.mem_cons.mp ht with rfl | ht
      · simp only [hoffset]
        constructor
        · rw [hsource]
          exact Utf8.boundary_append hfront (htext.append hrest)
        · rw [hsource, ← List.append_assoc, ← List.length_append]
          exact Utf8.boundary_append (hfront.append htext) hrest
      · exact htokens t ht

end Written

/-- No token of a well-formed text starts or ends inside a code point. -/
theorem boundary_of_mem_tokenize (hwf : Utf8.WellFormed source)
    (h : t ∈ tokenize dialect source) :
    Utf8.Boundary source t.offset ∧ Utf8.Boundary source (t.offset + t.text.length) := by
  have hends : ∀ t ∈ (tokenize dialect source).reverse,
      EndsWhole t.text (source.drop (t.offset + t.text.length)) := fun t ht =>
    let ⟨_, hclass⟩ := lexical_of_mem_tokenize (List.mem_reverse.mp ht)
    hclass.endsWhole
  have hall := (written_tokenize dialect source).boundaries (by simp) hwf hends
  exact hall.2.2 t (List.mem_reverse.mpr h)

end UnusedImports
