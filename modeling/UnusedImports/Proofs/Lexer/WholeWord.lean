import UnusedImports.Proofs.Lexer.Boundary
import UnusedImports.Proofs.Lexer.Place
import UnusedImports.Proofs.Text.Alignment

/-! No code point that continues an identifier stands beside a name, unless a number ends there or
the code point is punctuation of its own. -/

namespace UnusedImports

variable {dialect : Dialect} {source : Bytes} {mode : Mode} {t : Token}
  {front text rest : Bytes} {kind : TokenKind} {tokens : List Token}

/-! ### Places that split no code point -/

theorem EndsWhole.unsplit (h : EndsWhole text rest) (hfront : Utf8.Unsplit front (text ++ rest)) :
    Utf8.Unsplit (front ++ text) rest := by
  rcases h with hhead | ⟨start, back, rfl, hlast, hback⟩ | ⟨b, rfl, hdecode⟩
  · exact Utf8.unsplit_of_ascii hhead
  · rw [← List.append_assoc]
    refine Utf8.Unsplit.append_wellFormed ?_ hback
    rcases List.eq_nil_or_concat start with rfl | ⟨start, b, rfl⟩
    · simpa using hfront
    · rw [List.concat_eq_append, ← List.append_assoc]
      exact Utf8.unsplit_append_ascii (hlast b (by simp)) _ _
  · exact hfront.append_invalid hdecode

theorem Trivia.unsplit {gap : Bytes} (h : Trivia gap rest)
    (hfront : Utf8.Unsplit front (gap ++ rest)) : Utf8.Unsplit (front ++ gap) rest := by
  induction h generalizing front with
  | nil => simpa using hfront
  | blank hc _ ih =>
      rw [← List.append_assoc]
      exact ih (Utf8.unsplit_append_encode (Lexeme.isScalar_of_isBlank hc) _ _)
  | lineComment _ hend _ ih =>
      rw [← List.append_assoc]
      exact ih (Utf8.unsplit_of_ascii hend.head_ascii)
  | blockComment _ _ ih =>
      rw [← List.append_assoc, Lexeme.closed_eq, ← List.append_assoc front]
      exact ih (Utf8.unsplit_append_ascii (by decide) _ _)
  | openComment => exact Utf8.unsplit_of_ascii (by simp)

/-! ### Places where words break -/

/-- A code point in front of a place ends a number there, or is punctuation of its own. -/
def Joins (tokens : List Token) (i c : Nat) : Prop :=
  ∃ u ∈ tokens, u.offset + u.text.length = i ∧
    (u.kind = .number ∨ u.kind = .punctuation ∧ 0x80 ≤ c ∧ u.text = Utf8.encode c)

theorem Joins.mono {some all : List Token} {i c : Nat} (h : Joins some i c) (hall : some ⊆ all) :
    Joins all i c :=
  let ⟨u, hu, hends⟩ := h
  ⟨u, hall hu, hends⟩

/-- A word breaks at a place: either no code point behind it continues an identifier, or none in
front of it does but for one that joins on. -/
def WordBreak (front rest : Bytes) (tokens : List Token) : Prop :=
  Identifier.isContinue (Utf8.decode rest).1 = false ∨
    ∀ c, Identifier.isContinue c = true → Utf8.encode c <:+ front → Joins tokens front.length c

namespace WordBreak

theorem of_head (h : ∀ b ∈ rest.head?, b < 0x80 ∧ Identifier.isContinue b.toNat = false) :
    WordBreak front rest tokens := by
  cases rest with
  | nil => exact .inl endsName_nil.1
  | cons b s =>
      obtain ⟨hb, hnot⟩ := h b rfl
      exact .inl (by rwa [Utf8.decode_ascii hb])

theorem of_endsLine (h : EndsLine rest) : WordBreak front rest tokens := by
  refine of_head fun b hb => ?_
  rcases h with rfl | hhead
  · cases hb
  · rw [hhead] at hb
    cases hb
    decide

theorem of_encode {c : Nat} (hc : Utf8.IsScalar c) (hnot : Identifier.isContinue c = false)
    (front rest : Bytes) : WordBreak (front ++ Utf8.encode c) rest tokens := by
  refine .inr fun d hd hsuffix => ?_
  rw [Utf8.eq_of_encode_suffix (Identifier.isScalar_of_isContinue hd) hc hsuffix, hnot] at hd
  cases hd

theorem of_last {b : UInt8} (hb : b < 0x80) (hnot : Identifier.isContinue b.toNat = false)
    (front rest : Bytes) : WordBreak (front ++ [b]) rest tokens := by
  obtain ⟨hscalar, hencode⟩ := Utf8.encode_ascii hb
  rw [← hencode]
  exact of_encode hscalar hnot front rest

theorem of_getLast? {b : UInt8} (hlast : text.getLast? = some b) (hb : b < 0x80)
    (hnot : Identifier.isContinue b.toNat = false) (front rest : Bytes) :
    WordBreak (front ++ text) rest tokens := by
  obtain ⟨start, rfl⟩ := List.getLast?_eq_some_iff.mp hlast
  rw [← List.append_assoc]
  exact of_last hb hnot _ rest

end WordBreak

theorem Trivia.wordBreak {gap : Bytes} (h : Trivia gap rest)
    (hfront : WordBreak front (gap ++ rest) tokens) : WordBreak (front ++ gap) rest tokens := by
  induction h generalizing front with
  | nil => simpa using hfront
  | @blank c _ _ hc _ ih =>
      rw [← List.append_assoc]
      refine ih (.of_encode (Lexeme.isScalar_of_isBlank hc) ?_ _ _)
      by_contra hcontinue
      rw [Bool.not_eq_false] at hcontinue
      rw [Identifier.not_isBlank_of_isContinue hcontinue] at hc
      cases hc
  | lineComment _ hend _ ih =>
      rw [← List.append_assoc]
      exact ih (.of_endsLine hend)
  | blockComment _ _ ih =>
      rw [← List.append_assoc, Lexeme.closed_eq, ← List.append_assoc front]
      exact ih (.of_last (by decide) (by decide) _ _)
  | openComment => exact .of_endsLine (.inl rfl)

namespace Lexical

theorem isQuote_not_isContinue {b : UInt8} (h : Bytes.IsQuote b) :
    Identifier.isContinue b.toNat = false := by
  rcases h with rfl | rfl
  · decide
  · decide

theorem getLast?_quoted (quote : UInt8) (text : Bytes) :
    (quote :: (text ++ [quote])).getLast? = some quote := by
  rw [← List.cons_append, List.getLast?_concat]

theorem longMarks_last : ∀ name ∈ longMarks, ((utf8 name).getLast?.any fun b =>
    b < 0x80 && !Identifier.isContinue b.toNat) = true := by decide

/-- Behind a token a word breaks, unless it is a piece of a template in front of a substitution. -/
theorem wordBreak (h : Lexical mode kind text rest)
    (hclosed : kind = .template → text.getLast? = some Bytes.backtick ∨ rest = [])
    (hfront : Utf8.Unsplit front (text ++ rest)) {p : Position} (hp : p.offset = front.length) :
    WordBreak (front ++ text) rest (⟨p, kind, text⟩ :: tokens) := by
  have hend : p.offset + text.length = (front ++ text).length := by
    rw [hp, List.length_append]
  cases h with
  | word _ hends => exact .inl hends
  | tagName _ hends => exact .inl hends.1
  | privateName _ _ hends => exact .inl hends
  | number => exact .inr fun c _ _ => ⟨_, List.mem_cons_self, hend, .inl rfl⟩
  | @string quote text ending _ hquote _ hending =>
      cases hending with
      | closed =>
          exact .of_getLast? (getLast?_quoted quote text) (isQuote_ascii hquote)
            (isQuote_not_isContinue hquote) _ _
      | line hends => exact .of_endsLine hends
      | stray => exact .of_endsLine (.inl rfl)
  | @attributeString quote text ending _ hquote _ hending =>
      rcases hending with rfl | ⟨-, rfl⟩
      · exact .of_getLast? (getLast?_quoted quote text) (isQuote_ascii hquote)
          (isQuote_not_isContinue hquote) _ _
      · exact .of_endsLine (.inl rfl)
  | template =>
      rcases hclosed rfl with hlast | rfl
      · exact .of_getLast? hlast (by decide) (by decide) _ _
      · exact .of_endsLine (.inl rfl)
  | regex _ _ hends => exact .inl hends
  | markupText _ _ hrest =>
      rcases hrest with rfl | hopens
      · exact .of_endsLine (.inl rfl)
      · exact .of_head fun b hb => opensMarkup_ascii hopens hb
  | longMark hname _ =>
      have hmark := longMarks_last _ hname
      rw [Option.any_eq_true] at hmark
      obtain ⟨b, hlast, hb⟩ := hmark
      rw [Bool.and_eq_true, decide_eq_true_eq, Bool.not_eq_true'] at hb
      exact .of_getLast? hlast hb.1 hb.2 _ _
  | mark hb hnot _ _ => exact .of_last hb hnot _ _
  | @other b s hb _ =>
      rcases Utf8.decode_cases b s with ⟨hscalar, htake⟩ | hinvalid
      · -- The code point itself is the mark that a name behind it would join.
        have hhead : (Utf8.encode (Utf8.decode (b :: s)).1).head? = some b := by
          rw [← htake, List.head?_take, if_neg (Nat.ne_of_gt (Utf8.decode_size_pos b s))]
          rfl
        rw [htake] at hend ⊢
        refine .inr fun c hc hsuffix => ?_
        obtain rfl :=
          Utf8.eq_of_encode_suffix (Identifier.isScalar_of_isContinue hc) hscalar hsuffix
        exact ⟨_, List.mem_cons_self, hend, .inr ⟨rfl, Utf8.le_of_head_encode hhead hb, rfl⟩⟩
      · refine .inr fun c hc hsuffix => ?_
        rw [List.take_append_drop] at hfront
        rw [hinvalid] at hsuffix
        exact absurd hsuffix
          (hfront.not_encode_suffix hinvalid (Identifier.isScalar_of_isContinue hc))

end Lexical

/-! ### Steps and runs -/

namespace Lexer

variable {lx next : Lexer} {new : List Token}

theorem StandsIn.take_add (h : lx.StandsIn source) (n : Nat) :
    source.take (lx.position.offset + (lx.rest.take n).length) =
      source.take lx.position.offset ++ lx.rest.take n := by
  rw [List.take_add, ← h.rest_eq, List.length_take, ← List.take_eq_take_min]

theorem StandsIn.length_take (h : lx.StandsIn source) :
    (source.take lx.position.offset).length = lx.position.offset := by
  rw [List.length_take, Nat.min_eq_left h.offset_le]

/-- The place of a lexer splits no code point, and a word breaks there. -/
structure Aligned (source : Bytes) (lx : Lexer) : Prop where
  unsplit : Utf8.Unsplit (source.take lx.position.offset) lx.rest
  wordBreak : WordBreak (source.take lx.position.offset) lx.rest lx.tokens

theorem Adds.unsplit (h : Adds mode lx next new) (hlx : lx.StandsIn source)
    (hunsplit : Utf8.Unsplit (source.take lx.position.offset) lx.rest) :
    Utf8.Unsplit (source.take next.position.offset) next.rest := by
  induction h with
  | refl => exact hunsplit
  | @token next _ kind n hadds hclass _ ih =>
      rw [Emits.offset_emit, (hadds.standsIn hlx).take_add, emit_rest]
      refine hclass.endsWhole.unsplit ?_
      rwa [List.take_append_drop]
  | opened _ _ _ ih => exact ih

/-- Where a step ends a word breaks. -/
theorem Adds.aligned (h : Adds mode lx next new) (hlx : lx.StandsIn source)
    (haligned : lx.Aligned source) (hclosed : PieceClosed new next.rest) : next.Aligned source := by
  refine ⟨h.unsplit hlx haligned.unsplit, ?_⟩
  induction h with
  | refl => exact haligned.wordBreak
  | @token next _ kind n hadds hclass _ ih =>
      have hnext := hadds.standsIn hlx
      rw [Emits.offset_emit, hnext.take_add, emit_rest]
      refine hclass.wordBreak (hclosed _ rfl) ?_ hnext.length_take.symm
      rw [List.take_append_drop]
      exact hadds.unsplit hlx haligned.unsplit
  | opened _ _ _ ih => exact ih hclosed

theorem ReadsFrom.aligned_scan (h : lx.ReadsFrom source) (haligned : lx.Aligned source)
    (dialect : Dialect) : (lx.scan dialect).Aligned source :=
  let ⟨_, hadds, hclosed⟩ := parses_scan dialect lx
  hadds.aligned h.standsIn haligned hclosed

theorem ReadsFrom.aligned_settle (h : lx.ReadsFrom source) (haligned : lx.Aligned source) :
    lx.settle.Aligned source := by
  unfold Lexer.settle
  split
  · exact haligned
  · obtain ⟨n, hn, -, hgap⟩ := Lexeme.triviaLength_spec lx.rest 0
    rw [hn, Nat.zero_add]
    have hoffset : (lx.skip n).position.offset =
        lx.position.offset + (lx.rest.take n).length := Position.offset_advance _ _
    refine ⟨?_, ?_⟩
    · rw [hoffset, h.standsIn.take_add, skip_rest]
      refine hgap.unsplit ?_
      rw [List.take_append_drop]
      exact haligned.unsplit
    · rw [hoffset, h.standsIn.take_add, skip_rest]
      refine hgap.wordBreak ?_
      rw [List.take_append_drop]
      exact haligned.wordBreak

theorem aligned_skipHashbang (source : Bytes) :
    (ofSource source).skipHashbang.Aligned source := by
  unfold skipHashbang
  split
  · obtain ⟨n, hn, -, -, hends⟩ := Lexeme.lineLength_spec (ofSource source).rest 0
    rw [hn, Nat.zero_add]
    exact ⟨Utf8.unsplit_of_ascii hends.head_ascii, .of_endsLine hends⟩
  · exact ⟨Utf8.unsplit_nil _, .inr fun c _ hsuffix =>
      absurd (List.suffix_nil.mp hsuffix) (Utf8.encode_ne_nil c)⟩

/-- Wherever a run comes by, a word breaks. -/
theorem aligned_of_rounds
    (h : Relation.ReflTransGen (Round dialect) (ofSource source).skipHashbang lx) :
    lx.ReadsFrom source ∧ lx.Aligned source :=
  rounds_preserve (P := fun lx => lx.ReadsFrom source ∧ lx.Aligned source)
    (fun _ h => ⟨h.1.settle, h.1.aligned_settle h.2⟩)
    (fun _ hne h => ⟨h.1.scan hne dialect, h.1.aligned_scan h.2 dialect⟩) h
    ⟨readsFrom_skipHashbang source, aligned_skipHashbang source⟩

/-- Only the first token of a step is a name. -/
theorem Adds.offset_eq (h : Adds mode lx next new) (ht : t ∈ new)
    (hkind : t.kind = .identifier) : t.offset = lx.position.offset := by
  induction h with
  | refl => cases ht
  | @token next new kind n hadds _ hfirst ih =>
      rcases List.mem_cons.mp ht with rfl | ht
      · obtain rfl := hfirst hkind
        rcases hadds.emits.tokens_cases with ⟨-, hposition⟩ | ⟨u, more, htokens, -⟩
        · exact congrArg Position.offset hposition
        · rw [hadds.tokens_eq] at htokens
          have hlength := congrArg List.length htokens
          simp only [List.nil_append, List.length_append, List.length_cons] at hlength
          omega
      · exact ih ht
  | opened _ _ _ ih => exact ih ht

end Lexer

/-! ### The result -/

namespace Lexical

/-- A name starts an identifier. -/
theorem isStart_decode (h : Lexical mode .identifier text rest) :
    Identifier.isStart (Utf8.decode (text ++ rest)).1 = true := by
  cases h with
  | word hname _ => exact hname.isStart_decode rest
  | tagName hname _ =>
      obtain ⟨name, groups, rfl, hname, -⟩ := hname
      rw [List.append_assoc]
      exact hname.isStart_decode _

end Lexical

/-- A token that is a word of a text as a whole: no code point behind it continues an identifier,
and one in front of it does only if it ends a number or is punctuation of its own. -/
structure IsWholeWord (source : Bytes) (tokens : List Token) (t : Token) : Prop where
  behind : Identifier.isContinue (Utf8.decode (source.drop (t.offset + t.text.length))).1 = false
  before : ∀ c, Identifier.isContinue c = true → Utf8.encode c <:+ source.take t.offset →
    Joins tokens t.offset c

theorem ReadIn.isWholeWord (h : ReadIn dialect source mode t) (hkind : t.kind = .identifier) :
    IsWholeWord source (tokenize dialect source) t := by
  have hlexical := h.lexical
  rw [hkind] at hlexical
  obtain ⟨last, new, hrounds, hadds, ht, hne⟩ := h.exists_adds
  obtain ⟨hreads, haligned⟩ := Lexer.aligned_of_rounds hrounds
  have hoffset := hadds.offset_eq ht hkind
  have hrest : last.settle.rest = t.text ++ source.drop (t.offset + t.text.length) := by
    rw [hreads.settle.rest_eq, ← hoffset]
    exact (placed_of_mem_tokenize h.mem_tokenize).drop_eq
  refine ⟨hlexical.isContinue_decode, fun c hc hsuffix => ?_⟩
  rcases (hreads.aligned_settle haligned).wordBreak with hnot | hjoins
  · rw [hrest, Identifier.isContinue_of_isStart hlexical.isStart_decode] at hnot
    cases hnot
  · rw [hoffset] at hsuffix ⊢
    have hjoin := hjoins c hc hsuffix
    rw [hreads.settle.standsIn.length_take, Lexer.settle_tokens] at hjoin
    refine hjoin.mono fun u hu => List.mem_reverse.mpr ?_
    rw [← Lexer.run_of_rounds hrounds]
    exact (Lexer.tokens_suffix_run dialect last).subset hu

/-- What the tokens of a text are, mode by mode: each is read in a mode, has the bytes of its class
there, and is a whole word if it is an identifier. -/
structure Classified (dialect : Dialect) (source : Bytes) : Prop where
  read : ∀ t ∈ tokenize dialect source, ∃ mode, ReadIn dialect source mode t
  lexical : ∀ mode t, ReadIn dialect source mode t →
    Lexical mode t.kind t.text (source.drop (t.offset + t.text.length))
  whole : ∀ t ∈ tokenize dialect source, t.kind = .identifier →
    IsWholeWord source (tokenize dialect source) t

/-- The tokens of every text belong to their classes, in both dialects. -/
theorem tokenize_classified (dialect : Dialect) (source : Bytes) : Classified dialect source where
  read _ ht := exists_readIn_of_mem_tokenize ht
  lexical _ _ hread := hread.lexical
  whole _ ht hkind :=
    let ⟨_, hread⟩ := exists_readIn_of_mem_tokenize ht
    hread.isWholeWord hkind

end UnusedImports
