import UnusedImports.Proofs.Lexer.Lossless
import UnusedImports.Proofs.Lexer.Name
import UnusedImports.Proofs.Text.WellFormed

/-! The bytes that a token of a class may have, as a grammar that does not mention the lexer. How
they end depends on the text after them. -/

namespace UnusedImports

/-! ### Names -/

/-- A hyphen and code points that continue a name in a tag. -/
def hyphenated (cs : List Nat) : Bytes := '-'.toUInt8 :: Utf8.ofCodePoints cs

/-- A name of a tag: a name, and then hyphens and code points that continue it. -/
def IsTagName (s : Bytes) : Prop :=
  ∃ (name : Bytes) (groups : List (List Nat)), s = name ++ groups.flatMap hyphenated ∧ IsName name ∧
    ∀ cs ∈ groups, ∀ c ∈ cs, Identifier.isContinue c = true

/-! ### Literals -/

def Bytes.IsQuote (b : UInt8) : Prop := b = doubleQuote ∨ b = singleQuote

/-- What stands between the quotes of a literal: no quote, line break or backslash, but a backslash
may come before any byte. -/
inductive Unquoted (quote : UInt8) : Bytes → Prop where
  | nil : Unquoted quote []
  | plain {b s} : b ≠ Bytes.backslash → b ≠ quote → b ≠ Bytes.newline → Unquoted quote s →
      Unquoted quote (b :: s)
  | escaped {b s} : Unquoted quote s → Unquoted quote (Bytes.backslash :: b :: s)

/-- How a quoted literal ends, given the text after it: with its quote, with its line, or with a
backslash at the end of the text. -/
inductive StringEnd (quote : UInt8) : Bytes → Bytes → Prop where
  | closed (rest) : StringEnd quote [quote] rest
  | line {rest} : EndsLine rest → StringEnd quote [] rest
  | stray : StringEnd quote [Bytes.backslash] []

/-- What stands in a piece of a template: no backtick, opening of a substitution or backslash, but a
backslash may come before any byte. -/
inductive Piece : Bytes → Prop where
  | nil : Piece []
  | plain {b s} : b ≠ Bytes.backslash → b ≠ Bytes.backtick →
      ¬ (b = '$'.toUInt8 ∧ s.head? = some Bytes.openBrace) → Piece s → Piece (b :: s)
  | escaped {b s} : Piece s → Piece (Bytes.backslash :: b :: s)

/-- How a piece of a template ends, given the text after it: with a backtick, before the opening of
a substitution, with the text, or with a backslash at the end of the text. -/
inductive PieceEnd : Bytes → Bytes → Prop where
  | closed (rest) : PieceEnd [Bytes.backtick] rest
  | substitution (rest) : PieceEnd [] (utf8 "$\x7b" ++ rest)
  | text : PieceEnd [] []
  | stray : PieceEnd [Bytes.backslash] []

/-- What stands between the slashes of a regular expression, or behind a part of it that ends
between square brackets or not: no line break or backslash, but a backslash may come before any
byte, and slashes between square brackets only. -/
inductive RegexBody : Bool → Bytes → Prop where
  | nil : RegexBody false []
  | escaped {bracketed b s} : RegexBody bracketed s →
      RegexBody bracketed (Bytes.backslash :: b :: s)
  | opened {bracketed s} : RegexBody true s → RegexBody bracketed ('['.toUInt8 :: s)
  | closed {bracketed s} : RegexBody false s → RegexBody bracketed (']'.toUInt8 :: s)
  | plain {bracketed b s} : b ≠ Bytes.newline → b ≠ Bytes.backslash → b ≠ '['.toUInt8 →
      b ≠ ']'.toUInt8 → (b = Bytes.slash → bracketed = true) → RegexBody bracketed s →
      RegexBody bracketed (b :: s)

/-! ### Text between tags -/

/-- An expression container or a tag starts here. -/
def OpensMarkup (s : Bytes) : Prop :=
  ∃ b rest, s = b :: rest ∧
    (b = Bytes.openBrace ∨ b = '<'.toUInt8 ∧ Lexeme.opensTag rest = true)

/-! ### Tokens -/

/-- What a lexer is inside of. -/
inductive Mode where
  | code
  | tag
  | children
  deriving DecidableEq, Repr

def longMarks : List String := ["...", "?.", "=>", "$\x7b", "</", "/>"]

/-- The bytes that a token of a class may have in a mode, given the text after it. -/
inductive Lexical : Mode → TokenKind → Bytes → Bytes → Prop where
  | word {text rest} : IsName text → Identifier.isContinue (Utf8.decode rest).1 = false →
      Lexical .code .identifier text rest
  | tagName {text rest} : IsTagName text → EndsName rest → Lexical .tag .identifier text rest
  | privateName {text rest} : IsName text → (∀ b ∈ text.head?, b < 0x80) →
      Identifier.isContinue (Utf8.decode rest).1 = false →
      Lexical .code .privateName ('#'.toUInt8 :: text) rest
  | number {b text rest} :
      (Bytes.isDigit b = true ∨ b = '.'.toUInt8 ∧ ∃ d ∈ text.head?, Bytes.isDigit d = true) →
      (∀ x ∈ text, Lexeme.isNumberByte x = true) →
      (∀ x ∈ rest.head?, Lexeme.isNumberByte x = false) →
      Lexical .code .number (b :: text) rest
  | string {quote text ending rest} : Bytes.IsQuote quote → Unquoted quote text →
      StringEnd quote ending rest → Lexical .code .string (quote :: (text ++ ending)) rest
  | attributeString {quote text ending rest} : Bytes.IsQuote quote → quote ∉ text →
      (ending = [quote] ∨ ending = [] ∧ rest = []) →
      Lexical .tag .string (quote :: (text ++ ending)) rest
  | template {opening text ending rest} : (opening = [] ∨ opening = [Bytes.backtick]) →
      Piece text → PieceEnd ending rest →
      Lexical .code .template (opening ++ (text ++ ending)) rest
  | regex {text flags rest} : RegexBody false text →
      (∀ c ∈ flags, Identifier.isContinue c = true) →
      Identifier.isContinue (Utf8.decode rest).1 = false →
      Lexical .code .regex (Bytes.slash :: (text ++ Bytes.slash :: Utf8.ofCodePoints flags)) rest
  | markupText {text rest} : text ≠ [] →
      (∀ front back, text = front ++ back → back ≠ [] → ¬ OpensMarkup (back ++ rest)) →
      (rest = [] ∨ OpensMarkup rest) → Lexical .children .markupText text rest
  | longMark {mode name rest} : name ∈ longMarks →
      (name = "?." → ∀ d ∈ rest.head?, Bytes.isDigit d = false) →
      Lexical mode .punctuation (utf8 name) rest
  | mark {mode b rest} : b < 0x80 → Identifier.isContinue b.toNat = false → ¬ Bytes.IsQuote b →
      b ≠ Bytes.backtick → Lexical mode .punctuation [b] rest
  | other {b s} : 0x80 ≤ b → Identifier.isStart (Utf8.decode (b :: s)).1 = false →
      Lexical .code .punctuation ((b :: s).take (Utf8.decode (b :: s)).2)
        ((b :: s).drop (Utf8.decode (b :: s)).2)

/-! ### Lengths -/

namespace Lexeme

theorem isScalar_of_isBlank {c : Nat} (h : isBlank c = true) : Utf8.IsScalar c := by
  rcases Bool.or_eq_true_iff.mp h with h | h
  · exact CodePoint.isScalar_of_isBlank h
  · rw [beq_iff_eq.mp h]
    exact .inr (by decide)

set_option maxRecDepth 8000 in
theorem not_isContinue_replacement : Identifier.isContinue CodePoint.replacement = false := by
  decide +kernel

/-- A code point that continues an identifier is read from its encoding. -/
theorem eq_encode_append_of_isContinue {b : UInt8} {s : Bytes}
    (h : Identifier.isContinue (Utf8.decode (b :: s)).1 = true) :
    b :: s = Utf8.encode (Utf8.decode (b :: s)).1 ++ (b :: s).drop (Utf8.decode (b :: s)).2 ∧
      (Utf8.encode (Utf8.decode (b :: s)).1).length = (Utf8.decode (b :: s)).2 := by
  have hread : (Utf8.decode (b :: s)).1 ≠ CodePoint.replacement := by
    intro heq
    rw [heq, not_isContinue_replacement] at h
    cases h
  rw [← Utf8.take_decode (List.cons_ne_nil b s) hread, List.take_append_drop, List.length_take]
  exact ⟨rfl, Nat.min_eq_left (Utf8.decode_size_le _)⟩

theorem isContinue_ascii {b : UInt8} (hb : b < 0x80) :
    Identifier.isContinue b.toNat = (Identifier.isStart b.toNat || Bytes.isDigit b) := by
  have hlt : b.toNat < 0x80 := UInt8.lt_iff_toNat_lt.mp hb
  simp [Identifier.isContinue, hlt, Bytes.isDigit, UInt8.le_iff_toNat_le]

theorem isNumberByte_of_isDigit {b : UInt8} (h : Bytes.isDigit b = true) :
    isNumberByte b = true := by
  have hascii : b < 0x80 := by
    simp only [Bytes.isDigit, Bool.and_eq_true, decide_eq_true_eq] at h
    exact UInt8.lt_of_le_of_lt h.2 (by decide)
  rw [isNumberByte, isContinue_ascii hascii, h, decide_eq_true hascii]
  simp

theorem wordLength_spec (s : Bytes) (n : Nat) :
    ∃ cs rest, (∀ c ∈ cs, Identifier.isContinue c = true) ∧ s = Utf8.ofCodePoints cs ++ rest ∧
      Identifier.isContinue (Utf8.decode rest).1 = false ∧
      wordLength s n = n + (Utf8.ofCodePoints cs).length := by
  fun_induction wordLength s n with
  | case1 n => exact ⟨[], [], by simp, rfl, endsName_nil.1, rfl⟩
  | case2 b s n d hd ih =>
      obtain ⟨cs, rest, hcs, hs, hends, hlength⟩ := ih
      have hpos : 0 < d.2 := Utf8.decode_size_pos b s
      obtain ⟨hsplit, hsize⟩ := eq_encode_append_of_isContinue hd
      refine ⟨d.1 :: cs, rest, ?_, ?_, hends, ?_⟩
      · intro c hc
        rcases List.mem_cons.mp hc with rfl | hc
        · exact hd
        · exact hcs c hc
      · rw [hsplit, List.drop_cons hpos, hs]
        simp [d]
      · rw [hlength, ← hsize]
        simp only [Utf8.ofCodePoints_cons, List.length_append, d]
        omega
  | case3 b s n d hd => exact ⟨[], b :: s, by simp, rfl, Bool.eq_false_iff.mpr hd, rfl⟩

/-- The rest of a tag's name: code points that continue it, and groups of those behind hyphens. -/
theorem nameLength_spec (s : Bytes) (n : Nat) :
    ∃ (cs : List Nat) (groups : List (List Nat)) (rest : Bytes),
      (∀ c ∈ cs, Identifier.isContinue c = true) ∧
      (∀ g ∈ groups, ∀ c ∈ g, Identifier.isContinue c = true) ∧
      s = Utf8.ofCodePoints cs ++ groups.flatMap hyphenated ++ rest ∧ EndsName rest ∧
      nameLength s n = n + (Utf8.ofCodePoints cs ++ groups.flatMap hyphenated).length := by
  fun_induction nameLength s n with
  | case1 s n k b t hdrop hb ih =>
      obtain ⟨cs, rest, hcs, hs, -, hlength⟩ := wordLength_spec s 0
      obtain ⟨ds, groups, more, hds, hgroups, ht, hends, hmore⟩ := ih
      have hk : k = (Utf8.ofCodePoints cs).length := by simpa using hlength
      rw [hs, hk, List.drop_left] at hdrop
      have hb : b = '-'.toUInt8 := by simpa using hb
      refine ⟨cs, ds :: groups, more, hcs, ?_, ?_, hends, ?_⟩
      · intro g hg
        rcases List.mem_cons.mp hg with rfl | hg
        · exact hds
        · exact hgroups g hg
      · rw [hs, hdrop, hb, ht]
        simp [hyphenated]
      · rw [hmore, hk]
        simp only [List.length_append, List.flatMap_cons, hyphenated, List.length_cons]
        omega
  | case2 s n k b t hdrop hb =>
      obtain ⟨cs, rest, hcs, hs, hends, hlength⟩ := wordLength_spec s 0
      have hk : k = (Utf8.ofCodePoints cs).length := by simpa using hlength
      rw [hs, hk, List.drop_left] at hdrop
      refine ⟨cs, [], rest, hcs, by simp, by simpa using hs, ⟨hends, ?_⟩, by simp [hk]⟩
      simpa [hdrop] using hb
  | case3 s n k hdrop =>
      obtain ⟨cs, rest, hcs, hs, hends, hlength⟩ := wordLength_spec s 0
      have hk : k = (Utf8.ofCodePoints cs).length := by simpa using hlength
      rw [hs, hk, List.drop_left] at hdrop
      exact ⟨cs, [], rest, hcs, by simp, by simpa using hs, ⟨hends, by simp [hdrop]⟩, by simp [hk]⟩

/-- A quoted literal reaches up to and with the first quote that no backslash escapes, or to the end
of its line. -/
theorem stringLength_spec (quote : UInt8) (s : Bytes) (n : Nat) :
    ∃ text ending rest, s = text ++ ending ++ rest ∧ Unquoted quote text ∧
      StringEnd quote ending rest ∧ stringLength quote s n = n + (text ++ ending).length := by
  fun_induction stringLength quote s n with
  | case1 n => exact ⟨[], [], [], rfl, .nil, .line (.inl rfl), rfl⟩
  | case2 b n hb =>
      exact ⟨[], [], [b], rfl, .nil, .line (.inr (by simpa using hb)), rfl⟩
  | case3 b n hb =>
      by_cases hslash : b = Bytes.backslash
      · exact ⟨[], [b], [], rfl, .nil, hslash ▸ .stray, rfl⟩
      · by_cases hquote : b = quote
        · exact ⟨[], [b], [], rfl, .nil, hquote ▸ .closed [], rfl⟩
        · exact ⟨[b], [], [], rfl, .plain hslash hquote (by simpa using hb) .nil,
            .line (.inl rfl), rfl⟩
  | case4 b c s n hb ih =>
      obtain rfl : b = Bytes.backslash := by simpa using hb
      obtain ⟨text, ending, rest, rfl, htext, hending, hlength⟩ := ih
      refine ⟨Bytes.backslash :: c :: text, ending, rest, rfl, .escaped htext, hending, ?_⟩
      simp only [hlength, List.cons_append, List.length_cons]
      omega
  | case5 b c s n _ hb =>
      obtain rfl : b = quote := by simpa using hb
      exact ⟨[], [b], c :: s, rfl, .nil, .closed _, rfl⟩
  | case6 b c s n _ _ hb =>
      exact ⟨[], [], b :: c :: s, rfl, .nil, .line (.inr (by simpa using hb)), rfl⟩
  | case7 b c s n hslash hquote hbreak ih =>
      obtain ⟨text, ending, rest, heq, htext, hending, hlength⟩ := ih
      refine ⟨b :: text, ending, rest, by rw [heq]; rfl,
        .plain (by simpa using hslash) (by simpa using hquote) (by simpa using hbreak) htext,
        hending, ?_⟩
      simp only [hlength, List.cons_append, List.length_cons]
      omega

/-- An attribute string reaches up to and with the next quote, or to the end of the text. -/
theorem attributeLength_spec (quote : UInt8) (s : Bytes) (n : Nat) :
    ∃ text ending rest, s = text ++ ending ++ rest ∧ quote ∉ text ∧
      (ending = [quote] ∨ ending = [] ∧ rest = []) ∧
      attributeLength quote s n = n + (text ++ ending).length := by
  fun_induction attributeLength quote s n with
  | case1 n => exact ⟨[], [], [], rfl, List.not_mem_nil, .inr ⟨rfl, rfl⟩, rfl⟩
  | case2 b s n hb =>
      have hb : b = quote := by simpa using hb
      exact ⟨[], [b], s, rfl, List.not_mem_nil, .inl (by rw [hb]), rfl⟩
  | case3 b s n hb ih =>
      obtain ⟨text, ending, rest, rfl, htext, hending, hlength⟩ := ih
      refine ⟨b :: text, ending, rest, rfl, ?_, hending, ?_⟩
      · rw [List.mem_cons, not_or]
        exact ⟨fun heq => hb (beq_iff_eq.mpr heq.symm), htext⟩
      · simp only [hlength, List.cons_append, List.length_cons]
        omega

/-- A piece of a template reaches up to and with a backtick, up to a substitution, or to the end. -/
theorem templateLength_spec (s : Bytes) (n : Nat) :
    ∃ text ending rest, s = text ++ ending ++ rest ∧ Piece text ∧ PieceEnd ending rest ∧
      (templateLength s n).1 = n + (text ++ ending).length ∧
      ((templateLength s n).2 = .substitution → ∃ more, rest = utf8 "$\x7b" ++ more) ∧
      ((templateLength s n).2 ≠ .substitution → ending = [Bytes.backtick] ∨ rest = []) := by
  fun_induction templateLength s n with
  | case1 n => exact ⟨[], [], [], rfl, .nil, .text, rfl, by simp, fun _ => .inr rfl⟩
  | case2 b n =>
      by_cases hslash : b = Bytes.backslash
      · exact ⟨[], [b], [], rfl, .nil, hslash ▸ .stray, rfl, by split <;> simp,
          fun _ => .inr rfl⟩
      · by_cases htick : b = Bytes.backtick
        · exact ⟨[], [b], [], rfl, .nil, htick ▸ .closed [], rfl, by split <;> simp,
            fun _ => .inr rfl⟩
        · exact ⟨[b], [], [], rfl, .plain hslash htick (by simp) .nil, .text, rfl,
            by split <;> simp, fun _ => .inr rfl⟩
  | case3 b c s n hb ih =>
      obtain rfl : b = Bytes.backslash := by simpa using hb
      obtain ⟨text, ending, rest, rfl, htext, hending, hlength, hopen, hclosed⟩ := ih
      refine ⟨Bytes.backslash :: c :: text, ending, rest, rfl, .escaped htext, hending, ?_, hopen,
        hclosed⟩
      simp only [hlength, List.cons_append, List.length_cons]
      omega
  | case4 b c s n _ hb =>
      obtain rfl : b = Bytes.backtick := by simpa using hb
      exact ⟨[], [Bytes.backtick], c :: s, rfl, .nil, .closed _, rfl, by simp, fun _ => .inl rfl⟩
  | case5 b c s n _ _ hb =>
      simp only [Bool.and_eq_true, beq_iff_eq] at hb
      obtain ⟨rfl, rfl⟩ := hb
      exact ⟨[], [], _, rfl, .nil, .substitution s, rfl, fun _ => ⟨s, rfl⟩, fun h => absurd rfl h⟩
  | case6 b c s n hslash htick hopening ih =>
      obtain ⟨text, ending, rest, heq, htext, hending, hlength, hopen, hclosed⟩ := ih
      refine ⟨b :: text, ending, rest, by rw [heq]; rfl, .plain (by simpa using hslash)
        (by simpa using htick) ?_ htext, hending, ?_, hopen, hclosed⟩
      · rintro ⟨rfl, hhead⟩
        obtain ⟨text, rfl⟩ := List.head?_eq_some_iff.mp hhead
        obtain ⟨rfl, -⟩ := List.cons.inj heq
        exact hopening rfl
      · simp only [hlength, List.cons_append, List.length_cons]
        omega

theorem regexLength?_spec {s : Bytes} {bracketed : Bool} {n m : Nat}
    (h : regexLength? s bracketed n = some m) :
    ∃ text rest, s = text ++ Bytes.slash :: rest ∧ RegexBody bracketed text ∧
      m = n + (text.length + 1) := by
  have step : ∀ {b c : UInt8} {s : Bytes} {inside bracketed : Bool} {n m : Nat},
      (∀ {text}, RegexBody inside text → RegexBody bracketed (b :: text)) →
      (∃ text rest, c :: s = text ++ Bytes.slash :: rest ∧ RegexBody inside text ∧
        m = n + 1 + (text.length + 1)) →
      ∃ text rest, b :: c :: s = text ++ Bytes.slash :: rest ∧ RegexBody bracketed text ∧
        m = n + (text.length + 1) := by
    rintro b c s inside bracketed n m hstep ⟨text, rest, heq, htext, hm⟩
    exact ⟨b :: text, rest, by rw [heq]; rfl, hstep htext, by
      simp only [List.length_cons]; omega⟩
  fun_induction regexLength? s bracketed n with
  | case1 => cases h
  | case2 b bracketed n hb =>
      simp only [Bool.and_eq_true, beq_iff_eq, Bool.not_eq_true'] at hb
      cases h
      exact ⟨[], [], by simp [hb.1], hb.2 ▸ .nil, rfl⟩
  | case3 => cases h
  | case4 => cases h
  | case5 b c s bracketed n _ hb ih =>
      obtain rfl : b = Bytes.backslash := by simpa using hb
      obtain ⟨text, rest, rfl, htext, hm⟩ := ih h
      exact ⟨Bytes.backslash :: c :: text, rest, rfl, .escaped htext, by
        simp only [List.length_cons]; omega⟩
  | case6 b c s bracketed n _ _ hb ih =>
      obtain rfl : b = '['.toUInt8 := by simpa using hb
      exact step .opened (ih h)
  | case7 b c s bracketed n _ _ _ hb ih =>
      obtain rfl : b = ']'.toUInt8 := by simpa using hb
      exact step .closed (ih h)
  | case8 b c s bracketed n _ _ _ _ hb =>
      simp only [Bool.and_eq_true, beq_iff_eq, Bool.not_eq_true'] at hb
      cases h
      exact ⟨[], c :: s, by simp [hb.1], hb.2 ▸ .nil, rfl⟩
  | case9 b c s bracketed n hbreak hslash hopen hclose hend ih =>
      refine step (fun htext => .plain ?_ ?_ ?_ ?_ ?_ htext) (ih h)
      · simpa using hbreak
      · simpa using hslash
      · simpa using hopen
      · simpa using hclose
      · rintro rfl
        simpa using hend

theorem opensMarkup_cons_iff (b : UInt8) (s : Bytes) :
    OpensMarkup (b :: s) ↔ (b == Bytes.openBrace || (b == '<'.toUInt8 && opensTag s)) = true := by
  simp only [OpensMarkup, List.cons.injEq, Bool.or_eq_true, Bool.and_eq_true, beq_iff_eq]
  constructor
  · rintro ⟨_, _, ⟨rfl, rfl⟩, h⟩
    exact h
  · exact fun h => ⟨b, s, ⟨rfl, rfl⟩, h⟩

/-- Text between tags reaches up to an opening or to the end. -/
theorem markupLength_spec (s : Bytes) (n : Nat) :
    ∃ text rest, s = text ++ rest ∧
      (∀ front back, text = front ++ back → back ≠ [] → ¬ OpensMarkup (back ++ rest)) ∧
      (rest = [] ∨ OpensMarkup rest) ∧ markupLength s n = n + text.length := by
  fun_induction markupLength s n with
  | case1 n => exact ⟨[], [], rfl, by simp, .inl rfl, rfl⟩
  | case2 b s n hb =>
      exact ⟨[], b :: s, rfl, by simp, .inr ((opensMarkup_cons_iff b s).mpr hb), rfl⟩
  | case3 b s n hb ih =>
      obtain ⟨text, rest, rfl, htext, hrest, hlength⟩ := ih
      refine ⟨b :: text, rest, rfl, ?_, hrest, by simp only [hlength, List.length_cons]; omega⟩
      intro front back heq hback
      cases front with
      | nil =>
          rw [List.nil_append] at heq
          rw [← heq, List.cons_append, opensMarkup_cons_iff]
          exact hb
      | cons x front => exact htext front back (List.cons.inj heq).2 hback

end Lexeme

/-! ### What is read -/

namespace Lexical

variable {mode : Mode} {kind : TokenKind} {b : UInt8} {text s : Bytes} {n : Nat}

theorem of_append {rest : Bytes} (h : Lexical mode kind text rest) (hn : n = text.length) :
    Lexical mode kind ((text ++ rest).take n) ((text ++ rest).drop n) := by
  rwa [hn, List.take_left, List.drop_left]

/-- A text given as a token and what follows it. -/
theorem of_eq {rest : Bytes} (h : Lexical mode kind text rest) (hs : s = text ++ rest)
    (hn : n = text.length) : Lexical mode kind (s.take n) (s.drop n) := hs ▸ h.of_append hn

theorem isName {rest : Bytes} (h : Lexical .code .identifier text rest) : IsName text := by
  cases h with
  | word hname _ => exact hname

/-- A mark of one byte, which is tested. -/
theorem ofMark (hb : (b < 0x80 && !Identifier.isContinue b.toNat && b != Bytes.doubleQuote &&
    b != Bytes.singleQuote && b != Bytes.backtick) = true) :
    Lexical mode .punctuation ((b :: s).take 1) ((b :: s).drop 1) := by
  simp only [Bool.and_eq_true, decide_eq_true_eq, Bool.not_eq_true', bne_iff_ne] at hb
  obtain ⟨⟨⟨⟨hascii, hcontinue⟩, hdouble⟩, hsingle⟩, htick⟩ := hb
  exact .mark hascii hcontinue (not_or.mpr ⟨hdouble, hsingle⟩) htick

end Lexical

namespace Lexer

theorem lexical_punctuator {b : UInt8} {s : Bytes}
    (hb : Lexical .code .punctuation ((b :: s).take 1) ((b :: s).drop 1)) :
    Lexical .code .punctuation ((b :: s).take (Lexeme.punctuatorLength (b :: s)))
      ((b :: s).drop (Lexeme.punctuatorLength (b :: s))) := by
  have known : ∀ {m : String}, m ∈ longMarks → (utf8 m).isPrefixOf (b :: s) = true →
      (m = "?." → ∀ d ∈ ((b :: s).drop (utf8 m).length).head?, Bytes.isDigit d = false) →
      ∀ {n}, n = (utf8 m).length →
        Lexical .code .punctuation ((b :: s).take n) ((b :: s).drop n) := by
    intro m hm hfront hdigit n hn
    obtain ⟨rest, hrest⟩ := List.isPrefixOf_iff_prefix.mp hfront
    rw [← hrest, List.drop_left] at hdigit
    exact (Lexical.longMark hm hdigit).of_eq hrest.symm hn
  unfold Lexeme.punctuatorLength
  split
  · next h => exact known (by decide) h (fun heq => absurd heq (by decide)) rfl
  · split
    · next h =>
      obtain ⟨h, hdigit⟩ := Bool.and_eq_true_iff.mp h
      refine known (m := "?.") (by decide) h (fun _ d hd => ?_) rfl
      cases hhead : ((b :: s).drop 2).head? with
      | none =>
          have hd : d ∈ ((b :: s).drop 2).head? := hd
          rw [hhead] at hd
          cases hd
      | some e =>
          have hd : d ∈ ((b :: s).drop 2).head? := hd
          rw [hhead] at hd hdigit
          cases hd
          simpa using hdigit
    · split
      · next h => exact known (by decide) h (fun heq => absurd heq (by decide)) rfl
      · exact hb

theorem lexical_regex {s : Bytes} {n : Nat} (h : Lexeme.regexLength? s false 1 = some n) :
    Lexical .code .regex
      ((Bytes.slash :: s).take (Lexeme.wordLength ((Bytes.slash :: s).drop n) n))
      ((Bytes.slash :: s).drop (Lexeme.wordLength ((Bytes.slash :: s).drop n) n)) := by
  obtain ⟨text, rest, rfl, htext, rfl⟩ := Lexeme.regexLength?_spec h
  have hfront : Bytes.slash :: (text ++ Bytes.slash :: rest) =
      Bytes.slash :: text ++ [Bytes.slash] ++ rest := by simp
  have hlength : 1 + (text.length + 1) = (Bytes.slash :: text ++ [Bytes.slash]).length := by
    simp
    omega
  rw [hfront, hlength, List.drop_left]
  obtain ⟨cs, rest, hcs, rfl, hends, hflags⟩ :=
    Lexeme.wordLength_spec rest (Bytes.slash :: text ++ [Bytes.slash]).length
  exact (Lexical.regex htext hcs hends).of_eq (by simp) (hflags.trans (by simp; omega))

/-- A code point that starts an identifier is read from its encoding. -/
theorem eq_of_isStart {b : UInt8} {s more rest : Bytes} {cs : List Nat}
    (hstart : Identifier.isStart (Utf8.decode (b :: s)).1 = true)
    (hcs : ∀ c ∈ cs, Identifier.isContinue c = true)
    (hrest : (b :: s).drop (Utf8.decode (b :: s)).2 = Utf8.ofCodePoints cs ++ more ++ rest) :
    ∃ name, IsName name ∧ b :: s = name ++ more ++ rest ∧
      (Utf8.decode (b :: s)).2 + (Utf8.ofCodePoints cs ++ more).length = (name ++ more).length := by
  obtain ⟨hsplit, hsize⟩ :=
    Lexeme.eq_encode_append_of_isContinue (Identifier.isContinue_of_isStart hstart)
  refine ⟨Utf8.encode (Utf8.decode (b :: s)).1 ++ Utf8.ofCodePoints cs, ⟨_, cs, rfl, hstart, hcs⟩,
    ?_, ?_⟩
  · rw [hrest] at hsplit
    simpa using hsplit
  · simp only [List.length_append, hsize]
    omega

theorem lexical_number {b : UInt8} {s : Bytes}
    (h : (Bytes.isDigit b || (b == '.'.toUInt8 && s.head?.any Bytes.isDigit)) = true) :
    Lexical .code .number ((b :: s).take (Lexeme.numberLength s + 1))
      ((b :: s).drop (Lexeme.numberLength s + 1)) := by
  have hstarts : Bytes.isDigit b = true ∨ b = '.'.toUInt8 ∧
      ∃ d ∈ (s.takeWhile Lexeme.isNumberByte).head?, Bytes.isDigit d = true := by
    rw [Bool.or_eq_true, Bool.and_eq_true, beq_iff_eq, Option.any_eq_true] at h
    refine h.imp_right fun ⟨hdot, d, hd, hdigit⟩ => ⟨hdot, d, ?_, hdigit⟩
    obtain ⟨s, rfl⟩ := List.head?_eq_some_iff.mp hd
    rw [List.takeWhile_cons_of_pos (Lexeme.isNumberByte_of_isDigit hdigit)]
    rfl
  have hstop : ∀ x ∈ (s.dropWhile Lexeme.isNumberByte).head?, Lexeme.isNumberByte x = false := by
    intro x hx
    have hstop := List.head?_dropWhile_not Lexeme.isNumberByte s
    rw [Option.mem_def.mp hx] at hstop
    simpa using hstop
  refine (Lexical.number hstarts (List.all_eq_true.mp List.all_takeWhile) hstop).of_eq ?_ rfl
  rw [List.cons_append, List.takeWhile_append_dropWhile]

theorem lexical_privateName {s : Bytes}
    (h : s.head?.any (fun c => c < 0x80 && Identifier.isStart c.toNat) = true) :
    Lexical .code .privateName (('#'.toUInt8 :: s).take (Lexeme.wordLength s 1))
      (('#'.toUInt8 :: s).drop (Lexeme.wordLength s 1)) := by
  cases s with
  | nil => cases h
  | cons b s =>
      obtain ⟨hascii, hstart⟩ : b < 0x80 ∧ Identifier.isStart b.toNat = true := by simpa using h
      have hdecode := Utf8.decode_ascii hascii s
      obtain ⟨cs, rest, hcs, hs, hends, hlength⟩ := Lexeme.wordLength_spec (b :: s) 1
      cases cs with
      | nil =>
          rw [Utf8.ofCodePoints_nil, List.nil_append] at hs
          rw [← hs, hdecode, Identifier.isContinue_of_isStart hstart] at hends
          cases hends
      | cons c cs =>
          have hc := Identifier.isScalar_of_isContinue (hcs c List.mem_cons_self)
          rw [hs, Utf8.ofCodePoints_cons, List.append_assoc, Utf8.decode_encode_append hc]
            at hdecode
          have hname : IsName (Utf8.ofCodePoints (c :: cs)) :=
            ⟨c, cs, rfl, (Prod.mk.inj hdecode).1 ▸ hstart,
              fun x hx => hcs x (List.mem_cons_of_mem c hx)⟩
          refine (Lexical.privateName hname ?_ hends).of_eq (by rw [hs]; rfl) (hlength.trans ?_)
          · intro x hx
            obtain ⟨t, ht⟩ := List.head?_eq_some_iff.mp hx
            rw [ht] at hs
            exact (List.cons.inj hs).1 ▸ hascii
          · simp only [List.length_cons]
            omega

/-- A token of code that opens and closes nothing. -/
theorem lexical_plainLexeme (operand : Bool) {b : UInt8} (s : Bytes) (htick : b ≠ Bytes.backtick) :
    Lexical .code (plainLexeme operand b s).1 ((b :: s).take (plainLexeme operand b s).2)
      ((b :: s).drop (plainLexeme operand b s).2) := by
  unfold plainLexeme
  dsimp only
  split
  · next hstart =>
    obtain ⟨cs, rest, hcs, hrest, hends, hlength⟩ := Lexeme.wordLength_spec
      ((b :: s).drop (Utf8.decode (b :: s)).2) (Utf8.decode (b :: s)).2
    rw [← List.append_nil (Utf8.ofCodePoints cs)] at hrest
    obtain ⟨name, hname, hwhole, hsize⟩ := eq_of_isStart hstart hcs hrest
    rw [List.append_nil] at hwhole
    rw [List.append_nil, List.append_nil] at hsize
    exact (Lexical.word hname hends).of_eq hwhole (hlength.trans hsize)
  · next hstart =>
    have hstart : Identifier.isStart (Utf8.decode (b :: s)).1 = false := by simpa using hstart
    split
    · next hb => exact .other (by simpa using hb) hstart
    · next hascii =>
      have hb : b < 0x80 := UInt8.not_le.mp (by simpa using hascii)
      rw [Utf8.decode_ascii hb] at hstart
      split
      · next hnumber =>
        exact lexical_number hnumber
      · next hnumber =>
        split
        · next hquote =>
          rw [Bool.or_eq_true, beq_iff_eq, beq_iff_eq] at hquote
          obtain ⟨text, ending, rest, rfl, htext, hending, hlength⟩ :=
            Lexeme.stringLength_spec b s 1
          exact (Lexical.string hquote htext hending).of_eq (by simp)
            (hlength.trans (by simp; omega))
        · next hquote =>
          split
          · next hhash =>
            rw [Bool.and_eq_true, beq_iff_eq] at hhash
            obtain ⟨rfl, hhead⟩ := hhash
            exact lexical_privateName hhead
          · have hmark : Lexical .code .punctuation ((b :: s).take 1) ((b :: s).drop 1) :=
              .ofMark (by simp_all [Lexeme.isContinue_ascii])
            split
            · next hslash =>
              obtain rfl : b = Bytes.slash := by
                simpa using (Bool.and_eq_true_iff.mp hslash).1
              split
              · next hregex => exact lexical_regex hregex
              · exact hmark
            · exact lexical_punctuator hmark

end Lexer

end UnusedImports
