import UnusedImports.Proofs.Lexer.Reach
import UnusedImports.Proofs.Lexer.Rules

/-! Two lexers that differ only in what follows the same front read the same tokens in it, if a
parting byte follows. What a slash and the search for the end of an element see beyond is left as a
hypothesis. -/

namespace UnusedImports

namespace Lexer

/-- Two lexers that differ only in what follows the same front. -/
def Abreast (x y : Bytes) (lx twin : Lexer) : Prop :=
  ∃ a, lx.rest = a ++ x ∧ twin = { lx with rest := a ++ y }

namespace Abreast

variable {x y : Bytes} {lx twin : Lexer}

theorem emit (h : Abreast x y lx twin) (kind : TokenKind) {n : Nat}
    (hn : x.length + n ≤ lx.rest.length) : Abreast x y (lx.emit kind n) (twin.emit kind n) := by
  obtain ⟨a, ha, rfl⟩ := h
  have hle : n ≤ a.length := by
    rw [ha, List.length_append] at hn
    omega
  refine ⟨a.drop n, ?_, ?_⟩
  · rw [emit_rest, ha, List.drop_append_of_le_length hle]
  · simp only [Lexer.emit, skip, ha, List.take_append_of_le_length hle,
      List.drop_append_of_le_length hle]

theorem skip (h : Abreast x y lx twin) {n : Nat} (hn : x.length + n ≤ lx.rest.length) :
    Abreast x y (lx.skip n) (twin.skip n) := by
  obtain ⟨a, ha, rfl⟩ := h
  have hle : n ≤ a.length := by
    rw [ha, List.length_append] at hn
    omega
  refine ⟨a.drop n, ?_, ?_⟩
  · rw [skip_rest, ha, List.drop_append_of_le_length hle]
  · simp only [Lexer.skip, ha, List.take_append_of_le_length hle,
      List.drop_append_of_le_length hle]

theorem push (h : Abreast x y lx twin) (f : Frame) : Abreast x y (lx.push f) (twin.push f) := by
  obtain ⟨a, ha, rfl⟩ := h
  exact ⟨a, ha, rfl⟩

theorem pop (h : Abreast x y lx twin) : Abreast x y lx.pop twin.pop := by
  obtain ⟨a, ha, rfl⟩ := h
  exact ⟨a, ha, rfl⟩

theorem deepen (h : Abreast x y lx twin) (depth : Nat) :
    Abreast x y { lx with depth } { twin with depth } := by
  obtain ⟨a, ha, rfl⟩ := h
  exact ⟨a, ha, rfl⟩

theorem frames_eq (h : Abreast x y lx twin) : twin.frames = lx.frames := by
  obtain ⟨a, ha, rfl⟩ := h
  rfl

theorem depth_eq (h : Abreast x y lx twin) : twin.depth = lx.depth := by
  obtain ⟨a, ha, rfl⟩ := h
  rfl

theorem operandAllowed_eq (h : Abreast x y lx twin) :
    twin.operandAllowed = lx.operandAllowed := by
  obtain ⟨a, ha, rfl⟩ := h
  rfl

end Abreast

section

variable {b c : UInt8} {x y : Bytes} {lx twin next : Lexer}

theorem Abreast.scanTemplate (h : Abreast (b :: x) (c :: y) lx twin) (hb : Bytes.IsParting b)
    (hc : Bytes.IsParting c) {k : Nat} (hk : (b :: x).length + k ≤ lx.rest.length)
    (hreach : (b :: x).length ≤ (lx.scanTemplate k).rest.length) :
    Abreast (b :: x) (c :: y) (lx.scanTemplate k) (twin.scanTemplate k) := by
  obtain ⟨a, ha, hrest⟩ := id h
  have hle : k ≤ a.length := by
    rw [ha, List.length_append] at hk
    omega
  have hdrop : ∀ z, (a ++ z).drop k = a.drop k ++ z := fun z => List.drop_append_of_le_length hle
  have htwin : twin.rest.drop k = a.drop k ++ c :: y := by rw [hrest, hdrop]
  have hfront := Lexeme.templateLength_front (x := x) hb hc (a.drop k) k
  unfold Lexer.scanTemplate at hreach ⊢
  rw [ha, hdrop] at hreach
  rw [ha, hdrop, htwin, h.depth_eq]
  rcases hpiece : Lexeme.templateLength (a.drop k ++ b :: x) k with ⟨n, e⟩
  rw [hpiece] at hreach hfront
  have hn : (b :: x).length + n ≤ lx.rest.length ∧
      (e = .substitution → (b :: x).length + n + 2 ≤ lx.rest.length) := by
    cases e
    all_goals
      simp only [push_rest, emit_rest, List.length_drop, List.length_cons] at hreach ⊢
      exact ⟨by omega, by first | omega | simp⟩
  have hin : n ≤ k + (a.drop k).length := by
    have := hn.1
    rw [ha, List.length_append] at this
    rw [List.length_drop]
    omega
  rw [hfront hin]
  have htemplate := h.emit .template hn.1
  cases e with
  | substitution =>
      refine (htemplate.emit .punctuation ?_).push _
      have := hn.2 rfl
      rw [emit_rest, List.length_drop]
      omega
  | closed => exact htemplate
  | unterminated => exact htemplate

theorem Abreast.braceRule (h : Abreast (b :: x) (c :: y) lx twin) (hb : Bytes.IsParting b)
    (hc : Bytes.IsParting c) (hfront : (b :: x).length < lx.rest.length)
    (hrule : BraceRule lx next) (hreach : (b :: x).length ≤ next.rest.length) :
    ∃ next', BraceRule twin next' ∧ Abreast (b :: x) (c :: y) next next' := by
  have hbrace := h.emit .punctuation (n := 1) hfront
  cases hrule with
  | substitution hframes =>
      refine ⟨_, .substitution (by rw [h.frames_eq, h.depth_eq, hframes]),
        hbrace.pop.scanTemplate hb hc ?_ hreach⟩
      rw [pop_rest, emit_rest, List.length_drop]
      omega
  | container hframes =>
      exact ⟨_, .container (by rw [h.frames_eq, h.depth_eq, hframes]), hbrace.pop⟩
  | block htemplate hcontainer =>
      refine ⟨_, .block (by rwa [h.frames_eq, h.depth_eq]) (by rwa [h.frames_eq, h.depth_eq]), ?_⟩
      rw [h.depth_eq]
      exact hbrace.deepen _

/-- The two bytes that tell an opening tag from a closing one must be in the front. -/
theorem Abreast.scanOpenTag (h : Abreast x y lx twin) (htwo : x.length + 2 ≤ lx.rest.length) :
    Abreast x y lx.scanOpenTag twin.scanOpenTag := by
  obtain ⟨a, ha, hrest⟩ := id h
  have hsecond : twin.rest.tail.head? = lx.rest.tail.head? := by
    match a with
    | [] =>
        rw [ha, List.nil_append] at htwo
        omega
    | [p] =>
        rw [ha, List.length_append, List.length_singleton] at htwo
        omega
    | p :: q :: a => rw [hrest, ha]; rfl
  unfold Lexer.scanOpenTag
  rw [hsecond]
  refine (h.emit .punctuation ?_).push _
  split <;> omega

theorem plainLexeme_quote (operand : Bool) {p : UInt8} (hp : Bytes.IsQuote p) (s : Bytes) :
    plainLexeme operand p s = (.string, Lexeme.stringLength p s 1) := by
  have hascii : p < 0x80 := by
    rcases hp with rfl | rfl <;> decide
  unfold plainLexeme
  rw [Utf8.decode_ascii hascii]
  rcases hp with rfl | rfl <;> rfl

theorem plainLexeme_slash (s : Bytes) :
    plainLexeme true Bytes.slash s =
      match Lexeme.regexLength? s false 1 with
      | some n => (.regex, Lexeme.wordLength ((Bytes.slash :: s).drop n) n)
      | none => (.punctuation, 1) := by
  unfold plainLexeme
  rw [Utf8.decode_ascii (by decide)]
  rfl

/-- Words, numbers and marks end before a parting byte. -/
theorem plainLexeme_append (hb : Bytes.IsParting b) {operand : Bool} {p : UInt8}
    (hquote : ¬ Bytes.IsQuote p) (hslash : (p == Bytes.slash && operand) = false) (a : Bytes) :
    plainLexeme operand p (a ++ b :: x) = plainLexeme operand p a ∧
      (plainLexeme operand p a).2 ≤ a.length + 1 := by
  have hsize := Utf8.decode_size_le (p :: a)
  have hdecode : Utf8.decode (p :: (a ++ b :: x)) = Utf8.decode (p :: a) :=
    Utf8.decode_append_ascii (List.cons_ne_nil p a) hb.ascii x
  have hdrop : (p :: (a ++ b :: x)).drop (Utf8.decode (p :: a)).2 =
      (p :: a).drop (Utf8.decode (p :: a)).2 ++ b :: x := by
    rw [← List.cons_append, List.drop_append_of_le_length hsize]
  have hany : ∀ {q : UInt8 → Bool}, q b = false → (a ++ b :: x).head?.any q = a.head?.any q := by
    intro q hqb
    cases a with
    | nil => simpa using hqb
    | cons r a => rfl
  have hquotes : (p == Bytes.doubleQuote || p == Bytes.singleQuote) = false := by
    simpa [Bytes.IsQuote] using hquote
  have hword := Lexeme.wordLength_le ((p :: a).drop (Utf8.decode (p :: a)).2)
    (Utf8.decode (p :: a)).2
  have hname := Lexeme.wordLength_le a 1
  have hnumber : Lexeme.numberLength a ≤ a.length := (List.takeWhile_prefix _).length_le
  rw [List.length_drop, List.length_cons] at hword
  unfold plainLexeme
  dsimp only
  rw [hdecode, hdrop, hany hb.not_isDigit, hany (by simp [hb.not_isStart]), hquotes, hslash,
    Lexeme.wordLength_append hb, Lexeme.numberLength_append hb, Lexeme.wordLength_append hb,
    ← List.cons_append, Lexeme.punctuatorLength_append hb]
  refine ⟨rfl, ?_⟩
  have hmark := Lexeme.punctuatorLength_le p a
  rw [List.length_cons] at hsize
  repeat' split
  all_goals first | exact absurd ‹_› Bool.false_ne_true | omega

/-- A token of code that opens and closes nothing, if it lies in the front. -/
theorem plainLexeme_front (hb : Bytes.IsParting b) (hbreak : b ≠ Bytes.newline)
    (hc : Bytes.IsParting c) (operand : Bool) (p : UInt8) (a : Bytes)
    (hregex : p = Bytes.slash → operand = true → Lexeme.regexLength? (a ++ b :: x) false 1 = none →
      Lexeme.regexLength? (a ++ c :: y) false 1 = none)
    (hreach : (plainLexeme operand p (a ++ b :: x)).2 ≤ a.length + 1) :
    plainLexeme operand p (a ++ c :: y) = plainLexeme operand p (a ++ b :: x) := by
  by_cases hquote : Bytes.IsQuote p
  · rw [plainLexeme_quote operand hquote] at hreach ⊢
    rw [plainLexeme_quote operand hquote,
      Lexeme.stringLength_front (x := x) hb hbreak hquote a 1 (by omega) c y]
  · cases hslash : p == Bytes.slash && operand with
    | true =>
        rw [Bool.and_eq_true, beq_iff_eq] at hslash
        obtain ⟨rfl, rfl⟩ := hslash
        rw [plainLexeme_slash] at hreach ⊢
        rw [plainLexeme_slash]
        cases hx : Lexeme.regexLength? (a ++ b :: x) false 1 with
        | none => rw [hregex rfl rfl hx]
        | some n =>
            rw [hx] at hreach
            dsimp only at hreach
            have hflags := Lexeme.le_wordLength ((Bytes.slash :: (a ++ b :: x)).drop n) n
            have hdrop : ∀ z : Bytes, (Bytes.slash :: (a ++ z)).drop n =
                (Bytes.slash :: a).drop n ++ z := fun z => by
              rw [← List.cons_append, List.drop_append_of_le_length]
              rw [List.length_cons]
              omega
            rw [Lexeme.regexLength?_front hx (by omega)]
            dsimp only
            rw [hdrop, hdrop, Lexeme.wordLength_append hb, Lexeme.wordLength_append hc]
    | false =>
        rw [(plainLexeme_append hb hquote hslash a).1, (plainLexeme_append hc hquote hslash a).1]

/-- A tag needs a name, or at least a `>`, so its first byte is in the front. -/
theorem ne_nil_of_opensMarkup {dialect : Dialect} {a : Bytes} (hb : Bytes.IsParting b)
    (h : lx.opensMarkup dialect (a ++ b :: x) = true) : a ≠ [] := by
  rintro rfl
  have hmark : b ≠ '>'.toUInt8 := by
    rcases hb with rfl | rfl | rfl | rfl <;> decide
  simp [opensMarkup, Utf8.decode_ascii hb.ascii, hb.not_isStart, hmark] at h

theorem Abreast.opensMarkup_eq (h : Abreast (b :: x) (c :: y) lx twin) (hb : Bytes.IsParting b)
    (hc : Bytes.IsParting c) (dialect : Dialect) (a : Bytes)
    (hclosed : dialect = .assertions → closedLater (a ++ c :: y) = closedLater (a ++ b :: x)) :
    twin.opensMarkup dialect (a ++ c :: y) = lx.opensMarkup dialect (a ++ b :: x) := by
  have hlast : (dialect == .markup || closedLater (a ++ c :: y)) =
      (dialect == .markup || closedLater (a ++ b :: x)) := by
    cases dialect with
    | markup => rfl
    | assertions => rw [hclosed rfl]
  cases a with
  | nil =>
      have hnot : ∀ {e : UInt8} {z : Bytes} {m : Lexer}, Bytes.IsParting e →
          m.opensMarkup dialect (e :: z) = false := fun he =>
        Bool.eq_false_iff.mpr fun hopens => ne_nil_of_opensMarkup (a := []) he hopens rfl
      rw [List.nil_append, List.nil_append, hnot hb, hnot hc]
  | cons q a =>
      have hdecode : ∀ {e : UInt8} {z : Bytes}, Bytes.IsParting e →
          Utf8.decode (q :: a ++ e :: z) = Utf8.decode (q :: a) := fun he =>
        Utf8.decode_append_ascii (List.cons_ne_nil q a) he.ascii _
      unfold opensMarkup
      rw [h.operandAllowed_eq, hlast, hdecode hb, hdecode hc]
      rfl

/-- A slash that starts no regular expression is a mark. -/
theorem scanCode_slash {dialect : Dialect} {s : Bytes} (hrest : lx.rest = Bytes.slash :: s)
    (hoperand : lx.operandAllowed = true) (hregex : Lexeme.regexLength? s false 1 = none) :
    lx.scanCode dialect = lx.emit .punctuation 1 := by
  have hplain : plainLexeme true Bytes.slash s = (.punctuation, 1) := by
    rw [plainLexeme_slash, hregex]
  have hrule : CodeRule dialect lx _ := .plain hrest (by decide) (by decide) (by decide)
    fun hless => absurd hless (by decide)
  rw [hrule.eq, hoperand, hplain]

/-- A byte in front of the back stands in front of the other back, too. -/
theorem Abreast.exists_front (h : Abreast x y lx twin) (hfront : x.length < lx.rest.length)
    {p : UInt8} {s : Bytes} (hrest : lx.rest = p :: s) :
    ∃ a, s = a ++ x ∧ twin.rest = p :: (a ++ y) ∧ lx.rest.length = a.length + 1 + x.length := by
  obtain ⟨a, ha, htwin⟩ := id h
  cases a with
  | nil =>
      rw [ha, List.nil_append] at hfront
      omega
  | cons q a =>
      rw [ha, List.cons_append] at hrest
      obtain ⟨rfl, rfl⟩ := List.cons.inj hrest
      refine ⟨a, rfl, by rw [htwin]; rfl, ?_⟩
      rw [ha, List.length_append, List.length_cons]

theorem Abreast.codeRule {dialect : Dialect} (h : Abreast (b :: x) (c :: y) lx twin)
    (hb : Bytes.IsParting b) (hbreak : b ≠ Bytes.newline) (hc : Bytes.IsParting c)
    (hregex : ∀ a, lx.rest = Bytes.slash :: (a ++ b :: x) → lx.operandAllowed = true →
      lx.scanCode dialect = lx.emit .punctuation 1 →
      Lexeme.regexLength? (a ++ b :: x) false 1 = none →
      Lexeme.regexLength? (a ++ c :: y) false 1 = none)
    (hclosed : ∀ a, lx.rest = '<'.toUInt8 :: (a ++ b :: x) → dialect = .assertions →
      closedLater (a ++ c :: y) = closedLater (a ++ b :: x))
    (hfront : (b :: x).length < lx.rest.length) (hrule : CodeRule dialect lx next)
    (hreach : (b :: x).length ≤ next.rest.length) :
    ∃ next', CodeRule dialect twin next' ∧ Abreast (b :: x) (c :: y) next next' := by
  have hone := h.emit .punctuation (n := 1) hfront
  cases hrule with
  | done hrest =>
      rw [hrest] at hfront
      cases hfront
  | template hrest =>
      obtain ⟨a, rfl, htwin, -⟩ := h.exists_front hfront hrest
      exact ⟨_, .template htwin, h.scanTemplate hb hc hfront hreach⟩
  | openBrace hrest =>
      obtain ⟨a, rfl, htwin, -⟩ := h.exists_front hfront hrest
      refine ⟨_, .openBrace htwin, ?_⟩
      rw [h.depth_eq]
      exact hone.deepen _
  | closeBrace hrest =>
      obtain ⟨a, rfl, htwin, -⟩ := h.exists_front hfront hrest
      obtain ⟨next', hbrace, hnext⟩ := h.braceRule hb hc hfront lx.scanCloseBrace_rule hreach
      exact ⟨_, .closeBrace htwin, hbrace.eq ▸ hnext⟩
  | openTag hrest hopens =>
      obtain ⟨a, rfl, htwin, hlength⟩ := h.exists_front hfront hrest
      have hne := List.length_pos_iff.mpr (ne_nil_of_opensMarkup hb hopens)
      refine ⟨_, .openTag htwin ?_, h.scanOpenTag (by omega)⟩
      rwa [h.opensMarkup_eq hb hc dialect a (hclosed a hrest)]
  | @plain p s hrest htick hopen hclose hmarkup =>
      obtain ⟨a, rfl, htwin, hlength⟩ := h.exists_front hfront hrest
      rw [emit_rest, List.length_drop] at hreach
      have hlexeme := plainLexeme_front (y := y) hb hbreak hc lx.operandAllowed p a
        (fun hp hoperand hnone => by
          subst hp
          exact hregex a hrest hoperand (scanCode_slash hrest hoperand hnone) hnone)
        (by rw [List.length_cons] at hreach hlength; omega)
      refine ⟨_, .plain htwin htick hopen hclose (fun hp => ?_), ?_⟩
      · subst hp
        rw [h.opensMarkup_eq hb hc dialect a (hclosed a hrest)]
        exact hmarkup rfl
      · rw [h.operandAllowed_eq, hlexeme]
        exact h.emit _ (by rw [List.length_cons] at hreach hlength ⊢; omega)

/-- No parting byte closes a tag. -/
theorem exists_cons_of_head?_mark {e : UInt8} {z a : Bytes} (he : Bytes.IsParting e)
    (hhead : (a ++ e :: z).head? = some '>'.toUInt8) : ∃ t, a = '>'.toUInt8 :: t := by
  cases a with
  | nil =>
      obtain rfl := Option.some.inj hhead
      rcases he with he | he | he | he <;> exact absurd he (by decide)
  | cons q a => exact ⟨a, congrArg (· :: a) (Option.some.inj hhead)⟩

/-- A name that starts in front of a parting byte ends there at the latest, whichever it is. -/
theorem Abreast.name {p : UInt8} {a : Bytes} {n : Nat}
    (h : Abreast (b :: x) (c :: y) lx twin) (hb : Bytes.IsParting b) (hc : Bytes.IsParting c)
    (hrest : lx.rest = p :: (a ++ b :: x)) (hname : StartsName (p :: (a ++ b :: x)) n) :
    StartsName (p :: (a ++ c :: y)) n ∧
      Abreast (b :: x) (c :: y) (lx.emit .identifier n) (twin.emit .identifier n) ∧
      (p :: (a ++ c :: y)).take n = (p :: (a ++ b :: x)).take n := by
  have hname := (startsName_append hb).mp hname
  have hle : n ≤ (p :: a).length := hname.le
  refine ⟨(startsName_append hc).mpr hname, h.emit .identifier ?_, ?_⟩
  · rw [hrest, ← List.cons_append, List.length_append, Nat.add_comm]
    exact Nat.add_le_add_right hle _
  · rw [← List.cons_append, ← List.cons_append, List.take_append_of_le_length hle,
      List.take_append_of_le_length hle]

theorem Abreast.tagRule {closing named : Bool} {attributes : Nat}
    (h : Abreast (b :: x) (c :: y) lx twin) (hb : Bytes.IsParting b) (hc : Bytes.IsParting c)
    (hfront : (b :: x).length < lx.rest.length)
    (hrule : TagRule closing named attributes lx next)
    (hreach : (b :: x).length ≤ next.rest.length) :
    ∃ next', TagRule closing named attributes twin next' ∧
      Abreast (b :: x) (c :: y) next next' := by
  have hone := h.emit .punctuation (n := 1) hfront
  cases hrule with
  | done hrest =>
      rw [hrest] at hfront
      cases hfront
  | opened hrest hopening =>
      obtain ⟨a, rfl, htwin, -⟩ := h.exists_front hfront hrest
      exact ⟨_, .opened htwin hopening, hone.pop.push _⟩
  | closed hrest hclosing hchildren =>
      obtain ⟨a, rfl, htwin, -⟩ := h.exists_front hfront hrest
      exact ⟨_, .closed htwin hclosing (h.frames_eq ▸ hchildren), hone.pop.pop⟩
  | stray hrest hclosing hchildren =>
      obtain ⟨a, rfl, htwin, -⟩ := h.exists_front hfront hrest
      exact ⟨_, .stray htwin hclosing (h.frames_eq ▸ hchildren), hone.pop⟩
  | closesItself hrest hopening =>
      obtain ⟨a, ha, htwin, hlength⟩ := h.exists_front hfront hrest
      obtain ⟨t, rfl⟩ := exists_cons_of_head?_mark hb (congrArg List.head? ha).symm
      rw [List.length_cons] at hlength
      exact ⟨_, .closesItself htwin hopening, (h.emit .punctuation (by omega)).pop⟩
  | container hrest hnamed =>
      obtain ⟨a, rfl, htwin, -⟩ := h.exists_front hfront hrest
      refine ⟨_, .container htwin hnamed, ?_⟩
      rw [h.depth_eq]
      exact hone.push _
  | @quoted p s hrest hquote hnamed =>
      obtain ⟨a, rfl, htwin, hlength⟩ := h.exists_front hfront hrest
      rw [emit_rest, List.length_drop] at hreach
      rw [List.length_cons] at hreach hlength
      refine ⟨_, .quoted htwin hquote hnamed, ?_⟩
      rw [Lexeme.attributeLength_front (x := x) hb hquote a 1 (by omega) (c :: y)]
      exact h.emit .string (by rw [List.length_cons]; omega)
  | joint hrest hjoint =>
      obtain ⟨a, rfl, htwin, -⟩ := h.exists_front hfront hrest
      exact ⟨_, .joint htwin hjoint, hone⟩
  | tagName hrest hstart hnamed =>
      obtain ⟨a, rfl, htwin, -⟩ := h.exists_front hfront hrest
      obtain ⟨hstart, hread, -⟩ := h.name hb hc hrest hstart
      exact ⟨_, .tagName htwin hstart hnamed, hread.pop.push _⟩
  | constraint hrest hstart hnamed hextends =>
      obtain ⟨a, rfl, htwin, -⟩ := h.exists_front hfront hrest
      obtain ⟨hstart, hread, htake⟩ := h.name hb hc hrest hstart
      exact ⟨_, .constraint htwin hstart hnamed (htake ▸ hextends), hread.pop⟩
  | attributeName hrest hstart hnamed hextends =>
      obtain ⟨a, rfl, htwin, -⟩ := h.exists_front hfront hrest
      obtain ⟨hstart, hread, htake⟩ := h.name hb hc hrest hstart
      exact ⟨_, .attributeName htwin hstart hnamed (htake ▸ hextends), hread.pop.push _⟩
  | @givenUp p s hrest hend hself hopen hquote hjoint hnone =>
      obtain ⟨a, rfl, htwin, -⟩ := h.exists_front hfront hrest
      refine ⟨_, .givenUp htwin hend (fun hp hhead => ?_) hopen hquote hjoint ?_, h.pop⟩
      · obtain ⟨t, rfl⟩ := exists_cons_of_head?_mark hc hhead
        exact hself hp rfl
      · rw [← List.cons_append, Utf8.decode_append_ascii (List.cons_ne_nil p a) hb.ascii] at hnone
        rw [← List.cons_append, Utf8.decode_append_ascii (List.cons_ne_nil p a) hc.ascii]
        exact hnone

theorem OpeningRule.rest_le (h : OpeningRule lx next) :
    next.rest.length ≤ lx.rest.length - 1 := by
  cases h with
  | done hrest => simp [hrest]
  | container => simp
  | tag hrest =>
      have hne : lx.rest ≠ [] := hrest ▸ List.cons_ne_nil _ _
      have := scanOpenTag_progress hne
      omega

/-- Of the parting bytes only a slash opens a tag, and it is read with the `<`. -/
theorem rest_of_opening {q : UInt8} (hb : Bytes.IsParting b) (hbrace : q ≠ Bytes.openBrace)
    (hq : lx.scanMarkup.rest = q :: b :: x) : lx.scanMarkup.scanOpening.rest = x := by
  have hstop := hq
  rw [scanMarkup_rest] at hstop
  obtain ⟨rfl, hopens⟩ := (Lexeme.opens_of_markupLength (n := 0) hstop).resolve_left hbrace
  have hslash : b = Bytes.slash := by
    rcases hb with rfl | rfl | rfl | rfl
    · exact absurd hopens (by simp [Lexeme.opensTag]; decide)
    · rfl
    · exact absurd hopens (by simp [Lexeme.opensTag]; decide)
    · exact absurd hopens (by simp [Lexeme.opensTag]; decide)
  subst hslash
  rw [(OpeningRule.tag hq hbrace).eq, Lexer.scanOpenTag, push_rest, emit_rest, hq]
  rfl

theorem Abreast.scanMarkup (h : Abreast x y lx twin)
    (hn : x.length + Lexeme.markupLength lx.rest 0 ≤ lx.rest.length)
    (heq : Lexeme.markupLength twin.rest 0 = Lexeme.markupLength lx.rest 0) :
    Abreast x y lx.scanMarkup twin.scanMarkup := by
  unfold Lexer.scanMarkup
  rw [heq]
  dsimp only
  split
  · exact h
  · exact h.emit .markupText hn

theorem Abreast.openingRule (h : Abreast x y lx twin) {q : UInt8} {r : Bytes}
    (hq : lx.rest = q :: (r ++ x)) (hsecond : q ≠ Bytes.openBrace → r ≠ [])
    (hrule : OpeningRule lx next) :
    ∃ next', OpeningRule twin next' ∧ Abreast x y next next' := by
  have hlength : lx.rest.length = r.length + 1 + x.length := by
    rw [hq, List.length_cons, List.length_append, Nat.add_right_comm]
  obtain ⟨a, ha, htwin, -⟩ := h.exists_front (by omega) hq
  cases hrule with
  | done hrest =>
      rw [hrest] at hq
      cases hq
  | container hrest =>
      obtain ⟨rfl, -⟩ := List.cons.inj (hq.symm.trans hrest)
      refine ⟨_, .container htwin, ?_⟩
      rw [h.depth_eq]
      exact (h.emit .punctuation (by omega)).push _
  | tag hrest hbrace =>
      obtain ⟨rfl, -⟩ := List.cons.inj (hq.symm.trans hrest)
      have := List.length_pos_iff.mpr (hsecond hbrace)
      exact ⟨_, .tag htwin hbrace, h.scanOpenTag (by omega)⟩

/-- The front reaches behind the opening that ends a text, so it has the byte that makes a `<` the
opening of a tag. -/
theorem Abreast.scanChildren (h : Abreast (b :: x) (c :: y) lx twin) (hb : Bytes.IsParting b)
    (hreach : (b :: x).length ≤ lx.scanChildren.rest.length) :
    Abreast (b :: x) (c :: y) lx.scanChildren twin.scanChildren := by
  obtain ⟨a, ha, hrest⟩ := id h
  rw [scanChildren_eq] at hreach
  rw [scanChildren_eq, scanChildren_eq]
  have hlt : Lexeme.markupLength lx.rest 0 < a.length := by
    have hle := lx.scanMarkup.scanOpening_rule.rest_le
    have hlength : lx.rest.length = a.length + (b :: x).length := by rw [ha, List.length_append]
    rw [scanMarkup_rest, List.length_drop] at hle
    rw [List.length_cons] at hreach hlength
    omega
  obtain ⟨q, r, hr⟩ := List.exists_cons_of_ne_nil
    (l := a.drop (Lexeme.markupLength lx.rest 0)) (by simpa using hlt)
  have hq : lx.scanMarkup.rest = q :: (r ++ b :: x) := by
    rw [scanMarkup_rest, ← List.cons_append, ← hr, ← List.drop_append_of_le_length (by omega), ← ha]
  have hsecond : q ≠ Bytes.openBrace → r ≠ [] := by
    rintro hbrace rfl
    rw [List.nil_append] at hq
    rw [rest_of_opening hb hbrace hq, List.length_cons] at hreach
    omega
  have hlength := congrArg List.length hr
  rw [List.length_drop, List.length_cons] at hlength
  have hmarkup : Lexeme.markupLength twin.rest 0 = Lexeme.markupLength lx.rest 0 := by
    rw [ha] at hlt hr hlength ⊢
    rw [hrest]
    refine Lexeme.markupLength_front hb a 0 (by omega) (fun hlast => ?_) (c :: y)
    have hne : r ≠ [] := by
      rintro rfl
      rw [← List.take_append_drop (Lexeme.markupLength (a ++ b :: x) 0) a, hr,
        List.getLast?_concat] at hlast
      exact hsecond (by rw [Option.some.inj hlast]; decide) rfl
    have := List.length_pos_iff.mpr hne
    omega
  have hlength : lx.rest.length = a.length + (b :: x).length := by rw [ha, List.length_append]
  obtain ⟨next', hrule, hnext⟩ := (h.scanMarkup (by omega) hmarkup).openingRule hq hsecond
    lx.scanMarkup.scanOpening_rule
  rwa [hrule.eq]

theorem Abreast.scan (h : Abreast (b :: x) (c :: y) lx twin) (hb : Bytes.IsParting b)
    (hbreak : b ≠ Bytes.newline) (hc : Bytes.IsParting c) (dialect : Dialect)
    (hregex : ∀ a, lx.rest = Bytes.slash :: (a ++ b :: x) → lx.operandAllowed = true →
      lx.scan dialect = lx.emit .punctuation 1 →
      Lexeme.regexLength? (a ++ b :: x) false 1 = none →
      Lexeme.regexLength? (a ++ c :: y) false 1 = none)
    (hclosed : ∀ a, lx.rest = '<'.toUInt8 :: (a ++ b :: x) → dialect = .assertions →
      closedLater (a ++ c :: y) = closedLater (a ++ b :: x))
    (hfront : lx.frames.head? ≠ some .children → (b :: x).length < lx.rest.length)
    (hreach : (b :: x).length ≤ (lx.scan dialect).rest.length) :
    Abreast (b :: x) (c :: y) (lx.scan dialect) (twin.scan dialect) := by
  rcases scan_cases dialect lx with
    ⟨hframes, hscan⟩ | ⟨closing, named, attributes, hframes, hscan⟩ | ⟨hcode, hscan⟩
  · rw [hscan] at hreach ⊢
    rw [scan_of_children (by rwa [h.frames_eq])]
    exact h.scanChildren hb hreach
  · rw [hscan] at hreach ⊢
    rw [scan_of_tag (by rwa [h.frames_eq])]
    obtain ⟨next', hrule, hnext⟩ := h.tagRule hb hc (hfront (by simp [hframes]))
      (scanTag_rule closing named attributes lx) hreach
    rwa [hrule.eq]
  · rw [hscan] at hregex hreach ⊢
    rw [(hcode.congr h.frames_eq).scan_eq dialect]
    obtain ⟨next', hrule, hnext⟩ := h.codeRule hb hbreak hc hregex hclosed
      (hfront hcode.not_children) (scanCode_rule dialect lx) hreach
    rwa [hrule.eq]

end

end Lexer

end UnusedImports
