import UnusedImports.Proofs.Lexer.Run
import UnusedImports.Proofs.Text.Utf8

/-! What the lexer may read in each mode: one rule for each thing that can stand in front of it. Two
lexers go in step where the same rule applies to both. -/

namespace UnusedImports.Lexer

variable {dialect : Dialect} {closing named : Bool} {attributes : Nat} {lx next : Lexer}

/-! ### Code -/

/-- The rules for a right brace in code. Only the innermost frame counts, and only if it was opened
at the present depth. -/
inductive BraceRule (lx : Lexer) : Lexer → Prop where
  | substitution {outer} (hframes : lx.frames = .template lx.depth :: outer) :
      BraceRule lx ((lx.emit .punctuation 1).pop.scanTemplate 0)
  | container {outer} (hframes : lx.frames = .expression lx.depth :: outer) :
      BraceRule lx (lx.emit .punctuation 1).pop
  | block (htemplate : lx.frames.head? ≠ some (.template lx.depth))
      (hcontainer : lx.frames.head? ≠ some (.expression lx.depth)) :
      BraceRule lx { lx.emit .punctuation 1 with depth := lx.depth - 1 }

theorem scanCloseBrace_rule (lx : Lexer) : BraceRule lx lx.scanCloseBrace := by
  unfold scanCloseBrace
  dsimp only
  split
  · next d outer hframes =>
    split
    · next hd => exact .substitution (beq_iff_eq.mp hd ▸ hframes)
    · next hd => exact .block (by simpa [hframes] using hd) (by simp [hframes])
  · next d outer hframes =>
    split
    · next hd => exact .container (beq_iff_eq.mp hd ▸ hframes)
    · next hd => exact .block (by simp [hframes]) (by simpa [hframes] using hd)
  · next htemplate hcontainer =>
    refine .block (fun hhead => ?_) (fun hhead => ?_)
    · obtain ⟨outer, hframes⟩ := List.head?_eq_some_iff.mp hhead
      exact htemplate _ outer hframes
    · obtain ⟨outer, hframes⟩ := List.head?_eq_some_iff.mp hhead
      exact hcontainer _ outer hframes

theorem BraceRule.eq (h : BraceRule lx next) : lx.scanCloseBrace = next := by
  cases h with
  | substitution hframes => simp [scanCloseBrace, hframes]
  | container hframes => simp [scanCloseBrace, hframes]
  | block htemplate hcontainer =>
      unfold scanCloseBrace
      split
      · next d outer hframes => exact if_neg (by simpa [hframes] using htemplate)
      · next d outer hframes => exact if_neg (by simpa [hframes] using hcontainer)
      · rfl

inductive CodeRule (dialect : Dialect) (lx : Lexer) : Lexer → Prop where
  | done (hrest : lx.rest = []) : CodeRule dialect lx lx
  | template {s} (hrest : lx.rest = Bytes.backtick :: s) : CodeRule dialect lx (lx.scanTemplate 1)
  | openBrace {s} (hrest : lx.rest = Bytes.openBrace :: s) :
      CodeRule dialect lx { lx.emit .punctuation 1 with depth := lx.depth + 1 }
  | closeBrace {s} (hrest : lx.rest = Bytes.closeBrace :: s) :
      CodeRule dialect lx lx.scanCloseBrace
  | openTag {s} (hrest : lx.rest = '<'.toUInt8 :: s) (hopens : lx.opensMarkup dialect s = true) :
      CodeRule dialect lx lx.scanOpenTag
  | plain {b s} (hrest : lx.rest = b :: s) (htick : b ≠ Bytes.backtick)
      (hopen : b ≠ Bytes.openBrace) (hclose : b ≠ Bytes.closeBrace)
      (hmarkup : b = '<'.toUInt8 → lx.opensMarkup dialect s = false) :
      CodeRule dialect lx
        (lx.emit (plainLexeme lx.operandAllowed b s).1 (plainLexeme lx.operandAllowed b s).2)

theorem scanCode_rule (dialect : Dialect) (lx : Lexer) :
    CodeRule dialect lx (lx.scanCode dialect) := by
  unfold scanCode
  split
  · next hrest => exact .done hrest
  · next b s hrest =>
    split
    · next htick => exact .template (beq_iff_eq.mp htick ▸ hrest)
    · next htick =>
      split
      · next hopen => exact .openBrace (beq_iff_eq.mp hopen ▸ hrest)
      · next hopen =>
        split
        · next hclose => exact .closeBrace (beq_iff_eq.mp hclose ▸ hrest)
        · next hclose =>
          split
          · next hmarkup =>
            rw [Bool.and_eq_true, beq_iff_eq] at hmarkup
            exact .openTag (hmarkup.1 ▸ hrest) hmarkup.2
          · next hmarkup =>
            exact .plain hrest (by simpa using htick) (by simpa using hopen)
              (by simpa using hclose) (by simpa using hmarkup)

theorem CodeRule.eq (h : CodeRule dialect lx next) : lx.scanCode dialect = next := by
  cases h with
  | done hrest => simp [scanCode, hrest]
  | template hrest => simp [scanCode, hrest]
  | openBrace hrest =>
      rw [scanCode, hrest]
      rfl
  | closeBrace hrest =>
      rw [scanCode, hrest]
      rfl
  | openTag hrest hopens =>
      rw [scanCode, hrest]
      simp only [hopens]
      rfl
  | plain hrest htick hopen hclose hmarkup =>
      rw [scanCode, hrest]
      simp only [beq_iff_eq, htick, hopen, hclose, if_false]
      exact if_neg (by simpa using hmarkup)

/-! ### The inside of a tag -/

/-- A text starts with the name of a tag or of an attribute, which has so many bytes. -/
structure StartsName (s : Bytes) (n : Nat) : Prop where
  start : Identifier.isStart (Utf8.decode s).1 = true
  length : Lexeme.nameLength (s.drop (Utf8.decode s).2) (Utf8.decode s).2 = n

theorem StartsName.pos {b : UInt8} {s : Bytes} {n : Nat} (h : StartsName (b :: s) n) : 0 < n :=
  h.length ▸ Nat.lt_of_lt_of_le (Utf8.decode_size_pos b s) (Lexeme.le_nameLength _ _)

/-- No name starts with a mark. -/
theorem StartsName.ne {b c : UInt8} {s : Bytes} {n : Nat} (h : StartsName (b :: s) n)
    (hc : (c < 0x80 && !Identifier.isStart c.toNat) = true) : b ≠ c := by
  rintro rfl
  simp only [Bool.and_eq_true, decide_eq_true_eq, Bool.not_eq_true'] at hc
  have hstart := h.start
  rw [Utf8.decode_ascii hc.1, hc.2] at hstart
  cases hstart

/-- The marks that join names and values in a tag. -/
def IsJoint (b : UInt8) : Prop := b = '='.toUInt8 ∨ b = '.'.toUInt8 ∨ b = ':'.toUInt8

inductive TagRule (closing named : Bool) (attributes : Nat) (lx : Lexer) : Lexer → Prop where
  | done (hrest : lx.rest = []) : TagRule closing named attributes lx lx
  | opened {s} (hrest : lx.rest = '>'.toUInt8 :: s) (hopening : closing = false) :
      TagRule closing named attributes lx ((lx.emit .punctuation 1).pop.push .children)
  | closed {s} (hrest : lx.rest = '>'.toUInt8 :: s) (hclosing : closing = true)
      (hchildren : lx.frames.tail.head? = some .children) :
      TagRule closing named attributes lx (lx.emit .punctuation 1).pop.pop
  | stray {s} (hrest : lx.rest = '>'.toUInt8 :: s) (hclosing : closing = true)
      (hchildren : lx.frames.tail.head? ≠ some .children) :
      TagRule closing named attributes lx (lx.emit .punctuation 1).pop
  | closesItself {s} (hrest : lx.rest = Bytes.slash :: '>'.toUInt8 :: s)
      (hopening : closing = false) :
      TagRule closing named attributes lx (lx.emit .punctuation 2).pop
  | container {s} (hrest : lx.rest = Bytes.openBrace :: s) (hnamed : named = true) :
      TagRule closing named attributes lx ((lx.emit .punctuation 1).push (.expression lx.depth))
  | quoted {b s} (hrest : lx.rest = b :: s)
      (hquote : b = Bytes.doubleQuote ∨ b = Bytes.singleQuote) (hnamed : named = true) :
      TagRule closing named attributes lx (lx.emit .string (Lexeme.attributeLength b s 1))
  | joint {b s} (hrest : lx.rest = b :: s) (hjoint : IsJoint b) :
      TagRule closing named attributes lx (lx.emit .punctuation 1)
  | tagName {b s n} (hrest : lx.rest = b :: s) (hname : StartsName (b :: s) n)
      (hnamed : named = false) :
      TagRule closing named attributes lx
        ((lx.emit .identifier n).pop.push (.tag closing true attributes))
  | constraint {b s n} (hrest : lx.rest = b :: s) (hname : StartsName (b :: s) n)
      (hnamed : named = true) (hextends : attributes = 0 ∧ (b :: s).take n = utf8 "extends") :
      TagRule closing named attributes lx (lx.emit .identifier n).pop
  | attributeName {b s n} (hrest : lx.rest = b :: s) (hname : StartsName (b :: s) n)
      (hnamed : named = true) (hextends : ¬ (attributes = 0 ∧ (b :: s).take n = utf8 "extends")) :
      TagRule closing named attributes lx
        ((lx.emit .identifier n).pop.push (.tag closing named (attributes + 1)))
  | givenUp {b s} (hrest : lx.rest = b :: s) (hend : b ≠ '>'.toUInt8)
      (hself : b = Bytes.slash → s.head? = some '>'.toUInt8 → closing = true)
      (hopen : b = Bytes.openBrace → named = false)
      (hquote : b = Bytes.doubleQuote ∨ b = Bytes.singleQuote → named = false)
      (hjoint : ¬ IsJoint b) (hname : Identifier.isStart (Utf8.decode (b :: s)).1 = false) :
      TagRule closing named attributes lx lx.pop

theorem scanTag_rule (closing named : Bool) (attributes : Nat) (lx : Lexer) :
    TagRule closing named attributes lx (lx.scanTag closing named attributes) := by
  unfold scanTag
  split
  · next hrest => exact .done hrest
  · next b s hrest =>
    dsimp only
    split
    · next hend =>
      have hrest := beq_iff_eq.mp hend ▸ hrest
      split
      · next hopening => exact .opened hrest (by simpa using hopening)
      · next hclosing =>
        split
        · next hchildren =>
          exact .closed hrest (by simpa using hclosing) (by simpa using hchildren)
        · next hchildren =>
          exact .stray hrest (by simpa using hclosing) (by simpa using hchildren)
    · next hend =>
      split
      · next hself =>
        simp only [Bool.and_eq_true, beq_iff_eq, Bool.not_eq_true'] at hself
        obtain ⟨⟨rfl, hhead⟩, hopening⟩ := hself
        obtain ⟨t, rfl⟩ := List.head?_eq_some_iff.mp hhead
        exact .closesItself hrest hopening
      · next hself =>
        split
        · next hopen =>
          rw [Bool.and_eq_true, beq_iff_eq] at hopen
          exact .container (hopen.1 ▸ hrest) hopen.2
        · next hopen =>
          split
          · next hquote =>
            rw [Bool.and_eq_true, Bool.or_eq_true, beq_iff_eq, beq_iff_eq] at hquote
            exact .quoted hrest hquote.1 hquote.2
          · next hquote =>
            split
            · next hjoint =>
              simp only [Bool.or_eq_true, beq_iff_eq, or_assoc] at hjoint
              exact .joint hrest hjoint
            · next hjoint =>
              split
              · next hstart =>
                split
                · next hnamed => exact .tagName hrest ⟨hstart, rfl⟩ (by simpa using hnamed)
                · next hnamed =>
                  split
                  · next hextends =>
                    exact .constraint hrest ⟨hstart, rfl⟩ (by simpa using hnamed)
                      (by simpa using hextends)
                  · next hextends =>
                    exact .attributeName hrest ⟨hstart, rfl⟩ (by simpa using hnamed)
                      (by simpa using hextends)
              · next hstart =>
                exact .givenUp hrest (by simpa using hend) (by simpa using hself)
                  (by simpa using hopen) (by simpa using hquote)
                  (by simpa [IsJoint, and_assoc] using hjoint) (by simpa using hstart)

/-- A name is read as one, since no other rule starts as names do. -/
theorem scanTag_of_startsName {b : UInt8} {s : Bytes} {n : Nat} (hrest : lx.rest = b :: s)
    (hname : StartsName (b :: s) n) :
    lx.scanTag closing named attributes =
      if !named then (lx.emit .identifier n).pop.push (.tag closing true attributes)
      else if attributes == 0 && (b :: s).take n == utf8 "extends" then (lx.emit .identifier n).pop
      else (lx.emit .identifier n).pop.push (.tag closing named (attributes + 1)) := by
  have hend : b ≠ '>'.toUInt8 := hname.ne (by decide)
  have hslash : b ≠ Bytes.slash := hname.ne (by decide)
  have hopen : b ≠ Bytes.openBrace := hname.ne (by decide)
  have hdouble : b ≠ Bytes.doubleQuote := hname.ne (by decide)
  have hsingle : b ≠ Bytes.singleQuote := hname.ne (by decide)
  have hequals : b ≠ '='.toUInt8 := hname.ne (by decide)
  have hdot : b ≠ '.'.toUInt8 := hname.ne (by decide)
  have hcolon : b ≠ ':'.toUInt8 := hname.ne (by decide)
  rw [scanTag, hrest]
  simp only [beq_eq_false_iff_ne.mpr, hend, hslash, hopen, hdouble, hsingle, hequals, hdot, hcolon,
    Bool.false_and, Bool.or_self, hname.start, hname.length, ne_eq, not_false_eq_true, if_true]
  rfl

theorem TagRule.eq (h : TagRule closing named attributes lx next) :
    lx.scanTag closing named attributes = next := by
  cases h with
  | done hrest => rw [scanTag, hrest]
  | opened hrest hopening =>
      rw [scanTag, hrest, hopening]
      rfl
  | closed hrest hclosing hchildren =>
      rw [scanTag, hrest, hclosing]
      exact if_pos (beq_iff_eq.mpr hchildren)
  | stray hrest hclosing hchildren =>
      rw [scanTag, hrest, hclosing]
      exact if_neg (fun h => hchildren (beq_iff_eq.mp h))
  | closesItself hrest hopening =>
      rw [scanTag, hrest, hopening]
      rfl
  | container hrest hnamed =>
      rw [scanTag, hrest, hnamed]
      rfl
  | quoted hrest hquote hnamed =>
      rw [scanTag, hrest, hnamed]
      rcases hquote with rfl | rfl
      · rfl
      · rfl
  | joint hrest hjoint =>
      rw [scanTag, hrest]
      rcases hjoint with rfl | rfl | rfl
      · rfl
      · rfl
      · rfl
  | tagName hrest hname hnamed =>
      rw [scanTag_of_startsName hrest hname, hnamed]
      rfl
  | constraint hrest hname hnamed hextends =>
      rw [scanTag_of_startsName hrest hname, hnamed, if_neg (by decide),
        if_pos (by simpa using hextends)]
  | attributeName hrest hname hnamed hextends =>
      rw [scanTag_of_startsName hrest hname, hnamed, if_neg (by decide),
        if_neg (by simpa using hextends)]
  | givenUp hrest hend hself hopen hquote hjoint hname =>
      rw [scanTag, hrest]
      dsimp only
      rw [if_neg (by simpa using hend), if_neg (by simpa using hself),
        if_neg (by simpa using hopen), if_neg (by simpa using hquote),
        if_neg (by simpa [IsJoint, and_assoc] using hjoint), if_neg (by simpa using hname)]

/-! ### The text between tags

It is read in two steps: the text, and the opening that ends it. -/

/-- Reads the text in front of the next tag or expression container. -/
def scanMarkup (lx : Lexer) : Lexer :=
  let n := Lexeme.markupLength lx.rest 0
  if n == 0 then lx else lx.emit .markupText n

/-- Reads the opening of a tag or of an expression container. -/
def scanOpening (lx : Lexer) : Lexer :=
  match lx.rest with
  | [] => lx
  | b :: _ =>
    if b == Bytes.openBrace then (lx.emit .punctuation 1).push (.expression lx.depth)
    else lx.scanOpenTag

theorem scanChildren_eq (lx : Lexer) : lx.scanChildren = lx.scanMarkup.scanOpening := rfl

theorem scanMarkup_cases (lx : Lexer) :
    (Lexeme.markupLength lx.rest 0 = 0 ∧ lx.scanMarkup = lx) ∨
      (0 < Lexeme.markupLength lx.rest 0 ∧
        lx.scanMarkup = lx.emit .markupText (Lexeme.markupLength lx.rest 0)) := by
  rcases Nat.eq_zero_or_pos (Lexeme.markupLength lx.rest 0) with hzero | hpos
  · exact .inl ⟨hzero, if_pos (beq_iff_eq.mpr hzero)⟩
  · exact .inr ⟨hpos, if_neg (by simpa using Nat.ne_of_gt hpos)⟩

theorem scanMarkup_rest (lx : Lexer) :
    lx.scanMarkup.rest = lx.rest.drop (Lexeme.markupLength lx.rest 0) := by
  rcases lx.scanMarkup_cases with ⟨hzero, htext⟩ | ⟨-, htext⟩
  · rw [htext, hzero, List.drop_zero]
  · rw [htext, emit_rest]

/-- The rules for what ends the text between tags. -/
inductive OpeningRule (lx : Lexer) : Lexer → Prop where
  | done (hrest : lx.rest = []) : OpeningRule lx lx
  | container {s} (hrest : lx.rest = Bytes.openBrace :: s) :
      OpeningRule lx ((lx.emit .punctuation 1).push (.expression lx.depth))
  | tag {b s} (hrest : lx.rest = b :: s) (hbrace : b ≠ Bytes.openBrace) :
      OpeningRule lx lx.scanOpenTag

theorem scanOpening_rule (lx : Lexer) : OpeningRule lx lx.scanOpening := by
  unfold scanOpening
  split
  · next hrest => exact .done hrest
  · next b s hrest =>
    split
    · next hbrace => exact .container (beq_iff_eq.mp hbrace ▸ hrest)
    · next hbrace => exact .tag hrest (by simpa using hbrace)

theorem OpeningRule.eq (h : OpeningRule lx next) : lx.scanOpening = next := by
  cases h with
  | done hrest => rw [scanOpening, hrest]
  | container hrest =>
      rw [scanOpening, hrest]
      rfl
  | tag hrest hbrace =>
      rw [scanOpening, hrest]
      exact if_neg (by simpa using hbrace)

end UnusedImports.Lexer
