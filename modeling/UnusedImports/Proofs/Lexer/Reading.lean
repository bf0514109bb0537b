import UnusedImports.Proofs.Lexer.Class

/-! In each mode a step reads tokens of that mode's classes. Only the first of them can be a name.
-/

namespace UnusedImports.Lexer

def mode (lx : Lexer) : Mode :=
  match lx.frames.head? with
  | some .children => .children
  | some (.tag ..) => .tag
  | _ => .code

theorem InCode.mode_eq {lx : Lexer} (h : lx.InCode) : lx.mode = .code := by
  unfold mode
  split
  · next hframe => exact absurd hframe h.not_children
  · next hframe => exact absurd hframe (h.not_tag _ _ _)
  · rfl

/-- One lexer comes from another by reading tokens in a mode, listed latest first, and by changing
what is open. -/
inductive Adds (mode : Mode) (lx : Lexer) : Lexer → List Token → Prop where
  | refl : Adds mode lx lx []
  | token {next new kind n} : Adds mode lx next new →
      Lexical mode kind (next.rest.take n) (next.rest.drop n) →
      (kind = .identifier → new = []) →
      Adds mode lx (next.emit kind n) (⟨next.position, kind, next.rest.take n⟩ :: new)
  | opened {next new} (depth frames) : Adds mode lx next new →
      Adds mode lx { next with depth, frames } new

/-- No substitution opens behind the last of the tokens, if that is a piece of a template. -/
def PieceClosed (new : List Token) (rest : Bytes) : Prop :=
  ∀ t ∈ new.head?, t.kind = .template → t.text.getLast? = some Bytes.backtick ∨ rest = []

/-- A step from one lexer to another reads tokens in a mode. -/
def Parses (mode : Mode) (lx next : Lexer) : Prop :=
  ∃ new, Adds mode lx next new ∧ PieceClosed new next.rest

variable {mode : Mode} {lx next : Lexer} {new : List Token} {b : UInt8} {s : Bytes}

/-! ### Single tokens -/

theorem Adds.push (h : Adds mode lx next new) (f : Frame) : Adds mode lx (next.push f) new :=
  h.opened _ _

theorem Adds.pop (h : Adds mode lx next new) : Adds mode lx next.pop new := h.opened _ _

/-- A token whose class says how it ends. -/
theorem Adds.emit (h : Adds mode lx next new) {kind : TokenKind} {n : Nat}
    (hclass : Lexical mode kind (next.rest.take n) (next.rest.drop n))
    (hkind : kind ≠ .identifier) :
    Adds mode lx (next.emit kind n) (⟨next.position, kind, next.rest.take n⟩ :: new) :=
  h.token hclass fun heq => absurd heq hkind

theorem Adds.mark (h : Adds mode lx next new) {n : Nat}
    (hclass : Lexical mode .punctuation (next.rest.take n) (next.rest.drop n)) :
    Adds mode lx (next.emit .punctuation n)
      (⟨next.position, .punctuation, next.rest.take n⟩ :: new) :=
  h.emit hclass (by decide)

theorem Adds.parses (h : Adds mode lx next new) (hkind : ∀ t ∈ new.head?, t.kind ≠ .template) :
    Parses mode lx next :=
  ⟨new, h, fun t ht hpiece => absurd hpiece (hkind t ht)⟩

theorem Parses.opened (h : Parses mode lx next) (depth : Nat) (frames : List Frame) :
    Parses mode lx { next with depth, frames } :=
  let ⟨new, hadds, hclosed⟩ := h
  ⟨new, hadds.opened depth frames, hclosed⟩

theorem Parses.push (h : Parses mode lx next) (f : Frame) : Parses mode lx (next.push f) :=
  h.opened _ _

theorem Parses.pop (h : Parses mode lx next) : Parses mode lx next.pop := h.opened _ _

theorem Adds.parses_mark (h : Adds mode lx next new) {n : Nat}
    (hclass : Lexical mode .punctuation (next.rest.take n) (next.rest.drop n)) :
    Parses mode lx (next.emit .punctuation n) :=
  (h.mark hclass).parses (by simp)

/-! ### Steps -/

theorem Adds.parses_scanTemplate (h : Adds .code lx next new) {k : Nat} {opening : Bytes}
    (hopening : opening = [] ∨ opening = [Bytes.backtick]) (hk : k = opening.length)
    (hrest : next.rest = opening ++ s) : Parses .code lx (next.scanTemplate k) := by
  obtain ⟨text, ending, rest, hs, htext, hending, hlength, hopens, hcloses⟩ :=
    Lexeme.templateLength_spec s k
  have hdrop : next.rest.drop k = s := by rw [hrest, hk, List.drop_left]
  have hwhole : next.rest = opening ++ (text ++ ending) ++ rest := by
    rw [hrest, hs]
    simp
  have hlength : (Lexeme.templateLength s k).1 = (opening ++ (text ++ ending)).length := by
    rw [hlength, hk]
    exact List.length_append.symm
  have hclass := (Lexical.template hopening htext hending).of_eq hwhole hlength
  have htake : next.rest.take (Lexeme.templateLength s k).1 = opening ++ (text ++ ending) := by
    rw [hwhole, hlength, List.take_left]
  have hbehind : next.rest.drop (Lexeme.templateLength s k).1 = rest := by
    rw [hwhole, hlength, List.drop_left]
  have hpiece := h.emit hclass (by decide)
  unfold Lexer.scanTemplate
  rw [hdrop]
  split
  · next n hn =>
    rw [hn] at hpiece hbehind hopens
    obtain ⟨more, rfl⟩ := hopens rfl
    refine (hpiece.parses_mark ?_).push _
    have hmark : Lexical .code .punctuation (utf8 "$\x7b") more :=
      .longMark (by decide) (fun heq => absurd heq (by decide))
    exact hmark.of_eq hbehind rfl
  · next n ending' hnot hn =>
    rw [hn] at hpiece hbehind htake hcloses
    refine ⟨_, hpiece, ?_⟩
    rintro t ht -
    obtain rfl : _ = t := Option.some.inj ht
    rcases hcloses hnot with rfl | rfl
    · left
      rw [htake]
      simp
    · exact .inr hbehind

theorem BraceRule.parses (h : BraceRule lx next) (hs : lx.rest = Bytes.closeBrace :: s) :
    Parses .code lx next := by
  have hclass : Lexical .code .punctuation (lx.rest.take 1) (lx.rest.drop 1) := by
    rw [hs]
    exact .ofMark (by decide)
  have hbrace : Parses .code lx (lx.emit .punctuation 1) := Adds.refl.parses_mark hclass
  cases h with
  | substitution => exact (Adds.refl.mark hclass).pop.parses_scanTemplate (.inl rfl) rfl rfl
  | container => exact hbrace.pop
  | block => exact hbrace.opened _ _

theorem Adds.parses_scanOpenTag (h : Adds mode lx next new)
    (hs : next.rest = '<'.toUInt8 :: s) : Parses mode lx next.scanOpenTag := by
  unfold Lexer.scanOpenTag
  refine (h.parses_mark ?_).push _
  rw [hs]
  split
  · next hslash =>
    obtain ⟨rest, rfl⟩ := List.head?_eq_some_iff.mp (beq_iff_eq.mp hslash)
    have hmark : Lexical mode .punctuation (utf8 "</") rest :=
      .longMark (by decide) (fun heq => absurd heq (by decide))
    exact hmark.of_eq rfl rfl
  · exact .ofMark (by decide)

theorem plainLexeme_ne_template (operand : Bool) (b : UInt8) (s : Bytes) :
    (plainLexeme operand b s).1 ≠ .template := by
  unfold plainLexeme
  dsimp only
  repeat' split
  all_goals simp

/-- A mark that is a token by itself. -/
theorem parses_mark (hs : lx.rest = b :: s) (hb : (b < 0x80 && !Identifier.isContinue b.toNat &&
    b != Bytes.doubleQuote && b != Bytes.singleQuote && b != Bytes.backtick) = true) :
    Parses mode lx (lx.emit .punctuation 1) := by
  refine Adds.refl.parses_mark ?_
  rw [hs]
  exact .ofMark hb

theorem CodeRule.parses {dialect : Dialect} (h : CodeRule dialect lx next) :
    Parses .code lx next := by
  cases h with
  | done => exact Adds.refl.parses (by simp)
  | template hrest => exact Adds.refl.parses_scanTemplate (.inr rfl) rfl hrest
  | openBrace hrest => exact (parses_mark hrest (by decide)).opened _ _
  | closeBrace hrest => exact lx.scanCloseBrace_rule.parses hrest
  | openTag hrest => exact Adds.refl.parses_scanOpenTag hrest
  | @plain b s hrest htick =>
      have hclass := lexical_plainLexeme lx.operandAllowed s htick
      rw [← hrest] at hclass
      refine (Adds.refl.token hclass fun _ => rfl).parses ?_
      simpa using plainLexeme_ne_template lx.operandAllowed b s

/-- A name in a tag has a length that makes it one. -/
theorem StartsName.lexical {n : Nat} (h : StartsName (b :: s) n) :
    Lexical .tag .identifier ((b :: s).take n) ((b :: s).drop n) := by
  obtain ⟨cs, groups, rest, hcs, hgroups, hrest, hends, hlength⟩ :=
    Lexeme.nameLength_spec ((b :: s).drop (Utf8.decode (b :: s)).2) (Utf8.decode (b :: s)).2
  obtain ⟨name, hname, hwhole, hsize⟩ := eq_of_isStart h.start hcs hrest
  exact (Lexical.tagName ⟨name, groups, rfl, hname, hgroups⟩ hends).of_eq hwhole
    (h.length.symm.trans (hlength.trans hsize))

theorem TagRule.parses {closing named : Bool} {attributes : Nat}
    (h : TagRule closing named attributes lx next) : Parses .tag lx next := by
  have hread : ∀ {b s n}, lx.rest = b :: s → StartsName (b :: s) n →
      Parses .tag lx (lx.emit .identifier n) := fun hrest hname =>
    (Adds.refl.token (hrest ▸ hname.lexical) fun _ => rfl).parses (by simp)
  cases h with
  | done => exact Adds.refl.parses (by simp)
  | opened hrest => exact (parses_mark hrest (by decide)).pop.push _
  | closed hrest => exact (parses_mark hrest (by decide)).pop.pop
  | stray hrest => exact (parses_mark hrest (by decide)).pop
  | @closesItself s hrest =>
      have hmark : Lexical .tag .punctuation (utf8 "/>") s :=
        .longMark (by decide) (fun heq => absurd heq (by decide))
      exact (Adds.refl.parses_mark (hmark.of_eq hrest rfl)).pop
  | container hrest => exact (parses_mark hrest (by decide)).push _
  | @quoted b s hrest hquote =>
      obtain ⟨text, ending, rest, hsplit, htext, hending, hlength⟩ :=
        Lexeme.attributeLength_spec b s 1
      have hclass := (Lexical.attributeString hquote htext hending).of_eq (s := lx.rest)
        (n := Lexeme.attributeLength b s 1) (by rw [hrest, hsplit]; simp)
        (hlength.trans (by simp; omega))
      exact (Adds.refl.emit hclass (by decide)).parses (by simp)
  | joint hrest hjoint =>
      rcases hjoint with rfl | rfl | rfl
      · exact parses_mark hrest (by decide)
      · exact parses_mark hrest (by decide)
      · exact parses_mark hrest (by decide)
  | tagName hrest hname => exact (hread hrest hname).pop.push _
  | constraint hrest hname => exact (hread hrest hname).pop
  | attributeName hrest hname => exact (hread hrest hname).pop.push _
  | givenUp => exact (Adds.refl.parses (by simp)).pop

theorem parses_scanChildren (lx : Lexer) : Parses .children lx lx.scanChildren := by
  obtain ⟨text, rest, hs, htext, hrest, hlength⟩ := Lexeme.markupLength_spec lx.rest 0
  rw [Nat.zero_add] at hlength
  have hnext : lx.scanMarkup.rest = rest := by rw [scanMarkup_rest, hlength, hs, List.drop_left]
  have hread : ∃ new, Adds .children lx lx.scanMarkup new := by
    rcases lx.scanMarkup_cases with ⟨-, hread⟩ | ⟨hpos, hread⟩
    · exact ⟨[], hread.symm ▸ .refl⟩
    · have hclass := (Lexical.markupText (List.ne_nil_of_length_pos (hlength ▸ hpos)) htext
        hrest).of_eq hs hlength
      exact ⟨_, hread.symm ▸ Adds.refl.emit hclass (by decide)⟩
  obtain ⟨new, hadds⟩ := hread
  rw [scanChildren_eq]
  have hrule := lx.scanMarkup.scanOpening_rule
  generalize lx.scanMarkup.scanOpening = next at hrule ⊢
  cases hrule with
  | done hnil => exact ⟨new, hadds, fun _ _ _ => .inr hnil⟩
  | container hcons =>
      refine (hadds.parses_mark ?_).push _
      rw [hcons]
      exact .ofMark (by decide)
  | tag hcons hbrace =>
      obtain ⟨b', s', heq, hopen⟩ := hrest.resolve_left (by rw [← hnext, hcons]; simp)
      rw [← hnext, hcons] at heq
      obtain ⟨rfl, rfl⟩ := List.cons.inj heq
      exact hadds.parses_scanOpenTag ((hopen.resolve_left hbrace).1 ▸ hcons)

/-- A step reads tokens of its mode. -/
theorem parses_scan (dialect : Dialect) (lx : Lexer) : Parses lx.mode lx (lx.scan dialect) := by
  rcases scan_cases dialect lx with ⟨hframe, hscan⟩ | ⟨closing, named, attributes, hframe, hscan⟩ |
    ⟨hcode, hscan⟩
  · rw [hscan, Lexer.mode, hframe]
    exact parses_scanChildren lx
  · rw [hscan, Lexer.mode, hframe]
    exact (scanTag_rule closing named attributes lx).parses
  · rw [hscan, hcode.mode_eq]
    exact (scanCode_rule dialect lx).parses

end UnusedImports.Lexer
