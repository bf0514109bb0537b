import UnusedImports.Proofs.Markup.Steps

/-! Code is always read with the innermost frame opened at the present depth or a lower one, and
every part of a tree gives the depth and the frames back as it found them. -/

namespace UnusedImports.Markup

open Lexer

/-! ### What stands next -/

theorem Element.tagFollows (el : Element) (h : el.WellFormed) (k : Bytes) :
    TagFollows (el.print ++ k) := by
  cases el with
  | closed name attributes =>
      exact .inr ⟨name, attributes.print ++ utf8 "/>" ++ k, h.1, by simp [Element.print]⟩
  | paired name attributes children =>
      refine .inr ⟨name, attributes.print ++ utf8 ">" ++ children.print ++ utf8 "</" ++ name ++
        utf8 ">" ++ k, h.1, by simp [Element.print]⟩
  | fragment children => exact .inl rfl

theorem Attributes.endsName (attributes : Attributes) {k : Bytes} (hk : EndsName k) :
    EndsName (attributes.print ++ k) := by
  cases attributes with
  | done => exact hk
  | named => exact endsName_cons (by decide) (by decide) (by decide) _
  | spread => exact endsName_cons (by decide) (by decide) (by decide) _

theorem Value.endsName (value : Value) {k : Bytes} (hk : EndsName k) :
    EndsName (value.print ++ k) := by
  cases value with
  | absent => exact hk
  | quoted => exact endsName_cons (by decide) (by decide) (by decide) _
  | container => exact endsName_cons (by decide) (by decide) (by decide) _

theorem Children.endsText (children : Children) (h : children.WellFormed)
    (hfirst : children.startsWithText = false) (k : Bytes) :
    EndsText (children.print ++ (utf8 "</" ++ k)) := by
  cases children with
  | done => exact endsText_closingTag k
  | text => cases hfirst
  | container inner rest =>
      simpa [Children.print] using endsText_openBrace _
  | element el rest =>
      have hopen := endsText_element (el.tagFollows h.1 (rest.print ++ (utf8 "</" ++ k)))
      simpa [Children.print] using hopen

theorem endsName_closeBrace (k : Bytes) : EndsName (utf8 "\x7d" ++ k) :=
  endsName_cons (by decide) (by decide) (by decide) k

/-! ### Reading a tree -/

def Attributes.names : Attributes → Nat
  | .done => 0
  | .named _ _ _ rest => rest.names + 1
  | .spread _ _ rest => rest.names

mutual

/-- An expression is read where an operand may stand. -/
theorem Expression.reads (e : Expression) (h : e.WellFormed) {k : Bytes} {d : Nat}
    {fs : List Frame} {ws : List Word} (hcode : CodeAt d fs) (hk : EndsName k)
    (hws : OperandNext ws) :
    Reads ⟨e.print ++ k, d, fs, ws⟩ ⟨k, d, fs, ws ++ e.words⟩ := by
  match e, h with
  | .name text, h => exact reads_name hcode h hk
  | .braces inner, h =>
      -- Inside, the depth is one more, so that the closing brace ends the block and no frame.
      have hinner := inner.reads h hcode.succ (endsName_closeBrace k)
        (operandNext_append_mark (m := "\x7b") (by decide) ws)
      have hall := (reads_openBrace hcode).trans (hinner.trans (reads_closeBrace hcode))
      simpa only [Expression.print, Expression.words, List.append_assoc, List.cons_append,
        List.nil_append] using hall
  | .pair first second, h =>
      have hfirst := first.reads h.1 (k := utf8 "," ++ (second.print ++ (utf8 ")" ++ k))) hcode
        (endsName_cons (by decide) (by decide) (by decide) _)
        (operandNext_append_mark (m := "(") (by decide) ws)
      have hsecond := second.reads h.2 (k := utf8 ")" ++ k) hcode
        (endsName_cons (by decide) (by decide) (by decide) _)
        (operandNext_append_mark (m := ",") (by decide) (ws ++ [mark "("] ++ first.words))
      have hall := (reads_mark (m := "(") (by decide) hcode).trans <| hfirst.trans <|
        (reads_mark (m := ",") (by decide) hcode).trans <| hsecond.trans <|
        reads_mark (m := ")") (by decide) hcode
      simpa only [Expression.print, Expression.words, List.append_assoc, List.cons_append,
        List.nil_append] using hall
  | .template text rest, h =>
      have hall : Reads ⟨utf8 "`" ++ (text ++ (rest.print ++ k)), d, fs, ws⟩
          ⟨k, d, fs, ws ++ rest.words (utf8 "`" ++ text)⟩ :=
        reads_backtick hcode fun lx hlx => rest.leads h.2 (utf8 "`") h.1 hlx
      simpa only [Expression.print, Expression.words, List.append_assoc] using hall
  | .element el, h =>
      have hall := (reads_openElement hcode hws (el.tagFollows h k)).trans (el.reads h)
      simpa only [Expression.print, Expression.words, List.append_assoc, List.cons_append,
        List.nil_append] using hall

/-- A piece of a template literal and what follows it. -/
theorem Substitutions.leads (rest : Substitutions) (h : rest.WellFormed) (front : Bytes)
    {text k : Bytes} {d : Nat} {fs : List Frame} {ws : List Word} {lx : Lexer}
    (htext : IsPiece text)
    (hstate : lx.state = ⟨front ++ (text ++ (rest.print ++ k)), d, fs, ws⟩) :
    (lx.scanTemplate front.length).Leads ⟨k, d, fs, ws ++ rest.words (front ++ text)⟩ := by
  match rest, h with
  | .done, _ => exact leads_lastPiece htext hstate
  | .more inner next rest, h =>
      -- The frame holds the present depth, to which the inner expression returns.
      simp only [Substitutions.print, List.append_assoc] at hstate
      have hinner := inner.reads h.1 (k := utf8 "\x7d" ++ (next ++ (rest.print ++ k)))
        (codeAt_substitution d fs) (endsName_closeBrace _)
        (operandNext_append_mark (m := "$\x7b") (by decide) (ws ++ [(.template, front ++ text)]))
      have hall := (leads_piece htext hstate).trans <| hinner.trans <|
        reads_closeSubstitution fun lx hlx => rest.leads h.2.2 [] h.2.1 hlx
      simpa only [Substitutions.words, List.append_assoc, List.cons_append,
        List.nil_append] using hall

/-- The attributes of a tag. Names are counted, so that only the first may not be `extends`. -/
theorem Attributes.reads (attributes : Attributes) (h : attributes.WellFormed) {count : Nat}
    (hfirst : count = 0 → attributes.firstName? ≠ some (utf8 "extends")) {k : Bytes} {d : Nat}
    {fs : List Frame} {ws : List Word} (hk : EndsName k) :
    Reads ⟨attributes.print ++ k, d, .tag false true count :: fs, ws⟩
      ⟨k, d, .tag false true (count + attributes.names) :: fs, ws ++ attributes.words⟩ := by
  match attributes, h with
  | .done, _ =>
      rw [Attributes.print, Attributes.words, List.nil_append, List.append_nil]
      exact .refl _
  | .named spaces name value rest, h =>
      obtain ⟨hname, hvalue, hrest⟩ := h
      -- After one name the next may be `extends`.
      have hnext : count + 1 = 0 → rest.firstName? ≠ some (utf8 "extends") := nofun
      have hall : Reads ⟨_, d, .tag false true count :: fs, ws⟩ _ :=
        (reads_spaces (m := spaces + 1) (startsToken_name hname _) (by simp)).trans <|
        (reads_attributeName hname (value.endsName (rest.endsName hk))
          fun hzero heq => hfirst hzero (by simp [Attributes.firstName?, heq])).trans <|
        (value.reads hvalue).trans (rest.reads hrest hnext hk)
      simpa only [Attributes.print, Attributes.words, Attributes.names, Nat.add_assoc,
        Nat.add_comm 1, List.append_assoc, List.cons_append,
        List.nil_append] using hall
  | .spread spaces inner rest, h =>
      have hinner := inner.reads h.1 (k := utf8 "\x7d" ++ (rest.print ++ k))
        (codeAt_container d (.tag false true count :: fs)) (endsName_closeBrace _)
        (operandNext_append_mark (m := "...") (by decide) (ws ++ [mark "\x7b"]))
      have hbrace : ∀ s, StartsToken (utf8 "\x7b" ++ s) := fun s =>
        startsToken_of_not_slash (by decide) rfl
      have hall := (reads_spaces (m := spaces + 1) (hbrace _) (by simp)).trans <|
        reads_openContainer.trans <|
        (reads_mark (m := "...") (by decide) (codeAt_container d _)).trans <|
        hinner.trans <| reads_closeContainer.trans (rest.reads h.2 hfirst hk)
      simpa only [Attributes.print, Attributes.words, Attributes.names, List.append_assoc,
        List.cons_append, List.nil_append] using hall

theorem Value.reads (value : Value) (h : value.WellFormed) {count : Nat} {k : Bytes} {d : Nat}
    {fs : List Frame} {ws : List Word} :
    Reads ⟨value.print ++ k, d, .tag false true count :: fs, ws⟩
      ⟨k, d, .tag false true count :: fs, ws ++ value.words⟩ := by
  match value, h with
  | .absent, _ =>
      rw [Value.print, Value.words, List.nil_append, List.append_nil]
      exact .refl _
  | .quoted text, h =>
      have hall : Reads ⟨_, d, .tag false true count :: fs, ws⟩ ⟨k, _, _, _⟩ :=
        reads_equals.trans (reads_quoted h)
      simpa only [Value.print, Value.words, List.append_assoc, List.cons_append,
        List.nil_append] using hall
  | .container inner, h =>
      have hinner := inner.reads h (codeAt_container d (.tag false true count :: fs))
        (endsName_closeBrace k)
        (operandNext_append_mark (m := "\x7b") (by decide) (ws ++ [mark "="]))
      have hall := reads_equals.trans <| reads_openContainer.trans <| hinner.trans
        reads_closeContainer
      simpa only [Value.print, Value.words, List.append_assoc, List.cons_append,
        List.nil_append] using hall

/-- The children of an element are read up to its closing tag. -/
theorem Children.reads (children : Children) (h : children.WellFormed) {k : Bytes} {d : Nat}
    {fs : List Frame} {ws : List Word} :
    Reads ⟨children.print ++ (utf8 "</" ++ k), d, .children :: fs, ws⟩
      ⟨utf8 "</" ++ k, d, .children :: fs, ws ++ children.words⟩ := by
  match children, h with
  | .done, _ =>
      rw [Children.print, Children.words, List.nil_append, List.append_nil]
      exact .refl _
  | .text text rest, h =>
      obtain ⟨htext, hfirst, hrest⟩ := h
      have hall : Reads ⟨_, d, .children :: fs, ws⟩ _ :=
        (reads_text htext (rest.endsText hrest hfirst k)).trans (rest.reads hrest)
      simpa only [Children.print, Children.words, List.append_assoc, List.cons_append,
        List.nil_append] using hall
  | .container inner rest, h =>
      have hinner := inner.reads h.1 (k := utf8 "\x7d" ++ (rest.print ++ (utf8 "</" ++ k)))
        (codeAt_container d (.children :: fs)) (endsName_closeBrace _)
        (operandNext_append_mark (m := "\x7b") (by decide) ws)
      have hall := reads_childContainer.trans <| hinner.trans <| reads_closeContainer.trans <|
        rest.reads h.2
      simpa only [Children.print, Children.words, List.append_assoc, List.cons_append,
        List.nil_append] using hall
  | .element el rest, h =>
      have hall : Reads ⟨_, d, .children :: fs, ws⟩ ⟨utf8 "</" ++ k, _, _, _⟩ :=
        (reads_childElement (el.tagFollows h.1 _)).trans <| (el.reads h.1).trans <|
        rest.reads h.2
      simpa only [Children.print, Children.words, List.append_assoc, List.cons_append,
        List.nil_append] using hall

/-- An element is read from behind its `<` on, and its frame is closed at its end. -/
theorem Element.reads (el : Element) (h : el.WellFormed) {k : Bytes} {d : Nat} {fs : List Frame}
    {ws : List Word} :
    Reads ⟨el.print ++ k, d, .tag false false 0 :: fs, ws⟩ ⟨k, d, fs, ws ++ el.words⟩ := by
  match el, h with
  | .closed name attributes, h =>
      obtain ⟨hname, hfirst, hattributes⟩ := h
      have hend : EndsName (utf8 "/>" ++ k) :=
        endsName_cons (by decide) (by decide) (by decide) _
      have hall : Reads ⟨_, d, .tag false false 0 :: fs, ws⟩ _ :=
        (reads_tagName hname (attributes.endsName hend)).trans <|
        (attributes.reads hattributes (fun _ => hfirst) hend).trans reads_selfClosing
      simpa only [Element.print, Element.words, List.append_assoc, List.cons_append,
        List.nil_append] using hall
  | .paired name attributes children, h =>
      obtain ⟨hname, hfirst, hattributes, hchildren⟩ := h
      have hend : ∀ s, EndsName (utf8 ">" ++ s) :=
        endsName_cons (by decide) (by decide) (by decide)
      have hall : Reads ⟨_, d, .tag false false 0 :: fs, ws⟩ _ :=
        (reads_tagName hname (attributes.endsName (hend _))).trans <|
        (attributes.reads hattributes (fun _ => hfirst) (hend _)).trans <|
        reads_openChildren.trans <| (children.reads hchildren).trans <|
        reads_closingTag.trans <| (reads_tagName hname (hend k)).trans reads_closeChildren
      simpa only [Element.print, Element.words, List.append_assoc, List.cons_append,
        List.nil_append] using hall
  | .fragment children, h =>
      have hall : Reads ⟨_, d, .tag false false 0 :: fs, ws⟩ ⟨k, _, _, _⟩ :=
        reads_openChildren.trans <| (children.reads h).trans <|
        reads_closingTag.trans reads_closeChildren
      simpa only [Element.print, Element.words, List.append_assoc, List.cons_append,
        List.nil_append] using hall

end

/-! ### The result -/

theorem Expression.not_hashbang (e : Expression) (h : e.WellFormed) (k : Bytes) :
    (utf8 "#!").isPrefixOf (e.print ++ k) = false := by
  cases e with
  | name text =>
      obtain ⟨b, t, heq, _⟩ := IsName.head h
      rw [Expression.WellFormed, heq] at h
      have hb : ('#'.toUInt8 == b) = false := by
        simpa using (h.head_ne (by decide) (by decide)).symm
      change (utf8 "#!").isPrefixOf (text ++ k) = false
      rw [heq]
      change ('#'.toUInt8 == b && _) = false
      rw [hb, Bool.false_and]
  | braces | pair | template | element => rfl

/-- Printed trees are read back whatever their depth, and nothing stays open behind them. -/
theorem tokenize_print (e : Expression) (h : e.WellFormed) :
    (tokenize .markup (e.print ++ utf8 "; z")).map Token.word =
        e.words ++ [mark ";", (.identifier, utf8 "z")] ∧
      ((Lexer.ofSource (e.print ++ utf8 "; z")).skipHashbang.run .markup).frames = [] ∧
      ((Lexer.ofSource (e.print ++ utf8 "; z")).skipHashbang.run .markup).depth = 0 := by
  have hz : IsName (utf8 "z") := ⟨0x7a, [], rfl, rfl, by simp⟩
  have hcode : CodeAt 0 [] := trivial
  have htree : Reads ⟨e.print ++ utf8 "; z", 0, [], []⟩ ⟨utf8 "; z", 0, [], e.words⟩ :=
    e.reads h hcode (endsName_cons (by decide) (by decide) (by decide) _) rfl
  have hend : Reads ⟨utf8 "; z", 0, [], e.words⟩
      ⟨[], 0, [], e.words ++ [mark ";"] ++ [(.identifier, utf8 "z")]⟩ :=
    (reads_mark (m := ";") (by decide) hcode).trans <|
    (reads_spaces (m := 1) (startsToken_name hz []) (by simp)).trans <|
    reads_name hcode hz endsName_nil
  have hstart : (ofSource (e.print ++ utf8 "; z")).skipHashbang =
      ofSource (e.print ++ utf8 "; z") :=
    if_neg (by simp [ofSource, e.not_hashbang h])
  have hstate := (htree.trans hend (ofSource (e.print ++ utf8 "; z")) rfl).run_state
  rw [tokenize, hstart]
  obtain ⟨_, hdepth, hframes, hwords⟩ := State.mk.inj hstate
  exact ⟨by simpa using hwords, hframes, hdepth⟩

/-- Every kind of tree inside another: a block in a template in an attribute, markup in a pair in
markup, a fragment, a name that is not ASCII, and a second attribute called `extends`. -/
def sample : Expression :=
  .template (utf8 "a $") <| .more
    (.element <| .paired (utf8 "p")
      (.named 0 (utf8 "x") (.container <| .template [] <| .more (.braces <| .name (utf8 "y")) []
        .done) <| .spread 1 (.name (utf8 "q")) .done)
      (.text (utf8 "t > \x7d") <| .container (.pair (.braces <| .name (utf8 "u"))
        (.element <| .closed (utf8 "é1") <| .named 0 (utf8 "b") (.quoted (utf8 "s>'`\x7b")) <|
          .named 2 (utf8 "extends") .absent .done)) <|
        .element (.fragment <| .text (utf8 "//") .done) .done))
    (utf8 "\x7d") .done

theorem sample_wellFormed : sample.WellFormed := by
  have hletter : ∀ c, Identifier.isStart c = true → IsName (Utf8.encode c) := fun c hc =>
    ⟨c, [], by simp [Utf8.ofCodePoints], hc, by simp⟩
  have haccent : IsName (utf8 "é1") := ⟨0xe9, [0x31], rfl, by decide, by decide⟩
  have hextends : IsName (utf8 "extends") :=
    ⟨0x65, [0x78, 0x74, 0x65, 0x6e, 0x64, 0x73], rfl, rfl, by decide⟩
  have hquoted : Bytes.doubleQuote ∉ utf8 "s>'`\x7b" := by decide
  refine ⟨by decide, ⟨hletter 0x70 rfl, by decide, ?attributes, ?children⟩, by decide, trivial⟩
  case attributes =>
    exact ⟨hletter 0x78 rfl, ⟨by decide, hletter 0x79 rfl, by decide, trivial⟩,
      hletter 0x71 rfl, trivial⟩
  case children =>
    refine ⟨by decide, rfl, ⟨hletter 0x75 rfl, ?element⟩, ⟨by decide, rfl, trivial⟩, trivial⟩
    exact ⟨haccent, by decide, hletter 0x62 rfl, hquoted, hextends, trivial, trivial⟩

theorem tokenize_print_sample :
    sample.WellFormed ∧
      (tokenize .markup (sample.print ++ utf8 "; z")).map Token.word =
        sample.words ++ [mark ";", (.identifier, utf8 "z")] ∧
      ((Lexer.ofSource (sample.print ++ utf8 "; z")).skipHashbang.run .markup).frames = [] ∧
      ((Lexer.ofSource (sample.print ++ utf8 "; z")).skipHashbang.run .markup).depth = 0 :=
  ⟨sample_wellFormed, tokenize_print sample sample_wellFormed⟩

end UnusedImports.Markup
