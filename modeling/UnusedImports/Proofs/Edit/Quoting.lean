import UnusedImports.Proofs.Edit.RoundTrip
import UnusedImports.Proofs.Lexer.Resume

/-! The name of an export is written between double quotes as it is. If one of its bytes ends them,
the clause is not read back. -/

namespace UnusedImports

open Markup

/-! ### Literals -/

/-- Where a literal ends with the quote behind a text, no byte of the text ends it. -/
theorem Lexeme.unquoted_of_stringLength {quote b : UInt8} (hb : b ≠ Bytes.newline)
    {s rest : Bytes} {n : Nat}
    (h : stringLength quote (s ++ quote :: b :: rest) n = n + s.length + 1) :
    Unquoted quote s := by
  obtain ⟨text, ending, behind, hsplit, htext, hending, hlength⟩ :=
    stringLength_spec quote (s ++ quote :: b :: rest) n
  rw [h, List.length_append] at hlength
  rw [List.append_assoc] at hsplit
  cases hending with
  | closed =>
      rw [List.length_singleton] at hlength
      rwa [(List.append_inj hsplit (by omega)).1]
  | line hends =>
      rw [List.length_nil] at hlength
      have hbehind := congrArg (List.drop (s.length + 1)) hsplit
      rw [List.drop_length_add_append, List.nil_append,
        show s.length + 1 = text.length by omega, List.drop_left] at hbehind
      rw [← hbehind] at hends
      rcases hends with hnil | hhead
      · cases hnil
      · exact absurd (Option.some.inj hhead) hb
  | stray =>
      have htotal := congrArg List.length hsplit
      simp only [List.length_append, List.length_cons, List.length_nil] at htotal hlength
      omega

/-- A text between quotes is what the literal there contains only if none of its bytes ends it. -/
theorem unquoted_of_contents {quote b : UInt8} (hb : b ≠ Bytes.newline) {s rest : Bytes} {t : Token}
    (ht : t.word = (.string, (quote :: (s ++ quote :: b :: rest)).take
      (Lexeme.stringLength quote (s ++ quote :: b :: rest) 1)))
    (hcontents : t.contents = s) : Unquoted quote s := by
  suffices hends : Lexeme.stringLength quote (s ++ quote :: b :: rest) 1 = 1 + s.length + 1 from
    Lexeme.unquoted_of_stringLength hb hends
  have hpos := Lexeme.le_stringLength quote (s ++ quote :: b :: rest) 1
  have hlength := congrArg List.length hcontents
  rw [Token.contents, Token.kind_of_word ht, Token.text_of_word ht] at hlength hcontents
  split at hlength
  · next hlong =>
    simp only [List.length_dropLast, List.length_drop, List.length_take, List.length_cons,
      List.length_append] at hlength
    simp only [List.length_take, List.length_cons, List.length_append, Bool.and_eq_true,
      decide_eq_true_eq] at hlong
    omega
  · next hshort =>
    -- A single byte would be the quote itself, and the one that is written behind it ends that.
    rw [if_neg hshort] at hcontents
    generalize hn : Lexeme.stringLength quote (s ++ quote :: b :: rest) 1 = n at *
    have hone : n = 1 := by
      simp only [List.length_take, List.length_cons, List.length_append, Bool.and_eq_true,
        decide_eq_true_eq, beq_self_eq_true, true_and] at hshort
      omega
    rw [hone, List.take_succ_cons, List.take_zero] at hcontents
    have hmore := Lexeme.le_stringLength quote (b :: rest) (1 + 2)
    rw [← hcontents, List.singleton_append, Lexeme.stringLength] at hn
    split at hn
    · omega
    · simp [hone] at hn

namespace Lexer

variable {dialect : Dialect} {lx : Lexer} {quote : UInt8} {s : Bytes}

/-- Where a quote comes, a literal is read. -/
theorem exists_wordsRead_quote (hquote : Bytes.IsQuote quote) (hframes : lx.frames = [])
    (hrest : lx.rest = quote :: s) (dialect : Dialect) :
    ∃ more, (lx.run dialect).wordsRead = lx.wordsRead ++
      (.string, (quote :: s).take (Lexeme.stringLength quote s 1)) :: more := by
  have hstart : StartsToken lx.rest := by
    rw [hrest]
    rcases hquote with rfl | rfl
    all_goals exact startsToken_of_not_slash (by decide) rfl
  obtain ⟨more, hmore⟩ := exists_wordsRead_run dialect (lx.scanCode dialect)
  refine ⟨more, ?_⟩
  rw [run_token hframes hstart, hmore, scanCode_quote hquote hrest, wordsRead_emit, hrest,
    List.append_assoc]
  rfl

end Lexer

namespace Edit

open Import

/-! ### Where a clause breaks -/

/-- A clause in front of the first name that its quotes do not hold: perhaps a default name, and
names in braces. -/
structure Breaks (typeImport : Bool) (lead front : List Binding) (b : Binding)
    (behind : List Binding) : Prop where
  lead : lead = [] ∨ ∃ a, lead = [a] ∧ IsDefault typeImport a
  listed : ∀ a ∈ front ++ b :: behind, IsListed typeImport a
  unquoted : ∀ a ∈ front, Unquoted Bytes.doubleQuote a.imported
  broken : ¬ Unquoted Bytes.doubleQuote b.imported

variable {typeImport : Bool} {lead front behind kept : List Binding} {b : Binding}
  {ts : List Token} {more : List Word}

theorem exists_first_broken (hbs : ∀ b ∈ kept, IsListed typeImport b)
    (hlead : lead = [] ∨ ∃ a, lead = [a] ∧ IsDefault typeImport a)
    (hbroken : ∃ b ∈ kept, ¬ Unquoted Bytes.doubleQuote b.imported) :
    ∃ front b behind, kept = front ++ b :: behind ∧ Breaks typeImport lead front b behind := by
  induction kept with
  | nil => simp at hbroken
  | cons c cs ih =>
      by_cases hc : Unquoted Bytes.doubleQuote c.imported
      · obtain ⟨front, b, behind, rfl, hbreaks⟩ := ih (List.forall_mem_cons.mp hbs).2
          (by simpa [hc] using hbroken)
        refine ⟨c :: front, b, behind, rfl, hlead, hbs, ?_, hbreaks.broken⟩
        exact List.forall_mem_cons.mpr ⟨hc, hbreaks.unquoted⟩
      · exact ⟨[], c, cs, rfl, hlead, hbs, by simp, hc⟩

/-- Only a name in braces can break a clause. -/
theorem exists_breaks (h : IsLooseClause typeImport kept)
    (hbroken : ¬ ∀ b ∈ kept, Unquoted Bytes.doubleQuote b.imported) :
    ∃ lead front b behind, kept = lead ++ (front ++ b :: behind) ∧
      Breaks typeImport lead front b behind := by
  have hdefault : ∀ {b}, IsDefault typeImport b → Unquoted Bytes.doubleQuote b.imported := by
    intro b hb
    rw [hb.imported]
    exact unquoted_of_forall (by decide +kernel)
  have hexports : ∀ {bs lead}, IsLooseExports typeImport bs →
      (lead = [] ∨ ∃ a, lead = [a] ∧ IsDefault typeImport a) →
      (∃ b ∈ bs, ¬ Unquoted Bytes.doubleQuote b.imported) →
      ∃ front b behind, bs = front ++ b :: behind ∧ Breaks typeImport lead front b behind := by
    intro bs lead hbs hlead hbroken
    cases hbs with
    | @whole b hb =>
        refine absurd (unquoted_of_forall ?_) (by simpa using hbroken)
        rw [hb.imported]
        decide +kernel
    | named _ hbs => exact exists_first_broken hbs hlead hbroken
  simp only [not_forall, exists_prop] at hbroken
  cases h with
  | name hb => exact absurd (hdefault hb) (by simpa using hbroken)
  | @both a bs ha hbs =>
      have hbroken : ∃ b ∈ bs, ¬ Unquoted Bytes.doubleQuote b.imported := by
        simpa [hdefault ha] using hbroken
      obtain ⟨front, b, behind, rfl, hbreaks⟩ := hexports hbs (.inr ⟨a, rfl, ha⟩) hbroken
      exact ⟨[a], front, b, behind, rfl, hbreaks⟩
  | exports hbs =>
      obtain ⟨front, b, behind, rfl, hbreaks⟩ := hexports hbs (.inl rfl) hbroken
      exact ⟨[], front, b, behind, rfl, hbreaks⟩

/-! ### What is spelled in front of it -/

def leadWords (bs : List Binding) : List Word := bs.flatMap fun b => [(.identifier, b.name), mark ","]

def frontWords (typeImport : Bool) (bs : List Binding) : List Word :=
  bs.flatMap fun b => namedWords typeImport b ++ [mark ","]

theorem join_append_cons (separator part : Bytes) (front behind : List Bytes) :
    Bytes.join separator (front ++ part :: behind) =
      front.flatMap (· ++ separator) ++ Bytes.join separator (part :: behind) := by
  induction front with
  | nil => rfl
  | cons s front ih =>
      obtain ⟨next, rest, hnext⟩ : ∃ next rest, front ++ part :: behind = next :: rest :=
        List.exists_cons_of_ne_nil (by simp)
      rw [List.flatMap_cons, List.append_assoc, ← ih, List.cons_append, hnext]
      simp [Bytes.join, List.intercalate_cons_cons]

theorem spelled_front {back s : Bytes} {ws : List Word} (hs : Spelled back s ws)
    (hlisted : ∀ a ∈ front, IsListed typeImport a)
    (hunquoted : ∀ a ∈ front, Unquoted Bytes.doubleQuote a.imported) :
    Spelled back ((front.map (renderNamed typeImport)).flatMap (· ++ utf8 ", ") ++ s)
      (frontWords typeImport front ++ ws) := by
  induction front with
  | nil => exact hs
  | cons a front ih =>
      obtain ⟨ha, hlisted⟩ := List.forall_mem_cons.mp hlisted
      obtain ⟨haquoted, hunquoted⟩ := List.forall_mem_cons.mp hunquoted
      have hnamed := spells_named ha haquoted back _ _ (endsName_comma _)
        (.mark (by decide) (.space (ih hlisted hunquoted)))
      have hcomma : utf8 ", " = [','.toUInt8, ' '.toUInt8] := rfl
      have hmark : mark "," = (.punctuation, [','.toUInt8]) := rfl
      simpa [frontWords, hcomma, hmark] using hnamed

theorem renderNamed_broken (hb : IsListed typeImport b)
    (hbroken : ¬ Unquoted Bytes.doubleQuote b.imported) :
    renderNamed typeImport b = (if b.typeOnly && !typeImport then utf8 "type " else []) ++
      Bytes.doubleQuote :: (b.imported ++
        Bytes.doubleQuote :: ' '.toUInt8 :: (utf8 "as " ++ b.name)) := by
  have hplain : isPlainName b.imported = false := by
    rw [← Bool.not_eq_true]
    exact fun hplain => hbroken (IsName.unquoted (isName_of_isPlainName hplain))
  have hother : (b.imported == b.name) = false := by
    rw [← Bool.not_eq_true, beq_iff_eq]
    exact fun hsame => hbroken (hsame ▸ IsName.unquoted hb.name)
  have hquote : utf8 "\"" = [Bytes.doubleQuote] := rfl
  have has : utf8 " as " = ' '.toUInt8 :: utf8 "as " := rfl
  simp only [renderNamed, hplain, hother, Bool.false_eq_true, if_false, hquote, has]
  split
  · simp
  · simp

theorem renderClause_named (hlead : lead = [] ∨ ∃ a, lead = [a] ∧ IsDefault typeImport a)
    (hne : kept ≠ []) (hlisted : ∀ a ∈ kept, IsListed typeImport a) :
    renderClause typeImport (lead ++ kept) = lead.flatMap (fun a => a.name ++ utf8 ", ") ++
      (utf8 "\x7b " ++ Bytes.join (utf8 ", ") (kept.map (renderNamed typeImport)) ++
        utf8 " \x7d") := by
  have hparts : clauseParts typeImport kept = _ :=
    clauseParts_named hne fun a ha => (hlisted a ha).kind
  rw [renderClause_eq]
  rcases hlead with rfl | ⟨a, rfl, ha⟩
  · simp [hparts, Bytes.join]
  · rw [List.singleton_append, clauseParts_cons ha.kind, hparts]
    simp [Bytes.join, List.intercalate_cons_cons]

/-- The words up to the quote of the broken name. -/
theorem exists_spelled_breaks (h : Breaks typeImport lead front b behind) (back : Bytes) :
    ∃ tail, Spelled
      (Bytes.doubleQuote :: (b.imported ++ Bytes.doubleQuote :: ' '.toUInt8 :: tail))
      (declarationText typeImport (lead ++ (front ++ b :: behind)) back)
      (keyword "import" :: ((if typeImport then [keyword "type"] else []) ++
        (leadWords lead ++ mark "\x7b" :: (frontWords typeImport front ++
          if b.typeOnly && !typeImport then [keyword "type"] else [])))) := by
  have hmodifier : ∀ {c : Bool} {literal s : Bytes} {ws : List Word}, Spelled literal s ws →
      Spelled literal ((if c then utf8 "type " else []) ++ s)
        ((if c then [keyword "type"] else []) ++ ws) := by
    intro c literal s ws hs
    cases c with
    | true => exact .name isName_type (endsName_space _) (.space hs)
    | false => exact hs
  have hlead : ∀ {literal s : Bytes} {ws : List Word}, Spelled literal s ws →
      Spelled literal (lead.flatMap (fun a => a.name ++ utf8 ", ") ++ s) (leadWords lead ++ ws) := by
    intro literal s ws hs
    rcases h.lead with rfl | ⟨a, rfl, ha⟩
    · exact hs
    · have hcomma : utf8 ", " = [','.toUInt8, ' '.toUInt8] := rfl
      have hmark : mark "," = (.punctuation, [','.toUInt8]) := rfl
      simpa [leadWords, hcomma, hmark] using
        Spelled.name ha.name (endsName_comma _) (.mark (by decide) (.space hs))
  obtain ⟨hlisted, hbehind⟩ := List.forall_mem_append.mp h.listed
  obtain ⟨after, hafter⟩ : ∃ after, Bytes.join (utf8 ", ")
      (renderNamed typeImport b :: behind.map (renderNamed typeImport)) =
        renderNamed typeImport b ++ after := by
    cases behind with
    | nil => exact ⟨[], by simp [Bytes.join]⟩
    | cons c behind => exact ⟨_, by rw [List.map_cons, Bytes.join, List.intercalate_cons_cons,
        List.append_assoc]⟩
  have hkept : front ++ b :: behind ≠ [] := by simp
  have hrender := renderClause_named h.lead hkept h.listed
  rw [List.map_append, List.map_cons, join_append_cons, hafter,
    renderNamed_broken (List.forall_mem_cons.mp hbehind).1 h.broken] at hrender
  refine ⟨utf8 "as " ++ b.name ++ after ++ utf8 " \x7d" ++ utf8 " from " ++ back, ?_⟩
  generalize hliteral : Bytes.doubleQuote :: (b.imported ++ Bytes.doubleQuote :: ' '.toUInt8 ::
    (utf8 "as " ++ b.name ++ after ++ utf8 " \x7d" ++ utf8 " from " ++ back)) = literal
  have hquote : Spelled literal literal [] := .nil
  have hnames := spelled_front (hmodifier (c := b.typeOnly && !typeImport) hquote) hlisted
    h.unquoted
  have hopened := hlead (.mark (b := Bytes.openBrace) (by decide) (.space hnames))
  have hclause := Spelled.name isName_import (endsName_space _)
    (.space (hmodifier (c := typeImport) hopened))
  rw [List.append_nil] at hclause
  rw [declarationText, hrender]
  subst hliteral
  simp only [List.append_assoc, List.cons_append] at hclause ⊢
  exact hclause

/-- The literal that is read where a broken name is written. -/
def brokenText (imported tail : Bytes) : Bytes :=
  (Bytes.doubleQuote :: (imported ++ Bytes.doubleQuote :: ' '.toUInt8 :: tail)).take
    (Lexeme.stringLength Bytes.doubleQuote
      (imported ++ Bytes.doubleQuote :: ' '.toUInt8 :: tail) 1)

theorem brokenText_ne_as (imported tail : Bytes) : brokenText imported tail ≠ utf8 "as" := by
  have hpos := Lexeme.le_stringLength Bytes.doubleQuote
    (imported ++ Bytes.doubleQuote :: ' '.toUInt8 :: tail) 1
  rw [brokenText, ← Nat.sub_add_cancel hpos, List.take_succ_cons]
  intro h
  exact absurd (List.cons.inj h).1 (by decide)

/-- The words of the names in braces up to the broken one, and that literal. -/
def brokenWords (typeImport : Bool) (front : List Binding) (b : Binding) (tail : Bytes)
    (more : List Word) : List Word :=
  frontWords typeImport front ++
    ((if b.typeOnly && !typeImport then [keyword "type"] else []) ++
      (.string, brokenText b.imported tail) :: more)

theorem exists_words_breaks (h : Breaks typeImport lead front b behind) (dialect : Dialect)
    (back : Bytes) : ∃ tail more,
      (tokenize dialect (declarationText typeImport (lead ++ (front ++ b :: behind)) back)).map
        Token.word = keyword "import" :: ((if typeImport then [keyword "type"] else []) ++
          (leadWords lead ++ mark "\x7b" :: brokenWords typeImport front b tail more)) := by
  obtain ⟨tail, hspelled⟩ := exists_spelled_breaks h back
  obtain ⟨next, hnext⟩ := Lexer.exists_arrives dialect
    (Lexer.ofSource (declarationText typeImport (lead ++ (front ++ b :: behind)) back)) hspelled rfl
  obtain ⟨more, hmore⟩ :=
    Lexer.exists_wordsRead_quote (.inl rfl) hnext.frames hnext.rest dialect
  refine ⟨tail, more, ?_⟩
  have hstart : (Lexer.ofSource
      (declarationText typeImport (lead ++ (front ++ b :: behind)) back)).skipHashbang =
      Lexer.ofSource (declarationText typeImport (lead ++ (front ++ b :: behind)) back) := rfl
  rw [tokenize, hstart]
  change (Lexer.wordsRead _) = _
  rw [hnext.run, hmore, hnext.words]
  simp [Lexer.wordsRead, Lexer.ofSource, brokenWords, brokenText]

/-! ### What is read of it -/

theorem imported_of_spec {line : Nat} {c : Binding} {rest : List Token} {tail : Bytes}
    (hspec : Spec line ts c rest)
    (hts : ts.map Token.word = (if b.typeOnly && !typeImport then [keyword "type"] else []) ++
      (.string, brokenText b.imported tail) :: more) :
    ∃ t : Token, t.word = (.string, brokenText b.imported tail) ∧ c.imported = t.contents := by
  have hitem : ∀ {t : Token} {us typeOnly}, t.word = (.string, brokenText b.imported tail) →
      Item line typeOnly (t :: us) c rest → c.imported = t.contents := by
    intro t us typeOnly ht hitem
    cases hitem with
    | name hkind => simp [Token.kind_of_word ht] at hkind
    | renamed hkind => simp [Token.kind_of_word ht] at hkind
    | quoted => rfl
  split at hts
  · obtain ⟨type, us, rfl, htype, hus⟩ := List.map_eq_cons_iff.mp hts
    obtain ⟨t, us, rfl, ht, _⟩ := List.map_eq_cons_iff.mp hus
    have hfollows : FollowsInlineType (t :: us) := .quoted (Token.kind_of_word ht) (by
      rw [Token.text_of_word ht]
      exact brokenText_ne_as _ _)
    cases hspec with
    | typed _ _ h => exact ⟨t, ht, hitem ht h⟩
    | plain hplain _ => exact absurd ⟨type, _, rfl, Token.isWord_of_word htype, hfollows⟩ hplain
  · obtain ⟨t, us, rfl, ht, _⟩ := List.map_eq_cons_iff.mp hts
    cases hspec with
    | typed htype _ _ => simp [Token.isWord, Token.kind_of_word ht] at htype
    | plain _ h => exact ⟨t, ht, hitem ht h⟩

/-- If names are read there at all, the broken one is imported by what its literal contains. -/
theorem imported_of_readNames {line : Nat} {read bs : List Binding} {rest : List Token}
    {tail : Bytes} (hlisted : ∀ a ∈ front, IsListed typeImport a)
    (hts : ts.map Token.word = brokenWords typeImport front b tail more)
    (h : readNames line ts read = (some bs, rest)) :
    ∃ (c : Binding) (t : Token), bs[read.length + front.length]? = some c ∧
      t.word = (.string, brokenText b.imported tail) ∧ c.imported = t.contents := by
  induction front generalizing ts read with
  | nil =>
      obtain ⟨new, rfl, ⟨_, t, ht, rfl⟩ | ⟨left, hspecs, _⟩⟩ := specs_of_readNames h
      · have hmark := (Token.isPunctuator_iff.mp ht).1
        simp only [brokenWords, frontWords, List.flatMap_nil, List.nil_append] at hts
        split at hts
        · simp [Token.kind_of_word (List.cons.inj hts).1] at hmark
        · simp [Token.kind_of_word (List.cons.inj hts).1] at hmark
      · obtain ⟨c, cs, after, rfl, hspec⟩ : ∃ c cs after, new = c :: cs ∧ Spec line ts c after := by
          cases hspecs with
          | one hspec => exact ⟨_, [], _, rfl, hspec⟩
          | more hspec => exact ⟨_, _, _, rfl, hspec⟩
        obtain ⟨t, ht, hcontents⟩ := imported_of_spec hspec hts
        exact ⟨c, t, by simp, ht, hcontents⟩
  | cons a front ih =>
      obtain ⟨ha, hlisted⟩ := List.forall_mem_cons.mp hlisted
      have hts : ts.map Token.word = namedWords typeImport a ++
          mark "," :: brokenWords typeImport front b tail more := by
        simpa [brokenWords, frontWords] using hts
      by_cases htype : IsTypeAs typeImport a
      · have hnone := readNames_head_typeAs htype hts line read
        rw [h] at hnone
        cases hnone
      · obtain ⟨new, left, hspec, hleft, _⟩ := exists_spec ha.kind htype hts line
        obtain ⟨comma, after, rfl, hcomma, hafter⟩ := List.map_eq_cons_iff.mp hleft
        rw [readNames_of_spec hspec (Token.kind_of_word hcomma),
          if_pos (Token.isPunctuator_of_word hcomma)] at h
        obtain ⟨c, t, hc, hread⟩ := ih hlisted hafter h
        refine ⟨c, t, ?_, hread⟩
        rw [← hc, List.length_cons, List.length_cons]
        congr 1
        omega

theorem isTypeModifier_breaks (h : Breaks typeImport lead front b behind)
    (hlist : ¬ (typeImport = true ∧ IsFromList (lead ++ (front ++ b :: behind))))
    (hts : ts.map Token.word = (if typeImport then [keyword "type"] else []) ++
      (leadWords lead ++ mark "\x7b" :: more)) : isTypeModifier ts = typeImport := by
  cases typeImport with
  | true =>
      obtain ⟨type, us, rfl, htype, hus⟩ := List.map_eq_cons_iff.mp hts
      rw [isTypeModifier_iff]
      refine ⟨type, us, rfl, Token.isWord_of_word htype, ?_⟩
      rcases h.lead with rfl | ⟨a, rfl, ha⟩
      · obtain ⟨brace, us, rfl, hbrace, _⟩ := List.map_eq_cons_iff.mp hus
        exact .brace (Token.isPunctuator_of_word hbrace)
      · obtain ⟨t, us, rfl, ht, _⟩ := List.map_eq_cons_iff.mp hus
        refine .name (Token.kind_of_word ht) fun htext => hlist ⟨rfl, ?_⟩
        rw [Token.text_of_word ht] at htext
        cases front with
        | nil => exact ⟨ha.kind, htext⟩
        | cons => exact ⟨ha.kind, htext⟩
  | false =>
      rw [← Bool.not_eq_true, isTypeModifier_iff]
      rintro ⟨t, us, rfl, ht, hfollows⟩
      rcases h.lead with rfl | ⟨a, rfl, ha⟩
      · have hkind : t.kind = .punctuation := Token.kind_of_word (List.cons.inj hts).1
        simp [Token.isWord, hkind] at ht
      · obtain ⟨comma, us, rfl, hcomma, _⟩ := List.map_eq_cons_iff.mp (List.cons.inj hts).2
        have hkind : comma.kind = .punctuation := Token.kind_of_word hcomma
        have hmark := Token.isPunctuator_of_word hcomma
        cases hfollows with
        | brace h => simp [Token.isPunctuator_ne hmark (n := "\x7b") (by decide)] at h
        | star h => simp [Token.isPunctuator_ne hmark (n := "*") (by decide)] at h
        | name h => simp [hkind] at h
        | fromTwice h => simp [Token.isWord, hkind] at h

theorem readClause_lead (hlead : lead = [] ∨ ∃ a, lead = [a] ∧ IsDefault typeImport a)
    (hts : ts.map Token.word = leadWords lead ++ mark "\x7b" :: more) (line : Nat) :
    ∃ names read, names.map Token.word = more ∧ read.length = lead.length ∧
      readClause line ts = readNames line names read := by
  rcases hlead with rfl | ⟨a, rfl, ha⟩
  · obtain ⟨brace, names, rfl, hbrace, hnames⟩ := List.map_eq_cons_iff.mp hts
    refine ⟨names, [], hnames, rfl, ?_⟩
    have hkind : brace.kind = .punctuation := Token.kind_of_word hbrace
    simp [readClause, readExports, hkind, Token.isPunctuator_of_word hbrace]
  · obtain ⟨t, us, rfl, ht, hus⟩ := List.map_eq_cons_iff.mp hts
    obtain ⟨comma, us, rfl, hcomma, hus⟩ := List.map_eq_cons_iff.mp hus
    obtain ⟨brace, names, rfl, hbrace, hnames⟩ := List.map_eq_cons_iff.mp hus
    have hmark := Token.isPunctuator_of_word hcomma
    have hequals : comma.isPunctuator "=" = false := Token.isPunctuator_ne hmark (by decide)
    refine ⟨names, [binding line .defaultExport (utf8 "default") false t], hnames, rfl, ?_⟩
    simp [readClause, readExports, Token.kind_of_word ht, hequals, hmark,
      Token.isPunctuator_of_word hbrace]

/-- The names of a declaration are those of its clause. -/
theorem bindings_readBody (line : Nat) (typeOnly : Bool) (ts : List Token) :
    (readBody line typeOnly ts).1.bindings = [] ∨
      ∃ bs rest, readClause line ts = (some bs, rest) ∧
        (readBody line typeOnly ts).1.bindings = markTypeOnly typeOnly bs := by
  unfold readBody
  dsimp only
  split
  · exact .inl rfl
  · next bs rest hclause =>
    split
    · exact .inr ⟨bs, rest, hclause, rfl⟩
    · split
      · exact .inl rfl
      · split
        · split
          · exact .inl rfl
          · split
            · exact .inr ⟨bs, _, hclause, rfl⟩
            · exact .inl rfl
        · exact .inl rfl

/-- The first declaration of tokens that start with a keyword is read there. -/
theorem bindings_of_importsOf {t : Token} {d : Declaration}
    (himport : isImport none t ts.head? = true) (h : importsOf (t :: ts) = [d]) :
    d.bindings = (readContents t.line ts).1.bindings := by
  have hwalk := importsOf_walk (t :: ts)
  rw [h] at hwalk
  cases hwalk with
  | found hitem _ =>
      obtain ⟨_, rfl, _⟩ := declaration?_eq_some hitem
      rfl
  | missed hnone _ => simp [declaration?, himport] at hnone

/-- A text that is read back as the clause that it was written for has no broken name. -/
theorem unquoted_of_importsOf (hkept : IsLooseClause typeImport kept)
    (hlist : ¬ (typeImport = true ∧ IsFromList kept)) {dialect : Dialect} {back : Bytes}
    {d : Declaration}
    (hd : importsOf (tokenize dialect (declarationText typeImport kept back)) = [d])
    (hmeaning : d.bindings.map Binding.meaning = kept.map Binding.meaning) :
    ∀ b ∈ kept, Unquoted Bytes.doubleQuote b.imported := by
  by_contra hbroken
  obtain ⟨lead, front, b, behind, rfl, hbreaks⟩ := exists_breaks hkept hbroken
  obtain ⟨tail, more, hwords⟩ := exists_words_breaks hbreaks dialect back
  obtain ⟨t, ts, htokens, ht, hts⟩ := List.map_eq_cons_iff.mp hwords
  obtain ⟨u, us, hhead, hkind, hcall, hproperty⟩ : ∃ u us, ts = u :: us ∧ u.kind ≠ .string ∧
      u.isPunctuator "(" = false ∧ u.isPunctuator "." = false := by
    cases typeImport with
    | true => exact exists_head hts (.inl rfl)
    | false =>
        rcases hbreaks.lead with rfl | ⟨a, rfl, _⟩
        · exact exists_head hts (.inr (.inr rfl))
        · exact exists_head hts (.inl rfl)
  have himport : isImport none t ts.head? = true := by
    simp [isImport, isStatementWord, Token.isWord_of_word ht, hhead, hcall, hproperty]
  rw [htokens] at hd
  have hbindings := bindings_of_importsOf himport hd
  rw [readContents_eq (by simp [hhead, hkind]), isTypeModifier_breaks hbreaks hlist hts] at hbindings
  have hclause : (if typeImport then ts.tail else ts).map Token.word =
      leadWords lead ++ mark "\x7b" :: brokenWords typeImport front b tail more := by
    cases typeImport with
    | true => rw [if_pos rfl, List.map_tail, hts]; rfl
    | false => rw [if_neg Bool.false_ne_true, hts]; rfl
  obtain ⟨names, read, hnames, hlength, hread⟩ := readClause_lead hbreaks.lead hclause t.line
  rcases bindings_readBody t.line typeImport (if typeImport then ts.tail else ts) with
    hnone | ⟨bs, rest, hbs, hmarked⟩
  · rw [hbindings, hnone, List.map_nil, eq_comm, List.map_eq_nil_iff] at hmeaning
    exact hkept.ne_nil hmeaning
  · rw [hread] at hbs
    obtain ⟨c, s, hc, hs, hcontents⟩ := imported_of_readNames
      (List.forall_mem_append.mp hbreaks.listed).1 hnames hbs
    rw [hlength] at hc
    -- The broken name and what is read in its place stand at the same index.
    have hsame := congrArg (fun ms => (ms[lead.length + front.length]?).map fun m => m.2.1) hmeaning
    rw [hbindings, hmarked, markTypeOnly_eq] at hsame
    have himported : s.contents = b.imported := by
      simpa [hc, Binding.meaning, hcontents] using hsame
    exact hbreaks.broken (unquoted_of_contents (by decide) hs himported)

end Edit

end UnusedImports
