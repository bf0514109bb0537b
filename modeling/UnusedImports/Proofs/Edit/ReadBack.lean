import UnusedImports.Proofs.Edit.Quoting
import UnusedImports.Proofs.Edit.Shape
import UnusedImports.Proofs.Lexer.Stretch
import Mathlib

/-! An edit that keeps names writes them in front of the module of its declaration and leaves what
stands from there on. -/

namespace UnusedImports

open Markup

namespace Token

variable {t u : Token}

theorem isPunctuator_eq_word (t : Token) (m : String) :
    t.isPunctuator m = (t.word == mark m) := by
  rw [Bool.eq_iff_iff, isPunctuator_iff, beq_iff_eq, word, mark, Prod.mk.injEq]

theorem isPunctuator_congr (h : u.word = t.word) (m : String) :
    u.isPunctuator m = t.isPunctuator m := by
  rw [isPunctuator_eq_word, isPunctuator_eq_word, h]

theorem isWord_congr (h : u.word = t.word) (w : String) : u.isWord w = t.isWord w := by
  rw [isWord, isWord, kind_of_word h, text_of_word h]

end Token

namespace Import

/-! ### Endings -/

variable {ts ts' left rest rest' : List Token} {t : Token}

theorem any_isPunctuator_congr (h : ts'.map Token.word = ts.map Token.word) (m : String) :
    ts'.any (·.isPunctuator m) = ts.any (·.isPunctuator m) := by
  have hwords := congrArg (List.any · (· == mark m)) h
  simpa only [List.any_map, Function.comp_def, ← Token.isPunctuator_eq_word] using hwords

theorem dropEnding_closed {w w' brace brace' u u' : Token} {inner inner' : List Token}
    (hw : w.isWord "with" = true ∨ w.isWord "assert" = true)
    (hbrace : brace.isPunctuator "\x7b" = true) (hinner : ∀ x ∈ inner, ¬ x.isPunctuator "\x7d")
    (hu : u.isPunctuator "\x7d" = true) (hw' : w'.word = w.word) (hbrace' : brace'.word = brace.word)
    (hinner' : inner'.map Token.word = inner.map Token.word) (hu' : u'.word = u.word)
    (rest : List Token) :
    dropEnding (w' :: brace' :: (inner' ++ u' :: rest)) =
      if rest.head?.any (·.isPunctuator ";") then rest.tail else rest := by
  have hfree : ∀ x ∈ inner', ¬ x.isPunctuator "\x7d" := by
    have hany := any_isPunctuator_congr hinner' "\x7d"
    simpa [List.any_eq_false.mpr hinner] using hany
  rw [dropEnding_attributes (by rwa [Token.isWord_congr hw', Token.isWord_congr hw'])
    (by rwa [Token.isPunctuator_congr hbrace']),
    dropBraced_closed hfree (by rwa [Token.isPunctuator_congr hu'])]

/-- Closed attributes with the semicolon that may follow them. -/
theorem dropEnding_suffix_of_closed {w brace u : Token} {inner more : List Token}
    (hw : w.isWord "with" = true ∨ w.isWord "assert" = true)
    (hbrace : brace.isPunctuator "\x7b" = true) (hinner : ∀ x ∈ inner, ¬ x.isPunctuator "\x7d")
    (hu : u.isPunctuator "\x7d" = true)
    (hmore : more = [] ∨ ∃ s, s.isPunctuator ";" = true ∧ more = [s])
    (hwords : ts'.map Token.word = (w :: brace :: (inner ++ u :: more)).map Token.word) :
    dropEnding (ts' ++ rest') <:+ rest' := by
  obtain ⟨w', us, rfl, hw', hus⟩ := List.map_eq_cons_iff.mp hwords
  obtain ⟨brace', us, rfl, hbrace', hus⟩ := List.map_eq_cons_iff.mp hus
  rw [List.map_append] at hus
  obtain ⟨inner', us, rfl, hinner', hus⟩ := List.map_eq_append_iff.mp hus
  obtain ⟨u', more', rfl, hu', hus⟩ := List.map_eq_cons_iff.mp hus
  have hread := dropEnding_closed hw hbrace hinner hu hw' hbrace' hinner' hu' (more' ++ rest')
  simp only [List.cons_append, List.append_assoc, hread]
  rcases hmore with rfl | ⟨s, hs, rfl⟩
  · obtain rfl := List.map_eq_nil_iff.mp hus
    exact ite_tail_suffix _ rest'
  · obtain ⟨s', more', rfl, hs', hus⟩ := List.map_eq_cons_iff.mp hus
    obtain rfl := List.map_eq_nil_iff.mp hus
    simp [Token.isPunctuator_congr hs', hs]

/-- Attributes that go on to the end of the file go on behind the words that they had. -/
theorem dropEnding_suffix_of_unclosed {w brace : Token} {inner : List Token}
    (hw : w.isWord "with" = true ∨ w.isWord "assert" = true)
    (hbrace : brace.isPunctuator "\x7b" = true) (hinner : ∀ x ∈ inner, ¬ x.isPunctuator "\x7d")
    (hwords : ts'.map Token.word = (w :: brace :: inner).map Token.word) :
    dropEnding (ts' ++ rest') <:+ rest' := by
  obtain ⟨w', us, rfl, hw', hus⟩ := List.map_eq_cons_iff.mp hwords
  obtain ⟨brace', inner', rfl, hbrace', hinner'⟩ := List.map_eq_cons_iff.mp hus
  have hopen : inner'.any (·.isPunctuator "\x7d") = false := by
    rw [any_isPunctuator_congr hinner', List.any_eq_false]
    exact hinner
  rw [List.cons_append, List.cons_append,
    dropEnding_attributes (by rwa [Token.isWord_congr hw', Token.isWord_congr hw'])
      (by rwa [Token.isPunctuator_congr hbrace']),
    dropBraced_append, hopen]
  exact (ite_tail_suffix _ _).trans (dropBraced_suffix rest')

/-- What ends a declaration ends it whatever stands behind. -/
theorem dropEnding_suffix_of_words (h : dropEnding (ts ++ rest) = rest)
    (hwords : ts'.map Token.word = ts.map Token.word) : dropEnding (ts' ++ rest') <:+ rest' := by
  have hending := ending_dropEnding (ts ++ rest)
  rw [h] at hending
  generalize hall : ts ++ rest = all at hending
  cases hending with
  | plain hsemicolon =>
      cases hsemicolon with
      | missing =>
          obtain rfl := List.append_left_eq_self.mp hall
          obtain rfl := List.map_eq_nil_iff.mp hwords
          exact dropEnding_suffix rest'
      | @present t _ ht =>
          obtain rfl : ts = [t] := List.append_cancel_right hall
          obtain ⟨t', us, rfl, ht', hus⟩ := List.map_eq_cons_iff.mp hwords
          obtain rfl := List.map_eq_nil_iff.mp hus
          exact (dropEnding_semicolon (by rwa [Token.isPunctuator_congr ht']) rest').symm ▸
            List.suffix_rfl
  | @attributes behind _ hattributes hsemicolon =>
      cases hattributes with
      | @closed w brace inner u _ hw hbrace hinner hu =>
          obtain ⟨more, rfl, hmore⟩ : ∃ more, behind = more ++ rest ∧
              (more = [] ∨ ∃ s, s.isPunctuator ";" = true ∧ more = [s]) := by
            cases hsemicolon with
            | missing => exact ⟨[], rfl, .inl rfl⟩
            | @present s _ hs => exact ⟨[s], rfl, .inr ⟨s, hs, rfl⟩⟩
          have hread : ts ++ rest = (w :: brace :: (inner ++ u :: more)) ++ rest := by
            simpa using hall
          obtain rfl := List.append_cancel_right hread
          exact dropEnding_suffix_of_closed hw hbrace hinner hu hmore hwords
      | unclosed hw hbrace hinner =>
          obtain rfl : rest = [] := by
            cases hsemicolon
            rfl
          rw [List.append_nil] at hall
          subst hall
          exact dropEnding_suffix_of_unclosed hw hbrace hinner hwords

end Import

namespace Edit

open Import

/-! ### Declarations that stand alone -/

/-- The strings that stand behind the word `from`. -/
def modulesOf : List Token → List Token
  | word :: source :: rest =>
    if word.isWord "from" && source.kind == .string then source :: modulesOf (source :: rest)
    else modulesOf (source :: rest)
  | _ => []

/-- The text of a declaration, between two offsets, is read by itself as it is in its file, and only
its module stands behind `from`. -/
structure StandsAlone (dialect : Dialect) (content : Bytes) (d : Declaration) (start stop : Nat) :
    Prop where
  tokens : (d.own (tokenize dialect content)).map (fun t => (t.offset, t.word)) <+:
    (tokenize dialect ((content.drop start).take (stop - start))).map
      fun t => (start + t.offset, t.word)
  modules : (modulesOf (d.own (tokenize dialect content))).length = 1

theorem mem_modulesOf {ts : List Token} {i : Nat} {source : Token} (h : ModuleAt ts i source) :
    source ∈ modulesOf ts := by
  obtain ⟨⟨word, hat, hword⟩, hnext, hstring⟩ := h
  induction ts generalizing i with
  | nil => cases hat
  | cons t ts ih =>
      cases ts with
      | nil => cases hnext
      | cons u ts =>
          cases i with
          | zero =>
              obtain rfl : t = word := Option.some.inj hat
              obtain rfl : u = source := Option.some.inj hnext
              simp [modulesOf, hword, hstring]
          | succ i =>
              have hmem := ih (i := i) hnext hat
              rw [modulesOf]
              split
              · exact List.mem_cons_of_mem u hmem
              · exact hmem

/-- A declaration that stands alone has its module where the edit looks for it. -/
theorem StandsAlone.sourceOffset_eq {dialect : Dialect} {content : Bytes} {d : Declaration}
    {start stop : Nat} (h : StandsAlone dialect content d start stop)
    (hd : d ∈ importsOf (tokenize dialect content)) {i : Nat} {source : Token}
    (hsource : ModuleAt (d.own (tokenize dialect content)) i source) {offset : Nat}
    (hread : sourceOffsetAt? (tokenize dialect content) d.start (d.stop - 1) = some (some offset)) :
    offset = source.offset := by
  obtain ⟨only, honly⟩ := List.length_eq_one_iff.mp h.modules
  have hbounds := bounds_of_mem_importsOf hd
  have hlast : d.stop - 1 < (tokenize dialect content).length := by omega
  rcases sourceOffsetAt?_spec d.start hlast with ⟨j, other, hstart, hstop, hother, hfound⟩ | hnone
  · obtain rfl := Option.some.inj (Option.some.inj (hread.symm.trans hfound))
    have hown : ModuleAt (d.own (tokenize dialect content)) (j - d.start) other := by
      obtain ⟨⟨word, hat, hword⟩, hnext, hstring⟩ := hother
      refine ⟨⟨word, ?_, hword⟩, ?_, hstring⟩
      · rw [getElem?_own (by omega), Nat.add_sub_cancel' hstart, hat]
      · rw [getElem?_own (by omega), ← Nat.add_assoc, Nat.add_sub_cancel' hstart, hnext]
    have hmem := mem_modulesOf hsource
    have hmem' := mem_modulesOf hown
    rw [honly, List.mem_singleton] at hmem hmem'
    rw [hmem, hmem']
  · cases hread.symm.trans hnone.1

/-! ### In front of the module -/

/-- A lexer that comes to the module of a declaration, which ends at an offset, with nothing open.
What it will read besides the rest of the declaration is empty. -/
structure AtModule (dialect : Dialect) (content : Bytes) (stop : Nat) (source : Token)
    (left : List Token) (lx : Lexer) : Prop where
  rest : lx.rest = (content.drop source.offset).take (stop - source.offset)
  frames : lx.frames = []
  depth : lx.depth = 0
  words : ∃ ws, lx.wordsRead = ws ++ [keyword "from"]
  run : ∃ more, (lx.run dialect).wordsRead =
    lx.wordsRead ++ (source.word :: (left.map Token.word ++ more)) ∧ ∀ w ∈ more, w.2 = []

variable {dialect : Dialect} {content : Bytes} {d : Declaration} {start stop : Nat}
  {front left rest : List Token} {t word source : Token} {c : Contents}

/-- By itself, the text of a declaration has its tokens and perhaps some without bytes. -/
theorem StandsAlone.exists_tokens (h : StandsAlone dialect content d start stop)
    (hextent : Extent (tokenize dialect content) d start stop) :
    ∃ own more, tokenize dialect ((content.drop start).take (stop - start)) = own ++ more ∧
      own.map (fun t => (start + t.offset, t.word)) =
        (d.own (tokenize dialect content)).map (fun t => (t.offset, t.word)) ∧
      ∀ t ∈ more, t.text = [] := by
  obtain ⟨behind, hbehind⟩ := h.tokens
  obtain ⟨own, more, hsplit, hown, -⟩ := List.map_eq_append_iff.mp hbehind.symm
  refine ⟨own, more, hsplit, hown, fun t ht => ?_⟩
  obtain ⟨last, hlast, hstop⟩ := hextent.last
  have hsame := congrArg List.getLast? hown
  rw [List.getLast?_map, List.getLast?_map, hlast, Option.map_some, Option.map_eq_some_iff] at hsame
  obtain ⟨u, hu, hword⟩ := hsame
  obtain ⟨hoffset, hword⟩ := Prod.mk.inj hword
  have htext : u.text = last.text := congrArg Prod.snd hword
  have hapart := tokenize_apart dialect ((content.drop start).take (stop - start))
  have hmem : t ∈ tokenize dialect ((content.drop start).take (stop - start)) := by
    simp [hsplit, ht]
  rw [hsplit] at hapart
  have hbefore := (List.pairwise_append.mp hapart).2.2 u (List.mem_of_getLast? hu) t ht
  have hinside := (placed_of_mem_tokenize hmem).inside
  rw [List.length_take] at hinside
  rw [htext] at hbefore
  exact List.length_eq_zero_iff.mp (by omega)

/-- A declaration that is written with names, closed literals and marks alone stands alone. -/
theorem StandsAlone.of_ordinary (hextent : Extent (tokenize dialect content) d start stop)
    (hordinary : ∀ t ∈ d.own (tokenize dialect content), IsOrdinary t.word)
    (hmodules : (modulesOf (d.own (tokenize dialect content))).length = 1) :
    StandsAlone dialect content d start stop := by
  obtain ⟨first, hfirst, rfl⟩ := hextent.first
  obtain ⟨last, hlast, rfl⟩ := hextent.last
  obtain ⟨ts, hown⟩ := List.head?_eq_some_iff.mp hfirst
  refine ⟨?_, hmodules⟩
  rw [hown] at hordinary hlast ⊢
  have hsplit : tokenize dialect content = (tokenize dialect content).take d.start ++
      first :: (ts ++ ((tokenize dialect content).drop d.start).drop (d.stop - d.start)) := by
    rw [← List.cons_append, ← hown, Declaration.own, List.take_append_drop, List.take_append_drop]
  rw [tokenize_stretch hsplit hordinary hlast dialect]

/-- A lexer that comes to a token of a text with nothing open, behind the tokens in front. -/
structure ComesTo (dialect : Dialect) (source : Bytes) (before : List Token) (u : Token)
    (after : List Token) (lx : Lexer) : Prop where
  rest : lx.rest = source.drop u.offset
  frames : lx.frames = []
  depth : lx.depth = 0
  words : lx.wordsRead = before.map Token.word
  run : (lx.run dialect).wordsRead = (before ++ u :: after).map Token.word

/-- Behind balanced words of plain code nothing is open. -/
theorem exists_comesTo {source : Bytes} {before after : List Token} {u : Token}
    (htokens : tokenize dialect source = before ++ u :: after)
    (hbalanced : Balanced (before.map Token.word)) :
    ∃ lx, ComesTo dialect source before u after lx ∧
      ∀ v ∈ before, v.kind = .identifier → IsName v.text := by
  have hframes := Lexer.skipHashbang_frames source
  have hdepth := Lexer.skipHashbang_depth source
  have hnone : (Lexer.ofSource source).skipHashbang.wordsRead = [] := by
    rw [Lexer.wordsRead, Lexer.skipHashbang_tokens]
    rfl
  have hwords : ((Lexer.ofSource source).skipHashbang.run dialect).wordsRead =
      (Lexer.ofSource source).skipHashbang.wordsRead ++
        (before.map Token.word ++ (u :: after).map Token.word) := by
    rw [hnone, List.nil_append, ← List.map_append, ← htokens]
    rfl
  obtain ⟨next, hnext, hreads, hnames⟩ := Lexer.exists_arrives_of_words hframes
    (Lexer.readsFrom_skipHashbang source) hbalanced.plain hwords
  have hread : next.wordsRead = before.map Token.word := by
    rw [hnext.words, hnone, List.nil_append]
  have hrun : (next.run dialect).tokens.reverse = before ++ u :: after := by
    rw [← hnext.run, ← htokens]
    rfl
  -- The tokens that have been read are those in front, places included.
  have hstep : (next.run dialect).tokens.reverse = next.tokens.reverse ++ u :: after := by
    obtain ⟨new, hnew⟩ := Lexer.tokens_suffix_run dialect next
    have happend := hrun
    rw [← hnew, List.reverse_append] at happend
    have hlength := congrArg List.length hread
    simp only [Lexer.wordsRead, List.length_map] at hlength
    rw [hrun, (List.append_inj happend hlength).1]
  obtain ⟨-, hplace⟩ := Lexer.offset_of_run hnext.frames hstep
  have hsettle : next.settle.wordsRead = next.wordsRead := by
    rw [Lexer.wordsRead, Lexer.settle_tokens]
    rfl
  refine ⟨next.settle, ⟨?_, ?_, ?_, ?_, ?_⟩, fun v hv hkind => ?_⟩
  · rw [hreads.settle.rest_eq, ← hplace]
  · rw [Lexer.settle_frames, hnext.frames]
  · rw [Lexer.settle_of_frames_nil hnext.frames]
    change next.depth = 0
    rw [hnext.depth, hbalanced.depth, hdepth]
  · rw [hsettle, hread]
  · rw [Lexer.run_congr (Lexer.settle_settle next), Lexer.wordsRead, hrun]
  · exact hnames v.word (List.mem_map_of_mem hv) hkind

theorem exists_atModule (h : StandsAlone dialect content d start stop)
    (hextent : Extent (tokenize dialect content) d start stop) (ht : t.isWord "import" = true)
    (hown : d.own (tokenize dialect content) = t :: (front ++ word :: source :: left))
    (hheading : Heading c front word source (left ++ rest) rest) :
    ∃ lx, AtModule dialect content stop source left lx ∧
      ∀ u ∈ front, u.kind = .identifier → IsName u.text := by
  obtain ⟨own, more, hsplit, hsame, hempty⟩ := h.exists_tokens hextent
  -- The tokens up to `from`, the module and those behind it.
  have hparts : d.own (tokenize dialect content) = (t :: (front ++ [word])) ++ source :: left := by
    simp [hown]
  rw [hparts, List.map_append] at hsame
  obtain ⟨before, behind, rfl, hbefore, hbehind⟩ := List.map_eq_append_iff.mp hsame
  obtain ⟨u, after, rfl, hu, hafter⟩ := List.map_eq_cons_iff.mp hbehind
  obtain ⟨hoffset, hsource⟩ := Prod.mk.inj hu
  have hbefore : before.map Token.word = (t :: (front ++ [word])).map Token.word := by
    simpa [Function.comp_def] using congrArg (List.map Prod.snd) hbefore
  have hafter : after.map Token.word = left.map Token.word := by
    simpa [Function.comp_def] using congrArg (List.map Prod.snd) hafter
  have hfrom : word.word = keyword "from" := Prod.ext_iff.mpr (Token.isWord_iff.mp hheading.word)
  have himport : t.word = keyword "import" := Prod.ext_iff.mpr (Token.isWord_iff.mp ht)
  have hbalanced : Balanced (before.map Token.word) := by
    have hall := ((Balanced.of_identifier (utf8 "import")).append hheading.balanced).append
      (Balanced.of_identifier (utf8 "from"))
    simpa [hbefore, himport, hfrom, keyword] using hall
  rw [List.append_assoc, List.cons_append] at hsplit
  obtain ⟨lx, hlx, hnames⟩ := exists_comesTo hsplit hbalanced
  refine ⟨lx, ⟨?_, hlx.frames, hlx.depth, ?_, ?_⟩, fun v hv hkind => ?_⟩
  · rw [hlx.rest, List.drop_take, List.drop_drop, hoffset]
    congr 1
    omega
  · exact ⟨(t :: front).map Token.word, by rw [hlx.words, hbefore]; simp [hfrom]⟩
  · refine ⟨more.map Token.word, ?_, by simpa [Token.word] using hempty⟩
    rw [hlx.run, hlx.words]
    simp [hsource, hafter]
  · have hmem : v.word ∈ before.map Token.word := hbefore ▸ List.mem_map_of_mem (by simp [hv])
    obtain ⟨w, hw, hword⟩ := List.mem_map.mp hmem
    exact (Prod.mk.inj hword).2 ▸ hnames w hw ((Prod.mk.inj hword).1.trans hkind)

/-! ### The text of an edit -/

variable {typeImport : Bool} {kept : List Binding} {lx : Lexer}

theorem bodyWords_append (typeImport : Bool) (bs : List Binding) (more : List Word) :
    bodyWords typeImport bs more = bodyWords typeImport bs [] ++ more := by
  simp [bodyWords]

/-- Other names in front of the module do not change what is read from there on. -/
theorem AtModule.word_tokenize (h : AtModule dialect content stop source left lx)
    (hkept : IsLooseClause typeImport kept)
    (himported : ∀ b ∈ kept, Unquoted Bytes.doubleQuote b.imported) :
    ∃ more, (tokenize dialect (declarationText typeImport kept lx.rest)).map Token.word =
      keyword "import" ::
        bodyWords typeImport kept (source.word :: (left.map Token.word ++ more)) ∧
      ∀ w ∈ more, w.2 = [] := by
  obtain ⟨ws, hws⟩ := h.words
  obtain ⟨more, hrun, hmore⟩ := h.run
  obtain ⟨next, hnext⟩ := Lexer.exists_arrives dialect
    (Lexer.ofSource (declarationText typeImport kept lx.rest))
    (spelled_heading hkept himported lx.rest) rfl
  obtain ⟨front, hfront, heven⟩ : ∃ front, keyword "import" :: bodyWords typeImport kept [] =
      front ++ [keyword "from"] ∧ Balanced front := by
    refine ⟨keyword "import" :: ((if typeImport then [keyword "type"] else []) ++
      clauseWords typeImport kept), by simp [bodyWords], ?_⟩
    have hmodifier : Balanced (if typeImport then [keyword "type"] else []) := by
      split
      · exact .of_identifier _
      · exact .nil
    exact .identifier (hmodifier.append (balanced_clauseWords typeImport kept)) _
  have hdepth : next.depth = lx.depth := by
    have hall : Balanced (front ++ [keyword "from"]) := heven.append (.of_identifier _)
    rw [hnext.depth, hfront, hall.depth, h.depth]
    rfl
  have hread : next.wordsRead = front ++ [keyword "from"] := by
    rw [hnext.words, hfront]
    rfl
  have htwin := Lexer.Twin.of_last hnext.rest hdepth (by rw [hnext.frames, h.frames]) hws hread
  obtain ⟨new, hnew, hnew'⟩ := (htwin.run dialect).words
  rw [hrun, hws] at hnew
  obtain rfl := List.append_cancel_left hnew
  refine ⟨more, ?_, hmore⟩
  have hstart : (Lexer.ofSource (declarationText typeImport kept lx.rest)).skipHashbang =
      Lexer.ofSource (declarationText typeImport kept lx.rest) := rfl
  rw [bodyWords_append, ← List.cons_append, hfront, ← hnew', ← hnext.run, tokenize, hstart]
  rfl

/-- A name that is read back where it is written: its quotes hold it, and no modifier stands in front
of the imported name `as`. -/
structure Writable (typeImport : Bool) (b : Binding) : Prop where
  unquoted : Unquoted Bytes.doubleQuote b.imported
  not_typeAs : ¬ IsTypeAs typeImport b

/-- A text is read as one declaration: it has the module and the modifier of another one, and the
given names. -/
def ReadAs (dialect : Dialect) (text source : Bytes) (typeImport : Bool) (bs : List Binding) :
    Prop :=
  ∃ d, importsOf (tokenize dialect text) = [d] ∧ d.source = source ∧ d.typeOnly = typeImport ∧
    d.bindings.map Binding.meaning = bs.map Binding.meaning

/-- The tokens of the text, from the keyword on. -/
theorem AtModule.exists_tokens (h : AtModule dialect content stop source left lx)
    (hkept : IsLooseClause typeImport kept)
    (himported : ∀ b ∈ kept, Unquoted Bytes.doubleQuote b.imported)
    (hsource : source.kind = .string) :
    ∃ t ts more, tokenize dialect (declarationText typeImport kept lx.rest) = t :: ts ∧
      isImport none t ts.head? = true ∧
      ts.map Token.word = bodyWords typeImport kept
        ((.string, source.text) :: (left.map Token.word ++ more)) ∧ ∀ w ∈ more, w.2 = [] := by
  obtain ⟨more, hwords, hmore⟩ := h.word_tokenize hkept himported
  obtain ⟨t, ts, htokens, ht, hts⟩ := List.map_eq_cons_iff.mp hwords
  have hword : source.word = (.string, source.text) := by rw [← hsource]; rfl
  have hkeyword := Token.isWord_of_word ht
  obtain ⟨next, behind, hhead, _, hcall, hproperty⟩ := exists_head_body hkept hts
  refine ⟨t, ts, more, htokens, ?_, by rw [← hword, hts], hmore⟩
  simp [isImport, isStatementWord, hkeyword, hhead, hcall, hproperty]

theorem AtModule.readAs (h : AtModule dialect content stop source left lx)
    (hkept : IsLooseClause typeImport kept) (hlist : ¬ (typeImport = true ∧ IsFromList kept))
    (hwritable : ∀ b ∈ kept, Writable typeImport b) (hsource : source.kind = .string)
    (hending : dropEnding (left ++ rest) = rest) :
    ReadAs dialect (declarationText typeImport kept lx.rest) source.contents typeImport kept := by
  obtain ⟨t, ts, more, htokens, himport, hts, hmore⟩ :=
    h.exists_tokens hkept (fun b hb => (hwritable b hb).unquoted) hsource
  have hread : ¬ Unreadable typeImport kept := by
    rintro (⟨b, hb, htype⟩ | hfrom)
    · exact (hwritable b hb).not_typeAs htype
    · exact hlist hfrom
  obtain ⟨new, s, after, hs, hafter, hcontents, hmeaning⟩ :=
    readContents_body hkept hread hts t.line
  obtain ⟨left', empty, rfl, hleft, hempty⟩ := List.map_eq_append_iff.mp hafter
  have hnone : ∀ u ∈ dropEnding (left' ++ empty), u.isWord "import" = false := by
    intro u hu
    have hsuffix : dropEnding (left' ++ empty) <:+ empty := dropEnding_suffix_of_words hending hleft
    have hmem := hsuffix.subset hu
    have htext : u.text = [] := hmore u.word (hempty ▸ List.mem_map_of_mem hmem)
    have hkeyword : utf8 "import" ≠ [] := by decide
    simp [Token.isWord, htext, hkeyword]
  refine ⟨_, by rw [htokens, importsOf_keyword himport hcontents hnone], ?_, rfl, hmeaning⟩
  simp [Token.contents, Token.kind_of_word hs, Token.text_of_word hs, hsource]

theorem AtModule.readAs_iff (h : AtModule dialect content stop source left lx)
    (hkept : IsLooseClause typeImport kept) (hlist : ¬ (typeImport = true ∧ IsFromList kept))
    (hsource : source.kind = .string) (hending : dropEnding (left ++ rest) = rest) :
    ReadAs dialect (declarationText typeImport kept lx.rest) source.contents typeImport kept ↔
      ∀ b ∈ kept, Writable typeImport b := by
  refine ⟨?_, fun hwritable => h.readAs hkept hlist hwritable hsource hending⟩
  rintro ⟨d, hd, _, _, hmeaning⟩
  have hunquoted := unquoted_of_importsOf hkept hlist hd hmeaning
  intro b hb
  refine ⟨hunquoted b hb, fun htype => ?_⟩
  obtain ⟨t, ts, more, htokens, himport, hts, _⟩ := h.exists_tokens hkept hunquoted hsource
  rw [htokens] at hd
  have hnone := readContents_unreadable hkept (.inl ⟨b, hb, htype⟩) hts t.line
  rw [bindings_of_importsOf himport hd, hnone, List.map_nil, eq_comm, List.map_eq_nil_iff]
    at hmeaning
  exact hkept.ne_nil hmeaning

/-- A name that is kept beside one that is not is no assignment. -/
theorem not_assigned_of_length {ts : List Token} (h : Derives ts c rest)
    (hlength : 1 < c.bindings.length) : ∀ b ∈ c.bindings, b.kind ≠ .assigned := by
  have hbody : ∀ {line ts typeOnly}, Body line typeOnly ts c rest →
      ∀ b ∈ c.bindings, b.kind ≠ .assigned := by
    intro line ts typeOnly hbody
    cases hbody with
    | assigned => simp at hlength
    | clause hclause _ _ _ => simpa using hclause.not_assigned
  cases h with
  | typed _ _ _ hderived => exact hbody hderived
  | plain _ _ hderived => exact hbody hderived

/-- The names that an edit keeps, and a lexer in front of the module that the text of the edit
ends with. -/
theorem Mends.exists_text {path : Bytes} {e : Edit}
    (h : Mends content (analyze path content) d e)
    (hkept : d.bindings.filter (· ∉ (analyze path content).unused) = kept) (hne : kept ≠ [])
    (halone : StandsAlone (.ofPath path) content d e.start e.stop) :
    ∃ source left rest lx, AtModule (.ofPath path) content e.stop source left lx ∧
      IsLooseClause d.typeOnly kept ∧ ¬ (d.typeOnly = true ∧ IsFromList kept) ∧
      source.kind = .string ∧ d.source = source.contents ∧
      dropEnding (left ++ rest) = rest ∧ e.text = declarationText d.typeOnly kept lx.rest := by
  subst hkept
  obtain ⟨hextent, i, hi, htext⟩ := plan?_of_kept h.mem h.plan hne
  obtain ⟨t, read, ht, _, hown, _, hread⟩ := exists_own_of_mem_importsOf h.mem
  have hlength : 1 < d.bindings.length := by
    have hdropped : (d.bindings.filter (· ∉ (analyze path content).unused)).length <
        d.bindings.length := by
      rw [List.length_filter_lt_length_iff_exists]
      simpa using h.mendable.2
    have hpos := List.length_pos_iff.mpr hne
    omega
  have hbindings : d.bindings ≠ [] := List.ne_nil_of_length_pos (by omega)
  have hderives := derives_of_readContents ht hread hbindings
  have hassigned := not_assigned_of_length hderives hlength
  obtain ⟨front, word, source, left, hsplit, hheading⟩ :=
    exists_heading ht hread hbindings hassigned
  obtain ⟨left, rfl⟩ := hheading.ending ▸ dropEnding_suffix left
  obtain rfl : read = front ++ word :: source :: left :=
    List.append_cancel_right (by rw [hsplit, List.append_assoc]; rfl)
  obtain ⟨lx, hlx, hnames⟩ := exists_atModule halone hextent ht hown hheading
  have hshape : IsLooseClause d.typeOnly d.bindings := by
    refine derives_shape hderives hbindings hassigned fun b hb => ?_
    obtain ⟨u, hu, hnamed⟩ := hheading.named b hb
    exact hnamed.name ▸ hnames u hu hnamed.kind
  have hmodule : ModuleAt (d.own (tokenize (.ofPath path) content)) (t :: front).length source := by
    refine ⟨⟨word, ?_, hheading.word⟩, ?_, hheading.string⟩
    · simp [hown]
    · simp [hown]
  have hplace := halone.sourceOffset_eq h.mem hmodule hi
  refine ⟨source, left, _, lx, hlx, hshape.filter _ hne, ?_, hheading.string, hheading.module,
    hheading.ending, ?_⟩
  · rintro ⟨htype, hlist⟩
    exact derives_not_fromList hderives htype (isFromList_of_filter hshape hlist)
  · rw [htext, hlx.rest, hplace, declarationText]

/-- Each edit that keeps names of a declaration is read back as that declaration with these names,
exactly if the names are writable. -/
theorem ofFile_readAs_iff (path content : Bytes) :
    List.Forall₂
      (fun d e => Mends content (analyze path content) d e ∧
        ∀ kept, d.bindings.filter (· ∉ (analyze path content).unused) = kept → kept ≠ [] →
          StandsAlone (.ofPath path) content d e.start e.stop →
            (ReadAs (.ofPath path) e.text d.source d.typeOnly kept ↔
              ∀ b ∈ kept, Writable d.typeOnly b))
      ((analyze path content).declarations.filter (isMendable (analyze path content)))
      (ofFile path content) := by
  refine (ofFile_mends path content).imp fun d e h => ⟨h, ?_⟩
  intro kept hkept hne halone
  obtain ⟨source, left, rest, lx, hlx, hshape, hlist, hstring, hmodule, hending, htext⟩ :=
    h.exists_text hkept hne halone
  rw [htext, hmodule]
  exact hlx.readAs_iff hshape hlist hstring hending

set_option maxRecDepth 8000 in
/-- A name with a quote behind a backslash is read back from quotes of the other kind. -/
theorem ofFile_readAs_escaped :
    Dialect.ofPath (utf8 "a.ts") = .assertions ∧
      (ofFile (utf8 "a.ts")
        (utf8 "import \x7b type 'a\\'b' as x, y \x7d from 'm';\nx")).map (·.text) =
          [utf8 "import \x7b type \"a\\'b\" as x \x7d from 'm';"] ∧
      ReadAs .assertions (utf8 "import \x7b type \"a\\'b\" as x \x7d from 'm';") (utf8 "m") false
        [⟨utf8 "x", utf8 "a\\'b", .named, true, 1, 1, 25⟩] := by
  have hunquoted : Unquoted Bytes.doubleQuote (utf8 "a\\'b") := by
    have hbytes : utf8 "a\\'b" = [0x61, Bytes.backslash, Bytes.singleQuote, 0x62] := by decide
    rw [hbytes]
    refine .plain (by decide) (by decide) (by decide) (.escaped ?_)
    exact .plain (by decide) (by decide) (by decide) .nil
  generalize hcontent : utf8 "import \x7b type 'a\\'b' as x, y \x7d from 'm';\nx" = content
  generalize htext : utf8 "import \x7b type \"a\\'b\" as x \x7d from 'm';" = text
  have hpath : Dialect.ofPath (utf8 "a.ts") = .assertions := by cbv
  obtain ⟨x, hx⟩ : ∃ x : Binding, x = ⟨utf8 "x", utf8 "a\\'b", .named, true, 1, 1, 25⟩ := ⟨_, rfl⟩
  obtain ⟨y, hy⟩ : ∃ y : Binding, y = ⟨utf8 "y", utf8 "y", .named, false, 1, 1, 28⟩ := ⟨_, rfl⟩
  obtain ⟨d, hd⟩ : ∃ d : Declaration, d = ⟨⟨0, 12⟩, 1, utf8 "m", false, [x, y]⟩ := ⟨_, rfl⟩
  obtain ⟨own, hown⟩ : ∃ own : List Token, own =
      [⟨⟨0, 1, 1⟩, .identifier, utf8 "import"⟩, ⟨⟨7, 1, 8⟩, .punctuation, utf8 "\x7b"⟩,
        ⟨⟨9, 1, 10⟩, .identifier, utf8 "type"⟩, ⟨⟨14, 1, 15⟩, .string, utf8 "'a\\'b'"⟩,
        ⟨⟨21, 1, 22⟩, .identifier, utf8 "as"⟩, ⟨⟨24, 1, 25⟩, .identifier, utf8 "x"⟩,
        ⟨⟨25, 1, 26⟩, .punctuation, utf8 ","⟩, ⟨⟨27, 1, 28⟩, .identifier, utf8 "y"⟩,
        ⟨⟨29, 1, 30⟩, .punctuation, utf8 "\x7d"⟩, ⟨⟨31, 1, 32⟩, .identifier, utf8 "from"⟩,
        ⟨⟨36, 1, 37⟩, .string, utf8 "'m'"⟩, ⟨⟨39, 1, 40⟩, .punctuation, utf8 ";"⟩] := ⟨_, rfl⟩
  have hread : tokenize .assertions ((content.drop 0).take (40 - 0)) = own := by
    have htaken : (content.drop 0).take (40 - 0) =
        utf8 "import \x7b type 'a\\'b' as x, y \x7d from 'm';" := by
      rw [← hcontent]
      decide
    rw [htaken, hown]
    cbv
  have htokens : tokenize .assertions content =
      own ++ [⟨⟨41, 2, 1⟩, .identifier, utf8 "x"⟩] := by
    rw [hown, ← hcontent]
    cbv
  have hanalysis : analyze (utf8 "a.ts") content = ⟨tokenize .assertions content, [d], [y]⟩ := by
    simp only [analyze, hpath, htokens, hown, hd, hx, hy]
    cbv
  have hmendable : (analyze (utf8 "a.ts") content).declarations.filter
      (isMendable (analyze (utf8 "a.ts") content)) = [d] := by
    rw [hanalysis, htokens, hown, hd, hx, hy]
    decide
  have hedits : ofFile (utf8 "a.ts") content = [⟨⟨0, 40, text⟩, 1, [utf8 "y"]⟩] := by
    simp only [ofFile, hanalysis, htokens]
    rw [hown, hd, hx, hy, ← htext, ← hcontent]
    cbv
  have halone : StandsAlone .assertions content d 0 40 := by
    have hself : d.own (tokenize .assertions content) = own := by
      rw [htokens, hd, hown]
      rfl
    refine ⟨?_, ?_⟩
    · rw [hself, hread]
      simp only [Nat.zero_add]
      exact List.prefix_rfl
    · rw [hself, hown]
      decide
  have hall := ofFile_readAs_iff (utf8 "a.ts") content
  rw [hedits, hmendable, hanalysis, hpath] at hall
  have hkept : d.bindings.filter (· ∉ [y]) = [x] := by
    rw [hd, hx, hy]
    decide
  obtain ⟨⟨-, hread⟩, -⟩ := List.forall₂_cons.mp hall
  refine ⟨hpath, by rw [hedits, List.map_singleton], ?_⟩
  have hiff := hread [x] hkept (List.cons_ne_nil x []) halone
  rw [hd, hx] at hiff
  refine hiff.mpr fun b hb => ?_
  obtain rfl := List.mem_singleton.mp hb
  exact ⟨hunquoted, fun htype => absurd htype.2.2.2 (by decide)⟩

set_option maxRecDepth 8000 in
/-- A quote of the other kind ends the name in the text of the edit, which then imports nothing. -/
theorem ofFile_readAs_doubleQuote :
    (analyze (utf8 "a.ts") (utf8 "import \x7b 'a\"b' as x, y \x7d from 'm';\nx")).declarations.map
        (fun d => (d.source, d.bindings.map Binding.meaning)) =
          [(utf8 "m", [(utf8 "x", utf8 "a\"b", .named, false), (utf8 "y", utf8 "y", .named, false)])] ∧
      (ofFile (utf8 "a.ts") (utf8 "import \x7b 'a\"b' as x, y \x7d from 'm';\nx")).map
        (fun e => (e.removed, e.text)) =
          [([utf8 "y"], utf8 "import \x7b \"a\"b\" as x \x7d from 'm';")] ∧
      (importsOf (tokenize (.ofPath (utf8 "a.ts"))
        (utf8 "import \x7b \"a\"b\" as x \x7d from 'm';"))).map
          (fun d => (d.source, d.bindings.map Binding.meaning)) = [([], [])] := by
  refine ⟨by cbv, by cbv, by cbv⟩

end Edit

end UnusedImports
