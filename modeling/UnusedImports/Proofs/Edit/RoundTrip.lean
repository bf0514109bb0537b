import UnusedImports.Proofs.Edit.Rendering
import UnusedImports.Proofs.Import.Derivation

/-! The words of a rendered clause derive a clause with the same names, but for two shapes in which
`type` plays a part: behind it, `as` renames and `from` may name the module. -/

namespace UnusedImports

/-- What a binding says, without its place. -/
def Binding.meaning (b : Binding) : Bytes × Bytes × BindingKind × Bool :=
  (b.name, b.imported, b.kind, b.typeOnly)

namespace Token

variable {t : Token} {kind : TokenKind} {text : Bytes}

theorem kind_of_word (h : t.word = (kind, text)) : t.kind = kind := congrArg Prod.fst h

theorem text_of_word (h : t.word = (kind, text)) : t.text = text := congrArg Prod.snd h

theorem isWord_of_word {w : String} (h : t.word = Edit.keyword w) : t.isWord w = true :=
  isWord_iff.mpr ⟨kind_of_word h, text_of_word h⟩

theorem isPunctuator_of_word {m : String} (h : t.word = Markup.mark m) :
    t.isPunctuator m = true :=
  isPunctuator_iff.mpr ⟨kind_of_word h, text_of_word h⟩

theorem contents_of_word {quote : UInt8} (h : t.word = (.string, quote :: text ++ [quote])) :
    t.contents = text := by
  simp [contents, kind_of_word h, text_of_word h]

end Token

namespace Edit

open Import Markup

variable {typeImport : Bool} {b : Binding} {bs : List Binding} {line : Nat} {ts : List Token}
  {more : List Word}

/-- A binding as a clause says it: in a type import no name has its own modifier. -/
def spoken (typeImport : Bool) (b : Binding) : Binding :=
  { b with typeOnly := b.typeOnly && !typeImport }

/-! ### Names in braces -/

theorem exists_item (hts : ts.map Token.word = itemWords b ++ more) (line : Nat)
    (typeOnly : Bool) :
    ∃ new rest, Item line typeOnly ts new rest ∧ rest.map Token.word = more ∧
      new.meaning = (b.name, b.imported, .named, typeOnly) := by
  unfold itemWords at hts
  split at hts
  · next hsame =>
    obtain ⟨t, rest, rfl, ht, hrest⟩ := List.map_eq_cons_iff.mp hts
    refine ⟨_, rest, .name (Token.kind_of_word ht), hrest, ?_⟩
    simp [Binding.meaning, Token.text_of_word ht, beq_iff_eq.mp hsame]
  · obtain ⟨t, after, rfl, ht, hafter⟩ := List.map_eq_cons_iff.mp hts
    obtain ⟨as, after, rfl, has, hafter⟩ := List.map_eq_cons_iff.mp hafter
    obtain ⟨name, rest, rfl, hname, hrest⟩ := List.map_eq_cons_iff.mp hafter
    have has := Token.isWord_of_word has
    unfold importedWord at ht
    split at ht
    · refine ⟨_, rest, .renamed (Token.kind_of_word ht) has (Token.kind_of_word hname), hrest, ?_⟩
      simp [Binding.meaning, Token.text_of_word ht, Token.text_of_word hname]
    · refine ⟨_, rest, .quoted (Token.kind_of_word ht) has (Token.kind_of_word hname), hrest, ?_⟩
      simp [Binding.meaning, Token.contents_of_word ht, Token.text_of_word hname]

/-- Behind the first word of a name in braces stands `as` or what ends the name. -/
theorem not_modified_item {m : String}
    (hts : ts.map Token.word = itemWords b ++ mark m :: more) :
    ¬ Modified FollowsInlineType ts := by
  rintro ⟨t, rest, rfl, _, hfollows⟩
  unfold itemWords at hts
  split at hts
  · obtain ⟨next, after, rfl, hnext, _⟩ := List.map_eq_cons_iff.mp (List.cons.inj hts).2
    have hkind : next.kind = .punctuation := Token.kind_of_word hnext
    cases hfollows with
    | name h => simp [hkind] at h
    | quoted h => simp [hkind] at h
  · obtain ⟨next, after, rfl, hnext, _⟩ := List.map_eq_cons_iff.mp (List.cons.inj hts).2
    have htext : next.text = utf8 "as" := Token.text_of_word hnext
    cases hfollows with
    | name _ h => exact h htext
    | quoted _ h => exact h htext

theorem followsInlineType_item (hts : ts.map Token.word = itemWords b ++ more)
    (himported : b.imported ≠ utf8 "as") : FollowsInlineType ts := by
  unfold itemWords at hts
  split at hts
  · next hsame =>
    obtain ⟨t, rest, rfl, ht, _⟩ := List.map_eq_cons_iff.mp hts
    refine .name (Token.kind_of_word ht) ?_
    rwa [Token.text_of_word ht, ← beq_iff_eq.mp hsame]
  · obtain ⟨t, after, rfl, ht, _⟩ := List.map_eq_cons_iff.mp hts
    unfold importedWord at ht
    split at ht
    · refine .name (Token.kind_of_word ht) ?_
      rwa [Token.text_of_word ht]
    · refine .quoted (Token.kind_of_word ht) ?_
      rw [Token.text_of_word ht]
      intro h
      exact absurd (List.cons.inj h).1 (by decide)

/-- A name in braces with a modifier of its own before `as`. -/
def IsTypeAs (typeImport : Bool) (b : Binding) : Prop :=
  typeImport = false ∧ b.kind = .named ∧ b.typeOnly = true ∧ b.imported = utf8 "as"

theorem exists_spec {m : String} (hb : b.kind = .named) (hread : ¬ IsTypeAs typeImport b)
    (hts : ts.map Token.word = namedWords typeImport b ++ mark m :: more) (line : Nat) :
    ∃ new rest, Spec line ts new rest ∧ rest.map Token.word = mark m :: more ∧
      new.meaning = (spoken typeImport b).meaning := by
  unfold namedWords at hts
  split at hts
  · next htype =>
    obtain ⟨t, after, rfl, ht, hafter⟩ := List.map_eq_cons_iff.mp hts
    obtain ⟨new, rest, hitem, hrest, hmeaning⟩ := exists_item hafter line true
    have himported : b.imported ≠ utf8 "as" := by
      intro himported
      simp only [Bool.and_eq_true, Bool.not_eq_true'] at htype
      exact hread ⟨htype.2, hb, htype.1, himported⟩
    have hfollows := followsInlineType_item hafter himported
    refine ⟨new, rest, .typed (Token.isWord_of_word ht) hfollows hitem, hrest, ?_⟩
    rw [hmeaning]
    simp [spoken, Binding.meaning, hb, htype]
  · next htype =>
    obtain ⟨new, rest, hitem, hrest, hmeaning⟩ := exists_item hts line false
    refine ⟨new, rest, .plain (not_modified_item hts) hitem, hrest, ?_⟩
    rw [hmeaning]
    simp [spoken, Binding.meaning, hb, Bool.eq_false_iff.mpr htype]

theorem listWords_cons (typeImport : Bool) (b c : Binding) (bs : List Binding) :
    listWords typeImport (b :: c :: bs) =
      namedWords typeImport b ++ mark "," :: listWords typeImport (c :: bs) := by
  simp [listWords, List.intercalate_cons_cons]

theorem exists_specs (hne : bs ≠ []) (hbs : ∀ b ∈ bs, b.kind = .named)
    (hread : ∀ b ∈ bs, ¬ IsTypeAs typeImport b)
    (hts : ts.map Token.word = listWords typeImport bs ++ mark "\x7d" :: more) :
    ∃ new rest, Specs line ts new rest ∧ rest.map Token.word = mark "\x7d" :: more ∧
      new.map Binding.meaning = bs.map fun b => (spoken typeImport b).meaning := by
  induction bs generalizing ts with
  | nil => exact absurd rfl hne
  | cons b bs ih =>
      obtain ⟨hb, hbs⟩ := List.forall_mem_cons.mp hbs
      obtain ⟨hbread, hread⟩ := List.forall_mem_cons.mp hread
      cases bs with
      | nil =>
          rw [listWords, List.map_singleton, List.intercalate_singleton] at hts
          obtain ⟨new, rest, hspec, hrest, hmeaning⟩ := exists_spec hb hbread hts line
          exact ⟨[new], rest, .one hspec, hrest, by simp [hmeaning]⟩
      | cons c bs =>
          rw [listWords_cons, List.append_assoc] at hts
          obtain ⟨new, rest, hspec, hrest, hmeaning⟩ := exists_spec hb hbread hts line
          obtain ⟨comma, after, rfl, hcomma, hafter⟩ := List.map_eq_cons_iff.mp hrest
          obtain ⟨news, rest, hspecs, hrest, hmeanings⟩ :=
            ih (List.cons_ne_nil c bs) hbs hread hafter
          refine ⟨new :: news, rest, .more hspec (Token.isPunctuator_of_word hcomma) hspecs,
            hrest, ?_⟩
          rw [List.map_cons, List.map_cons, hmeaning, hmeanings]

/-! ### Clauses -/

theorem IsWhole.spoken_meaning (hb : IsWhole typeImport b) :
    (spoken typeImport b).meaning = (b.name, utf8 "*", .wholeModule, false) := by
  simp [spoken, Binding.meaning, hb.kind, hb.imported, hb.typeOnly]

theorem IsDefault.spoken_meaning (hb : IsDefault typeImport b) :
    (spoken typeImport b).meaning = (b.name, utf8 "default", .defaultExport, false) := by
  simp [spoken, Binding.meaning, hb.kind, hb.imported, hb.typeOnly]

theorem exists_exports (hbs : IsLooseExports typeImport bs) (hread : ∀ b ∈ bs, ¬ IsTypeAs typeImport b)
    (hts : ts.map Token.word = exportsWords typeImport bs ++ more) (line : Nat) :
    ∃ new rest, Exports line ts new rest ∧ rest.map Token.word = more ∧
      new.map Binding.meaning = bs.map fun b => (spoken typeImport b).meaning := by
  cases hbs with
  | @whole b hb =>
      rw [exportsWords_whole hb] at hts
      obtain ⟨star, after, rfl, hstar, hafter⟩ := List.map_eq_cons_iff.mp hts
      obtain ⟨as, after, rfl, has, hafter⟩ := List.map_eq_cons_iff.mp hafter
      obtain ⟨name, rest, rfl, hname, hrest⟩ := List.map_eq_cons_iff.mp hafter
      refine ⟨_, rest, .wholeModule (Token.isPunctuator_of_word hstar) (Token.isWord_of_word has)
        (Token.kind_of_word hname), hrest, ?_⟩
      rw [List.map_singleton, List.map_singleton, hb.spoken_meaning]
      simp [Binding.meaning, Token.text_of_word hname]
  | named hne hbs =>
      rw [exportsWords_named hbs, List.append_assoc] at hts
      obtain ⟨brace, after, rfl, hbrace, hafter⟩ := List.map_eq_cons_iff.mp hts
      obtain ⟨new, rest, hspecs, hrest, hmeaning⟩ :=
        exists_specs hne (fun b hb => (hbs b hb).kind) hread hafter
      obtain ⟨close, rest, rfl, hclose, hrest⟩ := List.map_eq_cons_iff.mp hrest
      have hclosing : Closing (close :: rest) rest := .brace (Token.isPunctuator_of_word hclose)
      exact ⟨new, rest, .named (.specs (Token.isPunctuator_of_word hbrace) hspecs hclosing),
        hrest, hmeaning⟩

theorem exists_clause (hbs : IsLooseClause typeImport bs) (hread : ∀ b ∈ bs, ¬ IsTypeAs typeImport b)
    (hts : ts.map Token.word = clauseWords typeImport bs ++ more) (line : Nat) :
    ∃ new rest, Clause line ts new rest ∧ rest.map Token.word = more ∧
      new.map Binding.meaning = bs.map fun b => (spoken typeImport b).meaning := by
  cases hbs with
  | @name b hb =>
      rw [clauseWords_name hb] at hts
      obtain ⟨t, rest, rfl, ht, hrest⟩ := List.map_eq_cons_iff.mp hts
      refine ⟨_, rest, .name (Token.kind_of_word ht), hrest, ?_⟩
      rw [List.map_singleton, List.map_singleton, hb.spoken_meaning]
      simp [Binding.meaning, Token.text_of_word ht]
  | @both b bs hb hbs =>
      rw [clauseWords_both hb hbs] at hts
      obtain ⟨t, after, rfl, ht, hafter⟩ := List.map_eq_cons_iff.mp hts
      obtain ⟨comma, after, rfl, hcomma, hafter⟩ := List.map_eq_cons_iff.mp hafter
      obtain ⟨new, rest, hexports, hrest, hmeaning⟩ :=
        exists_exports hbs (List.forall_mem_cons.mp hread).2 hafter line
      refine ⟨_, rest, .both (Token.kind_of_word ht) (Token.isPunctuator_of_word hcomma) hexports,
        hrest, ?_⟩
      rw [List.map_cons, List.map_cons, hmeaning, hb.spoken_meaning]
      simp [Binding.meaning, Token.text_of_word ht]
  | exports hbs =>
      rw [clauseWords_exports hbs] at hts
      obtain ⟨new, rest, hexports, hrest, hmeaning⟩ := exists_exports hbs hread hts line
      exact ⟨new, rest, .exports hexports, hrest, hmeaning⟩

/-! ### The modifier of a declaration -/

/-- A default name `from` before other names. -/
def IsFromList : List Binding → Prop
  | b :: _ :: _ => b.kind = .defaultExport ∧ b.name = utf8 "from"
  | _ => False

/-- Behind `type`, a clause makes it a modifier. A default name `from` does so if the module's own
`from` follows. -/
theorem followsType_clause (hbs : IsLooseClause true bs) (hread : ¬ IsFromList bs)
    (hts : ts.map Token.word = clauseWords true bs ++ keyword "from" :: more) :
    FollowsType ts := by
  cases hbs with
  | @name b hb =>
      rw [clauseWords_name hb] at hts
      obtain ⟨t, after, rfl, ht, hafter⟩ := List.map_eq_cons_iff.mp hts
      obtain ⟨word, after, rfl, hword, _⟩ := List.map_eq_cons_iff.mp hafter
      -- The second `from` is what tells the default name from the module's own.
      by_cases hname : b.name = utf8 "from"
      · rw [hname] at ht
        exact .fromTwice (Token.isWord_of_word ht) (Token.isWord_of_word hword)
      · exact .name (Token.kind_of_word ht) (by rwa [Token.text_of_word ht])
  | @both b bs hb hbs =>
      rw [clauseWords_both hb hbs] at hts
      obtain ⟨t, after, rfl, ht, _⟩ := List.map_eq_cons_iff.mp hts
      refine .name (Token.kind_of_word ht) ?_
      rw [Token.text_of_word ht]
      obtain ⟨c, bs, rfl⟩ := List.exists_cons_of_ne_nil hbs.ne_nil
      exact fun hname => hread ⟨hb.kind, hname⟩
  | exports hbs =>
      obtain ⟨m, ws, hwords, hm⟩ := exists_mark_exports hbs
      rw [clauseWords_exports hbs, hwords] at hts
      obtain ⟨t, after, rfl, ht, _⟩ := List.map_eq_cons_iff.mp hts
      rcases hm with rfl | rfl
      · exact .star (Token.isPunctuator_of_word ht)
      · exact .brace (Token.isPunctuator_of_word ht)

/-- A default name `type` is no modifier: a comma follows, or `from` and the module. -/
theorem not_modified_clause {source : Bytes} (hbs : IsLooseClause typeImport bs)
    (hts : ts.map Token.word =
      clauseWords typeImport bs ++ keyword "from" :: (.string, source) :: more) :
    ¬ Modified FollowsType ts := by
  rintro ⟨t, rest, rfl, ht, hfollows⟩
  have hidentifier := (Token.isWord_iff.mp ht).1
  cases hbs with
  | name hb =>
      rw [clauseWords_name hb] at hts
      obtain ⟨word, after, rfl, hword, hafter⟩ := List.map_eq_cons_iff.mp (List.cons.inj hts).2
      obtain ⟨s, after, rfl, hs, _⟩ := List.map_eq_cons_iff.mp hafter
      have hkind : word.kind = .identifier := Token.kind_of_word hword
      cases hfollows with
      | brace h => simp [Token.isPunctuator, hkind] at h
      | star h => simp [Token.isPunctuator, hkind] at h
      | name _ h => exact h (Token.text_of_word hword)
      | fromTwice _ h => simp [Token.isWord, Token.kind_of_word hs] at h
  | both hb hbs =>
      rw [clauseWords_both hb hbs] at hts
      obtain ⟨comma, after, rfl, hcomma, _⟩ := List.map_eq_cons_iff.mp (List.cons.inj hts).2
      have hkind : comma.kind = .punctuation := Token.kind_of_word hcomma
      have hmark := Token.isPunctuator_of_word hcomma
      cases hfollows with
      | brace h => simp [Token.isPunctuator_ne hmark (n := "\x7b") (by decide)] at h
      | star h => simp [Token.isPunctuator_ne hmark (n := "*") (by decide)] at h
      | name h => simp [hkind] at h
      | fromTwice h => simp [Token.isWord, hkind] at h
  | exports hbs =>
      obtain ⟨m, ws, hwords, _⟩ := exists_mark_exports hbs
      rw [clauseWords_exports hbs, hwords] at hts
      simp [Token.kind_of_word (List.cons.inj hts).1] at hidentifier

/-! ### Declarations -/

/-- The clauses that are not read back: with a name in braces that has its own modifier and imports
`as`, or, in a type import, with a default name `from` before other names. -/
def Unreadable (typeImport : Bool) (bs : List Binding) : Prop :=
  (∃ b ∈ bs, IsTypeAs typeImport b) ∨ (typeImport = true ∧ IsFromList bs)

theorem isTypeModifier_body {source : Bytes} (hbs : IsLooseClause typeImport bs)
    (hread : ¬ (typeImport = true ∧ IsFromList bs))
    (hts : ts.map Token.word = bodyWords typeImport bs ((.string, source) :: more)) :
    isTypeModifier ts = typeImport := by
  cases typeImport with
  | true =>
      obtain ⟨t, rest, rfl, ht, hrest⟩ := List.map_eq_cons_iff.mp hts
      rw [isTypeModifier_iff]
      refine ⟨t, rest, rfl, Token.isWord_of_word ht, ?_⟩
      exact followsType_clause hbs (fun hfrom => hread ⟨rfl, hfrom⟩) hrest
  | false =>
      rw [← Bool.not_eq_true, isTypeModifier_iff]
      exact not_modified_clause hbs hts

/-- A word, a star or a brace behind the keyword makes it neither a call nor a property, nor is it a
string. -/
theorem exists_head {w : Word} (hts : ts.map Token.word = w :: more)
    (hw : w.1 = .identifier ∨ w = mark "*" ∨ w = mark "\x7b") :
    ∃ t rest, ts = t :: rest ∧ t.kind ≠ .string ∧ t.isPunctuator "(" = false ∧
      t.isPunctuator "." = false := by
  obtain ⟨t, rest, rfl, ht, _⟩ := List.map_eq_cons_iff.mp hts
  refine ⟨t, rest, rfl, ?_⟩
  have hmark : ∀ {m : String}, w = mark m → utf8 m ≠ utf8 "(" → utf8 m ≠ utf8 "." →
      t.kind ≠ .string ∧ t.isPunctuator "(" = false ∧ t.isPunctuator "." = false := by
    rintro m rfl hcall hproperty
    have hpunctuator := Token.isPunctuator_of_word ht
    exact ⟨by simp [Token.kind_of_word ht], Token.isPunctuator_ne hpunctuator hcall,
      Token.isPunctuator_ne hpunctuator hproperty⟩
  rcases hw with hkind | hstar | hbrace
  · have hkind : t.kind = .identifier := (congrArg Prod.fst ht).trans hkind
    simp [Token.isPunctuator, hkind]
  · exact hmark hstar (by decide) (by decide)
  · exact hmark hbrace (by decide) (by decide)

theorem exists_head_body (hbs : IsLooseClause typeImport bs)
    (hts : ts.map Token.word = bodyWords typeImport bs more) :
    ∃ t rest, ts = t :: rest ∧ t.kind ≠ .string ∧ t.isPunctuator "(" = false ∧
      t.isPunctuator "." = false := by
  cases typeImport with
  | true => exact exists_head hts (.inl rfl)
  | false =>
      cases hbs with
      | name hb =>
          rw [bodyWords, clauseWords_name hb] at hts
          exact exists_head hts (.inl rfl)
      | both hb hbs =>
          rw [bodyWords, clauseWords_both hb hbs] at hts
          exact exists_head hts (.inl rfl)
      | exports hbs =>
          obtain ⟨m, ws, hwords, hm⟩ := exists_mark_exports hbs
          rw [bodyWords, clauseWords_exports hbs, hwords] at hts
          refine exists_head hts (.inr ?_)
          rcases hm with rfl | rfl
          · exact .inl rfl
          · exact .inr rfl

theorem typeOnly_of_mem (hbs : IsLooseClause true bs) : ∀ b ∈ bs, b.typeOnly = true := by
  have hexports : ∀ {bs}, IsLooseExports true bs → ∀ b ∈ bs, b.typeOnly = true := by
    intro bs hbs
    cases hbs with
    | whole hb => simpa using hb.typeOnly
    | named _ hbs => exact fun b hb => (hbs b hb).typeOnly rfl
  cases hbs with
  | name hb => simpa using hb.typeOnly
  | both hb hbs => exact List.forall_mem_cons.mpr ⟨hb.typeOnly, hexports hbs⟩
  | exports hbs => exact hexports hbs

/-- The modifier of the declaration gives its names back what the clause leaves out. -/
theorem meaning_markTypeOnly {new : List Binding} (hbs : IsLooseClause typeImport bs)
    (hnew : new.map Binding.meaning = bs.map fun b => (spoken typeImport b).meaning) :
    (markTypeOnly typeImport new).map Binding.meaning = bs.map Binding.meaning := by
  have hspoken : ∀ b ∈ bs, (typeImport || (spoken typeImport b).typeOnly) = b.typeOnly := by
    intro b hb
    cases typeImport with
    | true => exact (typeOnly_of_mem hbs b hb).symm
    | false => simp [spoken]
  calc (markTypeOnly typeImport new).map Binding.meaning
      = (new.map Binding.meaning).map fun m =>
          (m.1, m.2.1, m.2.2.1, typeImport || m.2.2.2) := by
        rw [markTypeOnly_eq, List.map_map, List.map_map]
        rfl
    _ = (bs.map fun b => (spoken typeImport b).meaning).map fun m =>
          (m.1, m.2.1, m.2.2.1, typeImport || m.2.2.2) := by rw [hnew]
    _ = bs.map Binding.meaning := by
        rw [List.map_map]
        refine List.map_congr_left fun b hb => ?_
        simp only [Function.comp, Binding.meaning, hspoken b hb]
        rfl

/-- A clause that can be read back is, whatever its module and what stands behind that. -/
theorem readContents_body {source : Bytes} (hbs : IsLooseClause typeImport bs)
    (hread : ¬ Unreadable typeImport bs)
    (hts : ts.map Token.word = bodyWords typeImport bs ((.string, source) :: more))
    (line : Nat) :
    ∃ (new : List Binding) (s : Token) (after : List Token),
      s.word = (.string, source) ∧ after.map Token.word = more ∧
      readContents line ts = (⟨s.contents, typeImport, new⟩, dropEnding after) ∧
      new.map Binding.meaning = bs.map Binding.meaning := by
  simp only [Unreadable, not_or, not_exists, not_and] at hread
  have htype := isTypeModifier_body hbs (fun h => hread.2 h.1 h.2) hts
  have hclause : (if typeImport then ts.tail else ts).map Token.word =
      clauseWords typeImport bs ++ keyword "from" :: (.string, source) :: more := by
    cases typeImport with
    | true => rw [if_pos rfl, List.map_tail, hts]; rfl
    | false => rw [if_neg Bool.false_ne_true, hts]; rfl
  obtain ⟨new, rest, hnew, hrest, hmeaning⟩ := exists_clause hbs hread.1 hclause line
  obtain ⟨word, rest, rfl, hword, hrest⟩ := List.map_eq_cons_iff.mp hrest
  obtain ⟨s, after, rfl, hs, hafter⟩ := List.map_eq_cons_iff.mp hrest
  obtain ⟨t, behind, hhead, hstring, _⟩ := exists_head_body hbs hts
  refine ⟨_, s, after, hs, hafter, ?_, meaning_markTypeOnly hbs hmeaning⟩
  rw [readContents_eq (by simp [hhead, hstring]), htype, readBody,
    readClause_of_clause hnew (Token.kind_of_word hword)]
  simp [hnew.not_assigned, Token.isWord_of_word hword, Token.kind_of_word hs]

/-- A declaration that ends with its semicolon. -/
theorem readContents_contents {quote : UInt8} {text : Bytes} (hbs : IsLooseClause typeImport bs)
    (hread : ¬ Unreadable typeImport bs)
    (hts : ts.map Token.word = contentsWords typeImport bs (quote :: text ++ [quote]))
    (line : Nat) :
    ∃ new, readContents line ts = (⟨text, typeImport, new⟩, []) ∧
      new.map Binding.meaning = bs.map Binding.meaning := by
  obtain ⟨new, s, after, hs, hafter, hcontents, hmeaning⟩ := readContents_body hbs hread hts line
  obtain ⟨semicolon, rest, rfl, hsemicolon, hrest⟩ := List.map_eq_cons_iff.mp hafter
  obtain rfl := List.map_eq_nil_iff.mp hrest
  refine ⟨new, ?_, hmeaning⟩
  rw [hcontents, Token.contents_of_word hs]
  simp [dropEnding, Token.isPunctuator_of_word hsemicolon]

/-! ### Clauses that are not read back -/

/-- A list of names starts with a name that a mark follows. -/
theorem exists_first_spec {new : List Binding} {left rest : List Token}
    (hspecs : Specs line ts new left) (hclosing : Closing left rest) :
    ∃ b next after, Spec line ts b (next :: after) ∧ next.kind = .punctuation := by
  cases hspecs with
  | one hspec =>
      obtain ⟨next, after, rfl, hkind⟩ := hclosing.exists_head
      exact ⟨_, next, after, hspec, hkind⟩
  | more hspec hcomma _ => exact ⟨_, _, _, hspec, (Token.isPunctuator_iff.mp hcomma).1⟩

theorem namedWords_typeAs (hb : IsTypeAs typeImport b) :
    namedWords typeImport b = [keyword "type", keyword "as"] ∨
      namedWords typeImport b =
        [keyword "type", keyword "as", keyword "as", (.identifier, b.name)] := by
  obtain ⟨rfl, _, htype, himported⟩ := hb
  have hplain : isPlainName (utf8 "as") = true := by decide +kernel
  by_cases hname : utf8 "as" = b.name
  · simp [namedWords, itemWords, htype, himported, ← hname, keyword]
  · simp [namedWords, itemWords, importedWord, htype, himported, hname, hplain, keyword]

/-- Behind `type`, the imported name `as` renames `type`: to nothing if it is the local name too,
else to `as`, and then the local name is left over. -/
theorem not_spec_typeAs {m : String} {new : Binding} {next : Token} {after : List Token}
    (hb : IsTypeAs typeImport b)
    (hts : ts.map Token.word = namedWords typeImport b ++ mark m :: more)
    (hnext : next.kind = .punctuation) : ¬ Spec line ts new (next :: after) := by
  obtain ⟨ws, hwords, hws⟩ : ∃ ws, ts.map Token.word = keyword "type" :: keyword "as" :: ws ∧
      (ws = mark m :: more ∨ ws = keyword "as" :: (.identifier, b.name) :: mark m :: more) := by
    rcases namedWords_typeAs hb with hnamed | hnamed
    · exact ⟨_, by rw [hts, hnamed]; rfl, .inl rfl⟩
    · exact ⟨_, by rw [hts, hnamed]; rfl, .inr rfl⟩
  obtain ⟨t, rest, rfl, ht, hrest⟩ := List.map_eq_cons_iff.mp hwords
  obtain ⟨as, rest, rfl, has, hrest⟩ := List.map_eq_cons_iff.mp hrest
  intro hspec
  cases hspec with
  | typed _ hfollows _ =>
      cases hfollows with
      | name _ h => exact h (Token.text_of_word has)
      | quoted _ h => exact h (Token.text_of_word has)
  | plain _ hitem =>
      cases hitem with
      | name _ => simp [Token.kind_of_word has] at hnext
      | renamed _ _ hname =>
          rcases hws with rfl | rfl
          · simp [Token.kind_of_word (List.cons.inj hrest).1] at hname
          · simp [Token.kind_of_word (List.cons.inj (List.cons.inj hrest).2).1] at hnext
      | quoted h _ _ => simp [Token.kind_of_word ht] at h

theorem exists_listWords (typeImport : Bool) (b : Binding) (bs : List Binding) (more : List Word) :
    ∃ m ws, listWords typeImport (b :: bs) ++ mark "\x7d" :: more =
      namedWords typeImport b ++ mark m :: ws := by
  cases bs with
  | nil => exact ⟨_, _, by rw [listWords, List.map_singleton, List.intercalate_singleton]⟩
  | cons c bs => exact ⟨_, _, by rw [listWords_cons, List.append_assoc, List.cons_append]⟩

/-- Names read up to the brace would start with one that a mark follows. -/
theorem readNames_head_typeAs {m : String} (hb : IsTypeAs typeImport b)
    (hts : ts.map Token.word = namedWords typeImport b ++ mark m :: more) (line : Nat)
    (read : List Binding) : (readNames line ts read).1 = none := by
  rcases hresult : readNames line ts read with ⟨_ | new, rest⟩
  · rfl
  · obtain ⟨_, _, ⟨_, t, ht, rfl⟩ | ⟨left, hspecs, hclosing⟩⟩ := specs_of_readNames hresult
    · obtain ⟨rfl, _, htype, _⟩ := hb
      simp only [namedWords, htype, Bool.not_false, Bool.and_self, if_true] at hts
      have hkind : t.kind = .identifier := Token.kind_of_word (List.cons.inj hts).1
      simp [Token.isPunctuator, hkind] at ht
    · obtain ⟨_, next, after, hspec, hnext⟩ := exists_first_spec hspecs hclosing
      exact absurd hspec (not_spec_typeAs hb hts hnext)

theorem readNames_typeAs (hbs : ∀ b ∈ bs, b.kind = .named)
    (hread : ∃ b ∈ bs, IsTypeAs typeImport b)
    (hts : ts.map Token.word = listWords typeImport bs ++ mark "\x7d" :: more) (line : Nat)
    (read : List Binding) : (readNames line ts read).1 = none := by
  induction bs generalizing ts read with
  | nil => simp at hread
  | cons b bs ih =>
      obtain ⟨hb, hbs⟩ := List.forall_mem_cons.mp hbs
      by_cases htype : IsTypeAs typeImport b
      · obtain ⟨m, ws, hwords⟩ := exists_listWords typeImport b bs more
        exact readNames_head_typeAs htype (hts.trans hwords) line read
      · have hread : ∃ b ∈ bs, IsTypeAs typeImport b := by simpa [htype] using hread
        cases bs with
        | nil => simp at hread
        | cons c bs =>
            rw [listWords_cons, List.append_assoc] at hts
            obtain ⟨new, rest, hspec, hrest, _⟩ := exists_spec hb htype hts line
            obtain ⟨comma, after, rfl, hcomma, hafter⟩ := List.map_eq_cons_iff.mp hrest
            rw [readNames_of_spec hspec (Token.kind_of_word hcomma),
              if_pos (Token.isPunctuator_of_word hcomma)]
            exact ih hbs hread hafter (new :: read)

theorem readExports_typeAs (hbs : IsLooseExports typeImport bs)
    (hread : ∃ b ∈ bs, IsTypeAs typeImport b)
    (hts : ts.map Token.word = exportsWords typeImport bs ++ more) (line : Nat)
    (read : List Binding) : (readExports line read ts).1 = none := by
  cases hbs with
  | whole hb =>
      obtain ⟨b, hmem, _, hkind, _⟩ := hread
      simp [List.mem_singleton.mp hmem, hb.kind] at hkind
  | named _ hbs =>
      rw [exportsWords_named hbs, List.append_assoc] at hts
      obtain ⟨brace, after, rfl, hbrace, hafter⟩ := List.map_eq_cons_iff.mp hts
      rw [readExports, if_pos (Token.isPunctuator_of_word hbrace)]
      exact readNames_typeAs (fun b hb => (hbs b hb).kind) hread hafter line read.reverse

theorem readClause_typeAs (hbs : IsLooseClause typeImport bs)
    (hread : ∃ b ∈ bs, IsTypeAs typeImport b)
    (hts : ts.map Token.word = clauseWords typeImport bs ++ more) (line : Nat) :
    (readClause line ts).1 = none := by
  have hdefault : ∀ {b}, IsDefault typeImport b → ¬ IsTypeAs typeImport b := by
    rintro b hb ⟨_, hkind, _⟩
    simp [hb.kind] at hkind
  cases hbs with
  | name hb => simp [hdefault hb] at hread
  | both hb hbs =>
      rw [clauseWords_both hb hbs] at hts
      obtain ⟨t, after, rfl, ht, hafter⟩ := List.map_eq_cons_iff.mp hts
      obtain ⟨comma, after, rfl, hcomma, hafter⟩ := List.map_eq_cons_iff.mp hafter
      have hmark := Token.isPunctuator_of_word hcomma
      have hequals : comma.isPunctuator "=" = false := Token.isPunctuator_ne hmark (by decide)
      have hexports := readExports_typeAs hbs (by simpa [hdefault hb] using hread) hafter line
      simp [readClause, Token.kind_of_word ht, hequals, hmark, hexports]
  | exports hbs =>
      have hexports := readExports_typeAs hbs hread (by rwa [clauseWords_exports hbs] at hts) line
      obtain ⟨m, ws, hwords, _⟩ := exists_mark_exports hbs
      rw [clauseWords_exports hbs, hwords] at hts
      obtain ⟨t, after, rfl, ht, _⟩ := List.map_eq_cons_iff.mp hts
      rw [readClause, if_neg (by simp [Token.kind_of_word ht]), hexports]

/-- Before a comma, `from` does not name the module, nor is it the default name: that is `type`. -/
theorem readContents_fromList (hbs : IsLooseClause true bs) (hfrom : IsFromList bs)
    (hts : ts.map Token.word = bodyWords true bs more) (line : Nat) :
    (readContents line ts).1.bindings = [] := by
  cases hbs with
  | name => cases hfrom
  | @both b bs hb hbs =>
      obtain ⟨c, cs, rfl⟩ := List.exists_cons_of_ne_nil hbs.ne_nil
      rw [bodyWords, clauseWords_both hb hbs, hfrom.2] at hts
      obtain ⟨t, after, rfl, ht, hafter⟩ := List.map_eq_cons_iff.mp hts
      obtain ⟨word, after, rfl, hword, hafter⟩ := List.map_eq_cons_iff.mp hafter
      obtain ⟨comma, after, rfl, hcomma, hafter⟩ := List.map_eq_cons_iff.mp hafter
      have hword := Token.isWord_of_word hword
      have hidentifier := (Token.isWord_iff.mp hword).1
      have hkind : comma.kind = .punctuation := Token.kind_of_word hcomma
      have hplain : isTypeModifier (t :: word :: comma :: after) = false := by
        simp [isTypeModifier, hword, hidentifier, Token.isPunctuator, Token.isWord_eq_false, hkind]
      rw [readContents_eq (by simp [Token.kind_of_word ht]), hplain]
      simp [readBody, readClause, Token.kind_of_word ht, hword, hidentifier, hkind,
        Token.isPunctuator_eq_false, binding]
  | exports hbs =>
      cases hbs with
      | whole => cases hfrom
      | named _ hbs =>
          rcases bs with _ | ⟨b, _ | ⟨c, cs⟩⟩
          · cases hfrom
          · cases hfrom
          · exact absurd hfrom.1 (by simp [(hbs b List.mem_cons_self).kind])

theorem readContents_unreadable {source : Bytes} (hbs : IsLooseClause typeImport bs)
    (hread : Unreadable typeImport bs)
    (hts : ts.map Token.word = bodyWords typeImport bs ((.string, source) :: more)) (line : Nat) :
    (readContents line ts).1.bindings = [] := by
  rcases hread with hread | ⟨rfl, hfrom⟩
  · obtain ⟨b, hb, rfl, himported⟩ := hread
    obtain ⟨t, rest, hhead, hstring, _⟩ := exists_head_body hbs hts
    have htype := isTypeModifier_body hbs (by simp) hts
    have hclause := readClause_typeAs hbs ⟨b, hb, rfl, himported⟩ hts line
    rw [readContents_eq (by simp [hhead, hstring]), htype]
    rcases hresult : readClause line ts with ⟨_ | new, left⟩
    · simp [readBody, hresult]
    · simp [hresult] at hclause
  · exact readContents_fromList hbs hfrom hts line

/-! ### Reading back -/

/-- Without a keyword there is no declaration. -/
theorem readAll_of_forall (total : Nat) (before : Option Token) (read : List Declaration)
    (h : ∀ t ∈ ts, t.isWord "import" = false) : readAll total before ts read = read.reverse := by
  induction ts generalizing before with
  | nil => rw [readAll]
  | cons t ts ih =>
      obtain ⟨ht, hts⟩ := List.forall_mem_cons.mp h
      rw [readAll, if_neg (by simp [isImport, isStatementWord, ht])]
      exact ih (some t) hts

/-- One declaration that covers all tokens but some without a keyword. -/
theorem importsOf_keyword {t : Token} {c : Contents} {left : List Token}
    (himport : isImport none t ts.head? = true)
    (hcontents : readContents t.line ts = (c, left))
    (hleft : ∀ u ∈ left, u.isWord "import" = false) :
    importsOf (t :: ts) =
      [⟨⟨0, (t :: ts).length - left.length⟩, t.line, c.source, c.typeOnly, c.bindings⟩] := by
  rw [importsOf, readAll, if_pos himport, hcontents, readAll_of_forall _ _ _ hleft]
  simp

/-- The text of a declaration, in either dialect, is read as that declaration exactly if its clause
is not one of those that cannot be read back. -/
theorem importsOf_declarationText (dialect : Dialect) (typeImport : Bool) (bs : List Binding)
    (hbs : IsClause typeImport bs) (quote : UInt8) (text : Bytes) (hquote : Bytes.IsQuote quote)
    (htext : ∀ b ∈ text, b ≠ Bytes.newline ∧ b ≠ Bytes.backslash ∧ b ≠ quote) :
    let tokens :=
      tokenize dialect (declarationText typeImport bs (quote :: text ++ [quote] ++ utf8 ";"))
    (∃ d, importsOf tokens = [d] ∧ d.start = 0 ∧ d.stop = tokens.length ∧
        d.typeOnly = typeImport ∧ d.source = text ∧
        d.bindings.map Binding.meaning = bs.map Binding.meaning) ↔
      ¬ Unreadable typeImport bs := by
  intro tokens
  have hwords : tokens.map Token.word =
      keyword "import" :: contentsWords typeImport bs (quote :: text ++ [quote]) :=
    word_tokenize (spelled_declaration hbs hquote (unquoted_of_forall htext)) rfl dialect
  obtain ⟨t, ts, htokens, ht, hts⟩ := List.map_eq_cons_iff.mp hwords
  rw [htokens]
  constructor
  · rintro ⟨d, hd, hstart, _, _, _, hbindings⟩ hread
    have hmem : d ∈ importsOf (t :: ts) := by simp [hd]
    obtain ⟨_, _, _, hdrop, hcontents⟩ := exists_split_of_mem_importsOf hmem
    rw [hstart, List.drop_zero] at hdrop
    cases hdrop
    have hnone : d.bindings = [] := by
      simpa only [hcontents] using readContents_unreadable hbs.loose hread hts t.line
    rw [hnone, List.map_nil, eq_comm, List.map_eq_nil_iff] at hbindings
    exact hbs.loose.ne_nil hbindings
  · intro hread
    obtain ⟨new, hcontents, hmeaning⟩ := readContents_contents hbs.loose hread hts t.line
    obtain ⟨next, rest, hhead, _, hcall, hproperty⟩ := exists_head_body hbs.loose hts
    have himport : isImport none t ts.head? = true := by
      simp [isImport, isStatementWord, Token.isWord_of_word ht, hhead, hcall, hproperty]
    have himports := importsOf_keyword himport hcontents (by simp)
    exact ⟨_, himports, rfl, rfl, rfl, rfl, hmeaning⟩

/-- The names of `type, { type as as, type from, "é" as x }`, where a mark stands behind the letter
of the last export. -/
def sampleClause : List Binding :=
  [⟨utf8 "type", utf8 "default", .defaultExport, false, 0, 0, 0⟩,
   ⟨utf8 "as", utf8 "type", .named, false, 0, 0, 0⟩,
   ⟨utf8 "from", utf8 "from", .named, true, 0, 0, 0⟩,
   ⟨utf8 "x", utf8 "e\u0301", .named, false, 0, 0, 0⟩]

theorem sampleClause_isClause : IsClause false sampleClause := by
  have hx : IsName (utf8 "x") := ⟨0x78, [], rfl, by decide, by decide⟩
  have hmarked : IsName (utf8 "e\u0301") := ⟨0x65, [0x301], rfl, by decide, by decide +kernel⟩
  refine .both ⟨rfl, isName_type, rfl, rfl⟩ (.named (List.cons_ne_nil _ _) ?_)
  simp only [List.mem_cons, List.not_mem_nil, or_false]
  rintro b (rfl | rfl | rfl)
  · exact ⟨rfl, isName_as, isName_type, by simp⟩
  · exact ⟨rfl, isName_from, isName_from, by simp⟩
  · exact ⟨rfl, hx, hmarked, by simp⟩

theorem sampleClause_readable : ¬ Unreadable false sampleClause := by
  rintro (⟨b, hb, _, _, htype, himported⟩ | ⟨h, _⟩)
  · simp only [sampleClause, List.mem_cons, List.not_mem_nil, or_false] at hb
    rcases hb with rfl | rfl | rfl | rfl
    · cases htype
    · cases htype
    · exact absurd himported (by decide)
    · cases htype
  · cases h

theorem importsOf_declarationText_sample :
    IsClause false sampleClause ∧ ¬ Unreadable false sampleClause ∧
      ∃ d, importsOf (tokenize .markup (declarationText false sampleClause (utf8 "'m';"))) = [d] ∧
        d.start = 0 ∧
        d.stop =
          (tokenize .markup (declarationText false sampleClause (utf8 "'m';"))).length ∧
        d.typeOnly = false ∧ d.source = utf8 "m" ∧
        d.bindings.map Binding.meaning = sampleClause.map Binding.meaning := by
  have htext : ∀ b ∈ utf8 "m", b ≠ Bytes.newline ∧ b ≠ Bytes.backslash ∧ b ≠ Bytes.singleQuote := by
    intro b hb
    rw [List.mem_singleton.mp (show b ∈ ['m'.toUInt8] from hb)]
    decide
  exact ⟨sampleClause_isClause, sampleClause_readable,
    (importsOf_declarationText .markup false sampleClause sampleClause_isClause
      Bytes.singleQuote (utf8 "m") (.inr rfl) htext).mpr sampleClause_readable⟩

end Edit

end UnusedImports
