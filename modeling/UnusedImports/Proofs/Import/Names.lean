import UnusedImports.Proofs.Import.Derivation
import Mathlib.Data.List.Forall2

/-! A declaration that introduces names reads them off identifiers, in order. Only a few kinds of
token come last. -/

namespace UnusedImports

/-- A binding has its local name from an identifier and is placed there. -/
structure Binding.NamedBy (b : Binding) (t : Token) : Prop where
  kind : t.kind = .identifier
  name : b.name = t.text
  line : b.nameLine = t.line
  column : b.nameColumn = t.column

namespace Import

variable {line : Nat} {typeOnly : Bool} {ts mid left rest : List Token} {b : Binding}
  {bs cs : List Binding} {c : Contents} {t : Token}

/-! ### Names -/

/-- The tokens in front of some others hold the names of bindings, in order. -/
def Introduces (ts : List Token) (bs : List Binding) (rest : List Token) : Prop :=
  ∃ read, ts = read ++ rest ∧ List.SublistForall₂ Binding.NamedBy bs read

namespace Introduces

theorem skip (h : Introduces ts bs rest) (t : Token) : Introduces (t :: ts) bs rest := by
  obtain ⟨read, rfl, hread⟩ := h
  exact ⟨t :: read, rfl, hread.cons_right⟩

theorem cons (hb : b.NamedBy t) (h : Introduces ts bs rest) :
    Introduces (t :: ts) (b :: bs) rest := by
  obtain ⟨read, rfl, hread⟩ := h
  exact ⟨t :: read, rfl, hread.cons hb⟩

theorem nil (rest : List Token) : Introduces rest [] rest := ⟨[], rfl, .nil⟩

theorem trans (h : Introduces ts bs mid) (hmid : Introduces mid cs rest) :
    Introduces ts (bs ++ cs) rest := by
  obtain ⟨first, rfl, hfirst⟩ := h
  obtain ⟨second, rfl, hsecond⟩ := hmid
  obtain ⟨names, hnames, hsub⟩ := List.sublistForall₂_iff.mp hfirst
  obtain ⟨more, hmore, hsubmore⟩ := List.sublistForall₂_iff.mp hsecond
  refine ⟨first ++ second, by simp, List.sublistForall₂_iff.mpr ⟨names ++ more, ?_, ?_⟩⟩
  · exact List.rel_append hnames hmore
  · exact hsub.append hsubmore

end Introduces

theorem Item.introduces (h : Item line typeOnly ts b rest) : Introduces ts [b] rest := by
  cases h with
  | name hkind => exact .cons ⟨hkind, rfl, rfl, rfl⟩ (.nil _)
  | renamed _ _ hname => exact ((Introduces.nil _).cons ⟨hname, rfl, rfl, rfl⟩ |>.skip _).skip _
  | quoted _ _ hname => exact ((Introduces.nil _).cons ⟨hname, rfl, rfl, rfl⟩ |>.skip _).skip _

theorem Spec.introduces (h : Spec line ts b rest) : Introduces ts [b] rest := by
  cases h with
  | typed _ _ hitem => exact hitem.introduces.skip _
  | plain _ hitem => exact hitem.introduces

theorem Specs.introduces (h : Specs line ts bs rest) : Introduces ts bs rest := by
  induction h with
  | one hspec => exact hspec.introduces
  | more hspec _ _ ih => exact hspec.introduces.trans (ih.skip _)

theorem Named.introduces (h : Named line ts bs rest) : Introduces ts bs rest := by
  cases h with
  | nothing => exact ((Introduces.nil _).skip _).skip _
  | @specs _ _ _ left _ _ hspecs hclosing =>
      have hclose : Introduces left [] rest := by
        cases hclosing with
        | brace => exact (Introduces.nil _).skip _
        | comma => exact ((Introduces.nil _).skip _).skip _
      simpa using (hspecs.introduces.trans hclose).skip _

theorem Exports.introduces (h : Exports line ts bs rest) : Introduces ts bs rest := by
  cases h with
  | named hnamed => exact hnamed.introduces
  | wholeModule _ _ hname => exact ((Introduces.nil _).cons ⟨hname, rfl, rfl, rfl⟩ |>.skip _).skip _

theorem Clause.introduces (h : Clause line ts bs rest) : Introduces ts bs rest := by
  cases h with
  | name hkind => exact .cons ⟨hkind, rfl, rfl, rfl⟩ (.nil _)
  | both hkind _ hexports => exact .cons ⟨hkind, rfl, rfl, rfl⟩ (hexports.introduces.skip _)
  | exports hexports => exact hexports.introduces

/-! ### The last token -/

/-- What can come last: a word, a quoted literal, a mark that does not break a line, or any token
that ends the whole list. -/
inductive Final : Token → List Token → Prop where
  | word {t : Token} {rest : List Token} : t.kind = .identifier → Final t rest
  | quoted {t : Token} {rest : List Token} : t.kind = .string → Final t rest
  | mark {t : Token} {rest : List Token} (m : String) : t.isPunctuator m →
      Bytes.newline ∉ utf8 m → Final t rest
  | atEnd {t : Token} : Final t []

/-- The tokens in front of some others are some, with one that can come last. -/
def Ends (ts rest : List Token) : Prop := ∃ read last, ts = read ++ last :: rest ∧ Final last rest

theorem Final.ends (h : Final t rest) : Ends (t :: rest) rest := ⟨[], t, rfl, h⟩

theorem Ends.skip (h : Ends ts rest) (front : List Token) : Ends (front ++ ts) rest := by
  obtain ⟨read, last, rfl, hlast⟩ := h
  exact ⟨front ++ read, last, by simp, hlast⟩

/-- The tokens in front of some others are none, or end with one that can come last. -/
def MayEnd (ts rest : List Token) : Prop := ts = rest ∨ Ends ts rest

theorem Ends.trans (h : Ends ts mid) (hmid : MayEnd mid rest) : Ends ts rest := by
  obtain ⟨read, last, rfl, hlast⟩ := h
  rcases hmid with rfl | hends
  · exact ⟨read, last, rfl, hlast⟩
  · simpa using hends.skip (read ++ [last])

theorem MayEnd.trans (h : MayEnd ts mid) (hmid : MayEnd mid rest) : MayEnd ts rest := by
  rcases h with rfl | hends
  · exact hmid
  · exact .inr (hends.trans hmid)

theorem MayEnd.suffix (h : MayEnd ts rest) : ∃ read, ts = read ++ rest := by
  rcases h with rfl | ⟨read, last, rfl, _⟩
  · exact ⟨[], rfl⟩
  · exact ⟨read ++ [last], by simp⟩

theorem Optional.mayEnd {mark : String} (h : Optional mark ts rest)
    (hmark : Bytes.newline ∉ utf8 mark) : MayEnd ts rest := by
  cases h with
  | missing => exact .inl rfl
  | present ht => exact .inr (Final.mark mark ht hmark).ends

theorem Attributes.ends (h : Attributes ts rest) : Ends ts rest := by
  cases h with
  | @closed t brace inner u rest _ _ _ hu =>
      exact (Final.mark "\x7d" hu (by decide)).ends.skip (t :: brace :: inner)
  | @unclosed t brace inner =>
      have hne : t :: brace :: inner ≠ [] := List.cons_ne_nil _ _
      exact ⟨_, _, (List.dropLast_append_getLast hne).symm, .atEnd⟩

theorem Ending.mayEnd (h : Ending ts rest) : MayEnd ts rest := by
  cases h with
  | plain hsemicolon => exact hsemicolon.mayEnd (by decide)
  | attributes hattributes hsemicolon =>
      exact .inr (hattributes.ends.trans (hsemicolon.mayEnd (by decide)))

theorem Dotted.mayEnd {path : Bytes} (h : Dotted ts path rest) : MayEnd ts rest := by
  induction h with
  | nothing => exact .inl rfl
  | name hkind => exact .inr (Final.word hkind).ends
  | @more t dot ts _ rest _ hdot _ ih =>
      have hends : Ends (dot :: ts) ts := (Final.mark "." hdot (by decide)).ends
      exact .inr ((hends.skip [t]).trans ih)

theorem Target.mayEnd {source : Bytes} (h : Target ts source rest) : MayEnd ts rest := by
  cases h with
  | @bare t bracket ts rest _ hopen hclose =>
      have hends : Ends (bracket :: ts) ts := (Final.mark "(" hopen (by decide)).ends
      exact .inr ((hends.skip [t]).trans (hclose.mayEnd (by decide)))
  | @quoted t bracket s ts rest _ _ hs hclose =>
      have hends : Ends (s :: ts) ts := (Final.quoted hs).ends
      exact .inr ((hends.skip [t, bracket]).trans (hclose.mayEnd (by decide)))
  | path hdotted => exact hdotted.mayEnd

/-! ### Declarations -/

theorem Introduces.append (h : Introduces ts bs mid) (hmid : ∃ read, mid = read ++ rest) :
    Introduces ts bs rest := by
  obtain ⟨read, rfl⟩ := hmid
  have hread : Introduces (read ++ rest) [] rest := ⟨read, rfl, .nil⟩
  simpa using h.trans hread

/-- Making names type imports does not move them. -/
theorem Introduces.map (h : Introduces ts bs rest) (f : Binding → Bool) :
    Introduces ts (bs.map fun b => { b with typeOnly := f b }) rest := by
  obtain ⟨read, rfl, hread⟩ := h
  refine ⟨read, rfl, List.sublistForall₂_map_left_iff.mpr ?_⟩
  obtain ⟨names, hnames, hsub⟩ := List.sublistForall₂_iff.mp hread
  refine List.sublistForall₂_iff.mpr ⟨names, hnames.imp ?_, hsub⟩
  intro b t hb
  exact ⟨hb.kind, hb.name, hb.line, hb.column⟩

theorem Body.introduces (h : Body line typeOnly ts c rest) : Introduces ts c.bindings rest := by
  cases h with
  | assigned hname _ htarget hending =>
      have hread : Introduces _ [] rest :=
        (Introduces.nil _).append (htarget.mayEnd.trans hending.mayEnd).suffix
      exact (hread.skip _).cons ⟨hname, rfl, rfl, rfl⟩
  | @clause _ bs word source left _ hclause _ _ hending =>
      have hread : Introduces (word :: source :: left) [] rest :=
        (((Introduces.nil _).append hending.mayEnd.suffix).skip _).skip _
      have hnames := (hclause.introduces.trans hread).map fun b => typeOnly || b.typeOnly
      rwa [List.append_nil] at hnames

theorem Body.ends (h : Body line typeOnly ts c rest) : Ends ts rest := by
  cases h with
  | @assigned name equals ts _ _ _ _ hequals htarget hending =>
      have hends : Ends (equals :: ts) ts := (Final.mark "=" hequals (by decide)).ends
      exact (hends.skip [name]).trans (htarget.mayEnd.trans hending.mayEnd)
  | @clause ts _ word source left _ hclause _ hsource hending =>
      obtain ⟨read, rfl, _⟩ := hclause.introduces
      have hends : Ends (source :: left) left := (Final.quoted hsource).ends
      have hskip := hends.skip (read ++ [word])
      rw [List.append_assoc] at hskip
      exact hskip.trans hending.mayEnd

/-- Where a declaration introduces more than one name, a string stands after `from`. -/
theorem Body.exists_source (h : Body line typeOnly ts c rest) (hc : 1 < c.bindings.length) :
    ∃ front word source left, ts = front ++ word :: source :: (left ++ rest) ∧
      word.isWord "from" = true ∧ source.kind = .string := by
  cases h with
  | assigned => exact absurd hc (by simp)
  | clause hclause hword hsource hending =>
      obtain ⟨front, rfl, _⟩ := hclause.introduces
      obtain ⟨left, rfl⟩ := hending.mayEnd.suffix
      exact ⟨front, _, _, left, rfl, hword, hsource⟩

/-- What stands behind the keyword is a body, perhaps behind the word `type`. -/
theorem Derives.exists_body {keyword : Token} (h : Derives (keyword :: ts) c rest) :
    ∃ modifier typeOnly body, ts = modifier ++ body ∧
      Body keyword.line typeOnly body c rest := by
  cases h with
  | typed _ _ _ hbody => exact ⟨[_], true, _, rfl, hbody⟩
  | plain _ _ hbody => exact ⟨[], false, _, rfl, hbody⟩

/-- The names that are read after a keyword stand among the tokens read behind it. -/
theorem introduces_behind_keyword {keyword : Token} (hkeyword : keyword.isWord "import" = true)
    (h : readContents keyword.line ts = (c, rest)) : Introduces ts c.bindings rest := by
  by_cases hne : c.bindings = []
  · obtain ⟨read, hread⟩ := readContents_suffix keyword.line ts
    rw [h] at hread
    rw [hne]
    exact ⟨read, hread.symm, .nil⟩
  · obtain ⟨modifier, _, body, rfl, hbody⟩ := (derives_of_readContents hkeyword h hne).exists_body
    obtain ⟨read, rfl, hread⟩ := hbody.introduces
    have hnames : Introduces (read ++ rest) c.bindings rest := ⟨read, rfl, hread⟩
    have hskip : Introduces (modifier ++ (read ++ rest)) [] (read ++ rest) :=
      ⟨modifier, rfl, .nil⟩
    exact hskip.trans hnames

theorem isWord_of_isImport {before after : Option Token} (h : isImport before t after = true) :
    t.isWord "import" = true := by
  simp only [isImport, isStatementWord, Bool.and_eq_true] at h
  exact h.1.1

/-- A walk over declarations reads all their names, in order. -/
theorem introduces_of_walk {passed : List Token} {ds : List Declaration}
    (h : Walk declaration? passed ts ds) : Introduces ts (ds.flatMap (·.bindings)) [] := by
  induction h with
  | done => exact .nil []
  | @found passed t read rest d ds hitem _ ih =>
      obtain ⟨himport, rfl, hrest⟩ := declaration?_eq_some hitem
      have hread : readContents t.line (read ++ rest) =
          ((readContents t.line (read ++ rest)).1, rest) := by
        rw [Prod.ext_iff]
        exact ⟨rfl, hrest.symm⟩
      exact ((introduces_behind_keyword (isWord_of_isImport himport) hread).skip t).trans ih
  | missed _ _ ih => exact ih.skip _

end Import

/-! ### Declarations of a token list -/

/-- The names of all declarations are identifiers of the token list, in order. -/
theorem importsOf_namedBy (tokens : List Token) :
    List.SublistForall₂ Binding.NamedBy ((importsOf tokens).flatMap (·.bindings)) tokens := by
  obtain ⟨read, hread, hnames⟩ := Import.introduces_of_walk (importsOf_walk tokens)
  rw [List.append_nil] at hread
  rwa [← hread] at hnames

def Declaration.own (tokens : List Token) (d : Declaration) : List Token :=
  (tokens.drop d.start).take (d.stop - d.start)

variable {tokens : List Token} {d : Declaration}

theorem bounds_of_mem_importsOf (h : d ∈ importsOf tokens) :
    d.start < d.stop ∧ d.stop ≤ tokens.length := by
  have hbounds := (importsOf_walk tokens).span_bounds Import.declaration?_places d h
  rw [List.length_nil, Nat.zero_add] at hbounds
  exact ⟨hbounds.2.1, hbounds.2.2⟩

theorem mem_of_mem_own {t : Token} (h : t ∈ d.own tokens) : t ∈ tokens :=
  List.mem_of_mem_drop (List.mem_of_mem_take h)

theorem getElem?_own {k : Nat} (hk : d.start + k < d.stop) :
    (d.own tokens)[k]? = tokens[d.start + k]? := by
  rw [Declaration.own, List.getElem?_take_of_lt (by omega), List.getElem?_drop]

theorem length_own (h : d ∈ importsOf tokens) : (d.own tokens).length = d.stop - d.start := by
  have hbounds := bounds_of_mem_importsOf h
  rw [Declaration.own, List.length_take, List.length_drop]
  omega

theorem head?_own (h : d ∈ importsOf tokens) : (d.own tokens).head? = tokens[d.start]? := by
  have hbounds := bounds_of_mem_importsOf h
  rw [List.head?_eq_getElem?, getElem?_own (by omega), Nat.add_zero]

theorem getLast?_own (h : d ∈ importsOf tokens) :
    (d.own tokens).getLast? = tokens[d.stop - 1]? := by
  have hbounds := bounds_of_mem_importsOf h
  rw [List.getLast?_eq_getElem?, length_own h, getElem?_own (by omega)]
  congr 1
  omega

/-- A declaration covers its keyword and the tokens up to those that its reader leaves. -/
theorem exists_own_of_mem_importsOf (h : d ∈ importsOf tokens) :
    ∃ keyword read, keyword.isWord "import" = true ∧ d.line = keyword.line ∧
      d.own tokens = keyword :: read ∧
      tokens.drop d.start = keyword :: read ++ tokens.drop d.stop ∧
      Import.readContents keyword.line (read ++ tokens.drop d.stop) =
        (⟨d.source, d.typeOnly, d.bindings⟩, tokens.drop d.stop) := by
  obtain ⟨keyword, ts, hkeyword, hstart, hread⟩ := exists_split_of_mem_importsOf h
  obtain ⟨read, hsuffix⟩ := Import.readContents_suffix keyword.line ts
  rw [hread] at hsuffix
  subst hsuffix
  have hline : d.line = keyword.line := by
    obtain ⟨front, t, after, rfl, _, rfl⟩ := exists_keyword_of_mem_importsOf h
    simp only [Import.declarationOf, List.drop_left] at hstart
    rw [(List.cons.inj hstart).1]
    rfl
  have hbounds := bounds_of_mem_importsOf h
  have hwidth : d.stop - d.start = (keyword :: read).length := by
    have hlength := congrArg List.length hstart
    simp only [List.length_drop, List.length_cons, List.length_append] at hlength ⊢
    omega
  refine ⟨keyword, read, hkeyword, hline, ?_, hstart, hread⟩
  rw [Declaration.own, hstart, hwidth]
  exact List.take_left

/-- The last token of a declaration that introduces names. -/
theorem exists_last_of_mem_importsOf (h : d ∈ importsOf tokens) (hne : d.bindings ≠ []) :
    ∃ front last, d.own tokens = front ++ [last] ∧ Import.Final last (tokens.drop d.stop) := by
  obtain ⟨keyword, read, hkeyword, _, hown, _, hread⟩ := exists_own_of_mem_importsOf h
  obtain ⟨modifier, _, body, hbody, hgrammar⟩ :=
    (Import.derives_of_readContents hkeyword hread hne).exists_body
  obtain ⟨front, last, rfl, hlast⟩ := hgrammar.ends
  refine ⟨keyword :: (modifier ++ front), last, ?_, hlast⟩
  have hsplit : read ++ tokens.drop d.stop =
      (modifier ++ front ++ [last]) ++ tokens.drop d.stop := by simpa using hbody
  rw [hown, List.append_cancel_right hsplit]
  simp

/-- The last token of a declaration on one line stands on the line of its keyword. -/
theorem line_of_isSingleLine (h : d ∈ importsOf tokens) {front : List Token} {last : Token}
    (hown : d.own tokens = front ++ [last]) (hsingle : d.isSingleLine tokens = true) :
    last.line = d.line := by
  have hlast : tokens[d.stop - 1]? = some last := by
    rw [← getLast?_own h, hown, List.getLast?_concat]
  simpa [Declaration.isSingleLine, Declaration.isSingleLineAt?, hlast,
    (bounds_of_mem_importsOf h).1] using hsingle

/-- The string of the module, where a declaration introduces more than one name. -/
theorem exists_source_of_mem_importsOf (h : d ∈ importsOf tokens)
    (hlength : 1 < d.bindings.length) :
    ∃ front word source left, d.own tokens = front ++ word :: source :: left ∧
      word.isWord "from" = true ∧ source.kind = .string := by
  obtain ⟨keyword, read, hkeyword, _, hown, _, hread⟩ := exists_own_of_mem_importsOf h
  have hne : d.bindings ≠ [] := by
    intro hnil
    simp [hnil] at hlength
  obtain ⟨modifier, _, body, hbody, hgrammar⟩ :=
    (Import.derives_of_readContents hkeyword hread hne).exists_body
  obtain ⟨front, word, source, left, rfl, hword, hsource⟩ := hgrammar.exists_source hlength
  refine ⟨keyword :: (modifier ++ front), word, source, left, ?_, hword, hsource⟩
  have hsplit : read ++ tokens.drop d.stop =
      (modifier ++ front ++ word :: source :: left) ++ tokens.drop d.stop := by simpa using hbody
  rw [hown, List.append_cancel_right hsplit]
  simp

end UnusedImports
