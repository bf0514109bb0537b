import UnusedImports.Proofs.Edit.Confined
import UnusedImports.Proofs.Edit.RoundTrip
import UnusedImports.Proofs.Lexer.Resume

/-! The words of a clause are plain code that leaves as many braces open as it finds. -/

namespace UnusedImports

open Markup

/-! ### Balanced words -/

/-- Words of plain code that leave as many braces open as they find. -/
structure Balanced (ws : List Word) : Prop where
  plain : ∀ w ∈ ws, Lexer.IsPlain w
  depth : ∀ depth, ws.foldl braceDepth depth = depth

namespace Balanced

theorem nil : Balanced [] := ⟨by simp, fun _ => rfl⟩

theorem append {ws vs : List Word} (h : Balanced ws) (h' : Balanced vs) : Balanced (ws ++ vs) := by
  refine ⟨?_, fun depth => by rw [List.foldl_append, h.depth, h'.depth]⟩
  rw [List.forall_mem_append]
  exact ⟨h.plain, h'.plain⟩

theorem of_identifier (text : Bytes) : Balanced [(.identifier, text)] := by
  refine ⟨?_, fun depth => ?_⟩
  · simp [Lexer.IsPlain, mark]
  · simp [braceDepth, mark]

theorem of_string (text : Bytes) : Balanced [(.string, text)] := by
  refine ⟨?_, fun depth => ?_⟩
  · simp [Lexer.IsPlain, mark]
  · simp [braceDepth, mark]

theorem of_mark {m : String} (hm : m = "," ∨ m = "*") : Balanced [mark m] := by
  rcases hm with rfl | rfl
  all_goals exact ⟨by decide, fun _ => rfl⟩

theorem braces {ws : List Word} (h : Balanced ws) :
    Balanced (mark "\x7b" :: ws ++ [mark "\x7d"]) := by
  refine ⟨?_, fun depth => ?_⟩
  · rw [List.forall_mem_append, List.forall_mem_cons]
    exact ⟨⟨by decide, h.plain⟩, by decide⟩
  · rw [List.cons_append, List.foldl_cons, List.foldl_append, h.depth]
    rfl

theorem identifier {ws : List Word} (h : Balanced ws) (text : Bytes) :
    Balanced ((.identifier, text) :: ws) := (of_identifier text).append h

end Balanced

namespace Import

variable {line : Nat} {typeOnly : Bool} {ts mid left rest : List Token} {b : Binding}
  {bs : List Binding} {c : Contents} {t : Token}

/-- The tokens in front of some others are balanced. -/
def Evenly (ts rest : List Token) : Prop :=
  ∃ read, ts = read ++ rest ∧ Balanced (read.map Token.word)

namespace Evenly

theorem refl (rest : List Token) : Evenly rest rest := ⟨[], rfl, .nil⟩

theorem trans (h : Evenly ts mid) (hmid : Evenly mid rest) : Evenly ts rest := by
  obtain ⟨first, rfl, hfirst⟩ := h
  obtain ⟨second, rfl, hsecond⟩ := hmid
  exact ⟨first ++ second, by simp, by simpa using hfirst.append hsecond⟩

theorem identifier (ht : t.kind = .identifier) : Evenly (t :: rest) rest :=
  ⟨[t], rfl, by simpa [Token.word, ht] using Balanced.of_identifier t.text⟩

theorem word {w : String} (ht : t.isWord w = true) : Evenly (t :: rest) rest :=
  .identifier (Token.isWord_iff.mp ht).1

theorem string (ht : t.kind = .string) : Evenly (t :: rest) rest :=
  ⟨[t], rfl, by simpa [Token.word, ht] using Balanced.of_string t.text⟩

theorem mark {m : String} (ht : t.isPunctuator m = true) (hm : m = "," ∨ m = "*") :
    Evenly (t :: rest) rest := by
  have hword : t.word = Markup.mark m := Prod.ext_iff.mpr (Token.isPunctuator_iff.mp ht)
  exact ⟨[t], rfl, by simpa [hword] using Balanced.of_mark hm⟩

theorem braces {u : Token} (h : Evenly ts (u :: rest)) (ht : t.isPunctuator "\x7b" = true)
    (hu : u.isPunctuator "\x7d" = true) : Evenly (t :: ts) rest := by
  obtain ⟨read, rfl, hread⟩ := h
  have hopen : t.word = Markup.mark "\x7b" := Prod.ext_iff.mpr (Token.isPunctuator_iff.mp ht)
  have hclose : u.word = Markup.mark "\x7d" := Prod.ext_iff.mpr (Token.isPunctuator_iff.mp hu)
  exact ⟨t :: read ++ [u], by simp, by simpa [hopen, hclose] using hread.braces⟩

end Evenly

theorem Item.evenly (h : Item line typeOnly ts b rest) : Evenly ts rest := by
  cases h with
  | name ht => exact .identifier ht
  | renamed ht has hname => exact ((Evenly.identifier ht).trans (.word has)).trans (.identifier hname)
  | quoted ht has hname => exact ((Evenly.string ht).trans (.word has)).trans (.identifier hname)

theorem Spec.evenly (h : Spec line ts b rest) : Evenly ts rest := by
  cases h with
  | typed ht _ hitem => exact (Evenly.word ht).trans hitem.evenly
  | plain _ hitem => exact hitem.evenly

theorem Specs.evenly (h : Specs line ts bs rest) : Evenly ts rest := by
  induction h with
  | one hspec => exact hspec.evenly
  | more hspec hcomma _ ih => exact (hspec.evenly.trans (.mark hcomma (.inl rfl))).trans ih

theorem Named.evenly (h : Named line ts bs rest) : Evenly ts rest := by
  cases h with
  | nothing hopen hclose => exact (Evenly.refl _).braces hopen hclose
  | specs hopen hspecs hclosing =>
      cases hclosing with
      | brace hclose => exact hspecs.evenly.braces hopen hclose
      | comma hcomma hclose =>
          exact (hspecs.evenly.trans (.mark hcomma (.inl rfl))).braces hopen hclose

theorem Exports.evenly (h : Exports line ts bs rest) : Evenly ts rest := by
  cases h with
  | named hnamed => exact hnamed.evenly
  | wholeModule hstar has hname =>
      exact ((Evenly.mark hstar (.inr rfl)).trans (.word has)).trans (.identifier hname)

theorem Clause.evenly (h : Clause line ts bs rest) : Evenly ts rest := by
  cases h with
  | name ht => exact .identifier ht
  | both ht hcomma hexports =>
      exact ((Evenly.identifier ht).trans (.mark hcomma (.inl rfl))).trans hexports.evenly
  | exports hexports => exact hexports.evenly

/-! ### Declarations -/

/-- The tokens of a declaration behind its keyword: those up to the `from` of its module, the module,
and what is left behind that. -/
structure Heading (c : Contents) (front : List Token) (word source : Token)
    (left rest : List Token) : Prop where
  balanced : Balanced (front.map Token.word)
  named : ∀ b ∈ c.bindings, ∃ t ∈ front, b.NamedBy t
  word : word.isWord "from" = true
  string : source.kind = .string
  module : c.source = source.contents
  ending : dropEnding left = rest

theorem BodyLongest.exists_heading (h : BodyLongest line typeOnly ts c rest)
    (hassigned : ∀ b ∈ c.bindings, b.kind ≠ .assigned) :
    ∃ front word source left, ts = front ++ word :: source :: left ∧
      Heading c front word source left rest := by
  cases h with
  | assigned => simp at hassigned
  | @clause _ bs word source left _ hclause hword hsource hending =>
      obtain ⟨front, rfl, hfront⟩ := hclause.evenly
      obtain ⟨read, hsame, hnames⟩ := hclause.introduces
      obtain rfl := List.append_cancel_right hsame
      refine ⟨front, word, source, left, rfl, hfront, ?_, hword, hsource, rfl,
        longestEnding_iff.mp hending⟩
      intro b hb
      obtain ⟨a, ha, rfl⟩ := List.mem_map.mp hb
      obtain ⟨names, hforall, hsub⟩ := List.sublistForall₂_iff.mp hnames
      obtain ⟨t, ht, hat⟩ := exists_left_of_forall₂ hforall.flip ha
      exact ⟨t, hsub.subset ht, hat.kind, hat.name, hat.line, hat.column⟩

/-- A declaration that introduces names, but not by an assignment, imports them from a module. -/
theorem exists_heading {keyword : Token} (hkeyword : keyword.isWord "import" = true)
    (h : readContents keyword.line ts = (c, rest)) (hne : c.bindings ≠ [])
    (hassigned : ∀ b ∈ c.bindings, b.kind ≠ .assigned) :
    ∃ front word source left, ts = front ++ word :: source :: left ∧
      Heading c front word source left rest := by
  cases longest_of_readContents hkeyword h hne with
  | @typed _ t ts _ _ _ ht _ hbody =>
      obtain ⟨front, word, source, left, rfl, hheading⟩ :=
        BodyLongest.exists_heading hbody hassigned
      have hmodifier := Balanced.of_identifier t.text
      rw [← (Token.isWord_iff.mp ht).1] at hmodifier
      refine ⟨t :: front, word, source, left, rfl, hmodifier.append hheading.balanced, ?_,
        hheading.word, hheading.string, hheading.module, hheading.ending⟩
      intro b hb
      obtain ⟨u, hu, hnamed⟩ := hheading.named b hb
      exact ⟨u, List.mem_cons_of_mem t hu, hnamed⟩
  | plain _ _ hbody => exact BodyLongest.exists_heading hbody hassigned

end Import

/-! ### Shapes -/

namespace Edit

open Import

variable {line : Nat} {typeImport : Bool} {ts rest : List Token} {bs : List Binding}
  {c : Contents}

theorem balanced_namedWords (typeImport : Bool) (b : Binding) :
    Balanced (namedWords typeImport b) := by
  have hitem : Balanced (itemWords b) := by
    have hname : Balanced [keyword "as", (.identifier, b.name)] := (Balanced.of_identifier _).identifier _
    unfold itemWords importedWord
    split
    · exact .of_identifier _
    · split
      · exact hname.identifier _
      · exact (Balanced.of_string _).append hname
  unfold namedWords
  split
  · exact hitem.identifier _
  · exact hitem

theorem balanced_listWords (typeImport : Bool) (bs : List Binding) :
    Balanced (listWords typeImport bs) := by
  induction bs with
  | nil => exact .nil
  | cons b bs ih =>
      cases bs with
      | nil =>
          rw [listWords, List.map_singleton, List.intercalate_singleton]
          exact balanced_namedWords typeImport b
      | cons c bs =>
          rw [listWords_cons]
          exact (balanced_namedWords typeImport b).append ((Balanced.of_mark (.inl rfl)).append ih)

theorem balanced_exportsWords (typeImport : Bool) (bs : List Binding) :
    Balanced (exportsWords typeImport bs) := by
  unfold exportsWords
  split
  · exact (Balanced.of_mark (.inr rfl)).append ((Balanced.of_identifier _).identifier _)
  · exact (balanced_listWords typeImport bs).braces

theorem balanced_clauseWords (typeImport : Bool) (bs : List Binding) :
    Balanced (clauseWords typeImport bs) := by
  unfold clauseWords
  split
  · exact .nil
  · split
    · refine .identifier ?_ _
      split
      · exact .nil
      · exact (Balanced.of_mark (.inl rfl)).append (balanced_exportsWords _ _)
    · exact balanced_exportsWords _ _

/-- The names that are read behind a default name, with the modifier of the declaration. -/
theorem exports_shape (h : Exports line ts bs rest) (hnames : ∀ b ∈ bs, IsName b.name) :
    bs = [] ∨ IsLooseExports typeImport
      (bs.map fun b => { b with typeOnly := typeImport || b.typeOnly }) := by
  cases h with
  | named hnamed =>
      cases hnamed with
      | nothing => exact .inl rfl
      | specs _ hspecs _ =>
          refine (eq_or_ne bs []).imp_right fun hne => .named (by simpa using hne) ?_
          intro b hb
          obtain ⟨a, ha, rfl⟩ := List.mem_map.mp hb
          exact ⟨hspecs.kind_eq a ha, hnames a ha, fun htype => by simp [htype]⟩
  | wholeModule =>
      have hname := List.forall_mem_singleton.mp hnames
      exact .inr (.whole ⟨rfl, hname, rfl, by simp⟩)

theorem clause_shape (h : Clause line ts bs rest) (hnames : ∀ b ∈ bs, IsName b.name) :
    bs = [] ∨ IsLooseClause typeImport
      (bs.map fun b => { b with typeOnly := typeImport || b.typeOnly }) := by
  cases h with
  | name =>
      have hname := List.forall_mem_singleton.mp hnames
      exact .inr (.name ⟨rfl, hname, rfl, by simp⟩)
  | both _ _ hexports =>
      obtain ⟨hname, hnames⟩ := List.forall_mem_cons.mp hnames
      refine .inr ?_
      have hshapes : _ ∨ IsLooseExports typeImport _ := exports_shape hexports hnames
      rcases hshapes with rfl | hshape
      · exact .name ⟨rfl, hname, rfl, by simp⟩
      · exact .both ⟨rfl, hname, rfl, by simp⟩ hshape
  | exports hexports => exact (exports_shape hexports hnames).imp_right .exports

theorem body_shape {typeOnly : Bool} (h : Body line typeOnly ts c rest)
    (hne : c.bindings ≠ []) (hassigned : ∀ b ∈ c.bindings, b.kind ≠ .assigned)
    (hnames : ∀ b ∈ c.bindings, IsName b.name) : IsLooseClause c.typeOnly c.bindings := by
  cases h with
  | assigned => simp at hassigned
  | clause hclause _ _ _ =>
      have hnames' := List.forall_mem_map.mp hnames
      have hshapes : _ ∨ IsLooseClause typeOnly _ := clause_shape hclause hnames'
      rcases hshapes with rfl | hshape
      · exact absurd rfl hne
      · exact hshape

/-- What a declaration introduces is in the shape of a clause. -/
theorem derives_shape (h : Derives ts c rest) (hne : c.bindings ≠ [])
    (hassigned : ∀ b ∈ c.bindings, b.kind ≠ .assigned)
    (hnames : ∀ b ∈ c.bindings, IsName b.name) : IsLooseClause c.typeOnly c.bindings := by
  cases h with
  | typed _ _ _ hbody => exact body_shape hbody hne hassigned hnames
  | plain _ _ hbody => exact body_shape hbody hne hassigned hnames

/-- Behind `type`, the word before a comma is not `from`. -/
theorem derives_not_fromList (h : Derives ts c rest) (htype : c.typeOnly = true) :
    ¬ IsFromList c.bindings := by
  have hfollows : ∀ {line ts rest}, FollowsType ts → Body line true ts c rest →
      ¬ IsFromList c.bindings := by
    intro line ts rest hfollows hbody hlist
    cases hbody with
    | assigned => exact hlist
    | @clause _ bs _ _ _ _ hclause _ _ _ =>
        cases hclause with
        | name => exact hlist
        | @both t comma _ new _ ht hcomma _ =>
            have hname : t.text = utf8 "from" := by
              cases new with
              | nil => cases hlist
              | cons => exact hlist.2
            have hkind := (Token.isPunctuator_iff.mp hcomma).1
            cases hfollows with
            | brace h => simp [Token.isPunctuator, ht] at h
            | star h => simp [Token.isPunctuator, ht] at h
            | name _ h => exact h hname
            | fromTwice _ h => simp [Token.isWord, hkind] at h
        | exports hexports =>
            cases hexports with
            | wholeModule => exact hlist
            | named hnamed =>
                cases hnamed with
                | nothing => exact hlist
                | specs _ hspecs _ =>
                    rcases bs with _ | ⟨b, _ | ⟨b', bs⟩⟩
                    · exact hlist
                    · exact hlist
                    · exact absurd hlist.1 (by simp [hspecs.kind_eq b List.mem_cons_self])
  cases h with
  | typed _ _ hmodified hbody => exact hfollows hmodified hbody
  | plain _ _ hbody => cases hbody <;> cases htype

theorem IsLooseExports.filter (h : IsLooseExports typeImport bs) (p : Binding → Bool)
    (hne : bs.filter p ≠ []) : IsLooseExports typeImport (bs.filter p) := by
  cases h with
  | @whole b hb =>
      have hkept : [b].filter p = [b] := by
        cases hp : p b with
        | true => simp [hp]
        | false => simp [hp] at hne
      rw [hkept]
      exact .whole hb
  | named _ hbs => exact .named hne fun b hb => hbs b (List.mem_of_mem_filter hb)

theorem IsLooseClause.filter (h : IsLooseClause typeImport bs) (p : Binding → Bool)
    (hne : bs.filter p ≠ []) : IsLooseClause typeImport (bs.filter p) := by
  cases h with
  | @name b hb =>
      have hkept : [b].filter p = [b] := by
        cases hp : p b with
        | true => simp [hp]
        | false => simp [hp] at hne
      rw [hkept]
      exact .name hb
  | @both b bs hb hbs =>
      cases hp : p b with
      | true =>
          rw [List.filter_cons_of_pos hp]
          by_cases hnone : bs.filter p = []
          · rw [hnone]
            exact .name hb
          · exact .both hb (hbs.filter p hnone)
      | false =>
          rw [List.filter_cons_of_neg (by simp [hp])] at hne ⊢
          exact .exports (hbs.filter p hne)
  | exports hbs => exact .exports (hbs.filter p hne)

/-- Names that are kept are the default name before others only if they were. -/
theorem isFromList_of_filter (h : IsLooseClause typeImport bs) {p : Binding → Bool}
    (hlist : IsFromList (bs.filter p)) : IsFromList bs := by
  have hdefault : ∀ {bs}, IsLooseExports typeImport bs → ∀ b ∈ bs, b.kind ≠ .defaultExport := by
    intro bs hbs
    cases hbs with
    | whole hb => simp [hb.kind]
    | named _ hbs =>
        intro b hb
        simp [(hbs b hb).kind]
  have hnone : ∀ {bs}, IsLooseExports typeImport bs → ¬ IsFromList (bs.filter p) := by
    intro bs hbs hlist
    rcases hkept : bs.filter p with _ | ⟨b, _ | ⟨c, cs⟩⟩
    · rw [hkept] at hlist
      cases hlist
    · rw [hkept] at hlist
      cases hlist
    · rw [hkept] at hlist
      have hmem : b ∈ bs := List.mem_of_mem_filter (p := p) (by simp [hkept])
      exact hdefault hbs b hmem hlist.1
  cases h with
  | @name b hb =>
      cases hp : p b with
      | true => simp [hp, IsFromList] at hlist
      | false => simp [hp, IsFromList] at hlist
  | @both b bs hb hbs =>
      cases hp : p b with
      | true =>
          rw [List.filter_cons_of_pos hp] at hlist
          obtain ⟨c, cs, rfl⟩ := List.exists_cons_of_ne_nil hbs.ne_nil
          rcases hkept : (c :: cs).filter p with _ | ⟨c', cs'⟩
          · rw [hkept] at hlist
            cases hlist
          · rw [hkept] at hlist
            exact hlist
      | false =>
          rw [List.filter_cons_of_neg (by simp [hp])] at hlist
          exact absurd hlist (hnone hbs)
  | exports hbs => exact absurd hlist (hnone hbs)

end Edit

end UnusedImports
