import Mathlib.Data.List.Forall2
import UnusedImports.Edit
import UnusedImports.Proofs.Lexer.Spelling

/-! The clauses that a declaration can have, and the words that their rendering spells. -/

namespace UnusedImports.Edit

open Markup

/-! ### Shapes of clauses -/

/-- A default name, in a declaration that is or is not a type import. -/
structure IsDefault (typeImport : Bool) (b : Binding) : Prop where
  kind : b.kind = .defaultExport
  name : IsName b.name
  imported : b.imported = utf8 "default"
  typeOnly : b.typeOnly = typeImport

structure IsWhole (typeImport : Bool) (b : Binding) : Prop where
  kind : b.kind = .wholeModule
  name : IsName b.name
  imported : b.imported = utf8 "*"
  typeOnly : b.typeOnly = typeImport

/-- A name in braces. It may be a type import by itself. -/
structure IsNamed (typeImport : Bool) (b : Binding) : Prop where
  kind : b.kind = .named
  name : IsName b.name
  imported : IsName b.imported
  typeOnly : typeImport = true → b.typeOnly = true

/-- Names that can stand behind a default name. -/
inductive IsExports (typeImport : Bool) : List Binding → Prop where
  | whole {b} : IsWhole typeImport b → IsExports typeImport [b]
  | named {bs} : bs ≠ [] → (∀ b ∈ bs, IsNamed typeImport b) → IsExports typeImport bs

/-- The names of a declaration: a default name, exports, or both. -/
inductive IsClause (typeImport : Bool) : List Binding → Prop where
  | name {b} : IsDefault typeImport b → IsClause typeImport [b]
  | both {b bs} : IsDefault typeImport b → IsExports typeImport bs → IsClause typeImport (b :: bs)
  | exports {bs} : IsExports typeImport bs → IsClause typeImport bs

/-- A name in braces that may be imported by any text. -/
structure IsListed (typeImport : Bool) (b : Binding) : Prop where
  kind : b.kind = .named
  name : IsName b.name
  typeOnly : typeImport = true → b.typeOnly = true

/-- Names that can stand behind a default name, imported by any texts. -/
inductive IsLooseExports (typeImport : Bool) : List Binding → Prop where
  | whole {b} : IsWhole typeImport b → IsLooseExports typeImport [b]
  | named {bs} : bs ≠ [] → (∀ b ∈ bs, IsListed typeImport b) → IsLooseExports typeImport bs

/-- The names of a declaration, those in braces imported by any texts. -/
inductive IsLooseClause (typeImport : Bool) : List Binding → Prop where
  | name {b} : IsDefault typeImport b → IsLooseClause typeImport [b]
  | both {b bs} : IsDefault typeImport b → IsLooseExports typeImport bs →
      IsLooseClause typeImport (b :: bs)
  | exports {bs} : IsLooseExports typeImport bs → IsLooseClause typeImport bs

theorem IsExports.loose {typeImport : Bool} {bs : List Binding} (h : IsExports typeImport bs) :
    IsLooseExports typeImport bs := by
  cases h with
  | whole hb => exact .whole hb
  | named hne hbs =>
      refine .named hne fun b hb => ?_
      have hnamed := hbs b hb
      exact ⟨hnamed.kind, hnamed.name, hnamed.typeOnly⟩

theorem IsClause.loose {typeImport : Bool} {bs : List Binding} (h : IsClause typeImport bs) :
    IsLooseClause typeImport bs := by
  cases h with
  | name hb => exact .name hb
  | both hb hbs => exact .both hb hbs.loose
  | exports hbs => exact .exports hbs.loose

/-! ### Words of clauses -/

def keyword (s : String) : Word := (.identifier, utf8 s)

/-- The name of an export, in quotes if it is not a plain one. -/
def importedWord (imported : Bytes) : Word :=
  if isPlainName imported then (.identifier, imported)
  else (.string, utf8 "\"" ++ imported ++ utf8 "\"")

def itemWords (b : Binding) : List Word :=
  if b.imported == b.name then [(.identifier, b.name)]
  else [importedWord b.imported, keyword "as", (.identifier, b.name)]

def namedWords (typeImport : Bool) (b : Binding) : List Word :=
  if b.typeOnly && !typeImport then keyword "type" :: itemWords b else itemWords b

/-- The words of names in braces, without the braces. -/
def listWords (typeImport : Bool) (bs : List Binding) : List Word :=
  [mark ","].intercalate (bs.map (namedWords typeImport))

def exportsWords (typeImport : Bool) (bs : List Binding) : List Word :=
  match bs.find? (·.kind == .wholeModule) with
  | some b => [mark "*", keyword "as", (.identifier, b.name)]
  | none => mark "\x7b" :: listWords typeImport bs ++ [mark "\x7d"]

def clauseWords (typeImport : Bool) : List Binding → List Word
  | [] => []
  | b :: bs =>
    if b.kind == .defaultExport then
      (.identifier, b.name) :: if bs.isEmpty then [] else mark "," :: exportsWords typeImport bs
    else exportsWords typeImport (b :: bs)

/-! ### Spelling -/

/-- A text that spells words in front of anything that ends a name. -/
def Spells (s : Bytes) (ws : List Word) : Prop :=
  ∀ back k more, EndsName k → Spelled back k more → Spelled back (s ++ k) (ws ++ more)

theorem endsName_space (s : Bytes) : EndsName (' '.toUInt8 :: s) :=
  endsName_cons (by decide) (by decide) (by decide) s

theorem endsName_comma (s : Bytes) : EndsName (','.toUInt8 :: s) :=
  endsName_cons (by decide) (by decide) (by decide) s

theorem Spells.name {n : Bytes} (hn : IsName n) : Spells n [(.identifier, n)] :=
  fun _ _ _ hk h => .name hn hk h

theorem isName_import : IsName (utf8 "import") :=
  ⟨0x69, [0x6d, 0x70, 0x6f, 0x72, 0x74], rfl, by decide, by decide⟩

theorem isName_type : IsName (utf8 "type") := ⟨0x74, [0x79, 0x70, 0x65], rfl, by decide, by decide⟩

theorem isName_as : IsName (utf8 "as") := ⟨0x61, [0x73], rfl, by decide, by decide⟩

theorem isName_from : IsName (utf8 "from") := ⟨0x66, [0x72, 0x6f, 0x6d], rfl, by decide, by decide⟩

/-- A word and a space. -/
theorem Spells.word {s : Bytes} {ws : List Word} (h : Spells s ws) {n : Bytes} (hn : IsName n) :
    Spells (n ++ ' '.toUInt8 :: s) ((.identifier, n) :: ws) := by
  intro back k more hk hmore
  rw [List.append_assoc]
  exact .name hn (endsName_space _) (.space (h back k more hk hmore))

theorem spells_join {parts : List Bytes} {wss : List (List Word)}
    (h : List.Forall₂ Spells parts wss) :
    Spells (Bytes.join (utf8 ", ") parts) ([mark ","].intercalate wss) := by
  induction h with
  | nil => exact fun _ _ _ _ h => h
  | @cons s ws parts wss hs htail ih =>
      cases htail with
      | nil => simpa [Bytes.join] using hs
      | @cons t vs parts wss ht htail =>
          intro back k more hk hmore
          rw [Bytes.join, List.intercalate_cons_cons, List.intercalate_cons_cons, List.append_assoc,
            List.append_assoc, List.append_assoc, List.append_assoc]
          exact hs _ _ _ (endsName_comma _) (.mark (by decide) (.space (ih back k more hk hmore)))

/-- A name has no byte that could end a quoted literal. -/
theorem IsName.unquoted {n : Bytes} (hn : IsName n) : Unquoted Bytes.doubleQuote n := by
  obtain ⟨c, cs, rfl, hc, hcs⟩ := hn
  have hcontinue : ∀ x ∈ c :: cs, Identifier.isContinue x = true := by
    intro x hx
    rcases List.mem_cons.mp hx with rfl | hx
    · exact Identifier.isContinue_of_isStart hc
    · exact hcs x hx
  have hnot : ∀ b ∈ Utf8.encode c ++ Utf8.ofCodePoints cs, ∀ x : UInt8, x < 0x80 →
      Identifier.isContinue x.toNat = false → b ≠ x := by
    rintro b hb _ hascii hx rfl
    have hmem := Utf8.toNat_mem_of_mem_ofCodePoints
      (fun y hy => Identifier.isScalar_of_isContinue (hcontinue y hy)) hb hascii
    rw [hcontinue _ hmem] at hx
    cases hx
  refine unquoted_of_forall fun b hb => ⟨?_, ?_, ?_⟩
  · exact hnot b hb _ (by decide) (by decide)
  · exact hnot b hb _ (by decide) (by decide)
  · exact hnot b hb _ (by decide) (by decide)

/-- Only the ranges that start below a bound tell a code point below it. -/
theorem within_eq_filter (ranges : List (Nat × Nat)) {bound c : Nat} (hc : c < bound) :
    CodePoint.within ranges c = CodePoint.within (ranges.filter (·.1 < bound)) c := by
  rw [CodePoint.within, CodePoint.within, List.any_filter]
  congr 1
  funext r
  by_cases hr : r.1 ≤ c
  · simp [Nat.lt_of_le_of_lt hr hc]
  · simp [hr]

set_option maxRecDepth 8000 in
theorem letters_ascii :
    CodePoint.letters.filter (·.1 < 0x80) = [(0x41, 0x5a), (0x61, 0x7a)] := by
  decide +kernel

set_option maxRecDepth 8000 in
theorem decimalDigits_ascii : CodePoint.decimalDigits.filter (·.1 < 0x80) = [(0x30, 0x39)] := by
  decide +kernel

theorem isStart_of_plainAscii {c : Nat} (hc : c < 0x80)
    (h : (c == 0x5f || c == 0x24 || CodePoint.isLetter c) = true) :
    Identifier.isStart c = true := by
  rw [CodePoint.isLetter, within_eq_filter _ hc, letters_ascii] at h
  simp only [CodePoint.within, List.any_cons, List.any_nil, Bool.or_eq_true, Bool.and_eq_true,
    beq_iff_eq, decide_eq_true_eq, Bool.false_eq_true, or_false] at h
  simp only [Identifier.isStart, hc, if_true, Bool.or_eq_true, Bool.and_eq_true, beq_iff_eq,
    decide_eq_true_eq]
  omega

theorem isContinue_of_digitAscii {c : Nat} (hc : c < 0x80)
    (h : CodePoint.isDecimalDigit c = true) : Identifier.isContinue c = true := by
  rw [CodePoint.isDecimalDigit, within_eq_filter _ hc, decimalDigits_ascii] at h
  simp only [CodePoint.within, List.any_cons, List.any_nil, Bool.or_false] at h
  rw [Identifier.isContinue, if_pos hc, h, Bool.or_true]

theorem isStart_of_plain {c : Nat} (h : (c == 0x5f || c == 0x24 || CodePoint.isLetter c) = true) :
    Identifier.isStart c = true := by
  by_cases hc : c < 0x80
  · exact isStart_of_plainAscii hc h
  · rw [Identifier.isStart, if_neg hc]
    simp only [Bool.or_eq_true, beq_iff_eq] at h
    rcases h with (rfl | rfl) | h
    · exact absurd (by decide) hc
    · exact absurd (by decide) hc
    · exact h

/-- What stands without quotes is read as a name. -/
theorem isName_of_isPlainName {s : Bytes} (h : isPlainName s = true) : IsName s := by
  have hcontinue : ∀ c, (c == 0x5f || c == 0x24 || CodePoint.isLetter c) = true ∨
      CodePoint.isDecimalDigit c = true → Identifier.isContinue c = true := by
    rintro c (hc | hc)
    · exact Identifier.isContinue_of_isStart (isStart_of_plain hc)
    · by_cases hascii : c < 0x80
      · exact isContinue_of_digitAscii hascii hc
      · rw [Identifier.isContinue, if_neg hascii, hc]
        simp
  unfold isPlainName at h
  split at h
  · cases h
  · next c cs heq =>
    obtain ⟨hc, hall⟩ := (Bool.and_eq_true _ _).mp h
    have hcs : ∀ x ∈ cs, Identifier.isContinue x = true := fun x hx =>
      hcontinue x ((Bool.or_eq_true _ _).mp (List.all_eq_true.mp hall x hx))
    have hread : ∀ u ∈ Utf8.units s, u.1 ≠ CodePoint.replacement := by
      intro u hu hreplaced
      have hmem : u.1 ∈ c :: cs := heq ▸ List.mem_map_of_mem hu
      have hplain : Identifier.isContinue u.1 = true := by
        rcases List.mem_cons.mp hmem with hfirst | hrest
        · exact hcontinue _ (.inl (hfirst ▸ hc))
        · exact hcs _ hrest
      rw [hreplaced, Lexeme.not_isContinue_replacement] at hplain
      cases hplain
    have htext := (Utf8.eq_ofCodePoints_of_units fun u hu => .inl (hread u hu)).2
    rw [heq, Utf8.ofCodePoints_cons] at htext
    exact ⟨c, cs, htext, isStart_of_plain hc, hcs⟩

/-- The name of an export can be written: it stands without quotes, or nothing in it ends the
quotes around it. -/
theorem spells_imported {n : Bytes} (hn : Unquoted Bytes.doubleQuote n) {s : Bytes}
    {ws : List Word} (h : Spells s ws) :
    Spells ((if isPlainName n then n else utf8 "\"" ++ n ++ utf8 "\"") ++ ' '.toUInt8 :: s)
      (importedWord n :: ws) := by
  unfold importedWord
  split
  · next hplain => exact h.word (isName_of_isPlainName hplain)
  · intro back k more hk hmore
    have hquoted := Spelled.quoted (.inl rfl) hn (.space (h back k more hk hmore))
    have hmark : utf8 "\"" = [Bytes.doubleQuote] := rfl
    simpa [hmark] using hquoted

variable {typeImport : Bool} {b : Binding} {bs : List Binding}

theorem spells_named (hb : IsListed typeImport b)
    (himported : Unquoted Bytes.doubleQuote b.imported) :
    Spells (renderNamed typeImport b) (namedWords typeImport b) := by
  have hitem : Spells
      (if b.imported == b.name then b.name
        else (if isPlainName b.imported then b.imported
          else utf8 "\"" ++ b.imported ++ utf8 "\"") ++ utf8 " as " ++ b.name)
      (itemWords b) := by
    unfold itemWords
    split
    · exact .name hb.name
    · have hrenamed := spells_imported himported ((Spells.name hb.name).word isName_as)
      rw [List.append_assoc]
      exact hrenamed
  unfold renderNamed namedWords
  dsimp only
  split
  · exact hitem.word isName_type
  · exact hitem

theorem IsClause.unquoted (h : IsClause typeImport bs) :
    ∀ b ∈ bs, Unquoted Bytes.doubleQuote b.imported := by
  have hdefault : ∀ {b}, IsDefault typeImport b → Unquoted Bytes.doubleQuote b.imported := by
    intro b hb
    rw [hb.imported]
    exact unquoted_of_forall (by decide +kernel)
  have hexports : ∀ {bs}, IsExports typeImport bs →
      ∀ b ∈ bs, Unquoted Bytes.doubleQuote b.imported := by
    intro bs hbs
    cases hbs with
    | @whole b hb =>
        rw [List.forall_mem_singleton, hb.imported]
        exact unquoted_of_forall (by decide +kernel)
    | named _ hbs => exact fun b hb => IsName.unquoted (hbs b hb).imported
  cases h with
  | name hb => exact List.forall_mem_singleton.mpr (hdefault hb)
  | both hb hbs => exact List.forall_mem_cons.mpr ⟨hdefault hb, hexports hbs⟩
  | exports hbs => exact hexports hbs

theorem exportsWords_whole (hb : IsWhole typeImport b) :
    exportsWords typeImport [b] = [mark "*", keyword "as", (.identifier, b.name)] := by
  simp [exportsWords, hb.kind]

theorem exportsWords_named (h : ∀ b ∈ bs, IsListed typeImport b) :
    exportsWords typeImport bs = mark "\x7b" :: listWords typeImport bs ++ [mark "\x7d"] := by
  have hnone : bs.find? (·.kind == .wholeModule) = none := by
    rw [List.find?_eq_none]
    intro b hb
    simp [(h b hb).kind]
  rw [exportsWords, hnone]

theorem IsLooseExports.ne_nil (h : IsLooseExports typeImport bs) : bs ≠ [] := by
  cases h with
  | whole => exact List.cons_ne_nil _ _
  | named hne => exact hne

theorem IsLooseClause.ne_nil (h : IsLooseClause typeImport bs) : bs ≠ [] := by
  cases h with
  | name => exact List.cons_ne_nil _ _
  | both => exact List.cons_ne_nil _ _
  | exports hbs => exact hbs.ne_nil

theorem clauseWords_exports (h : IsLooseExports typeImport bs) :
    clauseWords typeImport bs = exportsWords typeImport bs := by
  cases h with
  | whole hb => simp [clauseWords, hb.kind]
  | named hne h =>
      obtain ⟨b, rest, rfl⟩ := List.exists_cons_of_ne_nil hne
      simp [clauseWords, (h b List.mem_cons_self).kind]

theorem clauseWords_name (hb : IsDefault typeImport b) :
    clauseWords typeImport [b] = [(.identifier, b.name)] := by
  simp [clauseWords, hb.kind]

theorem clauseWords_both (hb : IsDefault typeImport b) (hbs : IsLooseExports typeImport bs) :
    clauseWords typeImport (b :: bs) =
      (.identifier, b.name) :: mark "," :: exportsWords typeImport bs := by
  simp [clauseWords, hb.kind, hbs.ne_nil]

/-- Exports start with a star or a brace. -/
theorem exists_mark_exports (h : IsLooseExports typeImport bs) :
    ∃ m ws, exportsWords typeImport bs = mark m :: ws ∧ (m = "*" ∨ m = "\x7b") := by
  cases h with
  | whole hb => exact ⟨_, _, exportsWords_whole hb, .inl rfl⟩
  | named _ h => exact ⟨_, _, exportsWords_named h, .inr rfl⟩

/-! ### Parts of clauses -/

def clauseParts (typeImport : Bool) (bs : List Binding) : List Bytes :=
  let single := bs.filterMap fun b =>
    match b.kind with
    | .defaultExport => some b.name
    | .wholeModule => some (utf8 "* as " ++ b.name)
    | _ => none
  let named := (bs.filter (·.kind == .named)).map (renderNamed typeImport)
  single ++
    if named.isEmpty then [] else [utf8 "\x7b " ++ Bytes.join (utf8 ", ") named ++ utf8 " \x7d"]

theorem renderClause_eq (typeImport : Bool) (bs : List Binding) :
    renderClause typeImport bs = Bytes.join (utf8 ", ") (clauseParts typeImport bs) := rfl

theorem clauseParts_cons (hb : b.kind = .defaultExport) :
    clauseParts typeImport (b :: bs) = b.name :: clauseParts typeImport bs := by
  simp [clauseParts, hb]

theorem clauseParts_whole (hb : b.kind = .wholeModule) :
    clauseParts typeImport [b] = [utf8 "* as " ++ b.name] := by
  simp [clauseParts, hb]

theorem clauseParts_named (hne : bs ≠ []) (h : ∀ b ∈ bs, b.kind = .named) :
    clauseParts typeImport bs =
      [utf8 "\x7b " ++ Bytes.join (utf8 ", ") (bs.map (renderNamed typeImport)) ++
        utf8 " \x7d"] := by
  have hnamed : bs.filter (·.kind == .named) = bs := by
    rw [List.filter_eq_self]
    intro b hb
    simp [h b hb]
  have hsingle : ∀ f : Binding → Option Bytes, (∀ b ∈ bs, f b = none) → bs.filterMap f = [] :=
    fun f hf => List.filterMap_eq_nil_iff.mpr hf
  simp only [clauseParts, hnamed]
  rw [hsingle _ fun b hb => by simp [h b hb], if_neg (by simpa using hne), List.nil_append]

theorem exists_spells_exports (h : IsLooseExports typeImport bs)
    (himported : ∀ b ∈ bs, Unquoted Bytes.doubleQuote b.imported) :
    ∃ text, clauseParts typeImport bs = [text] ∧ Spells text (exportsWords typeImport bs) := by
  cases h with
  | @whole b hb =>
      rw [clauseParts_whole hb.kind, exportsWords_whole hb]
      refine ⟨_, rfl, ?_⟩
      intro back k more hk hmore
      exact .mark (by decide) (.space ((Spells.name hb.name).word isName_as back k more hk hmore))
  | named hne h =>
      have hlist : List.Forall₂ Spells (bs.map (renderNamed typeImport))
          (bs.map (namedWords typeImport)) := by
        rw [List.forall₂_map_left_iff, List.forall₂_map_right_iff, List.forall₂_same]
        exact fun b hb => spells_named (h b hb) (himported b hb)
      rw [clauseParts_named hne fun b hb => (h b hb).kind, exportsWords_named h]
      refine ⟨_, rfl, ?_⟩
      intro back k more hk hmore
      have hclose : Spelled back (utf8 " \x7d" ++ k) (mark "\x7d" :: more) :=
        .space (.mark (by decide) hmore)
      have hnames := spells_join hlist _ _ _ (endsName_space _) hclose
      rw [List.append_assoc, List.append_assoc, List.append_assoc]
      exact .mark (by decide) (.space hnames)

/-- A clause spells its words. -/
theorem spells_clause (h : IsLooseClause typeImport bs)
    (himported : ∀ b ∈ bs, Unquoted Bytes.doubleQuote b.imported) :
    Spells (renderClause typeImport bs) (clauseWords typeImport bs) := by
  rw [renderClause_eq]
  cases h with
  | @name b hb =>
      rw [clauseParts_cons hb.kind, clauseWords_name hb]
      simpa [clauseParts, Bytes.join] using Spells.name hb.name
  | @both b bs hb hbs =>
      obtain ⟨text, hparts, hspells⟩ :=
        exists_spells_exports hbs (List.forall_mem_cons.mp himported).2
      have hjoin := spells_join (.cons (Spells.name hb.name) (.cons hspells .nil))
      have hwords : clauseWords typeImport (b :: bs) =
          [mark ","].intercalate [[(.identifier, b.name)], exportsWords typeImport bs] := by
        simp [clauseWords_both hb hbs, List.intercalate_cons_cons]
      rw [clauseParts_cons hb.kind, hparts, hwords]
      exact hjoin
  | exports hbs =>
      obtain ⟨text, hparts, hspells⟩ := exists_spells_exports hbs himported
      rw [hparts, clauseWords_exports hbs]
      simpa [Bytes.join] using hspells

/-! ### Declarations -/

/-- The text of a declaration with the given names up to its module, and what stands from there
on. -/
def declarationText (typeImport : Bool) (bs : List Binding) (behind : Bytes) : Bytes :=
  utf8 "import " ++ (if typeImport then utf8 "type " else []) ++ renderClause typeImport bs ++
    utf8 " from " ++ behind

/-- The words of a declaration behind its keyword, up to its own `from`, and more words. -/
def bodyWords (typeImport : Bool) (bs : List Binding) (more : List Word) : List Word :=
  (if typeImport then [keyword "type"] else []) ++
    (clauseWords typeImport bs ++ keyword "from" :: more)

def contentsWords (typeImport : Bool) (bs : List Binding) (source : Bytes) : List Word :=
  (if typeImport then [keyword "type"] else []) ++
    (clauseWords typeImport bs ++ [keyword "from", (.string, source), mark ";"])

/-- Whatever its module is, a declaration spells the words up to there. -/
theorem spelled_heading (h : IsLooseClause typeImport bs)
    (himported : ∀ b ∈ bs, Unquoted Bytes.doubleQuote b.imported) (behind : Bytes) :
    Spelled behind (declarationText typeImport bs behind)
      (keyword "import" :: bodyWords typeImport bs []) := by
  have hfrom : Spelled behind (utf8 " from " ++ behind) [keyword "from"] :=
    .space (.name isName_from (endsName_space _) (.space .nil))
  have hclause := spells_clause h himported _ _ _ (endsName_space _) hfrom
  have hbody : Spelled behind
      ((if typeImport then utf8 "type " else []) ++ (renderClause typeImport bs ++
        (utf8 " from " ++ behind))) (bodyWords typeImport bs []) := by
    unfold bodyWords
    split
    · exact .name isName_type (endsName_space _) (.space hclause)
    · exact hclause
  have hdeclaration := Spelled.name isName_import (endsName_space _) (.space hbody)
  simp only [declarationText, List.append_assoc]
  exact hdeclaration

theorem spelled_declaration (h : IsClause typeImport bs) {quote : UInt8} {text : Bytes}
    (hquote : Bytes.IsQuote quote) (htext : Unquoted quote text) :
    Spelled [] (declarationText typeImport bs (quote :: text ++ [quote] ++ utf8 ";"))
      (keyword "import" :: contentsWords typeImport bs (quote :: text ++ [quote])) := by
  have hbehind : Spelled [] (quote :: text ++ quote :: utf8 ";")
      [(.string, quote :: text ++ [quote]), mark ";"] :=
    .quoted hquote htext (.mark (by decide) .nil)
  have hdeclaration := (spelled_heading h.loose h.unquoted _).trans hbehind
  simpa [bodyWords, contentsWords] using hdeclaration

end UnusedImports.Edit
