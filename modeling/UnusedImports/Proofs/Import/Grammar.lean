import UnusedImports.Source.Import

/-! Every relation here goes from the tokens in front, over what they say, to the tokens behind
them. `type`, `as` and `from` are names as well as keywords. -/

namespace UnusedImports.Import

/-! ### The word `type` -/

/-- The word `type` comes first, and what follows makes it a modifier. -/
def Modified (follows : List Token → Prop) (ts : List Token) : Prop :=
  ∃ t rest, ts = t :: rest ∧ t.isWord "type" ∧ follows rest

/-- What makes `type` the modifier of a declaration: a brace, a star, a name other than `from`, or
`from` twice. -/
inductive FollowsType : List Token → Prop where
  | brace {t rest} : t.isPunctuator "\x7b" → FollowsType (t :: rest)
  | star {t rest} : t.isPunctuator "*" → FollowsType (t :: rest)
  | name {t rest} : t.kind = .identifier → t.text ≠ utf8 "from" → FollowsType (t :: rest)
  | fromTwice {t u rest} : t.isWord "from" → u.isWord "from" → FollowsType (t :: u :: rest)

/-- What makes `type` the modifier of a name in braces: a string or a name other than `as`. -/
inductive FollowsInlineType : List Token → Prop where
  | name {t rest} : t.kind = .identifier → t.text ≠ utf8 "as" → FollowsInlineType (t :: rest)
  | quoted {t rest} : t.kind = .string → t.text ≠ utf8 "as" → FollowsInlineType (t :: rest)

/-! ### Names -/

/-- A name in braces without its modifier: `IDENT`, `IDENT as IDENT` or `STRING as IDENT`. -/
inductive Item (line : Nat) (typeOnly : Bool) : List Token → Binding → List Token → Prop where
  | name {t rest} : t.kind = .identifier →
      Item line typeOnly (t :: rest)
        ⟨t.text, t.text, .named, typeOnly, line, t.line, t.column⟩ rest
  | renamed {t as name rest} : t.kind = .identifier → as.isWord "as" → name.kind = .identifier →
      Item line typeOnly (t :: as :: name :: rest)
        ⟨name.text, t.text, .named, typeOnly, line, name.line, name.column⟩ rest
  | quoted {t as name rest} : t.kind = .string → as.isWord "as" → name.kind = .identifier →
      Item line typeOnly (t :: as :: name :: rest)
        ⟨name.text, t.contents, .named, typeOnly, line, name.line, name.column⟩ rest

/-- `type? Item`. -/
inductive Spec (line : Nat) : List Token → Binding → List Token → Prop where
  | typed {t ts b rest} : t.isWord "type" → FollowsInlineType ts → Item line true ts b rest →
      Spec line (t :: ts) b rest
  | plain {ts b rest} : ¬ Modified FollowsInlineType ts → Item line false ts b rest →
      Spec line ts b rest

/-- `Spec (, Spec)*`. -/
inductive Specs (line : Nat) : List Token → List Binding → List Token → Prop where
  | one {ts b rest} : Spec line ts b rest → Specs line ts [b] rest
  | more {ts b comma after bs rest} : Spec line ts b (comma :: after) → comma.isPunctuator "," →
      Specs line after bs rest → Specs line ts (b :: bs) rest

/-- `,? }`. -/
inductive Closing : List Token → List Token → Prop where
  | brace {t rest} : t.isPunctuator "\x7d" → Closing (t :: rest) rest
  | comma {t u rest} : t.isPunctuator "," → u.isPunctuator "\x7d" → Closing (t :: u :: rest) rest

/-- `{ }` or `{ Specs ,? }`. -/
inductive Named (line : Nat) : List Token → List Binding → List Token → Prop where
  | nothing {t u rest} : t.isPunctuator "\x7b" → u.isPunctuator "\x7d" →
      Named line (t :: u :: rest) [] rest
  | specs {t ts bs left rest} : t.isPunctuator "\x7b" → Specs line ts bs left →
      Closing left rest → Named line (t :: ts) bs rest

/-- `Named` or `* as IDENT`. -/
inductive Exports (line : Nat) : List Token → List Binding → List Token → Prop where
  | named {ts bs rest} : Named line ts bs rest → Exports line ts bs rest
  | wholeModule {star as name rest} : star.isPunctuator "*" → as.isWord "as" →
      name.kind = .identifier →
      Exports line (star :: as :: name :: rest)
        [⟨name.text, utf8 "*", .wholeModule, false, line, name.line, name.column⟩] rest

/-- `IDENT`, `IDENT , Exports` or `Exports`. -/
inductive Clause (line : Nat) : List Token → List Binding → List Token → Prop where
  | name {t rest} : t.kind = .identifier →
      Clause line (t :: rest)
        [⟨t.text, utf8 "default", .defaultExport, false, line, t.line, t.column⟩] rest
  | both {t comma ts bs rest} : t.kind = .identifier → comma.isPunctuator "," →
      Exports line ts bs rest →
      Clause line (t :: comma :: ts)
        (⟨t.text, utf8 "default", .defaultExport, false, line, t.line, t.column⟩ :: bs) rest
  | exports {ts bs rest} : Exports line ts bs rest → Clause line ts bs rest

/-! ### Targets and endings -/

/-- A token that may be missing. -/
inductive Optional (mark : String) : List Token → List Token → Prop where
  | missing {ts} : Optional mark ts ts
  | present {t rest} : t.isPunctuator mark → Optional mark (t :: rest) rest

/-- Identifiers joined by dots. There may be none, and a dot may come last. -/
inductive Dotted : List Token → Bytes → List Token → Prop where
  | nothing {ts} : Dotted ts [] ts
  | name {t rest} : t.kind = .identifier → Dotted (t :: rest) t.text rest
  | more {t dot ts path rest} : t.kind = .identifier → dot.isPunctuator "." →
      Dotted ts path rest → Dotted (t :: dot :: ts) (t.text ++ utf8 "." ++ path) rest

/-- `require ( STRING? )?` or a dotted path. -/
inductive Target : List Token → Bytes → List Token → Prop where
  | bare {t bracket ts rest} : t.isWord "require" → bracket.isPunctuator "(" →
      Optional ")" ts rest → Target (t :: bracket :: ts) [] rest
  | quoted {t bracket s ts rest} : t.isWord "require" → bracket.isPunctuator "(" →
      s.kind = .string → Optional ")" ts rest → Target (t :: bracket :: s :: ts) s.contents rest
  | path {ts path rest} : Dotted ts path rest → Target ts path rest

/-- `with` or `assert` and braces around any tokens, up to the first closing brace or the end. -/
inductive Attributes : List Token → List Token → Prop where
  | closed {t brace inner u rest} : t.isWord "with" ∨ t.isWord "assert" →
      brace.isPunctuator "\x7b" → (∀ x ∈ inner, ¬ x.isPunctuator "\x7d") →
      u.isPunctuator "\x7d" → Attributes (t :: brace :: (inner ++ u :: rest)) rest
  | unclosed {t brace inner} : t.isWord "with" ∨ t.isWord "assert" →
      brace.isPunctuator "\x7b" → (∀ x ∈ inner, ¬ x.isPunctuator "\x7d") →
      Attributes (t :: brace :: inner) []

/-- `Attributes? ;?`. -/
inductive Ending : List Token → List Token → Prop where
  | plain {ts rest} : Optional ";" ts rest → Ending ts rest
  | attributes {ts left rest} : Attributes ts left → Optional ";" left rest → Ending ts rest

/-- A target that goes as far as any that starts there. -/
def LongestTarget (ts : List Token) (source : Bytes) (rest : List Token) : Prop :=
  Target ts source rest ∧ ∀ other left, Target ts other left → rest.length ≤ left.length

/-- An ending that goes as far as any that starts there. -/
def LongestEnding (ts rest : List Token) : Prop :=
  Ending ts rest ∧ ∀ left, Ending ts left → rest.length ≤ left.length

/-! ### Declarations -/

section Rules

-- Targets and endings alone may stop at several places: `Target` and `Ending` or the longest ones.
variable (target : List Token → Bytes → List Token → Prop) (ending : List Token → List Token → Prop)

/-- `IDENT = Target Ending` or `Clause from STRING Ending`. A name is a type import if the whole
declaration is or its own modifier says so. -/
inductive BodyBy (line : Nat) (typeOnly : Bool) : List Token → Contents → List Token → Prop where
  | assigned {name equals ts source left rest} : name.kind = .identifier →
      equals.isPunctuator "=" → target ts source left → ending left rest →
      BodyBy line typeOnly (name :: equals :: ts)
        ⟨source, typeOnly,
          [⟨name.text, name.text, .assigned, typeOnly, line, name.line, name.column⟩]⟩ rest
  | clause {ts bs word source left rest} : Clause line ts bs (word :: source :: left) →
      word.isWord "from" → source.kind = .string → ending left rest →
      BodyBy line typeOnly ts
        ⟨source.contents, typeOnly,
          bs.map fun b => { b with typeOnly := typeOnly || b.typeOnly }⟩ rest

/-- `import type? Body`. -/
inductive DerivesBy : List Token → Contents → List Token → Prop where
  | typed {keyword t ts c rest} : keyword.isWord "import" → t.isWord "type" → FollowsType ts →
      BodyBy target ending keyword.line true ts c rest → DerivesBy (keyword :: t :: ts) c rest
  | plain {keyword ts c rest} : keyword.isWord "import" → ¬ Modified FollowsType ts →
      BodyBy target ending keyword.line false ts c rest → DerivesBy (keyword :: ts) c rest

end Rules

abbrev Body := BodyBy Target Ending

abbrev Derives := DerivesBy Target Ending

abbrev BodyLongest := BodyBy LongestTarget LongestEnding

/-- A derivation whose target and ending are the longest. -/
abbrev DerivesLongest := DerivesBy LongestTarget LongestEnding

variable {line : Nat} {typeOnly : Bool} {ts rest : List Token} {c : Contents}

theorem BodyLongest.body (h : BodyLongest line typeOnly ts c rest) :
    Body line typeOnly ts c rest := by
  cases h with
  | assigned hname hequals htarget hending =>
      exact .assigned hname hequals htarget.1 hending.1
  | clause hclause hword hsource hending => exact .clause hclause hword hsource hending.1

theorem DerivesLongest.derives (h : DerivesLongest ts c rest) : Derives ts c rest := by
  cases h with
  | typed hkeyword ht hfollows hbody => exact .typed hkeyword ht hfollows (BodyLongest.body hbody)
  | plain hkeyword hplain hbody => exact .plain hkeyword hplain (BodyLongest.body hbody)

end UnusedImports.Import
