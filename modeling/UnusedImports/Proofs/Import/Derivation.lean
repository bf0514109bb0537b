import UnusedImports.Proofs.Import.Declarations
import UnusedImports.Proofs.Import.Grammar

/-! Each reader is matched with its rule in both directions. Where a rule may stop at several
places, the reader goes as far as the longest derivation. -/

namespace UnusedImports

namespace Token

variable {t : Token}

theorem isWord_iff {w : String} : t.isWord w = true ↔ t.kind = .identifier ∧ t.text = utf8 w := by
  simp [isWord]

theorem isPunctuator_iff {m : String} :
    t.isPunctuator m = true ↔ t.kind = .punctuation ∧ t.text = utf8 m := by
  simp [isPunctuator]

theorem isPunctuator_eq_false (h : t.kind ≠ .punctuation) (m : String) :
    t.isPunctuator m = false := by
  simp [isPunctuator, h]

theorem isWord_eq_false (h : t.kind ≠ .identifier) (w : String) : t.isWord w = false := by
  simp [isWord, h]

theorem isPunctuator_ne {m n : String} (h : t.isPunctuator m = true) (hne : utf8 m ≠ utf8 n) :
    t.isPunctuator n = false := by
  rw [isPunctuator_iff] at h
  simp [isPunctuator, h.2, hne]

theorem contents_of_identifier (h : t.kind = .identifier) : t.contents = t.text := by
  simp [contents, h]

end Token

namespace Import

/-! ### The word `type` -/

theorem isTypeModifier_iff (ts : List Token) :
    isTypeModifier ts = true ↔ Modified FollowsType ts := by
  constructor
  · intro h
    rcases ts with _ | ⟨t, _ | ⟨next, rest⟩⟩
    · cases h
    · cases h
    · simp only [isTypeModifier, Bool.and_eq_true, Bool.or_eq_true, beq_iff_eq,
        Bool.not_eq_true'] at h
      obtain ⟨ht, ((hbrace | hstar) | ⟨hkind, hname⟩) | ⟨hfrom, htwice⟩⟩ := h
      · exact ⟨t, _, rfl, ht, .brace hbrace⟩
      · exact ⟨t, _, rfl, ht, .star hstar⟩
      · refine ⟨t, _, rfl, ht, .name hkind fun htext => ?_⟩
        simp [Token.isWord, hkind, htext] at hname
      · rcases rest with _ | ⟨u, rest⟩
        · cases htwice
        · exact ⟨t, _, rfl, ht, .fromTwice hfrom htwice⟩
  · rintro ⟨t, rest, rfl, ht, hfollows⟩
    cases hfollows with
    | brace h => simp [isTypeModifier, ht, h]
    | star h => simp [isTypeModifier, ht, h]
    | @name u _ hkind htext =>
        have hname : u.isWord "from" = false := by simp [Token.isWord, htext]
        simp [isTypeModifier, ht, hkind, hname]
    | fromTwice hfrom htwice => simp [isTypeModifier, ht, hfrom, htwice]

theorem isInlineType_iff (ts : List Token) :
    isInlineType ts = true ↔ Modified FollowsInlineType ts := by
  constructor
  · intro h
    rcases ts with _ | ⟨t, _ | ⟨next, rest⟩⟩
    · cases h
    · cases h
    · simp only [isInlineType, Bool.and_eq_true, Bool.or_eq_true, beq_iff_eq, bne_iff_ne] at h
      obtain ⟨⟨ht, hname | hquoted⟩, htext⟩ := h
      · exact ⟨t, _, rfl, ht, .name hname htext⟩
      · exact ⟨t, _, rfl, ht, .quoted hquoted htext⟩
  · rintro ⟨t, rest, rfl, ht, hfollows⟩
    cases hfollows with
    | name hkind htext => simp [isInlineType, ht, hkind, htext]
    | quoted hkind htext => simp [isInlineType, ht, hkind, htext]

/-! ### Names in braces -/

/-- Reads one name in braces after its modifier. -/
def readItem (line : Nat) (typeOnly : Bool) : List Token → Option Binding × List Token
  | [] => (none, [])
  | imported :: ts =>
    if imported.kind == .identifier || imported.kind == .string then
      if ts.head?.any (·.isWord "as") then
        match ts.tail with
        | [] => (none, [])
        | name :: rest =>
          if name.kind == .identifier then
            (some (binding line .named imported.contents typeOnly name), rest)
          else (none, name :: rest)
      else if imported.kind == .string then (none, ts)
      else (some (binding line .named imported.contents typeOnly imported), ts)
    else (none, imported :: ts)

theorem readName_eq (line : Nat) (ts : List Token) :
    readName line ts =
      readItem line (isInlineType ts) (if isInlineType ts then ts.tail else ts) := by
  unfold readName readItem
  rfl

variable {line : Nat} {typeOnly : Bool} {ts left rest : List Token} {b : Binding}
  {bs read : List Binding} {c : Contents}
  {target : List Token → Bytes → List Token → Prop} {ending : List Token → List Token → Prop}

theorem item_of_readItem (h : readItem line typeOnly ts = (some b, rest)) :
    Item line typeOnly ts b rest := by
  rcases ts with _ | ⟨t, ts⟩
  · cases h
  · simp only [readItem, Bool.or_eq_true, beq_iff_eq] at h
    split at h
    · next hkind =>
      split at h
      · next has =>
        rcases ts with _ | ⟨as, _ | ⟨name, after⟩⟩
        · cases has
        · cases h
        · simp only [List.tail_cons] at h
          split at h
          · next hname =>
            cases h
            rcases hkind with hkind | hkind
            · have hitem : Item line typeOnly (t :: as :: name :: rest) _ rest :=
                .renamed hkind has hname
              simpa [binding, Token.contents_of_identifier hkind] using hitem
            · exact .quoted hkind has hname
          · cases h
      · split at h
        · cases h
        · next hquoted =>
          cases h
          have hkind : t.kind = .identifier := hkind.resolve_right hquoted
          have hitem : Item line typeOnly (t :: rest) _ rest := .name hkind
          simpa [binding, Token.contents_of_identifier hkind] using hitem
    · cases h

theorem readItem_of_item (h : Item line typeOnly ts b rest)
    (hrest : rest.head?.any (·.isWord "as") = false) :
    readItem line typeOnly ts = (some b, rest) := by
  cases h with
  | name hkind => simp [readItem, hkind, hrest, binding, Token.contents_of_identifier hkind]
  | renamed hkind has hname =>
      simp [readItem, hkind, has, hname, binding, Token.contents_of_identifier hkind]
  | quoted hkind has hname => simp [readItem, hkind, has, hname, binding]

theorem spec_of_readName (h : readName line ts = (some b, rest)) : Spec line ts b rest := by
  rw [readName_eq] at h
  cases htype : isInlineType ts with
  | true =>
      obtain ⟨t, ts, rfl, ht, hfollows⟩ := (isInlineType_iff ts).mp htype
      simp only [htype, if_true, List.tail_cons] at h
      exact .typed ht hfollows (item_of_readItem h)
  | false =>
      simp only [htype, Bool.false_eq_true, if_false] at h
      refine .plain (fun hmodified => ?_) (item_of_readItem h)
      simp [(isInlineType_iff ts).mpr hmodified] at htype

theorem readName_of_spec (h : Spec line ts b rest)
    (hrest : rest.head?.any (·.isWord "as") = false) :
    readName line ts = (some b, rest) := by
  rw [readName_eq]
  cases h with
  | @typed t ts _ _ ht hfollows hitem =>
      have htype : isInlineType (t :: ts) = true :=
        (isInlineType_iff _).mpr ⟨t, ts, rfl, ht, hfollows⟩
      simpa only [htype, if_true, List.tail_cons] using readItem_of_item hitem hrest
  | plain hplain hitem =>
      have htype : isInlineType ts = false :=
        Bool.eq_false_iff.mpr (mt (isInlineType_iff ts).mp hplain)
      simpa only [htype, Bool.false_eq_true, if_false] using readItem_of_item hitem hrest

/-- A name in braces starts with a word or a string. -/
theorem Spec.exists_head (h : Spec line ts b rest) :
    ∃ t after, ts = t :: after ∧ t.kind ≠ .punctuation := by
  cases h with
  | @typed t ts _ _ ht =>
      refine ⟨t, ts, rfl, ?_⟩
      simp [(Token.isWord_iff.mp ht).1]
  | plain _ hitem =>
      cases hitem with
      | name hkind => exact ⟨_, _, rfl, by simp [hkind]⟩
      | renamed hkind => exact ⟨_, _, rfl, by simp [hkind]⟩
      | quoted hkind => exact ⟨_, _, rfl, by simp [hkind]⟩

theorem readNames_of_spec {after : List Token} {next : Token}
    (h : Spec line ts b (next :: after)) (hnext : next.kind = .punctuation)
    (read : List Binding) :
    readNames line ts read =
      if next.isPunctuator "," then readNames line after (b :: read)
      else if next.isPunctuator "\x7d" then (some (b :: read).reverse, after)
      else (none, next :: after) := by
  have hread := readName_of_spec h (by simp [Token.isWord_eq_false (t := next) (by simp [hnext])])
  obtain ⟨t, rest, rfl, hkind⟩ := h.exists_head
  rw [readNames, if_neg (by simp [Token.isPunctuator_eq_false hkind])]
  split
  · next heq => simp [hread] at heq
  · next heq => simp [hread] at heq
  · next heq =>
    rw [hread] at heq
    cases heq
    rfl

theorem Closing.exists_head (h : Closing left rest) :
    ∃ t after, left = t :: after ∧ t.kind = .punctuation := by
  cases h with
  | brace ht => exact ⟨_, _, rfl, (Token.isPunctuator_iff.mp ht).1⟩
  | comma ht => exact ⟨_, _, rfl, (Token.isPunctuator_iff.mp ht).1⟩

theorem readNames_closeBrace {t : Token} (ht : t.isPunctuator "\x7d") (line : Nat)
    (rest : List Token) (read : List Binding) :
    readNames line (t :: rest) read = (some read.reverse, rest) := by
  rw [readNames, if_pos ht]

theorem readNames_of_specs (h : Specs line ts bs left) (hclosing : Closing left rest)
    (read : List Binding) :
    readNames line ts read = (some (read.reverse ++ bs), rest) := by
  induction h generalizing read with
  | one hspec =>
      -- What closes the list is no `as`, so the last name is not renamed by it.
      obtain ⟨next, after, rfl, hkind⟩ := hclosing.exists_head
      rw [readNames_of_spec hspec hkind]
      cases hclosing with
      | brace hbrace =>
          have hcomma : next.isPunctuator "," = false := Token.isPunctuator_ne hbrace (by decide)
          simp [hbrace, hcomma]
      | comma hcomma hbrace => simp [hcomma, readNames_closeBrace hbrace]
  | more hspec hcomma _ ih =>
      rw [readNames_of_spec hspec (Token.isPunctuator_iff.mp hcomma).1, if_pos hcomma,
        ih hclosing]
      simp

/-- Names that were read up to a closing brace are none at all, or a list of them that the brace
ends. -/
theorem specs_of_readNames (h : readNames line ts read = (some bs, rest)) :
    ∃ new, bs = read.reverse ++ new ∧
      ((new = [] ∧ ∃ t, t.isPunctuator "\x7d" = true ∧ ts = t :: rest) ∨
        ∃ left, Specs line ts new left ∧ Closing left rest) := by
  fun_induction readNames line ts read with
  | case1 => cases h
  | case2 read t after ht =>
      cases h
      exact ⟨[], by simp, .inl ⟨rfl, t, ht, rfl⟩⟩
  | case3 => cases h
  | case4 => cases h
  | case5 read t after ht b next left hname hcomma ih =>
      have hspec := spec_of_readName hname
      obtain ⟨new, hbs, hnew⟩ := ih h
      refine ⟨b :: new, by simp [hbs], .inr ?_⟩
      -- With no name behind it, the comma is a trailing one.
      rcases hnew with ⟨rfl, u, hu, rfl⟩ | ⟨last, hspecs, hclosing⟩
      · exact ⟨_, .one hspec, .comma hcomma hu⟩
      · exact ⟨last, .more hspec hcomma hspecs, hclosing⟩
  | case6 read t after ht b next left hname hcomma hbrace =>
      cases h
      exact ⟨[b], by simp, .inr ⟨_, .one (spec_of_readName hname), .brace hbrace⟩⟩
  | case7 => cases h

/-! ### Clauses -/

theorem exports_of_readExports (h : readExports line read ts = (some bs, rest)) :
    ∃ new, bs = read ++ new ∧ Exports line ts new rest := by
  rcases ts with _ | ⟨t, ts⟩
  · cases h
  · simp only [readExports] at h
    split at h
    · next hbrace =>
      obtain ⟨new, hbs, ⟨rfl, u, hu, rfl⟩ | ⟨left, hspecs, hclosing⟩⟩ := specs_of_readNames h
      · exact ⟨[], by simpa using hbs, .named (.nothing hbrace hu)⟩
      · exact ⟨new, by simpa using hbs, .named (.specs hbrace hspecs hclosing)⟩
    · split at h
      · next hstar =>
        split at h
        · next has =>
          rcases ts with _ | ⟨as, _ | ⟨name, after⟩⟩
          · cases has
          · cases h
          · simp only [List.tail_cons, beq_iff_eq] at h
            split at h
            · next hname =>
              cases h
              exact ⟨_, rfl, .wholeModule hstar has hname⟩
            · cases h
        · cases h
      · cases h

theorem readExports_of_exports (h : Exports line ts bs rest) (read : List Binding) :
    readExports line read ts = (some (read ++ bs), rest) := by
  cases h with
  | named h =>
      cases h with
      | nothing hopen hclose => simp [readExports, hopen, readNames_closeBrace hclose]
      | specs hopen hspecs hclosing => simp [readExports, hopen, readNames_of_specs hspecs hclosing]
  | @wholeModule star as name rest hstar has hname =>
      have hopen : star.isPunctuator "\x7b" = false := Token.isPunctuator_ne hstar (by decide)
      simp [readExports, hopen, hstar, has, hname, binding]

theorem Exports.exists_head (h : Exports line ts bs rest) :
    ∃ t after, ts = t :: after ∧ t.kind = .punctuation := by
  cases h with
  | named h =>
      cases h with
      | nothing ht => exact ⟨_, _, rfl, (Token.isPunctuator_iff.mp ht).1⟩
      | specs ht => exact ⟨_, _, rfl, (Token.isPunctuator_iff.mp ht).1⟩
  | wholeModule ht => exact ⟨_, _, rfl, (Token.isPunctuator_iff.mp ht).1⟩

theorem Spec.kind_eq (h : Spec line ts b rest) : b.kind = .named := by
  cases h with
  | typed _ _ hitem => cases hitem <;> rfl
  | plain _ hitem => cases hitem <;> rfl

theorem Specs.kind_eq (h : Specs line ts bs left) : ∀ b ∈ bs, b.kind = .named := by
  induction h with
  | one hspec => simpa using hspec.kind_eq
  | more hspec _ _ ih => simpa using ⟨hspec.kind_eq, ih⟩

theorem Exports.not_assigned (h : Exports line ts bs rest) : ∀ b ∈ bs, b.kind ≠ .assigned := by
  cases h with
  | named h =>
      cases h with
      | nothing => simp
      | specs _ hspecs _ =>
          intro b hb
          simp [hspecs.kind_eq b hb]
  | wholeModule => simp

/-- No clause introduces the name of an assignment. -/
theorem Clause.not_assigned
    (h : Clause line ts bs rest) : bs.any (·.kind == .assigned) = false := by
  have hnone : ∀ b ∈ bs, b.kind ≠ .assigned := by
    cases h with
    | name => simp
    | both _ _ hexports => simpa using hexports.not_assigned
    | exports hexports => exact hexports.not_assigned
  simpa using hnone

theorem clause_of_readClause (h : readClause line ts = (some bs, rest)) :
    Clause line ts bs rest ∨
      ∃ name equals, name.kind = .identifier ∧ equals.isPunctuator "=" = true ∧
        ts = name :: equals :: rest ∧
        bs = [⟨name.text, name.text, .assigned, false, line, name.line, name.column⟩] := by
  rcases ts with _ | ⟨t, ts⟩
  · cases h
  · simp only [readClause, beq_iff_eq] at h
    split at h
    · next hkind =>
      rcases ts with _ | ⟨next, after⟩
      · cases h
        exact .inl (.name hkind)
      · simp only at h
        split at h
        · next hequals =>
          cases h
          exact .inr ⟨t, next, hkind, hequals, rfl, rfl⟩
        · split at h
          · next hcomma =>
            obtain ⟨new, rfl, hexports⟩ := exports_of_readExports h
            exact .inl (.both hkind hcomma hexports)
          · cases h
            exact .inl (.name hkind)
    · obtain ⟨new, rfl, hexports⟩ := exports_of_readExports h
      exact .inl (.exports hexports)

theorem readClause_of_clause
    {word : Token} (h : Clause line ts bs (word :: rest)) (hword : word.kind = .identifier) :
    readClause line ts = (some bs, word :: rest) := by
  cases h with
  | name hkind =>
      have hmark := Token.isPunctuator_eq_false (t := word) (by simp [hword])
      simp [readClause, hkind, hmark, binding]
  | @both t comma ts bs _ hkind hcomma hexports =>
      have hequals : comma.isPunctuator "=" = false := Token.isPunctuator_ne hcomma (by decide)
      simp [readClause, hkind, hequals, hcomma, readExports_of_exports hexports, binding]
  | exports hexports =>
      obtain ⟨t, after, rfl, hkind⟩ := hexports.exists_head
      simp [readClause, hkind, readExports_of_exports hexports]

/-! ### Targets and endings -/

theorem optional_of_head (mark : String) (ts : List Token) :
    Optional mark ts (if ts.head?.any (·.isPunctuator mark) then ts.tail else ts) := by
  rcases ts with _ | ⟨t, ts⟩
  · exact .missing
  · split
    · next ht => exact .present ht
    · exact .missing

theorem dotted_readDotted (ts : List Token) (path : Bytes) :
    ∃ more, (readDotted ts path).1 = path ++ more ∧ Dotted ts more (readDotted ts path).2 := by
  fun_induction readDotted ts path with
  | case1 => exact ⟨[], by simp, .nothing⟩
  | case2 t path hkind => exact ⟨t.text, rfl, .name (by simpa using hkind)⟩
  | case3 => exact ⟨[], by simp, .nothing⟩
  | case4 t dot rest path hkind hdot ih =>
      obtain ⟨more, hpath, hdotted⟩ := ih
      refine ⟨t.text ++ utf8 "." ++ more, by rw [hpath]; simp, ?_⟩
      exact .more (by simpa using hkind) hdot hdotted
  | case5 t dot rest path hkind hdot => exact ⟨t.text, rfl, .name (by simpa using hkind)⟩
  | case6 => exact ⟨[], by simp, .nothing⟩

theorem target_readTarget (ts : List Token) : Target ts (readTarget ts).1 (readTarget ts).2 := by
  have hpath : Target ts (readDotted ts []).1 (readDotted ts []).2 := by
    obtain ⟨more, hmore, hdotted⟩ := dotted_readDotted ts []
    rw [hmore]
    exact .path hdotted
  unfold readTarget
  split
  · next t bracket rest =>
    split
    · next hrequire =>
      rw [Bool.and_eq_true] at hrequire
      dsimp only
      split
      · next hquoted =>
        rcases rest with _ | ⟨s, rest⟩
        · cases hquoted
        · exact .quoted hrequire.1 hrequire.2 (by simpa using hquoted) (optional_of_head ")" rest)
      · exact .bare hrequire.1 hrequire.2 (optional_of_head ")" rest)
    · exact hpath
  · exact hpath

theorem dropBraced_append (ts rest : List Token) :
    dropBraced (ts ++ rest) =
      if ts.any (·.isPunctuator "\x7d") then dropBraced ts ++ rest else dropBraced rest := by
  induction ts with
  | nil => rfl
  | cons t ts ih =>
      rw [List.cons_append, dropBraced, dropBraced, List.any_cons, ih]
      cases t.isPunctuator "\x7d" with
      | true => rfl
      | false => rfl

theorem dropBraced_closed {inner : List Token} (hinner : ∀ t ∈ inner, ¬ t.isPunctuator "\x7d")
    {closing : Token} (hclosing : closing.isPunctuator "\x7d" = true) (rest : List Token) :
    dropBraced (inner ++ closing :: rest) = rest := by
  rw [dropBraced_append, if_neg (by simpa using hinner), dropBraced, if_pos hclosing]

theorem dropBraced_spec (ts : List Token) :
    ∃ inner, (∀ t ∈ inner, ¬ t.isPunctuator "\x7d" = true) ∧
      ((∃ t, t.isPunctuator "\x7d" = true ∧ ts = inner ++ t :: dropBraced ts) ∨
        (ts = inner ∧ dropBraced ts = [])) := by
  fun_induction dropBraced ts with
  | case1 => exact ⟨[], by simp, .inr ⟨rfl, rfl⟩⟩
  | case2 t rest ht => exact ⟨[], by simp, .inl ⟨t, ht, rfl⟩⟩
  | case3 t rest ht ih =>
      obtain ⟨inner, hinner, hend⟩ := ih
      refine ⟨t :: inner, by simpa using ⟨by simpa using ht, by simpa using hinner⟩, ?_⟩
      rcases hend with ⟨u, hu, heq⟩ | ⟨heq, hnil⟩
      · exact .inl ⟨u, hu, by rw [List.cons_append, ← heq]⟩
      · exact .inr ⟨by rw [heq], hnil⟩

theorem attributes_dropBraced {t brace : Token}
    (ht : t.isWord "with" = true ∨ t.isWord "assert" = true)
    (hbrace : brace.isPunctuator "\x7b" = true) (ts : List Token) :
    Attributes (t :: brace :: ts) (dropBraced ts) := by
  obtain ⟨inner, hinner, ⟨u, hu, heq⟩ | ⟨heq, hnil⟩⟩ := dropBraced_spec ts
  · have hclosed : Attributes (t :: brace :: (inner ++ u :: dropBraced ts)) (dropBraced ts) :=
      .closed ht hbrace hinner hu
    rwa [← heq] at hclosed
  · rw [hnil, heq]
    exact .unclosed ht hbrace hinner

theorem ending_dropEnding (ts : List Token) : Ending ts (dropEnding ts) := by
  unfold dropEnding
  split
  · next t brace rest =>
    split
    · next hwith =>
      rw [Bool.and_eq_true, Bool.or_eq_true] at hwith
      exact .attributes (attributes_dropBraced hwith.1 hwith.2 rest) (optional_of_head ";" _)
    · exact .plain (optional_of_head ";" _)
  · exact .plain (optional_of_head ";" _)

/-! ### Longest readings

What a rule reads is what the reader reads, or the reader goes on where the rule stops. -/

theorem readOptional_of_optional {mark : String} (h : Optional mark ts rest) :
    (if ts.head?.any (·.isPunctuator mark) then ts.tail else ts) = rest ∨
      (if ts.head?.any (·.isPunctuator mark) then ts.tail else ts).length < rest.length := by
  cases h with
  | missing =>
      rcases ts with _ | ⟨t, ts⟩
      · exact .inl rfl
      · by_cases ht : t.isPunctuator mark = true
        · exact .inr (by simp [ht])
        · exact .inl (by simp [ht])
  | present ht => exact .inl (by simp [ht])

theorem readDotted_length_lt {t : Token} (ht : t.kind = .identifier) (ts : List Token)
    (path : Bytes) : (readDotted (t :: ts) path).2.length < (t :: ts).length := by
  rcases ts with _ | ⟨dot, ts⟩
  · simp [readDotted, ht]
  · have hle := readDotted_length_le ts (path ++ t.text ++ utf8 ".")
    rw [readDotted, if_pos (by simpa using ht)]
    split
    · exact Nat.lt_of_le_of_lt hle (by simp only [List.length_cons]; omega)
    · simp

theorem readDotted_of_not_word {t : Token} (ht : t.kind ≠ .identifier) (ts : List Token)
    (path : Bytes) : readDotted (t :: ts) path = (path, t :: ts) := by
  cases ts <;> simp [readDotted, ht]

theorem readDotted_of_dotted {more : Bytes} (h : Dotted ts more rest) (path : Bytes) :
    readDotted ts path = (path ++ more, rest) ∨ (readDotted ts path).2.length < rest.length := by
  induction h generalizing path with
  | @nothing ts =>
      rcases ts with _ | ⟨t, ts⟩
      · exact .inl (by simp [readDotted])
      · by_cases ht : t.kind = .identifier
        · exact .inr (readDotted_length_lt ht ts path)
        · exact .inl (by rw [readDotted_of_not_word ht, List.append_nil])
  | @name t rest ht =>
      rcases rest with _ | ⟨dot, rest⟩
      · exact .inl (by simp [readDotted, ht])
      · by_cases hdot : dot.isPunctuator "." = true
        · have hle := readDotted_length_le rest (path ++ t.text ++ utf8 ".")
          rw [readDotted, if_pos (by simpa using ht), if_pos hdot]
          exact .inr (Nat.lt_succ_of_le hle)
        · exact .inl (by simp [readDotted, ht, hdot])
  | @more t dot ts more rest ht hdot _ ih =>
      rw [readDotted, if_pos (by simpa using ht), if_pos hdot]
      simpa using ih (path ++ t.text ++ utf8 ".")

section Require

variable {t bracket : Token} (ht : t.isWord "require" = true)
  (hbracket : bracket.isPunctuator "(" = true)

include ht hbracket

theorem readTarget_quoted {s : Token} (hs : s.kind = .string) (ts : List Token) :
    readTarget (t :: bracket :: s :: ts) =
      (s.contents, if ts.head?.any (·.isPunctuator ")") then ts.tail else ts) := by
  have hquoted : (s :: ts).head?.any (·.kind == .string) = true := by simp [hs]
  rw [readTarget, if_pos (by simp [ht, hbracket]), hquoted]
  rfl

theorem readTarget_bare (hts : ts.head?.any (·.kind == .string) = false) :
    readTarget (t :: bracket :: ts) =
      ([], if ts.head?.any (·.isPunctuator ")") then ts.tail else ts) := by
  rw [readTarget, if_pos (by simp [ht, hbracket]), hts]
  rfl

theorem readTarget_length_le_of_require (ts : List Token) :
    (readTarget (t :: bracket :: ts)).2.length ≤ ts.length := by
  cases hts : ts.head?.any (·.kind == .string) with
  | false =>
      rw [readTarget_bare ht hbracket hts]
      exact (ite_tail_suffix _ ts).length_le
  | true =>
      rcases ts with _ | ⟨s, ts⟩
      · cases hts
      · rw [readTarget_quoted ht hbracket (by simpa using hts)]
        exact Nat.le_succ_of_le (ite_tail_suffix _ ts).length_le

end Require

theorem readTarget_of_dotted {path : Bytes} (h : Dotted ts path rest) :
    readTarget ts = (path, rest) ∨ (readTarget ts).2.length < rest.length := by
  by_cases hcall : ∃ t bracket after, t.isWord "require" = true ∧
      bracket.isPunctuator "(" = true ∧ ts = t :: bracket :: after
  · obtain ⟨t, bracket, after, ht, hbracket, rfl⟩ := hcall
    have hle := readTarget_length_le_of_require ht hbracket after
    refine .inr (Nat.lt_of_le_of_lt hle ?_)
    -- A path stops in front of the bracket at the latest.
    cases h with
    | nothing => simp only [List.length_cons]; omega
    | name => simp only [List.length_cons]; omega
    | more _ hdot => simp [Token.isPunctuator_ne hdot (n := "(") (by decide)] at hbracket
  · have hpath : readTarget ts = readDotted ts [] := by
      unfold readTarget
      split
      · next t bracket after =>
        refine if_neg fun hboth => hcall ?_
        rw [Bool.and_eq_true] at hboth
        exact ⟨t, bracket, after, hboth.1, hboth.2, rfl⟩
      · rfl
    rw [hpath]
    simpa using readDotted_of_dotted h []

theorem readTarget_of_target {source : Bytes} (h : Target ts source rest) :
    readTarget ts = (source, rest) ∨ (readTarget ts).2.length < rest.length := by
  cases h with
  | @bare t bracket ts _ ht hbracket hclose =>
      cases hts : ts.head?.any (·.kind == .string) with
      | false =>
          rw [readTarget_bare ht hbracket hts]
          rcases readOptional_of_optional hclose with hread | hread
          · exact .inl (by rw [hread])
          · exact .inr hread
      | true =>
          rcases ts with _ | ⟨s, ts⟩
          · cases hts
          · have hs : s.kind = .string := by simpa using hts
            rw [readTarget_quoted ht hbracket hs]
            cases hclose with
            | missing => exact .inr (Nat.lt_succ_of_le (ite_tail_suffix _ ts).length_le)
            | present hclose => simp [Token.isPunctuator_eq_false, hs] at hclose
  | quoted ht hbracket hs hclose =>
      rw [readTarget_quoted ht hbracket hs]
      rcases readOptional_of_optional hclose with hread | hread
      · exact .inl (by rw [hread])
      · exact .inr hread
  | path hdotted => exact readTarget_of_dotted hdotted

theorem dropEnding_semicolon {t : Token} (ht : t.isPunctuator ";" = true) (rest : List Token) :
    dropEnding (t :: rest) = rest := by
  have hkind := (Token.isPunctuator_iff.mp ht).1
  cases rest with
  | nil => simp [dropEnding, ht]
  | cons u rest => simp [dropEnding, Token.isWord, hkind, ht]

theorem dropEnding_attributes {t brace : Token}
    (ht : t.isWord "with" = true ∨ t.isWord "assert" = true)
    (hbrace : brace.isPunctuator "\x7b" = true) (ts : List Token) :
    dropEnding (t :: brace :: ts) =
      if (dropBraced ts).head?.any (·.isPunctuator ";") then (dropBraced ts).tail
      else dropBraced ts := by
  simp [dropEnding, ht, hbrace]

theorem dropBraced_unclosed (h : ∀ t ∈ ts, ¬ t.isPunctuator "\x7d") : dropBraced ts = [] := by
  have hdrop := dropBraced_append ts []
  rwa [List.append_nil, if_neg (by simpa using h)] at hdrop

theorem Attributes.dropEnding_eq (h : Attributes ts left) :
    dropEnding ts = if left.head?.any (·.isPunctuator ";") then left.tail else left := by
  cases h with
  | closed ht hbrace hinner hu =>
      rw [dropEnding_attributes ht hbrace, dropBraced_closed hinner hu]
  | unclosed ht hbrace hinner =>
      rw [dropEnding_attributes ht hbrace, dropBraced_unclosed hinner]

theorem dropEnding_of_ending (h : Ending ts rest) :
    dropEnding ts = rest ∨ (dropEnding ts).length < rest.length := by
  cases h with
  | plain hsemicolon =>
      cases hsemicolon with
      | missing =>
          rcases Nat.lt_or_eq_of_le (dropEnding_length_le ts) with hlt | heq
          · exact .inr hlt
          · exact .inl ((dropEnding_suffix ts).eq_of_length heq)
      | present ht => exact .inl (dropEnding_semicolon ht rest)
  | attributes hattributes hsemicolon =>
      rw [hattributes.dropEnding_eq]
      exact readOptional_of_optional hsemicolon

theorem longestTarget_iff {source : Bytes} :
    LongestTarget ts source rest ↔ readTarget ts = (source, rest) := by
  constructor
  · rintro ⟨htarget, hlongest⟩
    have hle := hlongest _ _ (target_readTarget ts)
    exact (readTarget_of_target htarget).resolve_right (Nat.not_lt_of_le hle)
  · intro hread
    have htarget := target_readTarget ts
    rw [hread] at htarget
    refine ⟨htarget, fun other left hother => ?_⟩
    rcases readTarget_of_target hother with heq | hlt
    · obtain ⟨-, rfl⟩ := Prod.mk.inj (hread.symm.trans heq)
      exact Nat.le_refl _
    · rw [hread] at hlt
      exact Nat.le_of_lt hlt

theorem longestEnding_iff : LongestEnding ts rest ↔ dropEnding ts = rest := by
  constructor
  · rintro ⟨hending, hlongest⟩
    have hle := hlongest _ (ending_dropEnding ts)
    exact (dropEnding_of_ending hending).resolve_right (Nat.not_lt_of_le hle)
  · rintro rfl
    refine ⟨ending_dropEnding ts, fun left hother => ?_⟩
    rcases dropEnding_of_ending hother with heq | hlt
    · exact Nat.le_of_eq (congrArg List.length heq)
    · exact Nat.le_of_lt hlt

/-! ### Declarations -/

/-- Reads a declaration that introduces names, after its modifier. -/
def readBody (line : Nat) (typeOnly : Bool) (ts : List Token) : Contents × List Token :=
  let nothing : Contents := ⟨[], typeOnly, []⟩
  match readClause line ts with
  | (none, rest) => (nothing, rest)
  | (some bs, rest) =>
    if bs.any (·.kind == .assigned) then
      let target := readTarget rest
      (⟨target.1, typeOnly, markTypeOnly typeOnly bs⟩, dropEnding target.2)
    else match rest with
      | [] => (nothing, [])
      | t :: after =>
        if t.isWord "from" then
          match after with
          | [] => (nothing, [])
          | s :: after =>
            if s.kind == .string then
              (⟨s.contents, typeOnly, markTypeOnly typeOnly bs⟩, dropEnding after)
            else (nothing, s :: after)
        else (nothing, t :: after)

theorem readContents_eq (h : ts.head?.any (·.kind == .string) = false) (line : Nat) :
    readContents line ts =
      readBody line (isTypeModifier ts) (if isTypeModifier ts then ts.tail else ts) := by
  rw [readContents, if_neg (by simp [h])]
  rfl

theorem markTypeOnly_eq (typeOnly : Bool) (bs : List Binding) :
    markTypeOnly typeOnly bs =
      bs.map fun b => { b with typeOnly := typeOnly || b.typeOnly } := by
  cases typeOnly <;> simp [markTypeOnly]

theorem longest_of_readBody (h : readBody line typeOnly ts = (c, rest)) (hne : c.bindings ≠ []) :
    BodyLongest line typeOnly ts c rest := by
  unfold readBody at h
  dsimp only at h
  split at h
  · cases h
    exact absurd rfl hne
  · next bs left hread =>
    rcases clause_of_readClause hread with hclause | ⟨name, equals, hname, hequals, rfl, rfl⟩
    · rw [if_neg (by simp [hclause.not_assigned])] at h
      rcases left with _ | ⟨word, left⟩
      · cases h
        exact absurd rfl hne
      · simp only at h
        split at h
        · next hfrom =>
          rcases left with _ | ⟨source, left⟩
          · cases h
            exact absurd rfl hne
          · simp only [beq_iff_eq] at h
            split at h
            · next hsource =>
              cases h
              rw [markTypeOnly_eq]
              exact .clause hclause hfrom hsource (longestEnding_iff.mpr rfl)
            · cases h
              exact absurd rfl hne
        · cases h
          exact absurd rfl hne
    · rw [if_pos (by simp)] at h
      cases h
      have htarget : LongestTarget left (readTarget left).1 (readTarget left).2 :=
        longestTarget_iff.mpr rfl
      have hbody : BodyLongest line typeOnly (name :: equals :: left) _ _ :=
        .assigned hname hequals htarget (longestEnding_iff.mpr rfl)
      simpa [markTypeOnly_eq] using hbody

theorem readBody_of_body (h : Body line typeOnly ts c rest) :
    (readBody line typeOnly ts).1.bindings = c.bindings ∧
      (readBody line typeOnly ts).1.typeOnly = c.typeOnly ∧
      ((∀ b ∈ c.bindings, b.kind ≠ .assigned) →
        (readBody line typeOnly ts).1.source = c.source) := by
  cases h with
  | assigned hname hequals _ _ =>
      simp [readBody, readClause, hname, hequals, binding, markTypeOnly_eq]
  | clause hclause hfrom hsource _ =>
      have hread := readClause_of_clause hclause (Token.isWord_iff.mp hfrom).1
      simp [readBody, hread, hclause.not_assigned, hfrom, hsource, markTypeOnly_eq]

theorem readBody_of_longest (h : BodyLongest line typeOnly ts c rest) :
    readBody line typeOnly ts = (c, rest) := by
  cases h with
  | assigned hname hequals htarget hending =>
      simp [readBody, readClause, hname, hequals, binding, markTypeOnly_eq,
        longestTarget_iff.mp htarget, longestEnding_iff.mp hending]
  | clause hclause hfrom hsource hending =>
      have hread := readClause_of_clause hclause (Token.isWord_iff.mp hfrom).1
      simp [readBody, hread, hclause.not_assigned, hfrom, hsource, markTypeOnly_eq,
        longestEnding_iff.mp hending]

/-- What introduces names does not start with a string. -/
theorem BodyBy.head_not_string (h : BodyBy target ending line typeOnly ts c rest) :
    ts.head?.any (·.kind == .string) = false := by
  cases h with
  | assigned hname _ _ _ => simp [hname]
  | clause hclause _ _ _ =>
      cases hclause with
      | name hkind => simp [hkind]
      | both hkind _ _ => simp [hkind]
      | exports hexports =>
          obtain ⟨t, after, rfl, hkind⟩ := hexports.exists_head
          simp [hkind]

/-- A declaration that introduces names is read by the longest rules. -/
theorem longest_of_readContents {keyword : Token} (hkeyword : keyword.isWord "import" = true)
    (h : readContents keyword.line ts = (c, rest))
    (hne : c.bindings ≠ []) : DerivesLongest (keyword :: ts) c rest := by
  cases hstring : ts.head?.any (·.kind == .string) with
  | true =>
      rw [readContents, if_pos hstring] at h
      cases h
      exact absurd rfl hne
  | false =>
      rw [readContents_eq hstring] at h
      cases htype : isTypeModifier ts with
      | true =>
          obtain ⟨t, ts, rfl, ht, hfollows⟩ := (isTypeModifier_iff ts).mp htype
          simp only [htype, if_true, List.tail_cons] at h
          exact .typed hkeyword ht hfollows (longest_of_readBody h hne)
      | false =>
          simp only [htype, Bool.false_eq_true, if_false] at h
          refine .plain hkeyword (fun hmodified => ?_) (longest_of_readBody h hne)
          simp [(isTypeModifier_iff ts).mpr hmodified] at htype

theorem derives_of_readContents {keyword : Token} (hkeyword : keyword.isWord "import" = true)
    (h : readContents keyword.line ts = (c, rest))
    (hne : c.bindings ≠ []) : Derives (keyword :: ts) c rest :=
  (longest_of_readContents hkeyword h hne).derives

/-- A derivation and the reader take the same tokens for the body of a declaration. -/
theorem DerivesBy.exists_readBody {keyword : Token}
    (h : DerivesBy target ending (keyword :: ts) c rest) :
    ∃ typeOnly body, BodyBy target ending keyword.line typeOnly body c rest ∧
      readContents keyword.line ts = readBody keyword.line typeOnly body := by
  cases h with
  | @typed _ t ts _ _ _ ht hfollows hbody =>
      have htype : isTypeModifier (t :: ts) = true :=
        (isTypeModifier_iff _).mpr ⟨t, ts, rfl, ht, hfollows⟩
      have hstring : (t :: ts).head?.any (·.kind == .string) = false := by
        simp [(Token.isWord_iff.mp ht).1]
      exact ⟨true, ts, hbody, by rw [readContents_eq hstring, htype]; rfl⟩
  | plain _ hplain hbody =>
      have htype : isTypeModifier ts = false :=
        Bool.eq_false_iff.mpr (mt (isTypeModifier_iff ts).mp hplain)
      exact ⟨false, ts, hbody, by rw [readContents_eq hbody.head_not_string, htype]; rfl⟩

/-- Whatever part of the tokens a derivation covers, it says which names are introduced. It says the
module too, but it may stop inside the target of an assignment. -/
theorem readContents_of_derives {keyword : Token} (h : Derives (keyword :: ts) c rest) :
    (readContents keyword.line ts).1.bindings = c.bindings ∧
      (readContents keyword.line ts).1.typeOnly = c.typeOnly ∧
      ((∀ b ∈ c.bindings, b.kind ≠ .assigned) →
        (readContents keyword.line ts).1.source = c.source) := by
  obtain ⟨typeOnly, body, hbody, hread⟩ := h.exists_readBody
  rw [hread]
  exact readBody_of_body hbody

/-- By the longest rules there is no derivation but the one that is read. -/
theorem readContents_of_longest {keyword : Token} (h : DerivesLongest (keyword :: ts) c rest) :
    readContents keyword.line ts = (c, rest) := by
  obtain ⟨typeOnly, body, hbody, hread⟩ := h.exists_readBody
  rw [hread, readBody_of_longest hbody]

end Import

/-- The tokens that a declaration starts from, its keyword among them, and those behind it. -/
theorem exists_split_of_mem_importsOf {tokens : List Token} {d : Declaration}
    (h : d ∈ importsOf tokens) :
    ∃ keyword ts, keyword.isWord "import" = true ∧ tokens.drop d.start = keyword :: ts ∧
      Import.readContents keyword.line ts =
        (⟨d.source, d.typeOnly, d.bindings⟩, tokens.drop d.stop) := by
  obtain ⟨front, keyword, ts, rfl, himport, rfl⟩ := exists_keyword_of_mem_importsOf h
  refine ⟨keyword, ts, ?_, by simp [Import.declarationOf], ?_⟩
  · simp only [Import.isImport, Import.isStatementWord, Bool.and_eq_true] at himport
    exact himport.1.1
  · obtain ⟨read, hread⟩ := Import.readContents_suffix keyword.line ts
    have hdrop : (front ++ keyword :: ts).drop (Import.declarationOf front keyword ts).stop =
        (Import.readContents keyword.line ts).2 := by
      have hlength := congrArg List.length hread
      simp only [List.length_append] at hlength
      have hstop : (Import.declarationOf front keyword ts).stop =
          front.length + (read.length + 1) := by
        simp only [Import.declarationOf]
        omega
      have hbehind : (read ++ (Import.readContents keyword.line ts).2).drop read.length =
          (Import.readContents keyword.line ts).2 := List.drop_left
      rw [hread] at hbehind
      rw [hstop, List.drop_length_add_append, List.drop_succ_cons, hbehind]
    rw [hdrop]
    rfl

/-- A declaration introduces names exactly if the tokens from its keyword on derive one that does,
it introduces what every derivation says, and the tokens it covers are a derivation: the only one
whose target and ending are the longest. -/
theorem importsOf_derives (tokens : List Token) (d : Declaration) (h : d ∈ importsOf tokens) :
    (d.bindings ≠ [] ↔
        ∃ c rest, Import.Derives (tokens.drop d.start) c rest ∧ c.bindings ≠ []) ∧
      (∀ c rest, Import.Derives (tokens.drop d.start) c rest →
        d.bindings = c.bindings ∧ d.typeOnly = c.typeOnly ∧
          ((∀ b ∈ c.bindings, b.kind ≠ .assigned) → d.source = c.source)) ∧
      (d.bindings ≠ [] → Import.Derives (tokens.drop d.start) ⟨d.source, d.typeOnly, d.bindings⟩
        (tokens.drop d.stop)) ∧
      (d.bindings ≠ [] → Import.DerivesLongest (tokens.drop d.start)
        ⟨d.source, d.typeOnly, d.bindings⟩ (tokens.drop d.stop)) ∧
      ∀ c rest, Import.DerivesLongest (tokens.drop d.start) c rest →
        c = ⟨d.source, d.typeOnly, d.bindings⟩ ∧ rest = tokens.drop d.stop := by
  obtain ⟨keyword, ts, hkeyword, hstart, hread⟩ := exists_split_of_mem_importsOf h
  rw [hstart]
  have hlongest : d.bindings ≠ [] → Import.DerivesLongest (keyword :: ts)
      ⟨d.source, d.typeOnly, d.bindings⟩ (tokens.drop d.stop) := fun hne =>
    Import.longest_of_readContents hkeyword hread hne
  have hcomplete : ∀ c rest, Import.Derives (keyword :: ts) c rest →
      d.bindings = c.bindings ∧ d.typeOnly = c.typeOnly ∧
        ((∀ b ∈ c.bindings, b.kind ≠ .assigned) → d.source = c.source) := by
    intro c rest hderives
    simpa only [hread] using Import.readContents_of_derives hderives
  have honly : ∀ c rest, Import.DerivesLongest (keyword :: ts) c rest →
      c = ⟨d.source, d.typeOnly, d.bindings⟩ ∧ rest = tokens.drop d.stop := by
    intro c rest hderives
    exact Prod.mk.inj ((Import.readContents_of_longest hderives).symm.trans hread)
  refine ⟨⟨fun hne => ⟨_, _, (hlongest hne).derives, hne⟩, ?_⟩, hcomplete,
    fun hne => (hlongest hne).derives, hlongest, honly⟩
  rintro ⟨c, rest, hderives, hne⟩
  rwa [(hcomplete c rest hderives).1]

/-- `import type, { type as as, 'k' as type, type from, } from 'm'; x`, with `type`, `as` and `from`
as names and as keywords. -/
def sampleTokens : List Token :=
  ([(.identifier, "import"), (.identifier, "type"), (.punctuation, ","), (.punctuation, "\x7b"),
    (.identifier, "type"), (.identifier, "as"), (.identifier, "as"), (.punctuation, ","),
    (.string, "'k'"), (.identifier, "as"), (.identifier, "type"), (.punctuation, ","),
    (.identifier, "type"), (.identifier, "from"), (.punctuation, ","), (.punctuation, "\x7d"),
    (.identifier, "from"), (.string, "'m'"), (.punctuation, ";"), (.identifier, "x")] :
      List (TokenKind × String)).zipIdx.map
    fun ((kind, text), i) => ⟨⟨i, 1, i + 1⟩, kind, utf8 text⟩

def sampleDeclaration : Declaration :=
  ⟨⟨0, 19⟩, 1, utf8 "m", false,
    [⟨utf8 "type", utf8 "default", .defaultExport, false, 1, 1, 2⟩,
     ⟨utf8 "as", utf8 "type", .named, false, 1, 1, 7⟩,
     ⟨utf8 "type", utf8 "k", .named, false, 1, 1, 11⟩,
     ⟨utf8 "from", utf8 "from", .named, true, 1, 1, 14⟩]⟩

theorem sampleDeclaration_mem : sampleDeclaration ∈ importsOf sampleTokens := by decide +kernel

theorem importsOf_derives_sample :
    sampleDeclaration ∈ importsOf sampleTokens ∧ sampleDeclaration.bindings ≠ [] ∧
      Import.Derives (sampleTokens.drop sampleDeclaration.start)
        ⟨sampleDeclaration.source, sampleDeclaration.typeOnly, sampleDeclaration.bindings⟩
        (sampleTokens.drop sampleDeclaration.stop) :=
  ⟨sampleDeclaration_mem, List.cons_ne_nil _ _,
    (importsOf_derives sampleTokens sampleDeclaration sampleDeclaration_mem).2.2.1
      (List.cons_ne_nil _ _)⟩

end UnusedImports
