import UnusedImports.Proofs.Import.Derivation
import UnusedImports.Proofs.Reexport.Spans

/-! The search for re-exports gives up a keyword as soon as none can follow it, and goes on right
behind that keyword. -/

namespace UnusedImports

theorem Token.isWord_ne {t : Token} {v w : String} (h : t.isWord v = true) (hne : utf8 v ≠ utf8 w) :
    t.isWord w = false := by
  rw [isWord_iff] at h
  simp [isWord, h.2, hne]

theorem Token.not_isPunctuator_of_identifier {t : Token} (h : t.kind = .identifier) (m : String) :
    ¬ t.isPunctuator m = true := by
  simp [isPunctuator, h]

namespace Reexport

/-! ### Clauses -/

/-- The word `type`, which may be missing. -/
inductive Modifier : List Token → Prop where
  | missing : Modifier []
  | type {t} : t.isWord "type" → Modifier [t]

/-- Braces around any tokens but a closing brace, or a star that may be given a name. The name is
one token of any kind. -/
inductive Exports : List Token → Prop where
  | braces {opening inner closing} : opening.isPunctuator "\x7b" →
      (∀ t ∈ inner, ¬ t.isPunctuator "\x7d") → closing.isPunctuator "\x7d" →
      Exports (opening :: (inner ++ [closing]))
  | star {star} : star.isPunctuator "*" → Exports [star]
  | renamed {star as name} : star.isPunctuator "*" → as.isWord "as" → Exports [star, as, name]

/-- `export type? Exports from STRING`, given the token in front: `export` after a dot is the name
of a property. -/
inductive Clause (before : Option Token) : List Token → Prop where
  | intro {keyword modifier exports word source} : keyword.isWord "export" →
      (∀ p ∈ before, ¬ p.isPunctuator "." ∧ ¬ p.isPunctuator "?.") → Modifier modifier →
      Exports exports → word.isWord "from" → source.kind = .string →
      Clause before (keyword :: (modifier ++ (exports ++ [word, source])))

/-- A span of a token list covers the tokens of a re-export. -/
def IsClauseAt (tokens : List Token) (r : Span) : Prop :=
  ∃ front clause back, tokens = front ++ (clause ++ back) ∧ Clause front.getLast? clause ∧
    r = ⟨front.length, front.length + clause.length⟩

/-! ### Reading a clause -/

/-- Exports with `from` behind them are read as the rule says. -/
theorem dropExports?_eq_some_iff {ts after : List Token} {word : Token}
    (hword : word.isWord "from" = true) :
    dropExports? ts = some (word :: after) ↔
      ∃ exports, Exports exports ∧ ts = exports ++ word :: after := by
  constructor
  · intro h
    unfold dropExports? at h
    split at h
    · contradiction
    · next t rest =>
      split at h
      · next hopening =>
        injection h with h
        obtain ⟨inner, hinner, ⟨closing, hclosing, heq⟩ | ⟨_, hnil⟩⟩ :=
          Import.dropBraced_spec rest
        · exact ⟨t :: (inner ++ [closing]), .braces hopening hinner hclosing, by
            rw [heq, h]
            simp⟩
        · rw [h] at hnil
          cases hnil
      · split at h
        · next hstar =>
          injection h with h
          split at h
          · next has =>
            rcases rest with _ | ⟨as, _ | ⟨name, rest⟩⟩
            · cases has
            · cases h
            · have hrest : rest = word :: after := h
              exact ⟨[t, as, name], .renamed hstar has, by rw [hrest]; rfl⟩
          · exact ⟨[t], .star hstar, by rw [h]; rfl⟩
        · contradiction
  · rintro ⟨exports, hexports, rfl⟩
    cases hexports with
    | @braces opening inner closing hopening hinner hclosing =>
        rw [List.cons_append, List.append_assoc, dropExports?, if_pos hopening,
          List.singleton_append, Import.dropBraced_closed hinner hclosing]
    | @star star hstar =>
        have hbrace := Token.isPunctuator_ne (n := "\x7b") hstar (by decide)
        have has := Token.isWord_ne (w := "as") hword (by decide)
        simp [dropExports?, hstar, hbrace, has]
    | @renamed star as name hstar has =>
        have hbrace := Token.isPunctuator_ne (n := "\x7b") hstar (by decide)
        simp [dropExports?, hstar, hbrace, has]

theorem Exports.head {exports : List Token} (h : Exports exports) :
    ∃ t more, exports = t :: more ∧ t.kind = .punctuation := by
  cases h with
  | @braces opening inner closing hopening =>
      exact ⟨opening, inner ++ [closing], rfl, (Token.isPunctuator_iff.mp hopening).1⟩
  | @star star hstar => exact ⟨star, [], rfl, (Token.isPunctuator_iff.mp hstar).1⟩
  | @renamed star as name hstar =>
      exact ⟨star, [as, name], rfl, (Token.isPunctuator_iff.mp hstar).1⟩

/-- The modifier is read as the rule says, because no exports start with a word. -/
theorem drop_modifier {modifier exports : List Token} (hmodifier : Modifier modifier)
    (hexports : Exports exports) (rest : List Token) :
    (if (modifier ++ (exports ++ rest)).head?.any (·.isWord "type") then
        (modifier ++ (exports ++ rest)).tail
      else modifier ++ (exports ++ rest)) = exports ++ rest := by
  cases hmodifier with
  | missing =>
      obtain ⟨t, more, rfl, hkind⟩ := hexports.head
      have htype : t.isWord "type" = false := Token.isWord_eq_false (by simp [hkind]) "type"
      simp [htype]
  | type htype => simp [htype]

theorem exists_modifier (ts : List Token) :
    ∃ modifier, Modifier modifier ∧
      ts = modifier ++ if ts.head?.any (·.isWord "type") then ts.tail else ts := by
  rcases ts with _ | ⟨t, ts⟩
  · exact ⟨[], .missing, rfl⟩
  · by_cases ht : t.isWord "type" = true
    · exact ⟨[t], .type ht, by simp [ht]⟩
    · exact ⟨[], .missing, by simp [ht]⟩

theorem dropClause?_eq_some_iff {ts after : List Token} :
    dropClause? ts = some after ↔
      ∃ modifier exports word source, Modifier modifier ∧ Exports exports ∧
        word.isWord "from" ∧ source.kind = .string ∧
        ts = modifier ++ (exports ++ word :: source :: after) := by
  constructor
  · intro h
    unfold dropClause? at h
    split at h
    · next word source rest hexports =>
      split at h
      · next hmodule =>
        injection h with h
        simp only [Bool.and_eq_true, beq_iff_eq] at hmodule
        obtain ⟨modifier, hmodifier, hts⟩ := exists_modifier ts
        obtain ⟨exports, hexports, heq⟩ := (dropExports?_eq_some_iff hmodule.1).mp hexports
        refine ⟨modifier, exports, word, source, hmodifier, hexports, hmodule.1, hmodule.2, ?_⟩
        rw [hts, heq, h]
      · contradiction
    · contradiction
  · rintro ⟨modifier, exports, word, source, hmodifier, hexports, hword, hsource, rfl⟩
    rw [dropClause?, drop_modifier hmodifier hexports,
      (dropExports?_eq_some_iff hword).mpr ⟨exports, hexports, rfl⟩]
    simp [hword, hsource]

theorem isStatementWord_iff {before : Option Token} {t : Token} {word : String} :
    Import.isStatementWord word before t = true ↔ t.isWord word = true ∧
      ∀ p ∈ before, ¬ p.isPunctuator "." = true ∧ ¬ p.isPunctuator "?." = true := by
  cases before with
  | none => simp [Import.isStatementWord]
  | some p => simp [Import.isStatementWord]

/-- The rule of the walk finds the clauses of the grammar. -/
theorem clause?_eq_some_iff {passed rest after : List Token} {t : Token} {r : Span} :
    clause? passed t rest = some (r, after) ↔
      ∃ read, rest = read ++ after ∧ Clause passed.getLast? (t :: read) ∧
        r = ⟨passed.length, passed.length + (t :: read).length⟩ := by
  constructor
  · intro h
    unfold clause? at h
    split at h
    · next hkeyword =>
      obtain ⟨hword, hbefore⟩ := isStatementWord_iff.mp hkeyword
      obtain ⟨left, hleft, hr⟩ := Option.map_eq_some_iff.mp h
      obtain ⟨rfl, rfl⟩ := Prod.mk.inj hr
      obtain ⟨modifier, exports, word, source, hmodifier, hexports, hfrom, hsource, rfl⟩ :=
        dropClause?_eq_some_iff.mp hleft
      refine ⟨modifier ++ (exports ++ [word, source]), by simp,
        .intro hword hbefore hmodifier hexports hfrom hsource, ?_⟩
      simp only [List.length_append, List.length_cons, List.length_nil, Span.mk.injEq, true_and]
      omega
    · contradiction
  · rintro ⟨read, rfl, hclause, rfl⟩
    generalize hts : t :: read = ts at hclause
    cases hclause with
    | @intro keyword modifier exports word source hword hbefore hmodifier hexports hfrom hsource =>
        obtain ⟨rfl, rfl⟩ := List.cons.inj hts
        have hdrop : dropClause? (modifier ++ (exports ++ [word, source]) ++ after) = some after :=
          dropClause?_eq_some_iff.mpr ⟨modifier, exports, word, source, hmodifier, hexports,
            hfrom, hsource, by simp⟩
        rw [clause?, if_pos (isStatementWord_iff.mpr ⟨hword, hbefore⟩), hdrop]
        simp only [List.length_append, List.length_cons, List.length_nil, Option.map_some,
          Option.some.injEq, Prod.mk.injEq, Span.mk.injEq, true_and, and_true]
        omega

end Reexport

/-! ### Which clauses are found -/

open Reexport

theorem isClauseAt_of_mem {tokens : List Token} {r : Span} (h : r ∈ reexportsOf tokens) :
    IsClauseAt tokens r := by
  obtain ⟨front, t, rest, after, hsplit, hfound⟩ := (reexportsOf_walk tokens).exists_of_mem h
  obtain ⟨read, rfl, hclause, hr⟩ := clause?_eq_some_iff.mp hfound
  exact ⟨front, t :: read, after, by simpa using hsplit, hclause, hr⟩

theorem mem_reexportsOf_of_isClauseAt {tokens : List Token} {r : Span} (h : IsClauseAt tokens r)
    (hfree : ∀ s ∈ reexportsOf tokens, s.start < r.start → ¬ s.Covers r.start) :
    r ∈ reexportsOf tokens := by
  obtain ⟨front, clause, back, hsplit, hclause, rfl⟩ := h
  obtain ⟨t, read, rfl⟩ : ∃ t read, clause = t :: read := by
    cases hclause
    exact ⟨_, _, rfl⟩
  exact (reexportsOf_walk tokens).mem_of_item clause?_places (by simpa using hsplit)
    (Nat.zero_le _) (clause?_eq_some_iff.mpr ⟨read, rfl, hclause, rfl⟩) hfree

/-! ### Exports without a module -/

namespace Reexport

/-- `export type? { names }` with no module behind it, given the tokens that follow. A name may be
any token but a closing brace and a star. -/
inductive LocalExport (back : List Token) : List Token → Prop where
  | intro {keyword modifier opening names closing} : keyword.isWord "export" → Modifier modifier →
      opening.isPunctuator "\x7b" →
      (∀ t ∈ names, ¬ t.isPunctuator "\x7d" ∧ ¬ t.isPunctuator "*") →
      closing.isPunctuator "\x7d" →
      (∀ word source after, back = word :: source :: after → word.isWord "from" →
        source.kind ≠ .string) →
      LocalExport back (keyword :: (modifier ++ (opening :: (names ++ [closing]))))

/-- The token at an index exists and has a property. -/
def Has (tokens : List Token) (i : Nat) (p : Token → Prop) : Prop := ∃ t, tokens[i]? = some t ∧ p t

variable {tokens front ts back : List Token} {i : Nat} {p q : Token → Prop}

theorem Has.elim (h : Has tokens i p) (hnot : Has tokens i q) (hpq : ∀ t, p t → ¬ q t) : False := by
  obtain ⟨t, ht, hp⟩ := h
  obtain ⟨u, hu, hq⟩ := hnot
  rw [ht] at hu
  injection hu with hu
  exact hpq t hp (hu ▸ hq)

theorem has_of_forall (hsplit : tokens = front ++ (ts ++ back)) (h : ∀ t ∈ ts, p t)
    (hfrom : front.length ≤ i) (hto : i < front.length + ts.length) : Has tokens i p := by
  have hi : i - front.length < ts.length := by omega
  refine ⟨ts[i - front.length], ?_, h _ (List.getElem_mem hi)⟩
  rw [hsplit, List.getElem?_append_right hfrom, List.getElem?_append_left hi]
  exact List.getElem?_eq_getElem hi

theorem has_add {t : Token} {k : Nat} (hsplit : tokens = front ++ ts) (hk : ts[k]? = some t)
    (h : p t) : Has tokens (front.length + k) p :=
  ⟨t, by rw [hsplit, List.getElem?_append_right (by omega), Nat.add_sub_cancel_left, hk], h⟩

theorem Modifier.kind {modifier : List Token} (h : Modifier modifier) :
    modifier.length ≤ 1 ∧ ∀ t ∈ modifier, t.kind = .identifier := by
  cases h with
  | missing => simp
  | type ht => simpa using (Token.isWord_iff.mp ht).1

/-- A clause ends three tokens behind its first closing brace, or soon behind a star. -/
theorem IsClauseAt.has {r : Span} (h : IsClauseAt tokens r) :
    (∃ stop, r.stop = stop + 3 ∧ (∀ i, r.start ≤ i → i < stop →
        Has tokens i fun t => ¬ t.isPunctuator "\x7d") ∧
      Has tokens stop (·.isPunctuator "\x7d") ∧ Has tokens (stop + 1) (·.isWord "from") ∧
      Has tokens (stop + 2) (·.kind = .string)) ∨
    ∃ star, star ≤ r.start + 2 ∧
      (∀ i, r.start ≤ i → i < star → Has tokens i (·.kind = .identifier)) ∧
      Has tokens star (·.isPunctuator "*") ∧
      ((r.stop = star + 3 ∧ Has tokens (star + 1) (·.isWord "from") ∧
          Has tokens (star + 2) (·.kind = .string)) ∨
        (r.stop = star + 5 ∧ Has tokens (star + 1) (·.isWord "as") ∧
          Has tokens (star + 3) (·.isWord "from") ∧ Has tokens (star + 4) (·.kind = .string))) := by
  obtain ⟨front, clause, back, hsplit, hclause, rfl⟩ := h
  cases hclause with
  | @intro keyword modifier exports word source hkeyword hbefore hmodifier hexports hfrom hsource =>
    obtain ⟨hlength, hkind⟩ := hmodifier.kind
    have hwords : ∀ t ∈ keyword :: modifier, t.kind = .identifier :=
      List.forall_mem_cons.mpr ⟨(Token.isWord_iff.mp hkeyword).1, hkind⟩
    have hwhole : tokens = front ++ ((keyword :: modifier) ++
        (exports ++ word :: source :: back)) := by simp [hsplit]
    have hbehind : tokens = (front ++ keyword :: modifier) ++
        (exports ++ word :: source :: back) := by simp [hsplit]
    have hnear : (front ++ keyword :: modifier).length ≤ front.length + 2 := by
      simp only [List.length_append, List.length_cons]
      omega
    have hbefore : ∀ i, front.length ≤ i → i < (front ++ keyword :: modifier).length →
        Has tokens i (·.kind = .identifier) := fun i hi hstar =>
      has_of_forall hwhole hwords hi (by simpa using hstar)
    have hstop : front.length + (keyword :: (modifier ++ (exports ++ [word, source]))).length =
        (front ++ keyword :: modifier).length + exports.length + 2 := by
      simp only [List.length_append, List.length_cons, List.length_nil]
      omega
    cases hexports with
    | @braces opening inner closing hopening hinner hclosing =>
        have hends : tokens = (front ++ keyword :: (modifier ++ opening :: inner)) ++
            closing :: word :: source :: back := by simp [hsplit]
        have hopen : ∀ t ∈ keyword :: modifier ++ opening :: inner,
            ¬ t.isPunctuator "\x7d" = true := by
          intro t ht
          rcases List.mem_append.mp ht with ht | ht
          · exact Token.not_isPunctuator_of_identifier (hwords t ht) _
          · rcases List.mem_cons.mp ht with rfl | ht
            · simp [Token.isPunctuator_ne (n := "\x7d") hopening (by decide)]
            · exact hinner t ht
        refine .inl ⟨_, ?_, ?_, has_add (k := 0) hends rfl hclosing, has_add hends rfl hfrom,
          has_add hends rfl hsource⟩
        · simp only [List.length_append, List.length_cons, List.length_nil]
          omega
        · intro i hi hlt
          have hinside : tokens = front ++ ((keyword :: modifier ++ opening :: inner) ++
              (closing :: word :: source :: back)) := by simp [hsplit]
          exact has_of_forall hinside hopen hi (by simpa using hlt)
    | @star star hstar =>
        exact .inr ⟨_, hnear, hbefore, has_add (k := 0) hbehind rfl hstar,
          .inl ⟨hstop, has_add hbehind rfl hfrom, has_add hbehind rfl hsource⟩⟩
    | @renamed star as name hstar has =>
        exact .inr ⟨_, hnear, hbefore, has_add (k := 0) hbehind rfl hstar,
          .inr ⟨hstop, has_add hbehind rfl has, has_add hbehind rfl hfrom,
            has_add hbehind rfl hsource⟩⟩

/-- The only closing brace of an export without a module is its last token. -/
theorem LocalExport.has {clause : List Token} (h : LocalExport back clause)
    (hsplit : tokens = front ++ (clause ++ back)) :
    ∃ last, last + 1 = front.length + clause.length ∧ (∀ i, front.length ≤ i → i < last →
        Has tokens i fun t => ¬ t.isPunctuator "\x7d" ∧ ¬ t.isPunctuator "*") ∧
      Has tokens last (·.isPunctuator "\x7d") ∧ Has tokens front.length (·.isWord "export") ∧
      Has tokens (front.length + 1) (¬ ·.isWord "from") ∧
      ¬ (Has tokens (last + 1) (·.isWord "from") ∧ Has tokens (last + 2) (·.kind = .string)) := by
  cases h with
  | @intro keyword modifier opening names closing hkeyword hmodifier hopening hnames hclosing
      hback =>
    have hinner : ∀ t ∈ keyword :: (modifier ++ opening :: names),
        ¬ t.isPunctuator "\x7d" = true ∧ ¬ t.isPunctuator "*" = true := by
      have hword : ∀ t : Token, t.kind = .identifier →
          ¬ t.isPunctuator "\x7d" = true ∧ ¬ t.isPunctuator "*" = true := fun t ht =>
        ⟨Token.not_isPunctuator_of_identifier ht _, Token.not_isPunctuator_of_identifier ht _⟩
      intro t ht
      rcases List.mem_cons.mp ht with rfl | ht
      · exact hword t (Token.isWord_iff.mp hkeyword).1
      · rcases List.mem_append.mp ht with ht | ht
        · exact hword t (hmodifier.kind.2 t ht)
        · rcases List.mem_cons.mp ht with rfl | ht
          · simp [Token.isPunctuator_ne (n := "\x7d") hopening (by decide),
              Token.isPunctuator_ne (n := "*") hopening (by decide)]
          · exact hnames t ht
    have hwhole : tokens = front ++ ((keyword :: (modifier ++ opening :: names)) ++
        closing :: back) := by simp [hsplit]
    have hends : tokens = (front ++ keyword :: (modifier ++ opening :: names)) ++
        closing :: back := by simp [hsplit]
    refine ⟨(front ++ keyword :: (modifier ++ opening :: names)).length, ?_, ?_,
      has_add (k := 0) hends rfl hclosing, has_add (k := 0) hwhole rfl hkeyword, ?_, ?_⟩
    · simp only [List.length_append, List.length_cons, List.length_nil]
      omega
    · intro i hi hlast
      exact has_of_forall hwhole hinner hi (by simpa using hlast)
    · cases hmodifier with
      | missing =>
          have hkind := (Token.isPunctuator_iff.mp hopening).1
          refine has_add (k := 1) hwhole rfl ?_
          simp [Token.isWord_eq_false (t := opening) (by simp [hkind])]
      | type ht =>
          refine has_add (k := 1) hwhole rfl ?_
          simp [Token.isWord_ne (w := "from") ht (by decide)]
    · rintro ⟨⟨word, hword, hfrom⟩, ⟨source, hsource, hkind⟩⟩
      rw [hends, List.getElem?_append_right (by omega), Nat.add_sub_cancel_left] at hword hsource
      rcases back with _ | ⟨u, _ | ⟨v, after⟩⟩
      · cases hword
      · cases hsource
      · obtain rfl : u = word := by simpa using hword
        obtain rfl : v = source := by simpa using hsource
        exact hback u v after rfl hfrom hkind

/-- No re-export covers a token of an export without a module. -/
theorem not_covers_localExport {clause : List Token} {r : Span} (hr : IsClauseAt tokens r)
    (hsplit : tokens = front ++ (clause ++ back)) (hclause : LocalExport back clause)
    (hfrom : front.length ≤ i) (hto : i < front.length + clause.length) : ¬ r.Covers i := by
  rintro ⟨hstart, hstop⟩
  obtain ⟨last, hlength, hinside, hlast, hexport, hsecond, hback⟩ := hclause.has hsplit
  have notFrom : ∀ t : Token, t.isWord "export" = true → ¬ t.isWord "from" = true := fun t ht => by
    simp [Token.isWord_ne (w := "from") ht (by decide)]
  have notAs : ∀ t : Token, t.isWord "export" = true → ¬ t.isWord "as" = true := fun t ht => by
    simp [Token.isWord_ne (w := "as") ht (by decide)]
  have notString : ∀ t : Token, t.isWord "export" = true → ¬ t.kind = .string := fun t ht => by
    simp [(Token.isWord_iff.mp ht).1]
  rcases hr.has with ⟨stop, hr, hopen, hbrace, hword, hsource⟩ |
    ⟨star, hnear, hwords, hstar, hends⟩
  · -- Both have one closing brace, and it is not the same.
    rcases Nat.lt_trichotomy last stop with hlt | rfl | hgt
    · exact hlast.elim (hopen last (by omega) hlt) fun t ht hnot => hnot ht
    · exact hback ⟨hword, hsource⟩
    · by_cases hin : front.length ≤ stop
      · exact (hinside stop hin hgt).elim hbrace fun t ht hnot => ht.1 hnot
      · obtain heq | heq : front.length = stop + 1 ∨ front.length = stop + 2 := by omega
        · exact hexport.elim (heq ▸ hword) notFrom
        · exact hexport.elim (heq ▸ hsource) notString
  · have hout : star < front.length ∨ last < star := by
      rcases Nat.lt_or_ge star front.length with hlt | hge
      · exact .inl hlt
      · rcases Nat.lt_trichotomy star last with hlt | rfl | hgt
        · exact ((hinside star hge hlt).elim hstar fun t ht hnot => ht.2 hnot).elim
        · exact (hstar.elim hlast fun t ht => by
            simp [Token.isPunctuator_ne (n := "\x7d") ht (by decide)]).elim
        · exact .inr hgt
    rcases hout with hout | hout
    · -- The clause goes on behind its star, where none of its tokens is the keyword.
      rcases hends with ⟨hr, hword, hsource⟩ | ⟨hr, has, hword, hsource⟩
      · obtain heq | heq : front.length = star + 1 ∨ front.length = star + 2 := by omega
        · exact hexport.elim (heq ▸ hword) notFrom
        · exact hexport.elim (heq ▸ hsource) notString
      · obtain heq | heq | heq | heq : front.length = star + 1 ∨ front.length = star + 2 ∨
            front.length = star + 3 ∨ front.length = star + 4 := by omega
        · exact hexport.elim (heq ▸ has) notAs
        · rw [heq] at hsecond
          exact hsecond.elim hword fun t ht hnot => ht hnot
        · exact hexport.elim (heq ▸ hword) notFrom
        · exact hexport.elim (heq ▸ hsource) notString
    · exact (hwords last (by omega) hout).elim hlast fun t ht =>
        Token.not_isPunctuator_of_identifier ht _

end Reexport

/-- The re-exports found lie in the token list one behind the other. They are the clauses of the
grammar that start outside all earlier ones, and they cover no token of an export without a
module. -/
theorem reexportsOf_clauses (tokens : List Token) :
    Span.Ordered (reexportsOf tokens) ∧ (∀ r ∈ reexportsOf tokens, r.stop ≤ tokens.length) ∧
      (∀ r, r ∈ reexportsOf tokens ↔ IsClauseAt tokens r ∧
        ∀ s ∈ reexportsOf tokens, s.start < r.start → ¬ s.Covers r.start) ∧
      ∀ front clause back, tokens = front ++ (clause ++ back) → LocalExport back clause →
        ∀ i, front.length ≤ i → i < front.length + clause.length →
          ∀ r ∈ reexportsOf tokens, ¬ r.Covers i := by
  have hordered := reexportsOf_ordered tokens
  refine ⟨hordered, ?_, ?_, ?_⟩
  · intro r hr
    obtain ⟨front, clause, back, hsplit, -, rfl⟩ := isClauseAt_of_mem hr
    simp only [hsplit, List.length_append]
    omega
  · intro r
    constructor
    · intro hr
      refine ⟨isClauseAt_of_mem hr, ?_⟩
      rintro s hs hlt ⟨-, hin⟩
      have hle := hordered.stop_le hr hs hlt
      omega
    · exact fun ⟨hclause, hfree⟩ => mem_reexportsOf_of_isClauseAt hclause hfree
  · intro front clause back hsplit hlocal i hfrom hto r hr
    exact not_covers_localExport (isClauseAt_of_mem hr) hsplit hlocal hfrom hto

/-- `export { a }; export * as b from 'm'`, an export without a module and a re-export. -/
def exportTokens : List Token :=
  ([(.identifier, "export"), (.punctuation, "\x7b"), (.identifier, "a"), (.punctuation, "\x7d"),
    (.punctuation, ";"), (.identifier, "export"), (.punctuation, "*"), (.identifier, "as"),
    (.identifier, "b"), (.identifier, "from"), (.string, "'m'")] :
      List (TokenKind × String)).zipIdx.map
    fun ((kind, text), i) => ⟨⟨i, 1, i + 1⟩, kind, utf8 text⟩

theorem reexportsOf_clauses_sample :
    LocalExport (exportTokens.drop 4) (exportTokens.take 4) ∧
      (∀ i < 4, ∀ r ∈ reexportsOf exportTokens, ¬ r.Covers i) ∧
      IsClauseAt exportTokens ⟨5, 11⟩ := by
  have hlocal : LocalExport (exportTokens.drop 4) (exportTokens.take 4) :=
    @LocalExport.intro _ _ [] _ [⟨⟨2, 1, 3⟩, .identifier, utf8 "a"⟩] _ (by decide) .missing
      (by decide) (by decide) (by decide) (by
        rintro word source after ⟨⟩ hword
        exact absurd hword (by decide))
  obtain ⟨-, -, hmem, hfree⟩ := reexportsOf_clauses exportTokens
  refine ⟨hlocal, fun i hi => ?_, ((hmem ⟨5, 11⟩).mp (by decide +kernel)).1⟩
  exact hfree [] _ _ (List.take_append_drop 4 _).symm hlocal i (Nat.zero_le i) hi

end UnusedImports
