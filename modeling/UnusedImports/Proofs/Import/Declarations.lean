import UnusedImports.Proofs.Walk

/-! Every reader leaves an end of the tokens it was given, so declarations come in order and share
no token. -/

namespace UnusedImports

namespace Import

/-! ### Readers leave a suffix -/

theorem ite_tail_suffix {α : Type} (p : Prop) [Decidable p] (l : List α) :
    (if p then l.tail else l) <:+ l := by
  split
  · exact l.tail_suffix
  · exact List.suffix_rfl

theorem readName_suffix (line : Nat) (ts : List Token) : (readName line ts).2 <:+ ts := by
  have htype := ite_tail_suffix (isInlineType ts) ts
  unfold readName
  dsimp only
  split
  · exact List.nil_suffix
  · next imported rest h =>
    rw [h] at htype
    have hrest : rest <:+ ts := (List.suffix_cons imported rest).trans htype
    have htail : rest.tail <:+ ts := rest.tail_suffix.trans hrest
    split
    · split
      · split
        · exact List.nil_suffix
        · next name after hn =>
          rw [hn] at htail
          split
          · exact (List.suffix_cons name after).trans htail
          · exact htail
      · split
        · exact hrest
        · exact hrest
    · exact htype

theorem readNames_suffix (line : Nat) (ts : List Token) (read : List Binding) :
    (readNames line ts read).2 <:+ ts := by
  fun_induction readNames line ts read with
  | case1 => exact List.suffix_rfl
  | case2 read t rest ht => exact List.suffix_cons t rest
  | case3 read t rest ht after h =>
      simpa only [h] using readName_suffix line (t :: rest)
  | case4 => exact List.nil_suffix
  | case5 read t rest ht b next after h hn ih =>
      have hs := readName_suffix line (t :: rest)
      rw [h] at hs
      exact ih.trans ((List.suffix_cons next after).trans hs)
  | case6 read t rest ht b next after h hn hc =>
      have hs := readName_suffix line (t :: rest)
      rw [h] at hs
      exact (List.suffix_cons next after).trans hs
  | case7 read t rest ht b next after h hn hc =>
      simpa only [h] using readName_suffix line (t :: rest)

theorem readExports_suffix (line : Nat) (read : List Binding) (ts : List Token) :
    (readExports line read ts).2 <:+ ts := by
  unfold readExports
  split
  · exact List.suffix_rfl
  · next t rest =>
    have hrest : rest <:+ t :: rest := List.suffix_cons t rest
    split
    · exact (readNames_suffix line rest read.reverse).trans hrest
    · split
      · split
        · split
          · exact List.nil_suffix
          · next name after hn =>
            have htail : rest.tail <:+ t :: rest := rest.tail_suffix.trans hrest
            rw [hn] at htail
            split
            · exact (List.suffix_cons name after).trans htail
            · exact htail
        · exact hrest
      · exact List.suffix_rfl

theorem readClause_suffix (line : Nat) (ts : List Token) : (readClause line ts).2 <:+ ts := by
  unfold readClause
  split
  · exact List.suffix_rfl
  · next t rest =>
    have hrest : rest <:+ t :: rest := List.suffix_cons t rest
    split
    · split
      · exact List.nil_suffix
      · next next after =>
        have hafter : after <:+ t :: next :: after := (List.suffix_cons next after).trans hrest
        split
        · exact hafter
        · split
          · exact (readExports_suffix line _ after).trans hafter
          · exact hrest
    · exact readExports_suffix line [] (t :: rest)

theorem readDotted_suffix (ts : List Token) (path : Bytes) : (readDotted ts path).2 <:+ ts := by
  fun_induction readDotted ts path with
  | case1 => exact List.suffix_rfl
  | case2 => exact List.nil_suffix
  | case3 => exact List.suffix_rfl
  | case4 t dot rest path ht hd ih =>
      exact ih.trans ((List.suffix_cons dot rest).trans (List.suffix_cons t _))
  | case5 t dot rest => exact List.suffix_cons t _
  | case6 => exact List.suffix_rfl

theorem readTarget_suffix (ts : List Token) : (readTarget ts).2 <:+ ts := by
  have hd := readDotted_suffix ts []
  unfold readTarget
  split
  · next t bracket rest =>
    have hrest : rest <:+ t :: bracket :: rest :=
      (List.suffix_cons bracket rest).trans (List.suffix_cons t _)
    split
    · exact (ite_tail_suffix _ _).trans ((ite_tail_suffix _ rest).trans hrest)
    · exact hd
  · exact hd

theorem dropBraced_suffix (ts : List Token) : dropBraced ts <:+ ts := by
  fun_induction dropBraced ts with
  | case1 => exact List.suffix_rfl
  | case2 t rest => exact List.suffix_cons t rest
  | case3 t rest ht ih => exact ih.trans (List.suffix_cons t rest)

theorem dropEnding_suffix (ts : List Token) : dropEnding ts <:+ ts := by
  unfold dropEnding
  refine (ite_tail_suffix _ _).trans ?_
  split
  · next t brace rest =>
    split
    · exact (dropBraced_suffix rest).trans
        ((List.suffix_cons brace rest).trans (List.suffix_cons t _))
    · exact List.suffix_rfl
  · exact List.suffix_rfl

theorem readContents_suffix (line : Nat) (ts : List Token) :
    (readContents line ts).2 <:+ ts := by
  unfold readContents
  split
  · exact (dropEnding_suffix _).trans ts.tail_suffix
  · dsimp only
    have hclause := (readClause_suffix line _).trans (ite_tail_suffix (isTypeModifier ts) ts)
    split
    · next rest h => simpa only [h] using hclause
    · next bs rest h =>
      rw [h] at hclause
      split
      · exact (dropEnding_suffix _).trans ((readTarget_suffix rest).trans hclause)
      · split
        · exact List.nil_suffix
        · next t after =>
          have hafter : after <:+ ts := (List.suffix_cons t after).trans hclause
          split
          · split
            · exact List.nil_suffix
            · next s after =>
              split
              · exact (dropEnding_suffix after).trans ((List.suffix_cons s after).trans hafter)
              · exact hafter
          · exact hclause

/-! ### The walk over declarations -/

/-- The declaration of a keyword, between the tokens passed before it and those after it. -/
def declarationOf (passed : List Token) (t : Token) (rest : List Token) : Declaration :=
  let contents := readContents t.line rest
  let stop := passed.length + (rest.length + 1 - contents.2.length)
  ⟨⟨passed.length, stop⟩, t.line, contents.1.source, contents.1.typeOnly, contents.1.bindings⟩

/-- The declaration that starts at a token, if one does, and the tokens it leaves. -/
def declaration? (passed : List Token) (t : Token) (rest : List Token) :
    Option (Declaration × List Token) :=
  if isImport passed.getLast? t rest.head? then
    some (declarationOf passed t rest, (readContents t.line rest).2)
  else none

theorem declaration?_eq_some {passed rest left : List Token} {t : Token} {d : Declaration}
    (h : declaration? passed t rest = some (d, left)) :
    isImport passed.getLast? t rest.head? = true ∧ d = declarationOf passed t rest ∧
      left = (readContents t.line rest).2 := by
  unfold declaration? at h
  split at h
  · next himport =>
    injection h with h
    obtain ⟨hd, hleft⟩ := Prod.mk.inj h
    exact ⟨himport, hd.symm, hleft.symm⟩
  · contradiction

theorem declaration?_places : Walk.Places Declaration.toSpan declaration? := by
  intro passed t read rest d h
  obtain ⟨_, rfl, hrest⟩ := declaration?_eq_some h
  simp only [declarationOf, ← hrest, List.length_append, Span.mk.injEq, true_and]
  omega

theorem readAll_walk (total : Nat) (before : Option Token) (ts : List Token)
    (read : List Declaration) (passed : List Token) (htotal : total = passed.length + ts.length)
    (hbefore : before = passed.getLast?) :
    ∃ ds, readAll total before ts read = read.reverse ++ ds ∧ Walk declaration? passed ts ds := by
  fun_induction readAll total before ts read generalizing passed with
  | case1 before read => exact ⟨[], by simp, .done passed⟩
  | case2 before read t rest h contents left start stop d ih =>
      obtain ⟨word, hword⟩ := readContents_suffix t.line rest
      have hlen := congrArg List.length hword
      simp only [List.length_append, List.length_cons] at hlen htotal
      have hstart : start = passed.length := by omega
      have hstop : stop = passed.length + (rest.length + 1 - contents.2.length) := by
        simp only [stop, left, contents]
        omega
      have htake : (t :: rest).take (stop - start) = t :: word := by
        have hwidth : stop - start = word.length + 1 := by
          simp only [stop, left, contents]
          omega
        rw [hwidth, List.take_succ_cons, ← hword, List.take_left]
      have hitem : declaration? passed t (word ++ contents.2) = some (d, contents.2) := by
        rw [hbefore] at h
        rw [hword]
        simp [declaration?, declarationOf, h, d, hstart, hstop, contents]
      rw [htake] at ih
      obtain ⟨ds, hds, hwalk⟩ := ih (passed ++ t :: word)
        (by simp only [List.length_append, List.length_cons, contents]; omega)
        (by simp [List.getLast?_cons])
      refine ⟨d :: ds, by rw [htake, hds]; simp, ?_⟩
      have hfound := Walk.found hitem hwalk
      rwa [hword] at hfound
  | case3 before read t rest h ih =>
      obtain ⟨ds, hds, hwalk⟩ := ih (passed ++ [t]) (by simp [htotal]; omega) (by simp)
      refine ⟨ds, hds, .missed ?_ hwalk⟩
      rw [hbefore] at h
      simp [declaration?, h]

/-! ### Bindings carry the line of their keyword -/

theorem readName_line {line : Nat} {ts rest : List Token} {b : Binding}
    (h : readName line ts = (some b, rest)) : b.line = line := by
  unfold readName at h
  dsimp only at h
  repeat' split at h
  all_goals
    first
      | (obtain ⟨hb, _⟩ := Prod.mk.inj h
         injection hb with hb
         subst hb
         rfl)
      | simp at h

theorem readNames_line {line : Nat} {ts rest : List Token} {read bs : List Binding}
    (h : readNames line ts read = (some bs, rest)) (hread : ∀ b ∈ read, b.line = line) :
    ∀ b ∈ bs, b.line = line := by
  fun_induction readNames line ts read generalizing bs with
  | case1 => simp at h
  | case2 read t rest ht =>
      obtain ⟨hbs, _⟩ := Prod.mk.inj h
      injection hbs with hbs
      subst hbs
      simpa using hread
  | case3 => simp at h
  | case4 => simp at h
  | case5 read t rest ht b next after hname hn ih =>
      apply ih h
      intro c hc
      rcases List.mem_cons.mp hc with rfl | hc
      · exact readName_line hname
      · exact hread c hc
  | case6 read t rest ht b next after hname hn hc =>
      obtain ⟨hbs, _⟩ := Prod.mk.inj h
      injection hbs with hbs
      subst hbs
      intro c hc
      rcases List.mem_cons.mp (List.mem_reverse.mp hc) with rfl | hc
      · exact readName_line hname
      · exact hread c hc
  | case7 => simp at h

theorem readExports_line {line : Nat} {ts rest : List Token} {read bs : List Binding}
    (h : readExports line read ts = (some bs, rest)) (hread : ∀ b ∈ read, b.line = line) :
    ∀ b ∈ bs, b.line = line := by
  unfold readExports at h
  split at h
  · simp at h
  · next t after =>
    split at h
    · exact readNames_line h (by simpa using hread)
    · split at h
      · split at h
        · split at h
          · simp at h
          · split at h
            · obtain ⟨hbs, _⟩ := Prod.mk.inj h
              injection hbs with hbs
              subst hbs
              intro b hb
              rcases List.mem_append.mp hb with hb | hb
              · exact hread b hb
              · rw [List.mem_singleton.mp hb]
                rfl
            · simp at h
        · simp at h
      · simp at h

theorem readClause_line {line : Nat} {ts rest : List Token} {bs : List Binding}
    (h : readClause line ts = (some bs, rest)) : ∀ b ∈ bs, b.line = line := by
  have single : ∀ {c : Binding}, c.line = line → bs = [c] → ∀ b ∈ bs, b.line = line := by
    intro c hc hbs b hb
    rw [hbs] at hb
    rwa [List.mem_singleton.mp hb]
  unfold readClause at h
  split at h
  · simp at h
  · next t after =>
    split at h
    · dsimp only at h
      split at h
      · exact single rfl (Option.some.inj (Prod.mk.inj h).1).symm
      · split at h
        · exact single rfl (Option.some.inj (Prod.mk.inj h).1).symm
        · split at h
          · refine readExports_line h ?_
            intro b hb
            rw [List.mem_singleton.mp hb]
            rfl
          · exact single rfl (Option.some.inj (Prod.mk.inj h).1).symm
    · exact readExports_line h (by simp)

theorem markTypeOnly_line {typeOnly : Bool} {line : Nat} {bs : List Binding}
    (h : ∀ b ∈ bs, b.line = line) : ∀ b ∈ markTypeOnly typeOnly bs, b.line = line := by
  unfold markTypeOnly
  split
  · intro b hb
    obtain ⟨c, hc, rfl⟩ := List.mem_map.mp hb
    exact h c hc
  · exact h

theorem readContents_line (line : Nat) (ts : List Token) :
    ∀ b ∈ (readContents line ts).1.bindings, b.line = line := by
  unfold readContents
  split
  · simp
  · dsimp only
    split
    · simp
    · next bs rest h =>
      have hbs := readClause_line h
      repeat' split
      all_goals
        first
          | exact markTypeOnly_line hbs
          | simp

end Import

/-! ### The declarations of a token list -/

theorem importsOf_walk (tokens : List Token) :
    Walk Import.declaration? [] tokens (importsOf tokens) := by
  obtain ⟨ds, hds, hwalk⟩ :=
    Import.readAll_walk tokens.length none tokens [] [] (by simp) (by simp)
  unfold importsOf
  rw [hds]
  simpa using hwalk

/-- Declarations follow one another and share no token. -/
theorem importsOf_ordered (tokens : List Token) :
    Span.Ordered ((importsOf tokens).map (·.toSpan)) :=
  (importsOf_walk tokens).ordered Import.declaration?_places

/-- A declaration starts at a keyword and says what is read after that keyword. -/
theorem exists_keyword_of_mem_importsOf {tokens : List Token} {d : Declaration}
    (h : d ∈ importsOf tokens) :
    ∃ front t rest, tokens = front ++ t :: rest ∧
      Import.isImport front.getLast? t rest.head? = true ∧
      d = Import.declarationOf front t rest := by
  obtain ⟨front, t, rest, left, heq, hitem⟩ := (importsOf_walk tokens).exists_of_mem h
  obtain ⟨himport, hd, _⟩ := Import.declaration?_eq_some hitem
  exact ⟨front, t, rest, heq, himport, hd⟩

theorem line_of_mem_bindings {tokens : List Token} {d : Declaration} {b : Binding}
    (hd : d ∈ importsOf tokens) (hb : b ∈ d.bindings) : b.line = d.line := by
  obtain ⟨front, t, rest, _, _, rfl⟩ := exists_keyword_of_mem_importsOf hd
  exact Import.readContents_line t.line rest b hb

end UnusedImports
