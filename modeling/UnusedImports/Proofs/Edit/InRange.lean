import UnusedImports.Proofs.Edit.Removal

/-! Each `import` keyword lies in just one declaration, and all indices that are read off a
declaration are those of tokens. -/

namespace UnusedImports

variable {tokens : List Token} {d : Declaration}

/-! ### Keywords -/

/-- At an index stands the keyword of a declaration: the word `import`, neither the name of a
property nor in front of a call or of a property. -/
structure IsImportKeyword (tokens : List Token) (i : Nat) : Prop where
  word : ∃ t, tokens[i]? = some t ∧ t.isWord "import" = true
  not_property : ∀ p, 0 < i → tokens[i - 1]? = some p →
    p.isPunctuator "." = false ∧ p.isPunctuator "?." = false
  not_call : ∀ n, tokens[i + 1]? = some n → n.isPunctuator "(" = false ∧ n.isPunctuator "." = false

theorem isImport_iff (front rest : List Token) (t : Token) :
    Import.isImport front.getLast? t rest.head? = true ↔
      IsImportKeyword (front ++ t :: rest) front.length := by
  have hat : (front ++ t :: rest)[front.length]? = some t := by simp
  have hafter : (front ++ t :: rest)[front.length + 1]? = rest.head? := by
    rw [List.getElem?_append_right (Nat.le_add_right _ 1), Nat.add_sub_cancel_left,
      List.getElem?_cons_succ, List.head?_eq_getElem?]
  have hbefore : 0 < front.length →
      (front ++ t :: rest)[front.length - 1]? = front.getLast? := fun hpos => by
    rw [List.getElem?_append_left (by omega), List.getLast?_eq_getElem?]
  constructor
  · intro h
    simp only [Import.isImport, Import.isStatementWord, Bool.and_eq_true, Bool.not_eq_true'] at h
    obtain ⟨⟨hword, hproperty⟩, hcall⟩ := h
    refine ⟨⟨t, hat, hword⟩, fun p hpos hp => ?_, fun n hn => ?_⟩
    · rw [hbefore hpos] at hp
      simpa [hp] using hproperty
    · rw [hafter] at hn
      simpa [hn] using hcall
  · rintro ⟨⟨u, hu, hword⟩, hproperty, hcall⟩
    obtain rfl : t = u := Option.some.inj (hat.symm.trans hu)
    simp only [Import.isImport, Import.isStatementWord, Bool.and_eq_true, Bool.not_eq_true']
    refine ⟨⟨hword, ?_⟩, ?_⟩
    · cases hp : front.getLast? with
      | none => rfl
      | some p =>
          have hpos : 0 < front.length := List.length_pos_iff.mpr fun hnil => by simp [hnil] at hp
          simpa using hproperty p hpos ((hbefore hpos).trans hp)
    · cases hn : rest.head? with
      | none => rfl
      | some n => simpa using hcall n (hafter.trans hn)

theorem exists_covers {i : Nat} (h : IsImportKeyword tokens i) :
    ∃ d ∈ importsOf tokens, d.Covers i := by
  -- An earlier declaration may have read the word, as a name or as a token it does not expect.
  by_cases hfree : ∀ d ∈ importsOf tokens, d.start < i → ¬ d.Covers i
  · obtain ⟨t, ht, -⟩ := h.word
    obtain ⟨hi, rfl⟩ := List.getElem?_eq_some_iff.mp ht
    have hfront : (tokens.take i).length = i := List.length_take_of_le (Nat.le_of_lt hi)
    have hsplit : tokens = tokens.take i ++ tokens[i] :: tokens.drop (i + 1) := by
      rw [← List.drop_eq_getElem_cons hi, List.take_append_drop]
    have hkeyword := (isImport_iff (tokens.take i) (tokens.drop (i + 1)) tokens[i]).mpr
      (by rwa [← hsplit, hfront])
    have hmem := (importsOf_walk tokens).mem_of_item Import.declaration?_places hsplit
      (Nat.zero_le _) (if_pos hkeyword) (by rwa [hfront])
    have hbounds := bounds_of_mem_importsOf hmem
    exact ⟨_, hmem, Nat.le_of_eq hfront, Nat.lt_of_le_of_lt (Nat.le_of_eq hfront.symm) hbounds.1⟩
  · push Not at hfree
    obtain ⟨d, hd, -, hcovers⟩ := hfree
    exact ⟨d, hd, hcovers⟩

theorem eq_of_covers {e : Declaration} {i : Nat} (hd : d ∈ importsOf tokens)
    (he : e ∈ importsOf tokens) (hdi : d.Covers i) (hei : e.Covers i) : d = e := by
  have happart := List.pairwise_iff_getElem.mp
    (List.pairwise_map.mp (importsOf_ordered tokens).apart)
  obtain ⟨j, hj, rfl⟩ := List.getElem_of_mem hd
  obtain ⟨k, hk, rfl⟩ := List.getElem_of_mem he
  obtain ⟨hstart, hstop⟩ := hdi
  obtain ⟨hstart', hstop'⟩ := hei
  rcases Nat.lt_trichotomy j k with hlt | rfl | hlt
  · have hle := happart j k hj hk hlt
    omega
  · rfl
  · have hle := happart k j hk hj hlt
    omega

/-! ### Declarations -/

theorem exists_of_mem_sublistForall₂ {α β : Type} {R : α → β → Prop} {as : List α} {bs : List β}
    {a : α} (h : List.SublistForall₂ R as bs) (ha : a ∈ as) : ∃ b ∈ bs, R a b := by
  induction h with
  | nil => cases ha
  | cons hab _ ih =>
      rcases List.mem_cons.mp ha with rfl | ha
      · exact ⟨_, List.mem_cons_self, hab⟩
      · obtain ⟨b, hb, hab⟩ := ih ha
        exact ⟨b, List.mem_cons_of_mem _ hb, hab⟩
  | cons_right _ ih =>
      obtain ⟨b, hb, hab⟩ := ih ha
      exact ⟨b, List.mem_cons_of_mem _ hb, hab⟩

/-- A declaration lies in a token list, from its keyword on, with its names behind that. -/
structure Declaration.LiesIn (tokens : List Token) (d : Declaration) : Prop where
  start_lt : d.start < d.stop
  stop_le : d.stop ≤ tokens.length
  keyword : IsImportKeyword tokens d.start
  names : ∀ b ∈ d.bindings, ∃ i t, d.start < i ∧ i < d.stop ∧ tokens[i]? = some t ∧ b.NamedBy t

theorem liesIn_of_mem_importsOf (h : d ∈ importsOf tokens) : d.LiesIn tokens := by
  have hbounds := bounds_of_mem_importsOf h
  refine ⟨hbounds.1, hbounds.2, ?_, fun b hb => ?_⟩
  · obtain ⟨front, t, rest, rfl, himport, rfl⟩ := exists_keyword_of_mem_importsOf h
    exact (isImport_iff front rest t).mp himport
  · obtain ⟨keyword, read, hword, _, hown, _, hread⟩ := exists_own_of_mem_importsOf h
    obtain ⟨names, hnames, hforall⟩ := Import.introduces_behind_keyword hword hread
    obtain rfl := List.append_cancel_right hnames
    obtain ⟨t, ht, hnamed⟩ := exists_of_mem_sublistForall₂ hforall hb
    obtain ⟨j, hj, rfl⟩ := List.getElem_of_mem ht
    have hat : (d.own tokens)[j + 1]? = some read[j] := by
      rw [hown, List.getElem?_cons_succ, List.getElem?_eq_getElem hj]
    have hlength := congrArg List.length hown
    rw [length_own h, List.length_cons] at hlength
    rw [getElem?_own (by omega)] at hat
    exact ⟨d.start + (j + 1), read[j], by omega, by omega, hat, hnamed⟩

/-! ### Readers by index -/

theorem isSingleLineAt?_eq (h : d.LiesIn tokens) :
    d.isSingleLineAt? tokens = some (d.isSingleLine tokens) := by
  have hlast := List.getElem?_eq_getElem (l := tokens) (i := d.stop - 1)
    (Nat.lt_of_lt_of_le (Nat.sub_one_lt_of_lt h.start_lt) h.stop_le)
  simp [Declaration.isSingleLineAt?, Declaration.isSingleLine, h.start_lt, hlast]

theorem Edit.planAt?_eq (hd : d ∈ importsOf tokens) (content : Bytes) (kept : List Binding) :
    planAt? content tokens d kept = some (plan? content tokens d kept) := by
  obtain ⟨plan, hplan⟩ := exists_planAt content kept hd
  rw [hplan, plan?_of_planAt? hplan]

/-- In every list of tokens the declarations lie one behind the other, each keyword is in just one
of them, and no reader of a declaration looks outside the list. -/
theorem importsOf_inRange (tokens : List Token) :
    (∀ d ∈ importsOf tokens, d.LiesIn tokens) ∧
      ((importsOf tokens).Pairwise fun d e => d.stop ≤ e.start) ∧
      (∀ i, IsImportKeyword tokens i → ∃! d, d ∈ importsOf tokens ∧ d.Covers i) ∧
      ∀ d ∈ importsOf tokens, d.isSingleLineAt? tokens = some (d.isSingleLine tokens) ∧
        ∀ content kept, Edit.planAt? content tokens d kept =
          some (Edit.plan? content tokens d kept) := by
  have hlies := fun d (hd : d ∈ importsOf tokens) => liesIn_of_mem_importsOf hd
  refine ⟨hlies, List.pairwise_map.mp (importsOf_ordered tokens).apart, fun i hi => ?_,
    fun d hd => ⟨isSingleLineAt?_eq (hlies d hd), Edit.planAt?_eq hd⟩⟩
  obtain ⟨d, hd, hcovers⟩ := exists_covers hi
  exact ⟨d, ⟨hd, hcovers⟩, fun e he => eq_of_covers he.1 hd he.2 hcovers⟩

end UnusedImports
