import UnusedImports.Proofs.Import.Declarations
import UnusedImports.Proofs.Reexport.Spans
import UnusedImports.Source.Scan

/-! The analysis keeps the last line of each remaining word. The rule it implements speaks of single
tokens instead. -/

namespace UnusedImports

namespace Usage

/-! ### Tokens outside the spans -/

/-- Passing over ordered spans keeps the tokens that no span covers. -/
theorem outside_eq_filter (spans : List Span) (ts kept : List (Token × Nat))
    (hspans : Span.Ordered spans) (hts : ts.Pairwise fun p q => p.2 < q.2) :
    outside spans ts kept =
      kept.reverse ++ ts.filter fun p => decide (∀ r ∈ spans, ¬ r.Covers p.2) := by
  fun_induction outside spans ts kept with
  | case1 => simp [List.filter_eq_self.mpr]
  | case2 => simp
  | case3 r rs t i ts kept hi ih =>
      have hkeep : ∀ s ∈ r :: rs, ¬ s.Covers i := by
        intro s hs
        rcases List.mem_cons.mp hs with rfl | hs
        · rintro ⟨hstart, _⟩
          omega
        · have hr := hspans.nonempty r List.mem_cons_self
          exact hspans.not_covers_of_lt hs (by omega)
      rw [ih hspans hts.of_cons, List.filter_cons_of_pos (by simpa using hkeep)]
      simp
  | case4 r rs t i ts kept hi hstop ih =>
      have hdrop : r.Covers i := ⟨by omega, hstop⟩
      rw [ih hspans hts.of_cons, List.filter_cons_of_neg (by simp [hdrop])]
  | case5 r rs t i ts kept hi hstop ih =>
      rw [ih hspans.tail hts]
      congr 1
      apply List.filter_congr
      intro p hp
      have hle : i ≤ p.2 := by
        rcases List.mem_cons.mp hp with rfl | hp
        · exact Nat.le_refl _
        · exact Nat.le_of_lt (List.rel_of_pairwise_cons hts hp)
      have hpast : ¬ r.Covers p.2 := by
        rintro ⟨_, hlt⟩
        omega
      simp [hpast]

theorem zipIdx_pairwise (tokens : List Token) :
    tokens.zipIdx.Pairwise fun p q => p.2 < q.2 := by
  have h : (tokens.zipIdx.map Prod.snd).Pairwise (· < ·) := by
    rw [List.zipIdx_map_snd]
    exact List.pairwise_lt_range'
  exact List.pairwise_map.mp h

/-! ### The last line of a word -/

/-- The last line of a word is at most a line exactly when each of its occurrences is. -/
theorem getD_lastLines_le_iff (ts : List (Token × Nat)) (name : Bytes) (n : Nat) :
    (lastLines ts).getD name 0 ≤ n ↔
      ∀ p ∈ ts, p.1.kind = .identifier → p.1.text = name → p.1.line ≤ n := by
  have fold : ∀ lines : Std.HashMap Bytes Nat,
      (ts.foldl (fun lines t =>
        if t.1.kind == .identifier then
          lines.insert t.1.text (max (lines.getD t.1.text 0) t.1.line)
        else lines) lines).getD name 0 ≤ n ↔
      lines.getD name 0 ≤ n ∧
        ∀ p ∈ ts, p.1.kind = .identifier → p.1.text = name → p.1.line ≤ n := by
    induction ts with
    | nil => simp
    | cons p ts ih =>
        intro lines
        rw [List.foldl_cons, ih]
        by_cases hk : p.1.kind = .identifier
        · by_cases ht : p.1.text = name
          · simp only [hk, ht, BEq.rfl, if_true, Std.HashMap.getD_insert_self, List.mem_cons,
              forall_eq_or_imp, true_implies, Nat.max_le, and_assoc]
          · simp [hk, ht, Std.HashMap.getD_insert]
        · simp [hk]
  simpa [lastLines] using fold ∅

/-! ### The rule -/

/-- A name is used after a line if some later word is that name, outside every declaration and
every re-export. -/
def UsedAfter (tokens : List Token) (line : Nat) (name : Bytes) : Prop :=
  ∃ i : Fin tokens.length, tokens[i].kind = .identifier ∧ tokens[i].text = name ∧
    line < tokens[i].line ∧ (∀ d ∈ importsOf tokens, ¬ d.toSpan.Covers i) ∧
    ∀ r ∈ reexportsOf tokens, ¬ r.Covers i

instance (tokens : List Token) (line : Nat) (name : Bytes) :
    Decidable (UsedAfter tokens line name) :=
  inferInstanceAs (Decidable (∃ _ : Fin tokens.length, _))

/-- The words that count as uses, with their indexes. -/
theorem mem_outside_iff (tokens : List Token) (p : Token × Nat) :
    p ∈ outside (reexportsOf tokens)
        (outside ((importsOf tokens).map (·.toSpan)) tokens.zipIdx []) [] ↔
      tokens[p.2]? = some p.1 ∧ (∀ d ∈ importsOf tokens, ¬ d.toSpan.Covers p.2) ∧
        ∀ r ∈ reexportsOf tokens, ¬ r.Covers p.2 := by
  have hsorted := zipIdx_pairwise tokens
  rw [outside_eq_filter _ _ _ (importsOf_ordered tokens) hsorted]
  rw [outside_eq_filter _ _ _ (reexportsOf_ordered tokens) (by simpa using hsorted.filter _)]
  simp only [List.reverse_nil, List.nil_append, List.mem_filter, List.mem_zipIdx_iff_getElem?,
    List.forall_mem_map, decide_eq_true_eq, and_assoc]

theorem lastLine_le_iff (tokens : List Token) (line : Nat) (name : Bytes) :
    (lastLines (outside (reexportsOf tokens)
      (outside ((importsOf tokens).map (·.toSpan)) tokens.zipIdx []) [])).getD name 0 ≤ line ↔
      ¬ UsedAfter tokens line name := by
  rw [getD_lastLines_le_iff]
  constructor
  · rintro h ⟨i, hkind, htext, hline, himports, hreexports⟩
    have hmem := (mem_outside_iff tokens (tokens[i], i)).mpr
      ⟨by simp, himports, hreexports⟩
    exact Nat.not_lt.mpr (h _ hmem hkind htext) hline
  · intro h p hp hkind htext
    obtain ⟨hget, himports, hreexports⟩ := (mem_outside_iff tokens p).mp hp
    obtain ⟨hi, hget⟩ := List.getElem?_eq_some_iff.mp hget
    apply Nat.le_of_not_lt
    intro hline
    exact h ⟨⟨p.2, hi⟩, by simp [hget, hkind], by simp [hget, htext], by simpa [hget] using hline,
      himports, hreexports⟩

end Usage

/-- The bindings of a token list with their declarations, in the order of the source. -/
def bindingsOf (tokens : List Token) : List (Declaration × Binding) :=
  (importsOf tokens).flatMap fun d => d.bindings.map fun b => (d, b)

/-- The bindings whose name no line after their declaration uses. -/
def unusedOf (tokens : List Token) : List (Declaration × Binding) :=
  (bindingsOf tokens).filter fun p => ¬ Usage.UsedAfter tokens p.1.line p.2.name

theorem unusedOf_eq_flatMap (tokens : List Token) :
    (unusedOf tokens).map Prod.snd = (importsOf tokens).flatMap fun d =>
      d.bindings.filter fun b => ¬ Usage.UsedAfter tokens d.line b.name := by
  simp [unusedOf, bindingsOf, List.filter_flatMap, List.map_flatMap, List.filter_map,
    Function.comp_def]

theorem line_of_mem_unusedOf {tokens : List Token} {p : Declaration × Binding}
    (h : p ∈ unusedOf tokens) : p.2.line = p.1.line := by
  obtain ⟨d, hd, hp⟩ := List.mem_flatMap.mp (List.mem_filter.mp h).1
  obtain ⟨b, hb, rfl⟩ := List.mem_map.mp hp
  exact line_of_mem_bindings hd hb

/-- The analysis reports exactly the bindings that no later line uses, and there is one finding for
each of them, on the line of its declaration. -/
theorem analyze_reports_unusedOf (path content : Bytes) :
    (analyze path content).unused =
        (unusedOf (tokenize (.ofPath path) content)).map Prod.snd ∧
      scanFile path content = (unusedOf (tokenize (.ofPath path) content)).map fun p =>
        { file := path
          line := p.1.line
          column := if p.2.nameLine = p.1.line then p.2.nameColumn else 0
          identifier := p.2.name
          message := unusedMessage p.2.name
          rule := unusedImportRule
          strategy := .lexical } := by
  have hunused : (analyze path content).unused =
      (unusedOf (tokenize (.ofPath path) content)).map Prod.snd := by
    rw [unusedOf_eq_flatMap]
    simp only [analyze, Usage.lastLine_le_iff]
  refine ⟨hunused, ?_⟩
  unfold scanFile
  rw [hunused, List.map_map]
  apply List.map_congr_left
  intro p hp
  simp only [Function.comp_apply, Binding.toFinding, line_of_mem_unusedOf hp]

end UnusedImports
