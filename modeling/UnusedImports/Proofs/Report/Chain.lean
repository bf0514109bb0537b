import UnusedImports.Proofs.Report.Arrival
import UnusedImports.Sweep
import Mathlib.Data.List.Dedup

/-! Whichever strategies are switched on, the report has one row for each of them. -/

namespace UnusedImports

def Tag.all : List Tag := [eslint, tsPrune, lexical]

theorem Tag.all_pairwise : all.Pairwise fun s t => s.priority < t.priority := by decide

/-! ### Skipped strategies -/

namespace Report

namespace Builder

/-- A strategy that is skipped twice is noted once. -/
theorem map_fst_skip (b : Builder) (tag : Tag) (reason : Bytes) :
    (b.skip tag reason).skipped.map Prod.fst =
      if tag ∈ b.skipped.map Prod.fst then b.skipped.map Prod.fst
      else b.skipped.map Prod.fst ++ [tag] := by
  by_cases hknown : tag ∈ b.skipped.map Prod.fst
  · have hany : (b.skipped.any fun s => s.1 = tag) = true := by simpa using hknown
    rw [if_pos hknown, skip]
    simp only [hany, if_true, List.map_map]
    apply List.map_congr_left
    intro s _
    by_cases hs : s.1 = tag
    · simp [hs]
    · simp [hs]
  · have hany : (b.skipped.any fun s => s.1 = tag) = false := by
      rw [List.any_eq_false]
      intro s hs
      simpa using fun heq : s.1 = tag => hknown (heq ▸ List.mem_map_of_mem hs)
    rw [if_neg hknown, skip]
    simp [hany]

theorem nodup_map_fst_skip {b : Builder} (h : (b.skipped.map Prod.fst).Nodup) (tag : Tag)
    (reason : Bytes) : ((b.skip tag reason).skipped.map Prod.fst).Nodup := by
  rw [map_fst_skip]
  split
  case isTrue => exact h
  case isFalse hnew => exact List.concat_eq_append ▸ h.concat hnew

theorem mem_map_fst_skip (b : Builder) (tag t : Tag) (reason : Bytes) :
    t ∈ (b.skip tag reason).skipped.map Prod.fst ↔ t ∈ b.skipped.map Prod.fst ∨ t = tag := by
  rw [map_fst_skip]
  split
  case isTrue hknown => exact ⟨.inl, fun h => h.elim id fun heq => heq ▸ hknown⟩
  case isFalse => rw [List.mem_append, List.mem_singleton]

/-- If each of some strategies either has a result or is skipped, and no other, the report tells
one from the other and has a row for each. -/
theorem build_of_partition (b : Builder) (now : Instant) {tags : List Tag} {p : Tag → Bool}
    (htags : tags.Pairwise fun s t => s.priority < t.priority)
    (hresults : (b.results.map Result.strategy).Perm (tags.filter p))
    (hskipped : (b.skipped.map Prod.fst).Perm (tags.filter (!p ·))) :
    (b.build now).attempted = tags.filter p ∧ (b.build now).skipped = tags.filter (!p ·) ∧
      (b.build now).strategies.map (·.strategy) = tags := by
  refine ⟨map_byRank_eq hresults (htags.filter p), map_byRank_eq hskipped (htags.filter _), ?_⟩
  refine map_byRank_eq ?_ htags
  have hrows := map_contributions (·.strategy) Result.strategy (fun _ _ => rfl) []
    (byRank Result.strategy b.results)
  simp only [List.map_append, List.map_map, Function.comp_def, hrows]
  have hleft := ((byRank_perm Result.strategy b.results).map Result.strategy).trans hresults
  have hright := ((byRank_perm Prod.fst b.skipped).map Prod.fst).trans hskipped
  exact (hleft.append hright).trans (List.filter_append_perm p tags)

end Builder

theorem exitCode_eq_one_iff (r : Report) : r.exitCode = 1 ↔ r.exitCode ≠ 0 := by
  unfold exitCode
  split
  · simp
  · simp

theorem nodup_skipped_foldl_apply {b : Builder} (h : (b.skipped.map Prod.fst).Nodup)
    (ops : List Operation) : ((ops.foldl Operation.apply b).skipped.map Prod.fst).Nodup := by
  induction ops generalizing b with
  | nil => exact h
  | cons op ops ih =>
      cases op with
      | skip tag reason => exact ih (Builder.nodup_map_fst_skip h tag reason)
      | clock | files | lines | languages | add => exact ih h

theorem mem_skipped_foldl_apply (b : Builder) (ops : List Operation) (t : Tag) :
    t ∈ (ops.foldl Operation.apply b).skipped.map Prod.fst ↔
      t ∈ b.skipped.map Prod.fst ∨ t ∈ (noted ops).map Prod.fst := by
  induction ops generalizing b with
  | nil => simp [noted]
  | cons op ops ih =>
      rw [List.foldl_cons, ih]
      cases op with
      | skip tag reason =>
          have hnoted : (noted (.skip tag reason :: ops)).map Prod.fst =
              tag :: (noted ops).map Prod.fst := rfl
          rw [Operation.apply, Builder.mem_map_fst_skip, hnoted, List.mem_cons, or_assoc]
      | clock | files | lines | languages | add => rfl

end Report

/-! ### Results that are passed on -/

namespace Strategies

variable {s : Strategies}

/-- Each strategy returns results under its own name. -/
structure Own (s : Strategies) : Prop where
  linter : ∀ r ∈ s.linter, r.value.strategy = .eslint
  exports : ∀ r ∈ s.exports, r.value.strategy = .tsPrune
  lexical : ∀ r ∈ s.lexical, r.value.strategy = .lexical

def configured (s : Strategies) : List Result :=
  s.linter.toList.map (·.value) ++ s.exports.toList.map (·.value) ++
    s.lexical.toList.map (·.value)

def needsLexical (s : Strategies) : Bool :=
  s.alwaysLexical || !s.linter.any (·.value.hasFindings)

def runs (s : Strategies) (tag : Tag) : Bool :=
  (tag = .eslint && s.linter.isSome) || (tag = .tsPrune && s.exports.isSome) ||
    (tag = .lexical && s.lexical.isSome && s.needsLexical)

/-- A strategy that is switched off has no findings. -/
theorem hasFindings_run (tag : Tag) (o : Option (Log.Logged Result)) :
    (run tag o).value.hasFindings = o.any (·.value.hasFindings) := by
  cases o with
  | none => rfl
  | some r => rfl

theorem strategy_run {tag : Tag} {o : Option (Log.Logged Result)}
    (h : ∀ r ∈ o, r.value.strategy = tag) : (run tag o).value.strategy = tag := by
  cases o with
  | none => rfl
  | some r => exact h r rfl

/-- A strategy that does not run if it is switched off passes on nothing then. -/
theorem filter_run {tag : Tag} {o : Option (Log.Logged Result)} {p : Tag → Bool}
    (hp : p tag = true → o.isSome) :
    [(run tag o).value].filter (fun r => p r.strategy) =
      (o.toList.map (·.value)).filter fun r => p r.strategy := by
  cases o with
  | none =>
      apply List.filter_eq_nil_iff.mpr
      simpa [run, Log.Logged.silent, Result.notAvailable] using hp
  | some r => rfl

theorem filter_own {tag : Tag} {o : Option (Log.Logged Result)}
    (h : ∀ r ∈ o, r.value.strategy = tag) (p : Tag → Bool) :
    (o.toList.map (·.value)).filter (fun r => p r.strategy) =
      if p tag then o.toList.map (·.value) else [] := by
  cases o with
  | none => simp
  | some r => simp [h r rfl, List.filter_cons]

/-- What comes of the strategies, by whether the lexical analysis is needed. -/
theorem runAll_value (s : Strategies) :
    s.runAll.value =
      { linter := (run .eslint s.linter).value
        exports := (run .tsPrune s.exports).value
        lexical := if s.needsLexical then (run .lexical s.lexical).value
          else .notAvailable .lexical linterReason
        lexicalSkipped := if s.needsLexical then none else some linterReason
        disabled := s.disabled
        observed := s.linter.toList.map (·.value) ++ s.exports.toList.map (·.value) ++
          if s.needsLexical then s.lexical.toList.map (·.value) else [] } := by
  have hgate : ((run .eslint s.linter).value.hasFindings && !s.alwaysLexical) =
      !s.needsLexical := by
    rw [hasFindings_run, needsLexical, Bool.not_or, Bool.not_not, Bool.and_comm]
  unfold runAll
  cases hneeds : s.needsLexical with
  | true => simp [hgate, hneeds]
  | false => simp [hgate, hneeds]

@[simp] theorem runs_eslint (s : Strategies) : s.runs .eslint = s.linter.isSome := by
  simp +decide [runs]

@[simp] theorem runs_tsPrune (s : Strategies) : s.runs .tsPrune = s.exports.isSome := by
  simp +decide [runs]

@[simp] theorem runs_lexical (s : Strategies) :
    s.runs .lexical = (s.lexical.isSome && s.needsLexical) := by
  simp +decide [runs]

@[simp] theorem mem_all_filter_runs (s : Strategies) (t : Tag) :
    t ∈ Tag.all.filter s.runs ↔ s.runs t = true := by
  rw [List.mem_filter, and_iff_right_iff_imp]
  intro hruns
  simp only [runs, Bool.or_eq_true, Bool.and_eq_true, decide_eq_true_eq] at hruns
  rcases hruns with (⟨rfl, _⟩ | ⟨rfl, _⟩) | ⟨⟨rfl, _⟩, _⟩
  · decide
  · decide
  · decide

/-- A strategy does not run if it is switched off or if it is not needed. -/
theorem not_runs_iff (s : Strategies) {t : Tag} (ht : t ∈ Tag.all) :
    s.runs t = false ↔ t ∈ s.disabled ∨ t = .lexical ∧ s.needsLexical = false := by
  simp only [Tag.all, List.mem_cons, List.not_mem_nil, or_false] at ht
  rcases ht with rfl | rfl | rfl
  · simp +decide [disabled]
  · simp +decide [disabled]
  · rw [runs_lexical, Bool.and_eq_false_iff]
    simp +decide [disabled]

theorem disabled_subset (s : Strategies) : s.disabled ⊆ Tag.all := by
  intro t ht
  simp only [disabled, List.mem_append, List.mem_ite_nil_right, List.mem_singleton] at ht
  rcases ht with (⟨_, rfl⟩ | ⟨_, rfl⟩) | ⟨_, rfl⟩
  · decide
  · decide
  · decide

/-- The two ways in which an outcome tells that a strategy did not run. -/
theorem skipped_runAll (s : Strategies) {t : Tag} (ht : t ∈ Tag.all) :
    t ∈ s.runAll.value.disabled ∨ t = .lexical ∧ s.runAll.value.lexicalSkipped.isSome = true ↔
      s.runs t = false := by
  rw [not_runs_iff s ht, runAll_value]
  cases s.needsLexical with
  | true => simp
  | false => simp

theorem strategies_runAll (h : s.Own) :
    [s.runAll.value.linter, s.runAll.value.exports, s.runAll.value.lexical].map Result.strategy =
      Tag.all := by
  simp only [runAll_value, List.map_cons, List.map_nil, strategy_run h.linter,
    strategy_run h.exports]
  cases s.needsLexical with
  | true => simp only [if_true, strategy_run h.lexical, Tag.all]
  | false => rfl

/-- The results that are passed on are those of the strategies that run. -/
theorem results_runAll_eq_filter (h : s.Own) :
    s.runAll.value.results =
      [s.runAll.value.linter, s.runAll.value.exports, s.runAll.value.lexical].filter
        fun r => s.runs r.strategy := by
  apply List.filter_congr
  intro r hr
  -- the two tests of the filter are the two reasons why a strategy does not run
  have htag := s.skipped_runAll (strategies_runAll h ▸ List.mem_map_of_mem hr)
  rw [← Bool.not_inj_iff, Bool.eq_iff_iff]
  simpa using htag

/-- The stand-ins for strategies that did not run are not passed on. -/
theorem results_runAll (h : s.Own) :
    s.runAll.value.results = s.configured.filter fun r => s.runs r.strategy := by
  have hsplit : ∀ (a b c : Result) (p : Result → Bool),
      [a, b, c].filter p = [a].filter p ++ [b].filter p ++ [c].filter p := by
    intro a b c p
    rw [← List.filter_append, ← List.filter_append]
    rfl
  have hlexical : [s.runAll.value.lexical].filter (fun r => s.runs r.strategy) =
      (s.lexical.toList.map (·.value)).filter fun r => s.runs r.strategy := by
    rw [runAll_value]
    cases hneeds : s.needsLexical with
    | true => exact filter_run (by simp +contextual)
    | false => simp [filter_own h.lexical, Result.notAvailable, hneeds]
  rw [results_runAll_eq_filter h, hsplit, hlexical, runAll_value, configured, List.filter_append,
    List.filter_append, filter_run (by simp), filter_run (by simp)]

theorem observed_runAll (h : s.Own) :
    s.runAll.value.observed = s.configured.filter fun r => s.runs r.strategy := by
  rw [runAll_value, configured, List.filter_append, List.filter_append, filter_own h.linter,
    filter_own h.exports, filter_own h.lexical, runs_eslint, runs_tsPrune, runs_lexical]
  cases s.linter <;> cases s.exports <;> cases s.lexical <;> simp

theorem map_strategy_observed (h : s.Own) :
    s.runAll.value.observed.map Result.strategy = Tag.all.filter s.runs := by
  rw [observed_runAll h, ← results_runAll h, results_runAll_eq_filter h, ← strategies_runAll h,
    List.filter_map]
  rfl

end Strategies

/-! ### The report of a sweep -/

namespace Sweep

/-- What a sweep tells a builder about what came of the strategies. -/
def operations (paths : List Bytes) (languages : List (Bytes × Int)) (lines : Nat) (o : Outcome) :
    List Report.Operation :=
  [.files paths.length, .languages languages] ++ o.results.map .add ++
    o.disabled.map (.skip · Strategies.disabledReason) ++
    match o.lexicalSkipped with
    | some reason => [.skip .lexical reason]
    | none => [.lines lines]

variable (paths : List Bytes) (languages : List (Bytes × Int)) (lines : Nat) (o : Outcome)

theorem build_eq_afterAll (root : Bytes) (start finish : Instant) :
    build root start finish paths languages lines o =
      Report.afterAll root start (operations paths languages lines o) finish := by
  rw [build, Report.afterAll, operations, List.foldl_append, List.foldl_append, List.foldl_append,
    List.foldl_map, List.foldl_map]
  cases o.lexicalSkipped with
  | none => rfl
  | some reason => rfl

theorem added_operations : Report.added (operations paths languages lines o) = o.results := by
  have hadd : (o.results.map Report.Operation.add).filterMap Report.Operation.result? =
      o.results := by simp [List.filterMap_map, Function.comp_def, Report.Operation.result?]
  have hskip : (o.disabled.map (Report.Operation.skip · Strategies.disabledReason)).filterMap
      Report.Operation.result? = [] := by simp [Report.Operation.result?]
  rw [Report.added, operations, List.filterMap_append, List.filterMap_append,
    List.filterMap_append, hadd, hskip]
  cases o.lexicalSkipped with
  | none => simp [Report.Operation.result?, List.filterMap_cons]
  | some reason => simp [Report.Operation.result?, List.filterMap_cons]

/-- The strategies that are switched off are noted first, then the gate. -/
theorem noted_operations : Report.noted (operations paths languages lines o) =
    o.disabled.map (·, Strategies.disabledReason) ++
      o.lexicalSkipped.toList.map (.lexical, ·) := by
  have hadd : (o.results.map Report.Operation.add).filterMap Report.Operation.note? = [] := by
    simp [Report.Operation.note?]
  have hskip : (o.disabled.map (Report.Operation.skip · Strategies.disabledReason)).filterMap
      Report.Operation.note? = o.disabled.map fun tag => (tag, Strategies.disabledReason) := by
    simp [List.filterMap_map, Function.comp_def, Report.Operation.note?]
  rw [Report.noted, operations, List.filterMap_append, List.filterMap_append,
    List.filterMap_append, hadd, hskip]
  cases o.lexicalSkipped with
  | none => simp [Report.Operation.note?, List.filterMap_cons]
  | some reason => simp [Report.Operation.note?, List.filterMap_cons]

theorem mem_noted_operations (t : Tag) :
    t ∈ (Report.noted (operations paths languages lines o)).map Prod.fst ↔
      t ∈ o.disabled ∨ t = .lexical ∧ o.lexicalSkipped.isSome = true := by
  rw [noted_operations]
  cases o.lexicalSkipped with
  | none => simp
  | some reason => simp

/-- The strategies that a sweep skips are those that do not run. -/
theorem mem_noted_operations_runAll (s : Strategies) (t : Tag) :
    t ∈ (Report.noted (operations paths languages lines s.runAll.value)).map Prod.fst ↔
      t ∈ Tag.all.filter (!s.runs ·) := by
  rw [mem_noted_operations, List.mem_filter, Bool.not_eq_true']
  constructor
  · intro hskipped
    have ht : t ∈ Tag.all := by
      rcases hskipped with hdisabled | ⟨rfl, _⟩
      · rw [Strategies.runAll_value] at hdisabled
        exact s.disabled_subset hdisabled
      · decide
    exact ⟨ht, (s.skipped_runAll ht).mp hskipped⟩
  · rintro ⟨ht, hruns⟩
    exact (s.skipped_runAll ht).mpr hruns

variable (root : Bytes) (start finish : Instant)

def builder : Report.Builder :=
  (operations paths languages lines o).foldl Report.Operation.apply
    (Report.Builder.start root start)

theorem results_builder : (builder paths languages lines o root start).results = o.results :=
  (Report.results_foldl_apply _ _).trans (added_operations paths languages lines o)

theorem skipped_builder_runAll (s : Strategies) :
    ((builder paths languages lines s.runAll.value root start).skipped.map Prod.fst).Perm
      (Tag.all.filter (!s.runs ·)) := by
  have hbuilder : ((builder paths languages lines s.runAll.value root start).skipped.map
      Prod.fst).Nodup :=
    Report.nodup_skipped_foldl_apply (b := Report.Builder.start root start) List.nodup_nil _
  have hfilter : (Tag.all.filter (!s.runs ·)).Nodup := List.Nodup.filter _ (by decide)
  rw [List.perm_ext_iff_of_nodup hbuilder hfilter]
  intro t
  rw [builder, Report.mem_skipped_foldl_apply, mem_noted_operations_runAll]
  simp [Report.Builder.start]

variable {s : Strategies}

/-- The report of a sweep tells the strategies that run from the others. -/
theorem build_runAll (hown : s.Own) :
    let report := build root start finish paths languages lines s.runAll.value
    report.attempted = Tag.all.filter s.runs ∧ report.skipped = Tag.all.filter (!s.runs ·) ∧
      report.strategies.map (·.strategy) = Tag.all := by
  rw [build_eq_afterAll]
  apply Report.Builder.build_of_partition _ _ Tag.all_pairwise
  · rw [← Strategies.map_strategy_observed hown, Strategies.observed_runAll hown,
      ← Strategies.results_runAll hown, ← results_builder paths languages lines _ root start]
    exact .refl _
  · exact skipped_builder_runAll paths languages lines root start s

theorem exitCode_build_runAll (hown : s.Own) (hmade : ∀ r ∈ s.configured, r.Made)
    (hfits : ((build root start finish paths languages lines s.runAll.value).strategies.map
      (·.unique)).sum ≤ Integer.greatest) :
    (build root start finish paths languages lines s.runAll.value).exitCode = 1 ↔
      ∃ r ∈ s.configured, s.runs r.strategy = true ∧ r.hasFindings = true := by
  rw [build_eq_afterAll] at hfits ⊢
  have hresults := results_builder paths languages lines s.runAll.value root start
  rw [Strategies.results_runAll hown] at hresults
  have hzero := Report.Builder.exitCode_build_eq_zero_iff
    (builder paths languages lines s.runAll.value root start) finish
    (by rw [hresults]; exact fun r hr => hmade r (List.mem_of_mem_filter hr))
    (Report.Builder.sum_unique_build _ finish ▸ hfits)
  rw [hresults] at hzero
  rw [Report.exitCode_eq_one_iff]
  refine (not_congr hzero).trans ?_
  simp

/-- Whichever strategies are switched on and whatever they return under their own names, the report
of a sweep has one row for each of them by rank, and each has either run or been skipped. The linter
and the search for unused exports run if they are switched on, the lexical analysis if besides it is
always wanted or the linter has no findings. Each strategy that ran is observed once, with what it
returned. If the number of findings fits, the exit code is one exactly if a strategy that ran has
findings. -/
theorem build_covers_strategies (hown : s.Own) :
    let outcome := s.runAll.value
    let report := build root start finish paths languages lines outcome
    report.strategies.map (·.strategy) = Tag.all ∧
      report.attempted.Disjoint report.skipped ∧
      (report.attempted ++ report.skipped).Perm Tag.all ∧
      report.attempted.Pairwise (fun s t => s.priority < t.priority) ∧
      report.skipped.Pairwise (fun s t => s.priority < t.priority) ∧
      (.eslint ∈ report.attempted ↔ s.linter.isSome) ∧
      (.tsPrune ∈ report.attempted ↔ s.exports.isSome) ∧
      (.lexical ∈ report.attempted ↔ s.lexical.isSome ∧
        (s.alwaysLexical ∨ ∀ r ∈ s.linter, r.value.hasFindings = false)) ∧
      outcome.observed = s.configured.filter (·.strategy ∈ report.attempted) ∧
      outcome.observed.map Result.strategy = report.attempted ∧
      ((∀ r ∈ s.configured, r.Made) →
        (report.strategies.map (·.unique)).sum ≤ Integer.greatest →
        (report.exitCode = 1 ↔
          ∃ r ∈ s.configured, r.strategy ∈ report.attempted ∧ r.hasFindings)) := by
  intro outcome report
  obtain ⟨hattempted, hskipped, hrows⟩ := build_runAll paths languages lines root start finish hown
  have hruns : ∀ t, t ∈ report.attempted ↔ s.runs t = true := by
    intro t
    rw [hattempted, Strategies.mem_all_filter_runs]
  have hneeds : s.needsLexical = true ↔
      s.alwaysLexical = true ∨ ∀ r ∈ s.linter, r.value.hasFindings = false := by
    simp [Strategies.needsLexical, Option.any_eq_false]
  refine ⟨hrows, ?_, ?_, ?_, ?_, ?_, ?_, ?_, ?_, ?_, ?_⟩
  · rw [hskipped]
    intro t hran hnot
    rw [hruns] at hran
    simp [hran] at hnot
  · rw [hattempted, hskipped]
    exact List.filter_append_perm s.runs Tag.all
  · rw [hattempted]
    exact Tag.all_pairwise.filter _
  · rw [hskipped]
    exact Tag.all_pairwise.filter _
  · rw [hruns, Strategies.runs_eslint]
  · rw [hruns, Strategies.runs_tsPrune]
  · rw [hruns, Strategies.runs_lexical, Bool.and_eq_true, hneeds]
  · simp only [hruns, Bool.decide_eq_true]
    exact Strategies.observed_runAll hown
  · rw [hattempted]
    exact Strategies.map_strategy_observed hown
  · intro hmade hfits
    simp only [hruns]
    exact exitCode_build_runAll paths languages lines root start finish hown hmade hfits

/-- A linter that leaves out two of its findings, and no other strategy. -/
def linterAlone : Strategies where
  linter := some (.silent (.found .eslint [⟨utf8 "a.ts", 1, 0, utf8 "x", [], [], ⟨[]⟩⟩] 3))
  exports := none
  lexical := none
  alwaysLexical := false

theorem build_covers_strategies_linterAlone :
    let report := build [] ⟨0⟩ ⟨1⟩ [] [] 0 linterAlone.runAll.value
    linterAlone.Own ∧ report.strategies.map (·.strategy) = Tag.all ∧
      (report.attempted ++ report.skipped).Perm Tag.all ∧
      .eslint ∈ report.attempted ∧ .lexical ∉ report.attempted ∧
      linterAlone.runAll.value.observed.map Result.strategy = report.attempted ∧
      report.exitCode = 1 := by
  intro report
  have hown : linterAlone.Own := ⟨by simp [linterAlone, Log.Logged.silent, Result.found],
    by simp [linterAlone], by simp [linterAlone]⟩
  obtain ⟨hrows, _, hall, _, _, hlinter, _, hlexical, _, hobserved, hexit⟩ :=
    build_covers_strategies [] [] 0 [] ⟨0⟩ ⟨1⟩ hown
  have hran : .eslint ∈ report.attempted := hlinter.mpr rfl
  have hmade : ∀ r ∈ linterAlone.configured, r.Made := by
    simpa [linterAlone, Strategies.configured, Log.Logged.silent] using Result.Made.found _ _ _
  have hunique : (report.strategies.map (·.unique)).sum = 3 := by cbv
  refine ⟨hown, hrows, hall, hran, ?_, hobserved, ?_⟩
  · rw [hlexical]
    simp [linterAlone]
  · refine (hexit hmade (by rw [hunique]; decide)).mpr ?_
    exact ⟨_, List.mem_cons_self, hran, by decide⟩

/-- Strategies that leave out more than a number of 64 bits counts. -/
def overflowing : Strategies where
  linter := some (.silent (.found .eslint [] Integer.greatest))
  exports := some (.silent (.found .tsPrune [] Integer.greatest))
  lexical := some (.silent (.found .lexical [] 2))
  alwaysLexical := true

/-- The exit code may be zero although all strategies ran and have findings. -/
theorem exitCode_build_overflowing :
    (∀ r ∈ overflowing.configured, r.Made ∧ r.total ≤ Integer.greatest ∧ r.hasFindings = true) ∧
      (build [] ⟨0⟩ ⟨1⟩ [] [] 0 overflowing.runAll.value).attempted = Tag.all ∧
      (build [] ⟨0⟩ ⟨1⟩ [] [] 0 overflowing.runAll.value).exitCode = 0 := by
  refine ⟨?_, by cbv, by cbv⟩
  simp only [overflowing, Strategies.configured, Log.Logged.silent, Option.toList_some,
    List.map_cons, List.map_nil, List.cons_append, List.nil_append, List.mem_cons,
    List.not_mem_nil, or_false]
  rintro r (rfl | rfl | rfl)
  · exact ⟨.found _ _ _, by decide, by decide⟩
  · exact ⟨.found _ _ _, by decide, by decide⟩
  · exact ⟨.found _ _ _, by decide, by decide⟩

end Sweep

end UnusedImports
