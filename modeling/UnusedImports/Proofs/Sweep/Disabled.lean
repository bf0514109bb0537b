import UnusedImports.Proofs.Sweep.Capping

/-! A strategy that is switched off has one row. Its reason there is the last one that the report
was told. -/

namespace UnusedImports

/-! ### The last reason counts -/

namespace Report

namespace Builder

/-- A strategy that was skipped and has no result has one row. -/
theorem filter_strategies_build {b : Builder} {s : Tag × Bytes} (now : Instant)
    (hnodup : (b.skipped.map Prod.fst).Nodup) (hs : s ∈ b.skipped)
    (hresults : ∀ r ∈ b.results, r.strategy ≠ s.1) :
    (b.build now).strategies.filter (·.strategy = s.1) = [skippedRow s] := by
  have hran : ((contributions [] (byRank Result.strategy b.results)).map (·.1)).filter
      (·.strategy = s.1) = [] := by
    rw [List.filter_eq_nil_iff]
    intro row hrow
    have htag := List.mem_map_of_mem (f := Summary.strategy) hrow
    rw [List.map_map, Function.comp_def,
      map_contributions (·.strategy) Result.strategy (fun _ _ => rfl)] at htag
    obtain ⟨r, hr, hrt⟩ := List.mem_map.mp htag
    have hne := hresults r ((byRank_perm _ _).subset hr)
    simpa [← hrt] using hne
  have hself : b.skipped.filter (·.1 = s.1) = [s] := by
    calc b.skipped.filter (·.1 = s.1)
        = b.skipped.filter (· = s) := by
          apply List.filter_congr
          intro q hq
          exact decide_eq_decide.mpr
            ⟨List.inj_on_of_nodup_map hnodup hq hs, fun heq => heq ▸ rfl⟩
      _ = [s] := by rw [List.filter_eq, List.count_eq_one_of_mem (hnodup.of_map _) hs]; rfl
  have hskipped : (b.skipped.map skippedRow).filter (·.strategy = s.1) = [skippedRow s] := by
    rw [List.filter_map]
    exact congrArg (List.map skippedRow) hself
  have hperm := (b.strategies_build_perm now).filter (·.strategy = s.1)
  rw [List.filter_append, hran, hskipped, List.nil_append] at hperm
  exact List.perm_singleton.mp hperm

end Builder

/-- What is known about a strategy stays if nothing else is noted about it. -/
theorem mem_skipped_foldl_apply_of_mem {b : Builder} {ops : List Operation} {s : Tag × Bytes}
    (hs : s ∈ b.skipped) (hlater : ∀ n ∈ noted ops, n.1 ≠ s.1) :
    s ∈ (ops.foldl Operation.apply b).skipped := by
  induction ops generalizing b with
  | nil => exact hs
  | cons op ops ih =>
      cases op with
      | skip tag reason =>
          have hne : s.1 ≠ tag := (hlater (tag, reason) List.mem_cons_self).symm
          refine ih ((b.mem_skip_iff tag reason s).mpr (.inr ⟨hs, hne⟩)) ?_
          exact fun n hn => hlater n (List.mem_cons_of_mem _ hn)
      | clock | files | lines | languages | add => exact ih hs hlater

/-- The reason noted last for a strategy is the one that is known in the end. -/
theorem mem_skipped_foldl_apply_of_noted (b : Builder) {ops : List Operation} {s : Tag × Bytes}
    {before after : List (Tag × Bytes)} (hnoted : noted ops = before ++ s :: after)
    (hlater : ∀ n ∈ after, n.1 ≠ s.1) : s ∈ (ops.foldl Operation.apply b).skipped := by
  induction ops generalizing b before with
  | nil => simp [noted] at hnoted
  | cons op ops ih =>
      cases op with
      | skip tag reason =>
          have hcons : (tag, reason) :: noted ops = before ++ s :: after := hnoted
          cases before with
          | nil =>
              obtain ⟨rfl, rfl⟩ := List.cons.inj hcons
              have hknown := (b.mem_skip_iff tag reason (tag, reason)).mpr (.inl rfl)
              exact mem_skipped_foldl_apply_of_mem (b := b.skip tag reason) hknown hlater
          | cons n before => exact ih _ (List.cons.inj hcons).2
      | clock | files | lines | languages | add => exact ih _ hnoted

end Report

/-! ### Sweeps -/

namespace Strategies

variable {s : Strategies} {t : Tag}

theorem disabled_nodup (s : Strategies) : s.disabled.Nodup := by
  unfold disabled
  generalize s.linter.isNone = linter
  generalize s.exports.isNone = exports
  generalize s.lexical.isNone = lexical
  revert linter exports lexical
  decide

/-- Why a strategy that is switched off is said not to have run. -/
def skipReason (s : Strategies) (t : Tag) : Bytes :=
  if t = .lexical ∧ s.needsLexical = false then linterReason else disabledReason

end Strategies

namespace Sweep

variable (paths : List Bytes) (languages : List (Bytes × Int)) (lines : Nat) (root : Bytes)
  (start finish : Instant)

theorem mem_skipped_builder {s : Strategies} {t : Tag} (ht : t ∈ s.disabled) :
    (t, s.skipReason t) ∈ (builder paths languages lines s.runAll.value root start).skipped := by
  have hnoted : Report.noted (operations paths languages lines s.runAll.value) =
      s.disabled.map (·, Strategies.disabledReason) ++
        (if s.needsLexical then none else some Strategies.linterReason).toList.map
          (.lexical, ·) := by
    rw [noted_operations, Strategies.runAll_value]
  by_cases hgate : t = .lexical ∧ s.needsLexical = false
  · rw [Strategies.skipReason, if_pos hgate, hgate.1]
    rw [hgate.2] at hnoted
    exact Report.mem_skipped_foldl_apply_of_noted _ hnoted (by simp)
  · rw [Strategies.skipReason, if_neg hgate]
    obtain ⟨before, after, hsplit⟩ := List.append_of_mem ht
    have hnodup := s.disabled_nodup
    rw [hsplit, List.nodup_middle, List.nodup_cons, List.mem_append, not_or] at hnodup
    rw [hsplit, List.map_append, List.map_cons, List.append_assoc, List.cons_append] at hnoted
    refine Report.mem_skipped_foldl_apply_of_noted _ hnoted ?_
    intro n hn heq
    rcases List.mem_append.mp hn with hn | hn
    · obtain ⟨u, hu, rfl⟩ := List.mem_map.mp hn
      have hut : u = t := heq
      exact hnodup.1.2 (hut ▸ hu)
    · -- behind the strategies that are switched off only the gate is noted
      obtain ⟨reason, hreason, rfl⟩ := List.mem_map.mp hn
      cases hneeds : s.needsLexical with
      | true => simp [hneeds] at hreason
      | false => exact hgate ⟨heq.symm, hneeds⟩

theorem filter_strategies_build {s : Strategies} {t : Tag} (ht : t ∈ s.disabled) :
    (build root start finish paths languages lines s.runAll.value).strategies.filter
      (·.strategy = t) = [Report.Builder.skippedRow (t, s.skipReason t)] := by
  have hnone : ∀ r ∈ s.runAll.value.results, r.strategy ≠ t := by
    intro r hr heq
    rw [Outcome.results, List.mem_filter, heq, Strategies.runAll_value] at hr
    simp [ht] at hr
  rw [build_eq_afterAll]
  refine Report.Builder.filter_strategies_build
    (b := builder paths languages lines s.runAll.value root start) finish ?_
    (mem_skipped_builder paths languages lines root start ht) ?_
  · exact Report.nodup_skipped_foldl_apply (b := Report.Builder.start root start) List.nodup_nil _
  · rw [results_builder]
    exact hnone

end Sweep

def Config.switchedOff (c : Config) : List Tag :=
  (if c.linter.enabled then [] else [.eslint]) ++ (if c.exports.enabled then [] else [.tsPrune]) ++
    (if c.lexical.enabled then [] else [.lexical])

namespace Sweep

variable {h : Host} {c : Config} {root : Bytes} {start finish : Instant}

theorem disabled_strategies (h : Host) (c : Config) (root : Bytes) (l : Log.Logged Result) :
    (strategies h c root l).disabled = c.switchedOff := by
  unfold strategies Strategies.disabled Config.switchedOff
  cases c.linter.enabled <;> cases c.exports.enabled <;> cases c.lexical.enabled <;> rfl

/-- The report of a sweep, if there is one, is about the strategies that its settings ask for. -/
theorem exists_build_of_run {report : Report}
    (hrun : (run h c root start finish).report = .ok report) :
    ∃ paths languages lines l, report =
      build root start finish paths languages lines (strategies h c root l).runAll.value := by
  unfold run at hrun
  split at hrun
  · cases hrun
  · simp only at hrun
    split at hrun
    · cases hrun
    · cases hrun
      exact ⟨_, _, _, _, rfl⟩

/-- Each strategy that the settings switch off has exactly one row in the report of a sweep, as one
that was not asked to run. The reason given is that it is switched off; only for the lexical
analysis, if it is switched off, not always wanted, and the linter has findings, the reason is that
the linter reported them. -/
theorem run_reports_switchedOff {report : Report}
    (hrun : (run h c root start finish).report = .ok report) {t : Tag} (ht : t ∈ c.switchedOff) :
    ∃ row, report.strategies.filter (·.strategy = t) = [row] ∧ row.status = .skipped ∧
      row.attempted = false ∧
      row.reason = if t = .lexical ∧ needsLexical h c root = false then Strategies.linterReason
        else Strategies.disabledReason := by
  obtain ⟨paths, languages, lines, l, rfl⟩ := exists_build_of_run hrun
  have hneeds : (strategies h c root l).needsLexical = needsLexical h c root :=
    needsLexical_strategies h c root l c.linter.maxFindings c.exports.maxFindings
  rw [← disabled_strategies h c root l] at ht
  refine ⟨_, filter_strategies_build paths languages lines root start finish ht, rfl, rfl, ?_⟩
  rw [← hneeds]
  rfl

/-- Settings under which only the linter of the sample runs. -/
def linterOnly : Config :=
  { sampleConfig with
    exports := { sampleConfig.exports with enabled := false }
    lexical := ⟨false, false⟩ }

theorem run_linterOnly :
    (run sampleHost linterOnly (utf8 "/") ⟨0⟩ ⟨1⟩).report =
      .ok (cappedReport sampleHost linterOnly (utf8 "/") ⟨0⟩ ⟨1⟩ [] 0 0 0) := by
  have hlisted : enumerate sampleHost.tree sampleHost.canceled (utf8 "/")
      linterOnly.sourceOptions = .ok [] := by cbv
  have hlimit : linterOnly.maxFileSizeLimit = .ok 0 := by cbv
  exact run_of_listed hlisted hlimit ⟨0⟩ ⟨1⟩ 0 0

theorem run_reports_switchedOff_linterOnly :
    ∃ report, (run sampleHost linterOnly (utf8 "/") ⟨0⟩ ⟨1⟩).report = .ok report ∧
      .tsPrune ∈ linterOnly.switchedOff ∧
      ∃ row, report.strategies.filter (·.strategy = .tsPrune) = [row] ∧ row.status = .skipped ∧
        row.attempted = false ∧ row.reason = Strategies.disabledReason := by
  have hoff : .tsPrune ∈ linterOnly.switchedOff := by decide
  refine ⟨_, run_linterOnly, hoff, ?_⟩
  obtain ⟨row, hrow, hstatus, hattempted, hreason⟩ :=
    run_reports_switchedOff run_linterOnly hoff
  refine ⟨row, hrow, hstatus, hattempted, hreason.trans (if_neg ?_)⟩
  exact fun hgate => absurd hgate.1 (by decide)

/-- The lexical analysis may be switched off and yet be said not to have run because of the
linter. -/
theorem run_linterOnly_lexical :
    ∃ report, (run sampleHost linterOnly (utf8 "/") ⟨0⟩ ⟨1⟩).report = .ok report ∧
      .lexical ∈ linterOnly.switchedOff ∧
      report.summary? .lexical =
        some ⟨.lexical, .skipped, 0, 0, 0, Strategies.linterReason⟩ ∧
      Strategies.linterReason ≠ Strategies.disabledReason :=
  ⟨_, run_linterOnly, by decide, by cbv, by decide⟩

end Sweep

end UnusedImports
