import UnusedImports.Proofs.Report.Account

/-! Where all ranks are different, the report is the same for every order in which results arrive.
-/

namespace UnusedImports.Report

/-! ### Who keeps a key -/

namespace Builder

/-- Results keep a finding if no result of a lower rank has its key and it is the first in its own
result that does. A finding that names no strategy gets that of its result. -/
def Keeps (rs : List Result) (f : Finding) : Prop :=
  ∃ r ∈ rs, ∃ g, r.findings.find? (·.key = f.key) = some g ∧
    (∀ s ∈ rs, f.key ∈ s.findings.map Finding.key → r.strategy.priority ≤ s.strategy.priority) ∧
    f = { g with strategy := if g.strategy.name = [] then r.strategy else g.strategy }

theorem assignTo_eq (tag : Tag) (f : Finding) :
    assignTo tag f = { f with strategy := if f.strategy.name = [] then tag else f.strategy } := by
  unfold assignTo
  split
  · rfl
  · rfl

/-- A finding is left if it is the first one with its key. -/
theorem mem_fresh_iff (fs : List Finding) (f : Finding) :
    f ∈ fresh [] fs ↔ fs.find? (·.key = f.key) = some f := by
  rw [← find?_fresh List.not_mem_nil fs]
  constructor
  · intro hf
    cases hfind : (fresh [] fs).find? (·.key = f.key) with
    | none => simpa using List.find?_eq_none.mp hfind f hf
    | some g =>
        have hkey : g.key = f.key := by simpa using List.find?_some hfind
        rw [List.inj_on_of_nodup_map (keys_fresh_nodup [] fs) (List.mem_of_find?_eq_some hfind) hf
          hkey]
  · exact List.mem_of_find?_eq_some

/-- The first finding with a key is in the first result that has the key. -/
theorem find?_listed (rs : List Result) (k : Finding.Key) :
    (listed rs).find? (·.key = k) =
      rs.findSome? fun r => (r.findings.find? (·.key = k)).map (assignTo r.strategy) := by
  rw [listed, List.find?_flatMap]
  congr 1
  funext r
  rw [List.find?_map]
  simp only [Function.comp_def, key_assignTo]

theorem find?_key_eq_none_iff (fs : List Finding) (k : Finding.Key) :
    fs.find? (·.key = k) = none ↔ k ∉ fs.map Finding.key := by
  simp [List.find?_eq_none]

/-- Results in the order of their ranks, which are all different, leave what they keep. -/
theorem mem_fresh_listed_iff {rs : List Result}
    (hranks : rs.Pairwise fun r s => r.strategy.priority < s.strategy.priority) (f : Finding) :
    f ∈ fresh [] (listed rs) ↔ Keeps rs f := by
  rw [mem_fresh_iff, find?_listed, List.findSome?_eq_some_iff]
  constructor
  · rintro ⟨before, r, after, rfl, hfind, hbefore⟩
    obtain ⟨g, hg, rfl⟩ := Option.map_eq_some_iff.mp hfind
    refine ⟨r, by simp, g, hg, ?_, assignTo_eq r.strategy g⟩
    intro s hs hkey
    rcases List.mem_append.mp hs with hs | hs
    · have hnone := hbefore s hs
      rw [Option.map_eq_none_iff, find?_key_eq_none_iff] at hnone
      exact absurd hkey hnone
    · rcases List.mem_cons.mp hs with rfl | hs
      · exact Nat.le_refl _
      · have hlater := List.rel_of_pairwise_cons (List.pairwise_append.mp hranks).2.1 hs
        exact Nat.le_of_lt hlater
  · rintro ⟨r, hr, g, hg, hfirst, hf⟩
    obtain ⟨before, after, rfl⟩ := List.append_of_mem hr
    refine ⟨before, r, after, rfl, ?_, ?_⟩
    · rw [hg, Option.map_some, assignTo_eq, ← hf]
    · intro s hs
      have hearlier := (List.pairwise_append.mp hranks).2.2 s hs r List.mem_cons_self
      rw [Option.map_eq_none_iff, find?_key_eq_none_iff]
      intro hkey
      exact Nat.not_lt.mpr (hfirst s (List.mem_append_left _ hs) hkey) hearlier

/-- A report is known from its results and its skipped strategies in the order of their ranks. -/
theorem build_congr {b c : Builder} (hresults : byRank Result.strategy b.results =
    byRank Result.strategy c.results) (hskipped : byRank Prod.fst b.skipped =
    byRank Prod.fst c.skipped) (now later : Instant) :
    (b.build now).findings = (c.build later).findings ∧
      (b.build now).strategies = (c.build later).strategies ∧
      (b.build now).attempted = (c.build later).attempted ∧
      (b.build now).skipped = (c.build later).skipped ∧
      (b.build now).totalFindings = (c.build later).totalFindings := by
  simp only [build, hresults, hskipped, and_self]

theorem mem_findings_build_iff (b : Builder)
    (hranks : (b.results.map (·.strategy.priority)).Nodup) (now : Instant) (f : Finding) :
    f ∈ (b.build now).findings ↔ Keeps b.results f := by
  have hperm := byRank_perm Result.strategy b.results
  have hstrict : (byRank Result.strategy b.results).Pairwise fun r s =>
      r.strategy.priority < s.strategy.priority := by
    have hdistinct := List.pairwise_map.mp ((hperm.map _).nodup_iff.mpr hranks)
    refine ((byRank_pairwise Result.strategy b.results).and hdistinct).imp ?_
    rintro r s ⟨hle, hne⟩
    exact Nat.lt_of_le_of_ne hle hne
  rw [(b.findings_build_perm now).mem_iff, mem_fresh_listed_iff hstrict]
  simp only [Keeps, hperm.mem_iff]

theorem mem_skip_iff (b : Builder) (tag : Tag) (reason : Bytes) (s : Tag × Bytes) :
    s ∈ (b.skip tag reason).skipped ↔ s = (tag, reason) ∨ s ∈ b.skipped ∧ s.1 ≠ tag := by
  unfold skip
  cases hknown : b.skipped.any fun s => s.1 = tag with
  | true =>
      simp only [if_true, List.mem_map]
      constructor
      · rintro ⟨q, hq, rfl⟩
        by_cases hqt : q.1 = tag
        · rw [if_pos hqt]
          exact .inl rfl
        · rw [if_neg hqt]
          exact .inr ⟨hq, hqt⟩
      · rintro (rfl | ⟨hs, hst⟩)
        · obtain ⟨q, hq, hqt⟩ := List.any_eq_true.mp hknown
          exact ⟨q, hq, if_pos (of_decide_eq_true hqt)⟩
        · exact ⟨s, hs, if_neg hst⟩
  | false =>
      have hnew : ∀ q ∈ b.skipped, q.1 ≠ tag := by
        intro q hq heq
        exact List.any_eq_false.mp hknown q hq (decide_eq_true heq)
      simp only [Bool.false_eq_true, if_false, List.mem_append, List.mem_singleton]
      constructor
      · rintro (hs | rfl)
        · exact .inr ⟨hs, hnew s hs⟩
        · exact .inl rfl
      · rintro (rfl | ⟨hs, -⟩)
        · exact .inr rfl
        · exact .inl hs

end Builder

/-! ### Orders of operations -/

namespace Operation

def strategy? : Operation → Option Tag
  | add r => some r.strategy
  | skip tag _ => some tag
  | _ => none

/-- The strategy that an operation skips, and why. -/
def note? : Operation → Option (Tag × Bytes)
  | skip tag reason => some (tag, reason)
  | _ => none

end Operation

def noted (ops : List Operation) : List (Tag × Bytes) := ops.filterMap Operation.note?

def ranks (ops : List Operation) : List Nat :=
  (ops.filterMap Operation.strategy?).map Tag.priority

theorem map_added_sublist (ops : List Operation) :
    ((added ops).map Result.strategy).Sublist (ops.filterMap Operation.strategy?) := by
  induction ops with
  | nil => exact .slnil
  | cons op ops ih =>
      cases op with
      | add r => exact ih.cons_cons r.strategy
      | skip tag reason => exact ih.cons tag
      | clock | files | lines | languages => exact ih

theorem map_noted_sublist (ops : List Operation) :
    ((noted ops).map Prod.fst).Sublist (ops.filterMap Operation.strategy?) := by
  induction ops with
  | nil => exact .slnil
  | cons op ops ih =>
      cases op with
      | skip tag reason => exact ih.cons_cons tag
      | add r => exact ih.cons r.strategy
      | clock | files | lines | languages => exact ih

/-- A builder that skips no strategy twice knows what it was told, in order. -/
theorem skipped_foldl_apply (b : Builder) (ops : List Operation)
    (h : ((b.skipped ++ noted ops).map Prod.fst).Nodup) :
    (ops.foldl Operation.apply b).skipped = b.skipped ++ noted ops := by
  induction ops generalizing b with
  | nil => exact (List.append_nil _).symm
  | cons op ops ih =>
      cases op with
      | skip tag reason =>
          have hnew : (b.skipped.any fun s => s.1 = tag) = false := by
            have happart := (List.nodup_append.mp (List.map_append ▸ h)).2.2
            rw [List.any_eq_false]
            intro s hs
            simpa using happart s.1 (List.mem_map_of_mem hs) tag List.mem_cons_self
          have hskip : (b.skip tag reason).skipped = b.skipped ++ [(tag, reason)] := by
            simp [Builder.skip, hnew]
          have hnoted : b.skipped ++ noted (.skip tag reason :: ops) =
              (b.skip tag reason).skipped ++ noted ops := by simp [hskip, noted, Operation.note?]
          rw [hnoted] at h ⊢
          exact ih _ h
      | clock | files | lines | languages | add => exact ih _ h

/-- Operations on strategies of different ranks give the same findings, strategies and total in
every order. Of the results that have a key, the one with the lowest rank keeps it: the report lists
its first finding with that key. -/
theorem afterAll_arrival (root : Bytes) (started finished started' finished' : Instant)
    {ops ops' : List Operation} (horder : ops.Perm ops') (hranks : (ranks ops).Nodup) :
    let report := afterAll root started ops finished
    let other := afterAll root started' ops' finished'
    (report.findings = other.findings ∧ report.strategies = other.strategies ∧
        report.attempted = other.attempted ∧ report.skipped = other.skipped ∧
        report.totalFindings = other.totalFindings) ∧
      (report.findings.map Finding.key).Nodup ∧
      ∀ f, f ∈ report.findings ↔ Builder.Keeps (added ops) f := by
  intro report other
  have hresults : ∀ (ops : List Operation) (now : Instant),
      (ops.foldl Operation.apply (Builder.start root now)).results = added ops :=
    fun ops now => results_foldl_apply _ ops
  have hskipped : ∀ {ops : List Operation} (now : Instant), (ranks ops).Nodup →
      (ops.foldl Operation.apply (Builder.start root now)).skipped = noted ops :=
    fun now h => skipped_foldl_apply _ _ ((map_noted_sublist _).nodup (h.of_map _))
  have hadded : ((added ops).map (·.strategy.priority)).Nodup := by
    simpa [Function.comp_def] using ((map_added_sublist ops).map Tag.priority).nodup hranks
  have hnoted : ((noted ops).map (·.1.priority)).Nodup := by
    simpa [Function.comp_def] using ((map_noted_sublist ops).map Tag.priority).nodup hranks
  have hranks' : (ranks ops').Nodup := ((horder.filterMap _).map _).nodup_iff.mp hranks
  refine ⟨Builder.build_congr ?_ ?_ finished finished', Builder.keys_build_nodup _ finished, ?_⟩
  · rw [hresults, hresults]
    exact Builder.byRank_eq_of_perm (horder.filterMap _) hadded
  · rw [hskipped started hranks, hskipped started' hranks']
    exact Builder.byRank_eq_of_perm (horder.filterMap _) hnoted
  · intro f
    rw [← hresults ops started] at hadded ⊢
    exact Builder.mem_findings_build_iff _ hadded finished f

/-- Two strategies that name `x`, after a strategy that is skipped. -/
def arrivals : List Operation :=
  [.skip .tsPrune (utf8 "disabled"),
    .add (.found .lexical
      [⟨utf8 "a.ts", 1, 9, utf8 "x", [], [], ⟨[]⟩⟩, ⟨utf8 "b.ts", 2, 0, utf8 "y", [], [], ⟨[]⟩⟩] 5),
    .add (.found .eslint [⟨utf8 "a.ts", 1, 0, utf8 "x", [], [], ⟨[]⟩⟩] 0)]

theorem afterAll_arrival_sample :
    arrivals.Perm arrivals.reverse ∧ (ranks arrivals).Nodup ∧
      (afterAll [] ⟨0⟩ arrivals ⟨1⟩).findings = (afterAll [] ⟨0⟩ arrivals.reverse ⟨1⟩).findings ∧
      (⟨utf8 "a.ts", 1, 0, utf8 "x", [], [], .eslint⟩ : Finding) ∈
        (afterAll [] ⟨0⟩ arrivals.reverse ⟨1⟩).findings := by
  have hperm : arrivals.Perm arrivals.reverse := (List.reverse_perm _).symm
  have hranks : (ranks arrivals).Nodup := by decide
  obtain ⟨⟨hfindings, _⟩, _, hkept⟩ := afterAll_arrival [] ⟨0⟩ ⟨1⟩ ⟨0⟩ ⟨1⟩ hperm hranks
  refine ⟨hperm, hranks, hfindings, ?_⟩
  rw [← hfindings, hkept]
  refine ⟨.found .eslint [⟨utf8 "a.ts", 1, 0, utf8 "x", [], [], ⟨[]⟩⟩] 0, ?_,
    ⟨utf8 "a.ts", 1, 0, utf8 "x", [], [], ⟨[]⟩⟩, ?_, ?_, ?_⟩
  · decide
  · decide
  · decide
  · decide

end UnusedImports.Report
