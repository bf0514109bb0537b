import UnusedImports.Proofs.Report.Merge
import UnusedImports.Proofs.Report.Order
import Mathlib.Algebra.Order.BigOperators.Group.List
import Mathlib.Algebra.Order.Group.Int

/-! A report lists each finding once and counts those that are not listed. The count is right as
long as it fits 64 bits. -/

namespace UnusedImports

/-! ### Results -/

namespace Result

/-- The results that strategies return: findings, of which at least as many were detected as are
listed, or a reason why there are none. -/
inductive Made : Result → Prop where
  | found (tag : Tag) (fs : List Finding) (total : Int) : Made (.found tag fs total)
  | notAvailable (tag : Tag) (reason : Bytes) : Made (.notAvailable tag reason)
  | inconclusive (tag : Tag) (reason : Bytes) : Made (.inconclusive tag reason)

variable {r : Result}

theorem Made.length_le (h : r.Made) : r.findings.length ≤ r.total := by
  cases h with
  | found tag fs total => exact Int.le_max_right _ _
  | notAvailable => exact Int.le_refl 0
  | inconclusive => exact Int.le_refl 0

theorem omitted_nonneg (r : Result) : 0 ≤ r.omitted := Int.le_max_right _ _

/-- A result has no findings if it lists none and leaves none out. -/
theorem Made.hasFindings_eq_false_iff (h : r.Made) :
    r.hasFindings = false ↔ r.findings = [] ∧ r.omitted = 0 := by
  have hlength := h.length_le
  rw [hasFindings, decide_eq_false_iff_not, omitted, ← List.length_eq_zero_iff]
  omega

end Result

/-! ### Sums of 64 bits -/

theorem Integer.wrap_eq_self {n : Int} (hn : 0 ≤ n) (h : n ≤ greatest) : wrap n = n := by
  unfold greatest at h
  exact Int.bmod_eq_of_le (by omega) (by omega)

namespace Report

/-! ### Reports -/

namespace Builder

variable (b : Builder) (now : Instant)

/-- The findings of a report are the first ones with each key, over the results by rank. -/
theorem findings_build_perm :
    (b.build now).findings.Perm (fresh [] (listed (byRank Result.strategy b.results))) := by
  rw [← flatMap_contributions]
  exact Finding.sort_perm _

theorem keys_build_nodup : ((b.build now).findings.map Finding.key).Nodup :=
  ((b.findings_build_perm now).map Finding.key).nodup_iff.mpr (keys_fresh_nodup [] _)

theorem mem_keys_build_iff (k : Finding.Key) :
    k ∈ (b.build now).findings.map Finding.key ↔
      ∃ r ∈ b.results, k ∈ r.findings.map Finding.key := by
  rw [((b.findings_build_perm now).map Finding.key).mem_iff, mem_keys_fresh, mem_keys_listed]
  simp [(byRank_perm Result.strategy b.results).mem_iff]

theorem foldl_omitted (parts : List (Summary × List Finding)) (n : Int) :
    parts.foldl (fun n p => n + p.1.omitted) n = n + (parts.map (·.1.omitted)).sum := by
  induction parts generalizing n with
  | nil => simp
  | cons p parts ih => rw [List.foldl_cons, ih, List.map_cons, List.sum_cons, Int.add_assoc]

theorem sum_omitted_byRank :
    ((byRank Result.strategy b.results).map Result.omitted).sum =
      (b.results.map Result.omitted).sum :=
  ((byRank_perm Result.strategy b.results).map Result.omitted).sum_eq

/-- The total is what is listed and what results leave out, as a number of 64 bits. -/
theorem totalFindings_build :
    (b.build now).totalFindings = Integer.wrap
      ((b.build now).findings.length + (b.results.map Result.omitted).sum) := by
  have hlength := (Finding.sort_perm
    ((contributions [] (byRank Result.strategy b.results)).flatMap (·.2))).length_eq
  simp only [build, foldl_omitted]
  rw [hlength, map_contributions (·.omitted) Result.omitted (fun _ _ => rfl), sum_omitted_byRank]

/-- The row of a strategy that was not asked to run. -/
def skippedRow (s : Tag × Bytes) : Summary := ⟨s.1, .skipped, 0, 0, 0, s.2⟩

/-- There is a row for each result and for each strategy that was not asked to run. -/
theorem strategies_build_perm :
    (b.build now).strategies.Perm
      ((contributions [] (byRank Result.strategy b.results)).map (·.1) ++
        b.skipped.map skippedRow) :=
  (byRank_perm Summary.strategy _).trans
    (((byRank_perm Prod.fst b.skipped).map skippedRow).append_left _)

theorem sum_unique_build :
    ((b.build now).strategies.map (·.unique)).sum =
      (b.build now).findings.length + (b.results.map Result.omitted).sum := by
  have hskipped : ((b.skipped.map skippedRow).map (·.unique)).sum = 0 := by
    simp [skippedRow, Function.comp_def]
  rw [((b.strategies_build_perm now).map _).sum_eq, List.map_append, List.sum_append, hskipped,
    List.map_map, Int.add_zero, (b.findings_build_perm now).length_eq, ← sum_omitted_byRank]
  exact sum_unique_contributions [] _

theorem sum_omitted_nonneg (rs : List Result) : 0 ≤ (rs.map Result.omitted).sum :=
  List.sum_nonneg (List.forall_mem_map.mpr fun r _ => r.omitted_nonneg)

theorem sum_omitted_eq_zero_iff (rs : List Result) :
    (rs.map Result.omitted).sum = 0 ↔ ∀ r ∈ rs, r.omitted = 0 := by
  constructor
  · intro hsum r hr
    exact List.all_zero_of_le_zero_le_of_sum_eq_zero
      (List.forall_mem_map.mpr fun r _ => r.omitted_nonneg) hsum (List.mem_map_of_mem hr)
  · intro hzero
    exact List.sum_eq_zero (List.forall_mem_map.mpr hzero)

theorem findings_build_eq_nil_iff :
    (b.build now).findings = [] ↔ ∀ r ∈ b.results, r.findings = [] := by
  have hkeys := b.mem_keys_build_iff now
  constructor
  · intro hnone r hr
    rw [List.eq_nil_iff_forall_not_mem]
    intro f hf
    have hmem := (hkeys f.key).mpr ⟨r, hr, List.mem_map_of_mem hf⟩
    simp [hnone] at hmem
  · intro hnone
    rw [List.eq_nil_iff_forall_not_mem]
    intro f hf
    obtain ⟨r, hr, hmem⟩ := (hkeys f.key).mp (List.mem_map_of_mem hf)
    simp [hnone r hr] at hmem

/-- Nothing is counted if and only if no result has findings. -/
theorem count_build_eq_zero_iff (h : ∀ r ∈ b.results, r.Made) :
    ((b.build now).findings.length : Int) + (b.results.map Result.omitted).sum = 0 ↔
      ∀ r ∈ b.results, r.hasFindings = false := by
  have hnonneg := sum_omitted_nonneg b.results
  have hsplit : ((b.build now).findings.length : Int) + (b.results.map Result.omitted).sum = 0 ↔
      (b.build now).findings = [] ∧ (b.results.map Result.omitted).sum = 0 := by
    rw [← List.length_eq_zero_iff]
    omega
  rw [hsplit, findings_build_eq_nil_iff, sum_omitted_eq_zero_iff]
  constructor
  · rintro ⟨hlisted, homitted⟩ r hr
    exact (h r hr).hasFindings_eq_false_iff.mpr ⟨hlisted r hr, homitted r hr⟩
  · intro hnone
    exact ⟨fun r hr => ((h r hr).hasFindings_eq_false_iff.mp (hnone r hr)).1,
      fun r hr => ((h r hr).hasFindings_eq_false_iff.mp (hnone r hr)).2⟩

/-- A count that fits is the number of findings, and the exit code tells whether it is zero. -/
theorem exitCode_build_eq_zero_iff (h : ∀ r ∈ b.results, r.Made)
    (hfits : ((b.build now).findings.length : Int) + (b.results.map Result.omitted).sum ≤
      Integer.greatest) :
    (b.build now).exitCode = 0 ↔ ∀ r ∈ b.results, r.hasFindings = false := by
  have hnonneg := sum_omitted_nonneg b.results
  rw [← b.count_build_eq_zero_iff now h, exitCode, totalFindings_build,
    Integer.wrap_eq_self (by omega) hfits]
  simp

end Builder

/-! ### What a builder is told -/

/-- Something that a builder is told. -/
inductive Operation where
  | clock (now : Instant)
  | files (n : Int)
  | lines (n : Int)
  | languages (counts : List (Bytes × Int))
  | add (r : Result)
  | skip (tag : Tag) (reason : Bytes)

namespace Operation

def apply (b : Builder) : Operation → Builder
  | clock now => { b with startedAt := now }
  | files n => { b with files := n }
  | lines n => { b with lines := n }
  | languages counts => { b with languages := counts }
  | add r => b.add r
  | skip tag reason => b.skip tag reason

def result? : Operation → Option Result
  | add r => some r
  | _ => none

end Operation

def added (ops : List Operation) : List Result := ops.filterMap Operation.result?

/-- A report after operations. -/
def afterAll (root : Bytes) (started : Instant) (ops : List Operation) (finished : Instant) :
    Report :=
  (ops.foldl Operation.apply (Builder.start root started)).build finished

theorem Operation.results_apply (b : Builder) (op : Operation) :
    (op.apply b).results = b.results ++ op.result?.toList := by
  cases op with
  | add r => rfl
  | clock | files | lines | languages | skip => exact (List.append_nil _).symm

theorem results_foldl_apply (b : Builder) (ops : List Operation) :
    (ops.foldl Operation.apply b).results = b.results ++ added ops := by
  induction ops generalizing b with
  | nil => exact (List.append_nil _).symm
  | cons op ops ih =>
      rw [List.foldl_cons, ih, Operation.results_apply, List.append_assoc]
      cases h : op.result? with
      | none => simp [added, h]
      | some r => simp [added, h]

/-- Whatever a builder is told, its report lists one finding for each key of the results added, in
order. Its rows count the findings listed and those that results leave out, and so does its total,
as a number of 64 bits. If that number fits, the exit code is zero exactly if no result added has
findings. -/
theorem afterAll_accounts (root : Bytes) (started finished : Instant) (ops : List Operation)
    (hmade : ∀ r ∈ added ops, r.Made) :
    let report := afterAll root started ops finished
    let count : Int := report.findings.length +
      ((added ops).map fun r => max (r.total - (r.findings.length : Int)) 0).sum
    (report.findings.map Finding.key).Nodup ∧
      (∀ k, k ∈ report.findings.map Finding.key ↔
        ∃ r ∈ added ops, k ∈ r.findings.map Finding.key) ∧
      report.findings.Pairwise Finding.Le ∧
      (report.strategies.map (·.unique)).sum = count ∧
      report.totalFindings = Integer.wrap count ∧
      (count ≤ Integer.greatest → report.totalFindings = count ∧
        (report.exitCode = 0 ↔ ∀ r ∈ added ops, r.hasFindings = false)) := by
  intro report count
  let b := ops.foldl Operation.apply (Builder.start root started)
  have hresults : b.results = added ops := results_foldl_apply _ ops
  have hcount :
      count = (b.build finished).findings.length + (b.results.map Result.omitted).sum := by
    rw [hresults]
    rfl
  rw [← hresults] at hmade ⊢
  have htotal : report.totalFindings = Integer.wrap count := by
    rw [hcount]
    exact b.totalFindings_build finished
  refine ⟨b.keys_build_nodup finished, b.mem_keys_build_iff finished, Finding.sort_pairwise _,
    (b.sum_unique_build finished).trans hcount.symm, htotal, ?_⟩
  intro hfits
  have hnonneg := Builder.sum_omitted_nonneg b.results
  rw [htotal, Integer.wrap_eq_self (by omega) hfits]
  exact ⟨rfl, b.exitCode_build_eq_zero_iff finished hmade (hcount ▸ hfits)⟩

/-- Two strategies report the same name, one of them names another and leaves out three. -/
def sampleOperations : List Operation :=
  [.skip .tsPrune (utf8 "disabled"),
    .add (.found .lexical
      [⟨utf8 "b.ts", 2, 0, utf8 "y", [], [], ⟨[]⟩⟩, ⟨utf8 "a.ts", 1, 9, utf8 "x", [], [], ⟨[]⟩⟩] 5),
    .files 2, .add (.found .eslint [⟨utf8 "a.ts", 1, 0, utf8 "x", [], [], ⟨[]⟩⟩] 0),
    .add (.inconclusive ⟨utf8 "other"⟩ (utf8 "no answer"))]

theorem sampleOperations_made : ∀ r ∈ added sampleOperations, r.Made := by
  simp only [added, sampleOperations, List.filterMap_cons, Operation.result?, List.filterMap_nil,
    List.mem_cons, List.not_mem_nil, or_false]
  rintro r (rfl | rfl | rfl)
  · exact .found _ _ _
  · exact .found _ _ _
  · exact .inconclusive _ _

theorem afterAll_accounts_sample :
    (∀ r ∈ added sampleOperations, r.Made) ∧
      (afterAll [] ⟨0⟩ sampleOperations ⟨1⟩).totalFindings = 5 ∧
      ((afterAll [] ⟨0⟩ sampleOperations ⟨1⟩).strategies.map (·.unique)).sum = 5 ∧
      ((afterAll [] ⟨0⟩ sampleOperations ⟨1⟩).exitCode = 0 ↔
        ∀ r ∈ added sampleOperations, r.hasFindings = false) := by
  obtain ⟨_, _, _, hunique, _, hfits⟩ :=
    afterAll_accounts [] ⟨0⟩ ⟨1⟩ sampleOperations sampleOperations_made
  have hlength : (afterAll [] ⟨0⟩ sampleOperations ⟨1⟩).findings.length = 2 := by cbv
  rw [hlength] at hunique hfits
  obtain ⟨htotal, hexit⟩ := hfits (by decide)
  exact ⟨sampleOperations_made, htotal, hunique, hexit⟩

/-- Results that leave out more than a number of 64 bits counts. -/
def overflowingOperations : List Operation :=
  [.add (.found .eslint [] Integer.greatest), .add (.found .tsPrune [] Integer.greatest),
    .add (.found .lexical [] 2)]

/-- A count that does not fit may come out as zero. -/
theorem exitCode_of_overflow :
    (∀ r ∈ added overflowingOperations, r.Made ∧ r.total ≤ Integer.greatest ∧
      r.hasFindings = true) ∧
      (afterAll [] ⟨0⟩ overflowingOperations ⟨1⟩).totalFindings = 0 ∧
      (afterAll [] ⟨0⟩ overflowingOperations ⟨1⟩).exitCode = 0 := by
  refine ⟨?_, by cbv, by cbv⟩
  simp only [added, overflowingOperations, List.filterMap_cons, Operation.result?,
    List.filterMap_nil, List.mem_cons, List.not_mem_nil, or_false]
  rintro r (rfl | rfl | rfl)
  · exact ⟨.found _ _ _, by decide, by decide⟩
  · exact ⟨.found _ _ _, by decide, by decide⟩
  · exact ⟨.found _ _ _, by decide, by decide⟩

end Report

end UnusedImports
