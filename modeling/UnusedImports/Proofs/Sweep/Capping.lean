import UnusedImports.Proofs.Report.Chain
import UnusedImports.Proofs.Tool.Capping
import Mathlib.Algebra.BigOperators.Ring.Finset

/-! Whatever the caps are, the same strategies run and the exit code is the same. A lower cap may
make the total larger, because findings that are not listed are not seen to be the same as others.
-/

namespace UnusedImports

/-! ### Different keys -/

namespace Finding

def keys (fs : List Finding) : Finset Key := (fs.map key).toFinset

theorem keys_append (fs gs : List Finding) : keys (fs ++ gs) = keys fs ∪ keys gs := by
  rw [keys, List.map_append, List.toFinset_append]
  rfl

theorem keys_eq_of_perm {fs gs : List Finding} (h : fs.Perm gs) : keys fs = keys gs :=
  List.toFinset_eq_of_perm _ _ (h.map key)

theorem card_keys_le (fs : List Finding) : (keys fs).card ≤ fs.length := by
  have hcard := List.toFinset_card_le (fs.map key)
  rwa [List.length_map] at hcard

/-- Findings at the end add at most their number to the different keys. -/
theorem card_union_keys_le {fs gs : List Finding} (h : fs <+: gs) (K : Finset Key) :
    (K ∪ keys gs).card ≤ (K ∪ keys fs).card + (gs.length - fs.length) := by
  obtain ⟨rest, rfl⟩ := h
  rw [keys_append, ← Finset.union_assoc, List.length_append, Nat.add_sub_cancel_left]
  exact (Finset.card_union_le _ _).trans (Nat.add_le_add_left (card_keys_le rest) _)

end Finding

/-! ### What is counted under caps -/

namespace Report

/-- What strategies list of the findings that they detect. -/
def listing (caps : Tag → Int) (ds : Tag → List Finding) (t : Tag) : List Finding :=
  Tool.capped (caps t) (Finding.sort (ds t))

/-- The number of findings that strategies do not list. -/
def unlisted (caps : Tag → Int) (ds : Tag → List Finding) (ts : List Tag) : Nat :=
  (ts.map fun t => (ds t).length - (listing caps ds t).length).sum

/-- The number of different keys that strategies list and of the findings that they do not list. -/
def cappedCount (caps : Tag → Int) (ds : Tag → List Finding) (ts : List Tag) : Nat :=
  (Finding.keys (ts.flatMap (listing caps ds))).card + unlisted caps ds ts

variable {caps caps' : Tag → Int} (ds : Tag → List Finding) (ts : List Tag)

theorem length_listing_le (caps : Tag → Int) (t : Tag) :
    (listing caps ds t).length ≤ (ds t).length := by
  rw [← (Finding.sort_perm (ds t)).length_eq]
  exact (Tool.capped_prefix_self _ _).length_le

theorem omitted_of_lists {r : Result} {t : Tag} (h : r.Lists t (caps t) (ds t)) :
    r.omitted = ((ds t).length - (listing caps ds t).length : Nat) := by
  have hlength := length_listing_le ds caps t
  have hlisted : r.findings = listing caps ds t := h.findings
  rw [Result.omitted, h.total, hlisted]
  omega

theorem listing_isPrefix (h : ∀ t, Tool.CapLe (caps' t) (caps t)) (t : Tag) :
    listing caps' ds t <+: listing caps ds t := Tool.capped_isPrefix (h t) _

theorem keys_flatMap_cons (f : Tag → List Finding) (t : Tag) :
    Finding.keys ((t :: ts).flatMap f) = Finding.keys (f t) ∪ Finding.keys (ts.flatMap f) := by
  rw [List.flatMap_cons, Finding.keys_append]

theorem unlisted_cons (caps : Tag → Int) (t : Tag) :
    unlisted caps ds (t :: ts) =
      (ds t).length - (listing caps ds t).length + unlisted caps ds ts := by
  rw [unlisted, List.map_cons, List.sum_cons, unlisted]

/-- Whatever keys are known already, lower caps do not lower the count. The keys known stand for the
strategies before. -/
theorem card_union_add_unlisted_le (h : ∀ t, Tool.CapLe (caps' t) (caps t))
    (K : Finset Finding.Key) :
    (K ∪ Finding.keys (ts.flatMap (listing caps ds))).card + unlisted caps ds ts ≤
      (K ∪ Finding.keys (ts.flatMap (listing caps' ds))).card + unlisted caps' ds ts := by
  induction ts generalizing K with
  | nil => exact Nat.le_refl _
  | cons t ts ih =>
      -- first the strategies after this one with all its keys, then this one
      have hlater := ih (K ∪ Finding.keys (listing caps ds t))
      have hfirst := Finding.card_union_keys_le (listing_isPrefix ds h t)
        (K ∪ Finding.keys (ts.flatMap (listing caps' ds)))
      rw [Finset.union_right_comm K _ (Finding.keys (listing caps ds t)),
        Finset.union_right_comm K _ (Finding.keys (listing caps' ds t))] at hfirst
      rw [keys_flatMap_cons, keys_flatMap_cons, ← Finset.union_assoc, ← Finset.union_assoc,
        unlisted_cons, unlisted_cons]
      have hlength := length_listing_le ds caps t
      have hshorter := (listing_isPrefix ds h t).length_le
      omega

theorem cappedCount_mono (h : ∀ t, Tool.CapLe (caps' t) (caps t)) :
    cappedCount caps ds ts ≤ cappedCount caps' ds ts := by
  simpa only [cappedCount, Finset.empty_union] using card_union_add_unlisted_le ds ts h ∅

/-- Without caps the different keys are counted. -/
theorem cappedCount_zero :
    cappedCount (fun _ => 0) ds ts = (Finding.keys (ts.flatMap ds)).card := by
  have hlisting : ∀ t, (listing (fun _ => 0) ds t).Perm (ds t) := by
    intro t
    rw [listing, Tool.capped_of_nonpos (Int.le_refl 0)]
    exact Finding.sort_perm (ds t)
  have hkeys : Finding.keys (ts.flatMap (listing (fun _ => 0) ds)) =
      Finding.keys (ts.flatMap ds) :=
    Finding.keys_eq_of_perm (List.Perm.flatMap_left ts fun t _ => hlisting t)
  have hnone : unlisted (fun _ => 0) ds ts = 0 := by
    simp [unlisted, (hlisting _).length_eq]
  rw [cappedCount, hkeys, hnone, Nat.add_zero]

theorem card_keys_le_cappedCount (caps : Tag → Int) :
    (Finding.keys (ts.flatMap ds)).card ≤ cappedCount caps ds ts := by
  rw [← cappedCount_zero]
  exact cappedCount_mono ds ts fun t => .inl (Int.le_refl 0)

theorem cappedCount_le (caps : Tag → Int) :
    cappedCount caps ds ts ≤ (ts.map fun t => (ds t).length).sum := by
  have hsplit : (ts.flatMap (listing caps ds)).length + unlisted caps ds ts =
      (ts.map fun t => (ds t).length).sum := by
    induction ts with
    | nil => rfl
    | cons t ts ih =>
        have hlength := length_listing_le ds caps t
        rw [List.flatMap_cons, List.length_append, unlisted_cons, List.map_cons, List.sum_cons,
          ← ih]
        omega
  rw [← hsplit]
  exact Nat.add_le_add_right (Finding.card_keys_le _) _

theorem cappedCount_eq_zero_iff (caps : Tag → Int) :
    cappedCount caps ds ts = 0 ↔ ∀ t ∈ ts, ds t = [] := by
  have hleast := card_keys_le_cappedCount ds ts caps
  have hmost := cappedCount_le ds ts caps
  constructor
  · intro hzero
    have hkeys : Finding.keys (ts.flatMap ds) = ∅ := by
      rw [← Finset.card_eq_zero]
      omega
    simpa [Finding.keys] using hkeys
  · intro hnone
    have hsum : (ts.map fun t => (ds t).length).sum = 0 :=
      List.sum_eq_zero (List.forall_mem_map.mpr fun t ht => by rw [hnone t ht, List.length_nil])
    omega

/-! ### Reports about what strategies list -/

namespace Builder

theorem length_findings_build (b : Builder) (now : Instant) :
    (b.build now).findings.length = (Finding.keys (b.results.flatMap Result.findings)).card := by
  have hkeys : Finding.keys (b.build now).findings =
      Finding.keys (b.results.flatMap Result.findings) := by
    ext k
    rw [Finding.keys, List.mem_toFinset, mem_keys_build_iff, Finding.keys, List.mem_toFinset]
    simp only [List.mem_map, List.mem_flatMap]
    constructor
    · rintro ⟨r, hr, f, hf, rfl⟩
      exact ⟨f, ⟨r, hr, hf⟩, rfl⟩
    · rintro ⟨f, ⟨r, hr, hf⟩, rfl⟩
      exact ⟨r, hr, f, hf, rfl⟩
  rw [← hkeys, Finding.keys, List.toFinset_card_of_nodup (b.keys_build_nodup now),
    List.length_map]

theorem sum_total_build (b : Builder) (now : Instant) :
    ((b.build now).strategies.map (·.total)).sum = (b.results.map Result.total).sum := by
  have hskipped : ((b.skipped.map skippedRow).map (·.total)).sum = 0 := by
    simp [skippedRow, Function.comp_def]
  rw [((b.strategies_build_perm now).map _).sum_eq, List.map_append, List.sum_append, hskipped,
    List.map_map, Int.add_zero]
  rw [← ((byRank_perm Result.strategy b.results).map Result.total).sum_eq]
  exact congrArg List.sum (map_contributions (·.total) Result.total (fun _ _ => rfl) [] _)

end Builder

end Report

namespace Strategies

/-- Each strategy returns under its own name what it detects, listed up to its cap. -/
structure Lists (s : Strategies) (caps : Tag → Int) (ds : Tag → List Finding) : Prop where
  linter : ∀ r ∈ s.linter, r.value.Lists .eslint (caps .eslint) (ds .eslint)
  exports : ∀ r ∈ s.exports, r.value.Lists .tsPrune (caps .tsPrune) (ds .tsPrune)
  lexical : ∀ r ∈ s.lexical, r.value.Lists .lexical (caps .lexical) (ds .lexical)

namespace Lists

variable {s : Strategies} {caps : Tag → Int} {ds : Tag → List Finding}

theorem own (h : s.Lists caps ds) : s.Own :=
  ⟨fun r hr => (h.linter r hr).strategy, fun r hr => (h.exports r hr).strategy,
    fun r hr => (h.lexical r hr).strategy⟩

theorem of_mem_configured (h : s.Lists caps ds) {r : Result} (hr : r ∈ s.configured) :
    r.Lists r.strategy (caps r.strategy) (ds r.strategy) := by
  simp only [configured, List.mem_append, List.mem_map, Option.mem_toList] at hr
  rcases hr with (⟨a, ha, rfl⟩ | ⟨a, ha, rfl⟩) | ⟨a, ha, rfl⟩
  · have hlists := h.linter a ha
    rwa [hlists.strategy]
  · have hlists := h.exports a ha
    rwa [hlists.strategy]
  · have hlists := h.lexical a ha
    rwa [hlists.strategy]

/-- What is read off the results that are passed on is known from the strategies that run. -/
theorem map_results {α : Type} (h : s.Lists caps ds) {f : Result → α} {g : Tag → α}
    (hfg : ∀ t r, r.Lists t (caps t) (ds t) → f r = g t) :
    s.runAll.value.results.map f = (Tag.all.filter s.runs).map g := by
  have htags : s.runAll.value.results.map Result.strategy = Tag.all.filter s.runs := by
    rw [results_runAll h.own, ← observed_runAll h.own, map_strategy_observed h.own]
  rw [← htags, List.map_map]
  apply List.map_congr_left
  intro r hr
  rw [results_runAll h.own] at hr
  exact hfg _ r (h.of_mem_configured (List.mem_of_mem_filter hr))

end Lists

/-- The lexical analysis is needed if it is always wanted or if the linter detects nothing. -/
theorem needsLexical_eq {s : Strategies} {cap : Int} {ds : List Finding}
    (h : ∀ r ∈ s.linter, r.value.Lists .eslint cap ds) :
    s.needsLexical = (s.alwaysLexical || s.linter.isNone || ds.isEmpty) := by
  unfold needsLexical
  cases hlinter : s.linter with
  | none => simp
  | some r =>
      have hfindings : r.value.hasFindings = !ds.isEmpty := by
        rw [Bool.eq_iff_iff, (h r hlinter).hasFindings_iff]
        simp
      simp [hfindings]

end Strategies

namespace Sweep

section

variable {s : Strategies} {caps : Tag → Int} {ds : Tag → List Finding} (hlists : s.Lists caps ds)
  (paths : List Bytes) (languages : List (Bytes × Int)) (lines : Nat) (root : Bytes)
  (start finish : Instant)

include hlists

/-- The total of a report is the count under the caps, as a number of 64 bits. -/
theorem totalFindings_build_runAll :
    (build root start finish paths languages lines s.runAll.value).totalFindings =
      Integer.wrap (Report.cappedCount caps ds (Tag.all.filter s.runs)) := by
  let b := builder paths languages lines s.runAll.value root start
  have hresults : b.results = s.runAll.value.results := results_builder _ _ _ _ _ _
  have hlisted : b.results.flatMap Result.findings =
      (Tag.all.filter s.runs).flatMap (Report.listing caps ds) := by
    rw [hresults, List.flatMap_def, hlists.map_results fun t r h => h.findings, List.flatMap_def]
    rfl
  have homitted : (b.results.map Result.omitted).sum =
      (Report.unlisted caps ds (Tag.all.filter s.runs) : Int) := by
    rw [hresults, hlists.map_results fun t r h => Report.omitted_of_lists ds h, Report.unlisted,
      Nat.cast_list_sum, List.map_map]
    rfl
  rw [build_eq_afterAll]
  refine (b.totalFindings_build finish).trans ?_
  rw [b.length_findings_build finish, hlisted, homitted, Report.cappedCount, Nat.cast_add]

theorem sum_total_build_runAll :
    ((build root start finish paths languages lines s.runAll.value).strategies.map (·.total)).sum =
      (((Tag.all.filter s.runs).map fun t => (ds t).length).sum : Nat) := by
  let b := builder paths languages lines s.runAll.value root start
  have hresults : b.results = s.runAll.value.results := results_builder _ _ _ _ _ _
  rw [build_eq_afterAll]
  refine (b.sum_total_build finish).trans ?_
  rw [hresults, hlists.map_results fun t r h => h.total, Nat.cast_list_sum, List.map_map]
  rfl

theorem attempted_build_runAll :
    (build root start finish paths languages lines s.runAll.value).attempted =
      Tag.all.filter s.runs :=
  (build_runAll paths languages lines root start finish hlists.own).1

/-- As long as all that is detected can be counted, the total is the count under the caps. -/
theorem totalFindings_build_runAll_of_fits
    (hfits : (((Tag.all.filter s.runs).map fun t => (ds t).length).sum : Int) ≤
      Integer.greatest) :
    (build root start finish paths languages lines s.runAll.value).totalFindings =
      Report.cappedCount caps ds (Tag.all.filter s.runs) := by
  rw [totalFindings_build_runAll hlists, Integer.wrap_eq_self (Int.natCast_nonneg _)]
  have hmost := Report.cappedCount_le ds (Tag.all.filter s.runs) caps
  omega

end

end Sweep

/-! ### Sweeps with other caps -/

/-- A configuration with other caps for the linter and the search for unused exports. -/
def Config.withCaps (c : Config) (m n : Int) : Config :=
  { c with
    linter := { c.linter with maxFindings := m }
    exports := { c.exports with maxFindings := n } }

namespace Sweep

/-- The findings that a strategy of a sweep detects: what the output of its tool is read as, or what
the lexical analysis of the sources finds. -/
def detected (h : Host) (c : Config) (root : Bytes) (t : Tag) : List Finding :=
  if t = .eslint then
    Tool.Eslint.detected root c.eslintOptions (h.runner (Tool.Eslint.command root c.eslintOptions))
  else if t = .tsPrune then
    Tool.TsPrune.detected root (h.runner (Tool.TsPrune.command root c.tsPruneOptions))
  else
    match enumerate h.tree h.canceled root c.sourceOptions, c.maxFileSizeLimit with
    | .ok paths, .ok limit => (lexical h root limit paths).value.1.findings
    | _, _ => []

/-- The caps of the strategies; the lexical analysis has none. -/
def capsOf (m n : Int) (t : Tag) : Int :=
  if t = .eslint then m else if t = .tsPrune then n else 0

theorem capsOf_mono {m n m' n' : Int} (hm : Tool.CapLe m' m) (hn : Tool.CapLe n' n) (t : Tag) :
    Tool.CapLe (capsOf m' n' t) (capsOf m n t) := by
  unfold capsOf
  split
  · exact hm
  · split
    · exact hn
    · exact .inl (Int.le_refl 0)

variable (h : Host) (c : Config) (root : Bytes)

theorem linter_lists (l : Log.Logged Result) (m n : Int) :
    ∀ r ∈ (strategies h (c.withCaps m n) root l).linter,
      r.value.Lists .eslint m (detected h c root .eslint) := by
  intro r hr
  simp only [strategies, Option.mem_ite_none_right, Option.mem_some_iff] at hr
  obtain ⟨-, rfl⟩ := hr
  exact Tool.Eslint.interpret_lists root _ _

theorem exports_lists (l : Log.Logged Result) (m n : Int) :
    ∀ r ∈ (strategies h (c.withCaps m n) root l).exports,
      r.value.Lists .tsPrune n (detected h c root .tsPrune) := by
  intro r hr
  simp only [strategies, Option.mem_ite_none_right, Option.mem_some_iff] at hr
  obtain ⟨-, rfl⟩ := hr
  exact Tool.TsPrune.interpret_lists root _ _

/-- The lexical analysis lists all that it finds. -/
theorem lexicalStrategy_lists (tree : Tree) (canceled : Bool) (s : ScanSettings)
    (paths : List Bytes) :
    let r := (lexicalStrategy tree canceled s paths).value.1
    r.Lists .lexical 0 r.findings := by
  by_cases hstop : (canceled && !paths.isEmpty) = true
  · simp only [lexicalStrategy, scanFiles?, hstop, if_true]
    exact .inconclusive _ _ _
  · simp only [lexicalStrategy, scanFiles?, hstop]
    let fs := (scanFiles tree s paths).value.findings
    have hsorted : Tool.capped 0 (Finding.sort fs) = fs := by
      rw [Tool.capped_of_nonpos (Int.le_refl 0)]
      exact Finding.sort_of_pairwise (Finding.sort_pairwise _)
    have hfound := Result.Lists.found .lexical 0 fs
    rw [hsorted] at hfound
    exact hfound

variable {h c root} in
theorem strategies_lists {paths : List Bytes} {limit : Int}
    (hpaths : enumerate h.tree h.canceled root c.sourceOptions = .ok paths)
    (hlimit : c.maxFileSizeLimit = .ok limit) (records : List Log.Record) (m n : Int) :
    (strategies h (c.withCaps m n) root ⟨(lexical h root limit paths).value.1, records⟩).Lists
      (capsOf m n) (detected h c root) where
  linter := linter_lists h c root _ m n
  exports := exports_lists h c root _ m n
  lexical := by
    intro r hr
    have hdetected :
        detected h c root .lexical = (lexical h root limit paths).value.1.findings := by
      have he : Tag.lexical ≠ .eslint := by decide
      have hp : Tag.lexical ≠ .tsPrune := by decide
      rw [detected, if_neg he, if_neg hp, hpaths, hlimit]
    simp only [strategies, Option.mem_ite_none_right, Option.mem_some_iff] at hr
    obtain ⟨-, rfl⟩ := hr
    rw [hdetected]
    exact lexicalStrategy_lists h.tree h.canceled ⟨root, limit⟩ paths

def needsLexical (h : Host) (c : Config) (root : Bytes) : Bool :=
  c.lexical.always || !c.linter.enabled || (detected h c root .eslint).isEmpty

/-- The strategies that a sweep runs, by rank. -/
def attempts (h : Host) (c : Config) (root : Bytes) : List Tag :=
  (if c.linter.enabled then [.eslint] else []) ++ (if c.exports.enabled then [.tsPrune] else []) ++
    if c.lexical.enabled && needsLexical h c root then [.lexical] else []

theorem isSome_switch {α : Type} (on : Bool) (a : α) :
    (if on then some a else none).isSome = on := by
  cases on with
  | true => rfl
  | false => rfl

theorem needsLexical_strategies (l : Log.Logged Result) (m n : Int) :
    (strategies h (c.withCaps m n) root l).needsLexical = needsLexical h c root := by
  have hlinter : (strategies h (c.withCaps m n) root l).linter.isNone = !c.linter.enabled := by
    rw [← Option.not_isSome]
    exact congrArg _ (isSome_switch _ _)
  rw [Strategies.needsLexical_eq (linter_lists h c root l m n), hlinter]
  rfl

theorem filter_runs_strategies (l : Log.Logged Result) (m n : Int) :
    Tag.all.filter (strategies h (c.withCaps m n) root l).runs = attempts h c root := by
  have hlinter : (strategies h (c.withCaps m n) root l).linter.isSome = c.linter.enabled :=
    isSome_switch _ _
  have hexports : (strategies h (c.withCaps m n) root l).exports.isSome = c.exports.enabled :=
    isSome_switch _ _
  have hlexical : (strategies h (c.withCaps m n) root l).lexical.isSome = c.lexical.enabled :=
    isSome_switch _ _
  simp only [Tag.all, List.filter_cons, List.filter_nil, Strategies.runs_eslint,
    Strategies.runs_tsPrune, Strategies.runs_lexical, needsLexical_strategies, hlinter, hexports,
    hlexical]
  unfold attempts
  cases c.linter.enabled <;> cases c.exports.enabled <;> simp

theorem lexicalSkipped_strategies (l : Log.Logged Result) (m n : Int) :
    (strategies h (c.withCaps m n) root l).runAll.value.lexicalSkipped =
      if needsLexical h c root then none else some Strategies.linterReason := by
  rw [Strategies.runAll_value, needsLexical_strategies]

/-- The report of a sweep over listed sources with the given caps. -/
def cappedReport (h : Host) (c : Config) (root : Bytes) (start finish : Instant)
    (paths : List Bytes) (limit m n : Int) : Report :=
  let lexical := lexical h root limit paths
  build root start finish paths (Language.counts h.tree paths)
    (if c.lexical.enabled then lexical.value.2 else 0)
    (strategies h (c.withCaps m n) root ⟨lexical.value.1, lexical.records⟩).runAll.value

section

variable {h c root} {paths : List Bytes} {limit : Int}
  (hpaths : enumerate h.tree h.canceled root c.sourceOptions = .ok paths)
  (hlimit : c.maxFileSizeLimit = .ok limit) (start finish : Instant) (m n : Int)

include hpaths hlimit

theorem run_of_listed :
    (run h (c.withCaps m n) root start finish).report =
      .ok (cappedReport h c root start finish paths limit m n) := by
  have hsame : enumerate h.tree h.canceled root (c.withCaps m n).sourceOptions = .ok paths := hpaths
  have hgood : (c.withCaps m n).maxFileSizeLimit = .ok limit := hlimit
  simp only [run, hsame, hgood]
  rfl

theorem attempted_cappedReport :
    (cappedReport h c root start finish paths limit m n).attempted = attempts h c root := by
  rw [cappedReport, attempted_build_runAll (strategies_lists hpaths hlimit _ m n),
    filter_runs_strategies]

theorem sum_total_cappedReport :
    ((cappedReport h c root start finish paths limit m n).strategies.map (·.total)).sum =
      (((attempts h c root).map fun t => (detected h c root t).length).sum : Nat) := by
  rw [cappedReport, sum_total_build_runAll (strategies_lists hpaths hlimit _ m n),
    filter_runs_strategies]

theorem totalFindings_cappedReport
    (hfits : (((attempts h c root).map fun t => (detected h c root t).length).sum : Int) ≤
      Integer.greatest) :
    (cappedReport h c root start finish paths limit m n).totalFindings =
      Report.cappedCount (capsOf m n) (detected h c root) (attempts h c root) := by
  have hlists := strategies_lists hpaths hlimit (lexical h root limit paths).records m n
  have htotal := totalFindings_build_runAll_of_fits hlists paths (Language.counts h.tree paths)
    (if c.lexical.enabled then (lexical h root limit paths).value.2 else 0) root start finish
  rw [filter_runs_strategies] at htotal
  exact htotal hfits

end

/-- Caps change neither whether there is a report nor which strategies run, the lexical analysis
among them, nor what the totals of the strategies add up to. As long as that number fits, the exit
code tells whether something was detected, the total lies between the number of different keys
detected and the number of all findings detected, and it does not fall if a cap is lowered. -/
theorem run_withCaps (start finish : Instant) :
    let attempted := attempts h c root
    let total : Int := ((attempted.map fun t => (detected h c root t).length).sum : Nat)
    let different := ((attempted.flatMap (detected h c root)).map Finding.key).toFinset.card
    (∀ (l : Log.Logged Result) (m n : Int),
      (strategies h (c.withCaps m n) root l).runAll.value.lexicalSkipped =
        if needsLexical h c root then none else some Strategies.linterReason) ∧
    ((∃ e, ∀ m n, (run h (c.withCaps m n) root start finish).report = .error e) ∨
      ∃ report : Int → Int → Report,
        (∀ m n, (run h (c.withCaps m n) root start finish).report = .ok (report m n) ∧
          (report m n).attempted = attempted ∧
          ((report m n).strategies.map (·.total)).sum = total) ∧
        (total ≤ Integer.greatest → ∀ m n,
          ((report m n).exitCode =
            if attempted.all fun t => (detected h c root t).isEmpty then 0 else 1) ∧
          different ≤ (report m n).totalFindings ∧ (report m n).totalFindings ≤ total ∧
          ∀ m' n', Tool.CapLe m' m → Tool.CapLe n' n →
            (report m n).totalFindings ≤ (report m' n').totalFindings)) := by
  intro attempted total different
  refine ⟨lexicalSkipped_strategies h c root, ?_⟩
  cases hpaths : enumerate h.tree h.canceled root c.sourceOptions with
  | error e =>
      refine .inl ⟨.sources e, ?_⟩
      intro m n
      have hsame : enumerate h.tree h.canceled root (c.withCaps m n).sourceOptions = .error e :=
        hpaths
      rw [run, hsame]
  | ok paths =>
      cases hlimit : c.maxFileSizeLimit with
      | error p =>
          refine .inl ⟨.fileSize c.scan.maxFileSize p, ?_⟩
          intro m n
          have hsame : enumerate h.tree h.canceled root (c.withCaps m n).sourceOptions =
            .ok paths := hpaths
          have hbad : (c.withCaps m n).maxFileSizeLimit = .error p := hlimit
          simp only [run, hsame, hbad]
          rfl
      | ok limit =>
          refine .inr ⟨cappedReport h c root start finish paths limit, ?_, ?_⟩
          · intro m n
            exact ⟨run_of_listed hpaths hlimit start finish m n,
              attempted_cappedReport hpaths hlimit start finish m n,
              sum_total_cappedReport hpaths hlimit start finish m n⟩
          · intro hfits m n
            have htotal := fun m n =>
              totalFindings_cappedReport hpaths hlimit start finish m n hfits
            have hzero : (Report.cappedCount (capsOf m n) (detected h c root) attempted : Int) = 0 ↔
                (attempted.all fun t => (detected h c root t).isEmpty) = true := by
              rw [Int.natCast_eq_zero, Report.cappedCount_eq_zero_iff]
              simp
            rw [Report.exitCode]
            simp only [htotal]
            refine ⟨if_congr hzero rfl rfl, ?_, ?_, ?_⟩
            · exact Int.ofNat_le.mpr (Report.card_keys_le_cappedCount _ _ _)
            · exact Int.ofNat_le.mpr (Report.cappedCount_le _ _ _)
            · intro m' n' hm hn
              exact Int.ofNat_le.mpr (Report.cappedCount_mono _ _ (capsOf_mono hm hn))

/-- A host without sources whose linter names a variable. No module imports it, nor another export
before it. -/
def sampleHost : Host where
  tree := .empty
  canceled := false
  runner command :=
    if command.arguments.contains (utf8 "ts-prune") then
      ⟨⟨utf8 "b:1 - x\na:1 - y", [], 1⟩, some (.exit command.name 1)⟩
    else
      ⟨⟨utf8 ("[\x7b\"filePath\":\"/b\",\"messages\":" ++
        "[\x7b\"ruleId\":\"r\",\"message\":\"'x'\",\"line\":1\x7d]\x7d]"), [], 0⟩, none⟩

/-- Settings with one rule and without a limit for files. -/
def sampleConfig : Config :=
  { Config.default with
    scan := ⟨none, none, 0, [], false⟩
    linter := { Config.default.linter with rules := some [utf8 "r"] } }

theorem detected_sample_eslint : detected sampleHost sampleConfig (utf8 "/") .eslint =
    [⟨utf8 "b", 1, 0, utf8 "x", utf8 "'x'", utf8 "r", .eslint⟩] := by cbv

theorem detected_sample_tsPrune : detected sampleHost sampleConfig (utf8 "/") .tsPrune =
    [Tool.TsPrune.toFinding (utf8 "/") (utf8 "b") 1 (utf8 "x"),
      Tool.TsPrune.toFinding (utf8 "/") (utf8 "a") 1 (utf8 "y")] := by cbv

theorem attempts_sample : attempts sampleHost sampleConfig (utf8 "/") = [.eslint, .tsPrune] := by
  have hneeds : needsLexical sampleHost sampleConfig (utf8 "/") = false := by
    rw [needsLexical, detected_sample_eslint]
    rfl
  rw [attempts, hneeds]
  rfl

theorem run_withCaps_sample :
    ((attempts sampleHost sampleConfig (utf8 "/")).map fun t =>
        (detected sampleHost sampleConfig (utf8 "/") t).length).sum = 3 ∧
      ∃ all few,
        (run sampleHost (sampleConfig.withCaps 0 0) (utf8 "/") ⟨0⟩ ⟨1⟩).report = .ok all ∧
        (run sampleHost (sampleConfig.withCaps 0 1) (utf8 "/") ⟨0⟩ ⟨1⟩).report = .ok few ∧
        all.attempted = few.attempted ∧ all.exitCode = 1 ∧ few.exitCode = 1 ∧
        2 ≤ all.totalFindings ∧ all.totalFindings ≤ few.totalFindings ∧ few.totalFindings ≤ 3 := by
  have hsum : ((attempts sampleHost sampleConfig (utf8 "/")).map fun t =>
      (detected sampleHost sampleConfig (utf8 "/") t).length).sum = 3 := by
    simp [attempts_sample, detected_sample_eslint, detected_sample_tsPrune]
  have hsome : ((attempts sampleHost sampleConfig (utf8 "/")).all fun t =>
      (detected sampleHost sampleConfig (utf8 "/") t).isEmpty) = false := by
    simp [attempts_sample, detected_sample_eslint]
  have hdifferent : (((attempts sampleHost sampleConfig (utf8 "/")).flatMap
      (detected sampleHost sampleConfig (utf8 "/"))).map Finding.key).toFinset.card = 2 := by
    simp only [attempts_sample, List.flatMap_cons, List.flatMap_nil, detected_sample_eslint,
      detected_sample_tsPrune]
    cbv
  obtain ⟨_, ⟨e, herror⟩ | ⟨report, hreport, hcounts⟩⟩ :=
    run_withCaps sampleHost sampleConfig (utf8 "/") ⟨0⟩ ⟨1⟩
  · have hlisted : enumerate sampleHost.tree sampleHost.canceled (utf8 "/")
        sampleConfig.sourceOptions = .ok [] := by cbv
    have hlimit : sampleConfig.maxFileSizeLimit = .ok 0 := by cbv
    have hok := run_of_listed hlisted hlimit ⟨0⟩ ⟨1⟩ 0 0
    rw [herror] at hok
    cases hok
  · rw [hsum, hsome, hdifferent] at hcounts
    have hfits := hcounts (by decide)
    refine ⟨hsum, report 0 0, report 0 1, (hreport 0 0).1, (hreport 0 1).1, ?_, (hfits 0 0).1,
      (hfits 0 1).1, (hfits 0 0).2.1, ?_, (hfits 0 1).2.2.1⟩
    · rw [(hreport 0 0).2.1, (hreport 0 1).2.1]
    · exact (hfits 0 0).2.2.2 0 1 (.inl (by decide)) (.inl (by decide))

end Sweep

end UnusedImports
