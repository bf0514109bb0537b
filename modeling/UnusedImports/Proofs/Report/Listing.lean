import UnusedImports.Proofs.Report.Arrival
import UnusedImports.Report.Text

/-! # Listings account for all findings -/

namespace UnusedImports

/-- How many findings of a strategy are listed; zero or less means all. -/
def TextOptions.limitOf (o : TextOptions) (tag : Tag) : Int :=
  if tag = .lexical then o.lexicalDisplayLimit else o.listingLimit

namespace Report

variable {o : TextOptions} {report : Report} {s : Summary} {l : Listing}

/-! ### One row and its listing -/

/-- A listing accounts for the findings of a row: those shown are the first of them, and together
with the number of those that are not they make up the number in the heading. -/
structure Listing.Accounts (o : TextOptions) (report : Report) (s : Summary) (l : Listing) :
    Prop where
  rows_isPrefix : l.rows <+: report.findingsBy s.strategy
  rows_le : 0 < o.limitOf s.strategy → l.rows.length ≤ o.limitOf s.strategy
  rows_all : o.limitOf s.strategy ≤ 0 → l.rows = report.findingsBy s.strategy
  more_nonneg : 0 ≤ l.more
  rows_add_more : l.rows.length + l.more = l.count
  count_eq : l.count = s.unique

/-- A row counts the findings of its strategy and those that were not listed. -/
structure Tallies (report : Report) (s : Summary) : Prop where
  unique_eq : s.unique = (report.findingsBy s.strategy).length + s.omitted
  omitted_nonneg : 0 ≤ s.omitted
  unique_le : s.unique ≤ Integer.greatest

def shown (limit : Int) (own : List Finding) : List Finding :=
  if 0 < limit then own.take limit.toNat else own

theorem shown_isPrefix (limit : Int) (own : List Finding) : shown limit own <+: own := by
  rw [shown]
  split
  · exact List.take_prefix _ own
  · exact List.prefix_rfl

theorem length_shown_le {limit : Int} (h : 0 < limit) (own : List Finding) :
    (shown limit own).length ≤ limit := by
  rw [shown, if_pos h, List.length_take]
  omega

/-- The listing of a row that has one. -/
def listingOf (o : TextOptions) (report : Report) (s : Summary) : Listing :=
  let own := report.findingsBy s.strategy
  let rows := shown (o.limitOf s.strategy) own
  ⟨s.strategy, s.unique, rows, Integer.wrap (own.length - rows.length + s.omitted)⟩

theorem listing?_eq (o : TextOptions) (report : Report) (s : Summary) :
    listing? o report s =
      if report.findingsBy s.strategy = [] ∧ s.omitted = 0 then none
      else some (listingOf o report s) := by
  have hnone : ((report.findingsBy s.strategy).isEmpty && decide (s.omitted = 0)) = true ↔
      report.findingsBy s.strategy = [] ∧ s.omitted = 0 := by simp
  rw [listing?]
  exact if_congr hnone rfl rfl

theorem Tallies.listingOf_accounts (h : Tallies report s) :
    (listingOf o report s).Accounts o report s := by
  let own := report.findingsBy s.strategy
  let rows := shown (o.limitOf s.strategy) own
  have hfront : rows <+: own := shown_isPrefix _ own
  have hlength := hfront.length_le
  have hunique : s.unique = own.length + s.omitted := h.unique_eq
  have homitted := h.omitted_nonneg
  have hfits := h.unique_le
  have hleast : 0 ≤ (own.length : Int) - rows.length + s.omitted := by omega
  have hgreatest : (own.length : Int) - rows.length + s.omitted ≤ Integer.greatest := by omega
  have hmore : (listingOf o report s).more = own.length - rows.length + s.omitted :=
    Integer.wrap_eq_self hleast hgreatest
  refine ⟨hfront, fun hlimit => length_shown_le hlimit own, fun hlimit => ?_, ?_, ?_, rfl⟩
  · exact if_neg (Int.not_lt.mpr hlimit)
  · rw [hmore]
    omega
  · change rows.length + (listingOf o report s).more = s.unique
    rw [hmore]
    omega

theorem Tallies.accounts (h : Tallies report s) (hl : listing? o report s = some l) :
    l.Accounts o report s := by
  rw [listing?_eq] at hl
  split at hl
  · cases hl
  · cases hl
    exact h.listingOf_accounts

theorem Tallies.unique_eq_zero (h : Tallies report s) (hl : listing? o report s = none) :
    s.unique = 0 := by
  rw [listing?_eq] at hl
  split at hl
  · rename_i hempty
    rw [h.unique_eq, hempty.1, hempty.2]
    rfl
  · cases hl

def listings (o : TextOptions) (report : Report) : List Listing :=
  report.strategies.filterMap (listing? o report)

/-- The headings of the listings of rows add up to what the rows count. -/
theorem sum_count_listings {rows : List Summary} (h : ∀ s ∈ rows, Tallies report s) :
    ((rows.filterMap (listing? o report)).map (·.count)).sum = (rows.map (·.unique)).sum := by
  induction rows with
  | nil => rfl
  | cons s rows ih =>
      have hs := h s List.mem_cons_self
      have hrows := ih fun t ht => h t (List.mem_cons_of_mem _ ht)
      rw [List.map_cons, List.sum_cons]
      cases hl : listing? o report s with
      | none => rw [List.filterMap_cons_none hl, hrows, hs.unique_eq_zero hl, Int.zero_add]
      | some l =>
          rw [List.filterMap_cons_some hl, List.map_cons, List.sum_cons, hrows,
            (hs.accounts hl).count_eq]

/-! ### The findings of a strategy -/

namespace Builder

variable {seen : List Finding.Key} {rs : List Result} {p : Summary × List Finding}

theorem fresh_sublist (seen : List Finding.Key) (fs : List Finding) :
    (fresh seen fs).Sublist fs := by
  induction fs generalizing seen with
  | nil => exact .slnil
  | cons f fs ih =>
      rw [fresh]
      split
      · exact (ih seen).cons f
      · exact (ih _).cons_cons f

/-- What a result contributes: some of its findings, counted with those that it leaves out. -/
theorem exists_of_mem_contributions (h : p ∈ contributions seen rs) :
    ∃ r ∈ rs, ∃ own : List Finding, own.Sublist r.findings ∧ p.2 = own.map (assignTo r.strategy) ∧
      p.1 = ⟨r.strategy, r.status, r.total, own.length + r.omitted, r.omitted, r.reason⟩ := by
  induction rs generalizing seen with
  | nil => cases h
  | cons r rs ih =>
      rw [contributions] at h
      rcases List.mem_cons.mp h with rfl | h
      · exact ⟨r, List.mem_cons_self, fresh seen r.findings, fresh_sublist seen _, rfl, rfl⟩
      · obtain ⟨r', hr', hown⟩ := ih h
        exact ⟨r', List.mem_cons_of_mem _ hr', hown⟩

theorem strategy_assignTo {tag : Tag} {f : Finding} (h : f.strategy.name = [] ∨ f.strategy = tag) :
    (assignTo tag f).strategy = tag := by
  rw [assignTo_eq]
  split
  · rfl
  · rename_i hname
    exact h.resolve_left hname

theorem strategy_of_mem_contributions
    (hown : ∀ r ∈ rs, ∀ f ∈ r.findings, f.strategy.name = [] ∨ f.strategy = r.strategy)
    (hp : p ∈ contributions seen rs) {f : Finding} (hf : f ∈ p.2) :
    f.strategy = p.1.strategy := by
  obtain ⟨r, hr, own, hsub, hfindings, hrow⟩ := exists_of_mem_contributions hp
  rw [hfindings] at hf
  obtain ⟨g, hg, rfl⟩ := List.mem_map.mp hf
  rw [hrow]
  exact strategy_assignTo (hown r hr g (hsub.subset hg))

/-- What a result contributes is counted right if its counts fit 64 bits. -/
theorem unique_of_mem_contributions
    (hfits : ∀ r ∈ rs, r.total ≤ Integer.greatest ∧ (r.findings.length : Int) ≤ Integer.greatest)
    (hp : p ∈ contributions seen rs) :
    p.1.unique = p.2.length + p.1.omitted ∧ 0 ≤ p.1.omitted ∧ p.1.unique ≤ Integer.greatest := by
  obtain ⟨r, hr, own, hsub, hfindings, hrow⟩ := exists_of_mem_contributions hp
  have hle := hsub.length_le
  have homitted : r.omitted = max (r.total - r.findings.length) 0 := rfl
  obtain ⟨htotal, hlisted⟩ := hfits r hr
  rw [hrow, hfindings, List.length_map]
  exact ⟨rfl, r.omitted_nonneg, by simp only; omega⟩

/-- The findings of parts of different strategies, sought by a strategy. -/
theorem filter_flatMap_snd {parts : List (Summary × List Finding)}
    (hnodup : (parts.map (·.1.strategy)).Nodup)
    (hown : ∀ q ∈ parts, ∀ f ∈ q.2, f.strategy = q.1.strategy) (hp : p ∈ parts) :
    (parts.flatMap (·.2)).filter (·.strategy = p.1.strategy) = p.2 := by
  obtain ⟨before, after, rfl⟩ := List.append_of_mem hp
  rw [List.map_append, List.map_cons, List.nodup_middle, List.nodup_cons,
    ← List.map_append] at hnodup
  have hothers : ∀ {qs : List (Summary × List Finding)}, (∀ q ∈ qs, q ∈ before ++ after) →
      (qs.flatMap (·.2)).filter (·.strategy = p.1.strategy) = [] := by
    intro qs hqs
    rw [List.filter_eq_nil_iff]
    intro f hf
    obtain ⟨q, hq, hfq⟩ := List.mem_flatMap.mp hf
    have hmem : q ∈ before ++ p :: after := by
      have := hqs q hq
      simp only [List.mem_append, List.mem_cons] at this ⊢
      tauto
    have htag := hown q hmem f hfq
    intro heq
    rw [decide_eq_true_eq, htag] at heq
    exact hnodup.1 (heq ▸ List.mem_map_of_mem (f := (·.1.strategy)) (hqs q hq))
  have hself : p.2.filter (·.strategy = p.1.strategy) = p.2 := by
    rw [List.filter_eq_self]
    intro f hf
    exact decide_eq_true (hown p hp f hf)
  rw [List.flatMap_append, List.flatMap_cons, List.filter_append, List.filter_append, hself,
    hothers fun q hq => List.mem_append_left _ hq, hothers fun q hq => List.mem_append_right _ hq,
    List.nil_append, List.append_nil]

theorem findingsBy_build_perm (b : Builder) (now : Instant) (tag : Tag) :
    ((b.build now).findingsBy tag).Perm
      (((contributions [] (byRank Result.strategy b.results)).flatMap (·.2)).filter
        (·.strategy = tag)) :=
  (Finding.sort_perm _).filter _

/-- Every row of a report tallies if its results are of different strategies, which are not skipped
and which their findings name, and if counts fit 64 bits. -/
theorem tallies_of_mem_build {b : Builder} (now : Instant)
    (htags : (b.results.map Result.strategy).Nodup)
    (hown : ∀ r ∈ b.results, ∀ f ∈ r.findings, f.strategy.name = [] ∨ f.strategy = r.strategy)
    (hskipped : ∀ n ∈ b.skipped, ∀ r ∈ b.results, n.1 ≠ r.strategy)
    (hfits : ∀ r ∈ b.results,
      r.total ≤ Integer.greatest ∧ (r.findings.length : Int) ≤ Integer.greatest)
    (hs : s ∈ (b.build now).strategies) : Tallies (b.build now) s := by
  have hranked : (byRank Result.strategy b.results).Perm b.results := byRank_perm _ _
  simp only [← hranked.mem_iff] at hown hskipped hfits
  rcases List.mem_append.mp ((b.strategies_build_perm now).subset hs) with hs | hs
  · obtain ⟨p, hp, rfl⟩ := List.mem_map.mp hs
    obtain ⟨hunique, homitted, hle⟩ := unique_of_mem_contributions hfits hp
    have hnodup : ((contributions [] (byRank Result.strategy b.results)).map
        (·.1.strategy)).Nodup := by
      rw [map_contributions (·.strategy) Result.strategy (fun _ _ => rfl)]
      exact (hranked.map _).nodup_iff.mpr htags
    have hlength := (b.findingsBy_build_perm now p.1.strategy).length_eq
    rw [filter_flatMap_snd hnodup (fun q hq f hf => strategy_of_mem_contributions hown hq hf) hp]
      at hlength
    exact ⟨by rw [hunique, hlength], homitted, hle⟩
  · obtain ⟨n, hn, rfl⟩ := List.mem_map.mp hs
    have hempty : (b.build now).findingsBy n.1 = [] := by
      rw [List.eq_nil_iff_forall_not_mem]
      intro f hf
      obtain ⟨hf, htag⟩ := List.mem_filter.mp ((b.findingsBy_build_perm now n.1).subset hf)
      obtain ⟨p, hp, hfp⟩ := List.mem_flatMap.mp hf
      obtain ⟨r, hr, own, -, -, hrow⟩ := exists_of_mem_contributions hp
      have hstrategy := strategy_of_mem_contributions hown hp hfp
      rw [of_decide_eq_true htag, hrow] at hstrategy
      exact hskipped n hn r hr hstrategy
    exact ⟨by simp [skippedRow, hempty], Int.le_refl 0, by simp [skippedRow, Integer.greatest]⟩

end Builder

/-! ### Reports -/

/-- Strategies are only skipped where that is noted. -/
theorem skipped_foldl_apply_subset (b : Builder) (ops : List Operation) :
    (ops.foldl Operation.apply b).skipped ⊆ b.skipped ++ noted ops := by
  induction ops generalizing b with
  | nil => exact fun n hn => List.mem_append_left _ hn
  | cons op ops ih =>
      intro n hn
      have hn := ih _ hn
      cases op with
      | skip tag reason =>
          rcases List.mem_append.mp hn with hn | hn
          · rcases (b.mem_skip_iff tag reason n).mp hn with rfl | ⟨hn, -⟩
            · exact List.mem_append_right _ List.mem_cons_self
            · exact List.mem_append_left _ hn
          · exact List.mem_append_right _ (List.mem_cons_of_mem _ hn)
      | clock | files | lines | languages | add => exact hn

/-- The listings of a report account for every finding. The total is the sum of their headings as a
number of 64 bits, and so the sum itself as long as it fits. -/
theorem afterAll_listings (root : Bytes) (started finished : Instant) (ops : List Operation)
    (o : TextOptions) (htags : ((added ops).map Result.strategy).Nodup)
    (hown : ∀ r ∈ added ops, ∀ f ∈ r.findings, f.strategy.name = [] ∨ f.strategy = r.strategy)
    (hskipped : ∀ n ∈ noted ops, ∀ r ∈ added ops, n.1 ≠ r.strategy)
    (hfits : ∀ r ∈ added ops,
      r.total ≤ Integer.greatest ∧ (r.findings.length : Int) ≤ Integer.greatest) :
    let report := afterAll root started ops finished
    let counts := ((report.listings o).map (·.count)).sum
    (∀ s ∈ report.strategies,
        (∀ l, listing? o report s = some l → l.Accounts o report s) ∧
        (listing? o report s = none → s.unique = 0)) ∧
      report.totalFindings = Integer.wrap counts ∧
      (counts ≤ Integer.greatest → report.totalFindings = counts) := by
  intro report counts
  let b := ops.foldl Operation.apply (Builder.start root started)
  have hresults : b.results = added ops := results_foldl_apply _ ops
  have hnoted : b.skipped ⊆ noted ops := skipped_foldl_apply_subset _ ops
  rw [← hresults] at htags hown hskipped hfits
  have htallies : ∀ s ∈ report.strategies, Tallies report s := fun s hs =>
    Builder.tallies_of_mem_build finished htags hown (fun n hn => hskipped n (hnoted hn)) hfits hs
  have hcounts : counts = report.findings.length + (b.results.map Result.omitted).sum :=
    (sum_count_listings htallies).trans (b.sum_unique_build finished)
  have htotal : report.totalFindings = Integer.wrap counts := by
    rw [hcounts]
    exact b.totalFindings_build finished
  refine ⟨fun s hs => ⟨fun l => (htallies s hs).accounts, (htallies s hs).unique_eq_zero⟩,
    htotal, fun hle => ?_⟩
  have hnonneg := Builder.sum_omitted_nonneg b.results
  rw [htotal, Integer.wrap_eq_self (by omega) hle]

/-- Options that list one finding of the lexical strategy and all of others. -/
def sampleOptions : TextOptions := ⟨true, 0, 1, true⟩

theorem afterAll_listings_sample :
    ((listings sampleOptions (afterAll [] ⟨0⟩ sampleOperations ⟨1⟩)).map fun l =>
        (l.count, l.rows.length, l.more)) = [(1, 1, 0), (4, 1, 3)] ∧
      (∀ s ∈ (afterAll [] ⟨0⟩ sampleOperations ⟨1⟩).strategies, ∀ l,
        listing? sampleOptions (afterAll [] ⟨0⟩ sampleOperations ⟨1⟩) s = some l →
          l.Accounts sampleOptions (afterAll [] ⟨0⟩ sampleOperations ⟨1⟩) s) ∧
      (afterAll [] ⟨0⟩ sampleOperations ⟨1⟩).totalFindings = 5 := by
  have hadded : added sampleOperations = [
      .found .lexical [⟨utf8 "b.ts", 2, 0, utf8 "y", [], [], ⟨[]⟩⟩,
        ⟨utf8 "a.ts", 1, 9, utf8 "x", [], [], ⟨[]⟩⟩] 5,
      .found .eslint [⟨utf8 "a.ts", 1, 0, utf8 "x", [], [], ⟨[]⟩⟩] 0,
      .inconclusive ⟨utf8 "other"⟩ (utf8 "no answer")] := rfl
  obtain ⟨hrows, -, htotal⟩ := afterAll_listings [] ⟨0⟩ ⟨1⟩ sampleOperations sampleOptions
    (by rw [hadded]; decide) (by rw [hadded]; decide) (by rw [hadded]; decide)
    (by rw [hadded]; decide)
  have hsum : ((listings sampleOptions (afterAll [] ⟨0⟩ sampleOperations ⟨1⟩)).map
      (·.count)).sum = 5 := by cbv
  rw [hsum] at htotal
  exact ⟨by cbv, fun s hs => (hrows s hs).1, htotal (by decide)⟩

/-- The headings of listings may add up to more than a number of 64 bits counts, where the total
comes out as zero. -/
theorem sum_count_of_overflow :
    ((added overflowingOperations).map Result.strategy).Nodup ∧
      (∀ r ∈ added overflowingOperations, r.Made ∧ r.findings = [] ∧
        r.total ≤ Integer.greatest) ∧
      noted overflowingOperations = [] ∧
      ((listings sampleOptions (afterAll [] ⟨0⟩ overflowingOperations ⟨1⟩)).map
        (·.count)).sum = 0x10000000000000000 ∧
      (afterAll [] ⟨0⟩ overflowingOperations ⟨1⟩).totalFindings = 0 := by
  have hadded : added overflowingOperations = [.found .eslint [] Integer.greatest,
      .found .tsPrune [] Integer.greatest, .found .lexical [] 2] := rfl
  refine ⟨by rw [hadded]; decide, ?_, rfl, by cbv, by cbv⟩
  simp only [hadded, List.mem_cons, List.not_mem_nil, or_false]
  rintro r (rfl | rfl | rfl)
  · exact ⟨.found _ _ _, rfl, by decide⟩
  · exact ⟨.found _ _ _, rfl, by decide⟩
  · exact ⟨.found _ _ _, rfl, by decide⟩

end Report

end UnusedImports
