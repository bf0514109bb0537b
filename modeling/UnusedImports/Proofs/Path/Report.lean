import UnusedImports.Proofs.Path.Elements

/-! # Reported paths are canonical -/

namespace UnusedImports.Path

variable {root : Bytes}

/-! ### Clean absolute paths -/

theorem clean_eq_rooted {p : Bytes} (h : isAbsolute p = true) :
    clean p = rooted (cleanElements p) := if_pos h

theorem clean_clean {p : Bytes} (h : isAbsolute p = true) : clean (clean p) = clean p := by
  rw [clean_eq_rooted h, clean_rooted (isElement_of_mem_cleanElements h)]

theorem ne_nil_of_isAbsolute {p : Bytes} (h : isAbsolute p = true) : p ≠ [] := by
  rintro rfl
  simp [isAbsolute] at h

theorem isAbsolute_append {p : Bytes} (h : isAbsolute p = true) (s : Bytes) :
    isAbsolute (p ++ s) = true := by
  obtain ⟨b, p, rfl⟩ := List.exists_cons_of_ne_nil (ne_nil_of_isAbsolute h)
  simpa [isAbsolute] using h

theorem join_of_isAbsolute {p : Bytes} (h : isAbsolute p = true) (q : Bytes) :
    join p q = clean (p ++ utf8 "/" ++ q) := by
  rw [join, if_neg (by simpa using ne_nil_of_isAbsolute h)]

theorem absolute_of_isAbsolute {p : Bytes} (h : isAbsolute p = true) : absolute root p = clean p :=
  if_pos h

theorem absolute_of_relative {p : Bytes} (h : isAbsolute p = false) :
    absolute root p = join root p := if_neg (by simp [h])

theorem clean_absolute (hroot : isAbsolute root = true) (p : Bytes) :
    clean (absolute root p) = absolute root p := by
  obtain ⟨names, hnames, heq⟩ := exists_absolute_eq_rooted hroot p
  rw [heq, clean_rooted hnames]

/-! ### What is reported -/

/-- The way down through some names, from the directory where it starts. -/
def downward (names : List Bytes) : Bytes :=
  if names.isEmpty then utf8 "." else Bytes.join (utf8 "/") names

theorem splitOn_downward {names : List Bytes} (h : ∀ name ∈ names, IsElement name) :
    (downward names).splitOn Bytes.slash = if names.isEmpty then [utf8 "."] else names := by
  by_cases hne : names = []
  · subst hne
    decide
  · rw [downward, if_neg (by simpa using hne), if_neg (by simpa using hne),
      splitOn_join (fun name hname => (h name hname).slash_notMem) hne]

theorem isAbsolute_downward {names : List Bytes} (h : ∀ name ∈ names, IsElement name) :
    isAbsolute (downward names) = false := by
  cases names with
  | nil => decide
  | cons name names =>
      have hname := h name List.mem_cons_self
      obtain ⟨b, s, rfl⟩ := List.exists_cons_of_ne_nil hname.ne_nil
      have hb : b ≠ Bytes.slash := fun hb => hname.slash_notMem (by simp [hb])
      cases names with
      | nil => simpa [downward, Bytes.join, isAbsolute] using hb
      | cons other names =>
          rw [downward, if_neg (by simp), join_cons _ (List.cons_ne_nil other names)]
          simpa [isAbsolute] using hb

theorem isOutward_downward {names : List Bytes} (h : ∀ name ∈ names, IsElement name) :
    isOutward (downward names) = false := by
  rw [← Bool.not_eq_true, isOutward_iff, splitOn_downward h]
  cases names with
  | nil => decide
  | cons name names => simpa using (h name List.mem_cons_self).ne_dots

/-- The root and a path are two lists of names. If the first starts the second, the rest of the
second is reported, else all of it. -/
theorem report_rooted {base way : List Bytes} (hroot : isAbsolute root = true)
    (hbase : ∀ name ∈ base, IsElement name) (hway : ∀ name ∈ way, IsElement name)
    (hclean : clean root = rooted base) {p : Bytes} (hp : absolute root p = rooted way) :
    report root p = if base <+: way then downward (way.drop base.length) else rooted way := by
  have hpath : clean (if isAbsolute p then p else join root p) = rooted way := by
    rw [← hp, absolute]
    split
    · rfl
    · rw [join_of_isAbsolute hroot, List.append_assoc, clean_clean (isAbsolute_append hroot _)]
  have hrelative : relative? root (if isAbsolute p then p else join root p) =
      relative? (rooted base) (rooted way) := by
    unfold relative?
    rw [hpath, hclean, clean_rooted hbase, clean_rooted hway]
  rw [report, if_neg (by simpa using ne_nil_of_isAbsolute hroot)]
  simp only [hrelative, hpath]
  by_cases heq : base = way
  · subst heq
    have hdot : isOutward (utf8 ".") = false := by decide
    simp [relative?, hdot, downward]
  · rw [relative?_rooted hbase hway heq]
    dsimp only
    by_cases hbelow : base <+: way
    · have hne : way.drop base.length ≠ [] := by
        intro hnil
        exact heq (hbelow.eq_of_length_le (List.drop_eq_nil_iff.mp hnil))
      rw [if_neg (mt (isOutward_across hway).mp (not_not.mpr hbelow)), if_pos hbelow,
        across_of_below hbelow, downward, if_neg (by simpa using hne)]
    · rw [if_pos ((isOutward_across hway).mpr hbelow), if_neg hbelow]

/-! ### One key for each file -/

theorem cleanElements_append {p : Bytes} (h : isAbsolute p = true) (s : Bytes) :
    cleanElements (p ++ utf8 "/" ++ s) =
      ((s.splitOn Bytes.slash).foldl (cleanStep true) (cleanElements p).reverse).reverse := by
  have hparts : (p ++ utf8 "/" ++ s).splitOn Bytes.slash =
      p.splitOn Bytes.slash ++ s.splitOn Bytes.slash := by
    rw [utf8_slash, List.append_assoc, List.singleton_append]
    exact List.splitOn_append_cons_self p s
  rw [cleanElements, List.append_assoc, isAbsolute_append h, ← List.append_assoc, hparts,
    List.foldl_append, cleanElements, h, List.reverse_reverse]

/-- The way down from the root leads back. -/
theorem join_downward {names : List Bytes} (hroot : isAbsolute root = true)
    (h : ∀ name ∈ names, IsElement name) :
    join root (downward names) = rooted (cleanElements root ++ names) := by
  have hjoined : isAbsolute (root ++ utf8 "/" ++ downward names) = true := by
    rw [List.append_assoc]
    exact isAbsolute_append hroot _
  have hnames : (if names.isEmpty then [utf8 "."] else names).foldl (cleanStep true)
      (cleanElements root).reverse = names.reverse ++ (cleanElements root).reverse := by
    cases names with
    | nil => rfl
    | cons name names => exact foldl_cleanStep_names h true _
  rw [join_of_isAbsolute hroot, clean_eq_rooted hjoined, cleanElements_append hroot,
    splitOn_downward h, hnames, ← List.reverse_append, List.reverse_reverse]

/-- A path that is the root or lies below it. -/
def Below (root p : Bytes) : Prop := elements (clean root) <+: elements (absolute root p)

/-- The two ways in which a path can be reported, and the names that tell it. -/
theorem report_cases (hroot : isAbsolute root = true) (p : Bytes) :
    (∃ names, (∀ name ∈ names, IsElement name) ∧ Below root p ∧ report root p = downward names ∧
        absolute root p = rooted (cleanElements root ++ names)) ∨
      (¬ Below root p ∧ report root p = absolute root p) := by
  obtain ⟨way, hway, hp⟩ := exists_absolute_eq_rooted hroot p
  have hbase := isElement_of_mem_cleanElements hroot
  have hclean := clean_eq_rooted hroot
  have hreport := report_rooted hroot hbase hway hclean hp
  have hbelow : Below root p ↔ cleanElements root <+: way := by
    rw [Below, hclean, hp, elements_rooted hbase, elements_rooted hway, List.cons_prefix_cons]
    simp
  by_cases h : cleanElements root <+: way
  · rw [if_pos h] at hreport
    obtain ⟨names, rfl⟩ := h
    rw [List.drop_left] at hreport
    exact .inl ⟨names, fun name hname => hway name (List.mem_append_right _ hname),
      hbelow.mpr ⟨names, rfl⟩, hreport, hp⟩
  · rw [if_neg h, ← hp] at hreport
    exact .inr ⟨mt hbelow.mp h, hreport⟩

theorem isAbsolute_absolute (hroot : isAbsolute root = true) (p : Bytes) :
    isAbsolute (absolute root p) = true := by
  obtain ⟨names, _, heq⟩ := exists_absolute_eq_rooted hroot p
  rw [heq, isAbsolute_rooted]

theorem isAbsolute_report_iff (hroot : isAbsolute root = true) (p : Bytes) :
    isAbsolute (report root p) = true ↔ ¬ Below root p := by
  rcases report_cases hroot p with ⟨names, hnames, hbelow, hreport, _⟩ | ⟨hbeside, hreport⟩
  · simp [hreport, isAbsolute_downward hnames, hbelow]
  · simp [hreport, isAbsolute_absolute hroot p, hbeside]

/-- What is reported denotes the path that it is reported for. -/
theorem absolute_report (hroot : isAbsolute root = true) (p : Bytes) :
    absolute root (report root p) = absolute root p := by
  rcases report_cases hroot p with ⟨names, hnames, _, hreport, hp⟩ | ⟨_, hreport⟩
  · rw [hreport, absolute_of_relative (isAbsolute_downward hnames), join_downward hroot hnames, hp]
  · rw [hreport, absolute_of_isAbsolute (isAbsolute_absolute hroot p), clean_absolute hroot]

/-- What is reported depends on the path that is denoted, not on how it is written. -/
theorem report_congr (hroot : isAbsolute root = true) {p q : Bytes}
    (h : absolute root p = absolute root q) : report root p = report root q := by
  obtain ⟨way, hway, hp⟩ := exists_absolute_eq_rooted hroot p
  have hbase := isElement_of_mem_cleanElements hroot
  have hclean := clean_eq_rooted hroot
  rw [report_rooted hroot hbase hway hclean hp,
    report_rooted hroot hbase hway hclean (h.symm.trans hp)]

/-- Two paths are reported alike exactly if they denote the same path. A path at the root or below
it is reported relative to the root, and does not lead out of it; any other is reported absolute. A
relative report leads back from the root, and what is reported is reported as it is. -/
theorem report_canonical (hroot : isAbsolute root = true) (p q : Bytes) :
    (report root p = report root q ↔ absolute root p = absolute root q) ∧
      ((isAbsolute (report root p) = false ∧
          ((report root p).splitOn Bytes.slash).head? ≠ some (utf8 "..")) ↔ Below root p) ∧
      (isAbsolute (report root p) = true ↔ ¬ Below root p) ∧
      (isAbsolute (report root p) = false → join root (report root p) = absolute root p) ∧
      report root (report root p) = report root p := by
  have habsolute := isAbsolute_report_iff hroot p
  refine ⟨⟨fun h => ?_, report_congr hroot⟩, ⟨?_, ?_⟩, habsolute, fun h => ?_, ?_⟩
  · rw [← absolute_report hroot p, h, absolute_report hroot q]
  · rintro ⟨hrelative, _⟩
    by_contra hbeside
    rw [habsolute.mpr hbeside] at hrelative
    cases hrelative
  · intro hbelow
    rcases report_cases hroot p with ⟨names, hnames, _, hreport, _⟩ | ⟨hbeside, _⟩
    · rw [hreport]
      refine ⟨isAbsolute_downward hnames, fun hdots => ?_⟩
      rw [← isOutward_iff, isOutward_downward hnames] at hdots
      cases hdots
    · exact absurd hbelow hbeside
  · rw [← absolute_of_relative h, absolute_report hroot]
  · exact report_congr hroot (absolute_report hroot p)

/-- A name that starts with two dots lies below the root, however its path is written. -/
theorem report_canonical_dots :
    let root := utf8 "/a/../r/"
    let p := utf8 "..x/./y//"
    let q := utf8 "/r/z/../..x/y"
    isAbsolute root = true ∧ report root p = utf8 "..x/y" ∧
      (report root p = report root q ↔ absolute root p = absolute root q) ∧
      ((isAbsolute (report root p) = false ∧
          ((report root p).splitOn Bytes.slash).head? ≠ some (utf8 "..")) ↔ Below root p) ∧
      (isAbsolute (report root p) = true ↔ ¬ Below root p) ∧
      (isAbsolute (report root p) = false → join root (report root p) = absolute root p) ∧
      report root (report root p) = report root p := by
  intro root p q
  have hroot : isAbsolute root = true := by decide
  exact ⟨hroot, by decide, report_canonical hroot p q⟩

end UnusedImports.Path
