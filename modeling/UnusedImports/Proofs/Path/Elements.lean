import UnusedImports.Path
import UnusedImports.Proofs.Text.Search
import Mathlib.Data.List.Basic

/-! A clean absolute path is a list of names with a slash before each. The way from one to another
goes up to where they part and down from there. -/

namespace UnusedImports.Path

/-- What an element of a clean absolute path is: a name that an entry of a directory can have. -/
structure IsElement (name : Bytes) : Prop where
  ne_nil : name ≠ []
  ne_dot : name ≠ utf8 "."
  ne_dots : name ≠ utf8 ".."
  slash_notMem : Bytes.slash ∉ name

instance (name : Bytes) : Decidable (IsElement name) :=
  decidable_of_iff (name ≠ [] ∧ name ≠ utf8 "." ∧ name ≠ utf8 ".." ∧ Bytes.slash ∉ name)
    ⟨fun ⟨h₁, h₂, h₃, h₄⟩ => ⟨h₁, h₂, h₃, h₄⟩, fun ⟨h₁, h₂, h₃, h₄⟩ => ⟨h₁, h₂, h₃, h₄⟩⟩

theorem utf8_slash : utf8 "/" = [Bytes.slash] := by decide

/-! ### Splitting and joining -/

theorem splitOn_join {names : List Bytes} (h : ∀ name ∈ names, Bytes.slash ∉ name)
    (hne : names ≠ []) : (Bytes.join (utf8 "/") names).splitOn Bytes.slash = names := by
  rw [Bytes.join, utf8_slash]
  exact List.splitOn_intercalate Bytes.slash h hne

theorem join_cons (name : Bytes) {names : List Bytes} (h : names ≠ []) :
    Bytes.join (utf8 "/") (name :: names) = name ++ rooted names := by
  rw [rooted, Bytes.join, Bytes.join, List.intercalate_cons_of_ne_nil h, utf8_slash]
  simp

theorem splitOn_rooted {names : List Bytes} (h : ∀ name ∈ names, IsElement name)
    (hne : names ≠ []) : (rooted names).splitOn Bytes.slash = [] :: names := by
  have hslash : ∀ name ∈ names, Bytes.slash ∉ name := fun name hname => (h name hname).slash_notMem
  rw [rooted, List.splitOn_cons_eq_if_modifyHead, if_pos (by simp), splitOn_join hslash hne]

theorem rooted_nil : rooted [] = utf8 "/" := by decide

theorem rooted_ne_slash {names : List Bytes} (h : ∀ name ∈ names, IsElement name)
    (hne : names ≠ []) : rooted names ≠ utf8 "/" := by
  intro heq
  have hsplit := splitOn_rooted h hne
  rw [heq] at hsplit
  obtain rfl : [[]] = names := List.tail_eq_of_cons_eq hsplit
  exact (h [] List.mem_cons_self).ne_nil rfl

theorem elements_rooted {names : List Bytes} (h : ∀ name ∈ names, IsElement name) :
    elements (rooted names) = [] :: names := by
  by_cases hne : names = []
  · subst hne
    decide
  · rw [elements, if_neg (by simpa using rooted_ne_slash h hne), splitOn_rooted h hne]

theorem rooted_cons (name : Bytes) {names : List Bytes} (h : names ≠ []) :
    rooted (name :: names) = rooted [name] ++ rooted names := by
  rw [rooted, join_cons name h]
  simp [rooted, Bytes.join]

theorem rooted_append {names rest : List Bytes} (h : names ≠ []) (hrest : rest ≠ []) :
    rooted (names ++ rest) = rooted names ++ rooted rest := by
  induction names with
  | nil => exact absurd rfl h
  | cons name names ih =>
      rw [List.cons_append, rooted_cons name (by simp [hrest])]
      by_cases hne : names = []
      · rw [hne, List.nil_append]
      · rw [ih hne, rooted_cons name hne, List.append_assoc]

theorem rooted_inj {names names' : List Bytes} (h : ∀ name ∈ names, IsElement name)
    (h' : ∀ name ∈ names', IsElement name) : rooted names = rooted names' ↔ names = names' := by
  constructor
  · intro heq
    have helements := congrArg elements heq
    rw [elements_rooted h, elements_rooted h'] at helements
    exact List.tail_eq_of_cons_eq helements
  · exact congrArg rooted

/-! ### Cleaning -/

theorem foldl_cleanStep_names {names : List Bytes} (h : ∀ name ∈ names, IsElement name)
    (absolute : Bool) (kept : List Bytes) :
    names.foldl (cleanStep absolute) kept = names.reverse ++ kept := by
  induction names generalizing kept with
  | nil => rfl
  | cons name names ih =>
      have hname := h name List.mem_cons_self
      have hstep : cleanStep absolute kept name = name :: kept := by
        simp [cleanStep, hname.ne_nil, hname.ne_dot, hname.ne_dots]
      rw [List.foldl_cons, hstep, ih fun n hn => h n (List.mem_cons_of_mem _ hn)]
      simp

@[simp] theorem isAbsolute_rooted (names : List Bytes) : isAbsolute (rooted names) = true := by
  simp [isAbsolute, rooted]

theorem cleanElements_rooted {names : List Bytes} (h : ∀ name ∈ names, IsElement name) :
    cleanElements (rooted names) = names := by
  by_cases hne : names = []
  · subst hne
    decide
  · have hblank : cleanStep true [] [] = [] := rfl
    rw [cleanElements, splitOn_rooted h hne, isAbsolute_rooted, List.foldl_cons, hblank,
      foldl_cleanStep_names h]
    simp

theorem clean_rooted {names : List Bytes} (h : ∀ name ∈ names, IsElement name) :
    clean (rooted names) = rooted names := by
  rw [clean, if_pos (isAbsolute_rooted names), cleanElements_rooted h]

/-- Cleaning an absolute path keeps names only: at the root there is nothing above. -/
theorem isElement_of_mem_cleanStep {part : Bytes} {kept : List Bytes} (hpart : Bytes.slash ∉ part)
    (hkept : ∀ name ∈ kept, IsElement name) :
    ∀ name ∈ cleanStep true kept part, IsElement name := by
  intro name hname
  by_cases hblank : part = [] ∨ part = utf8 "."
  · have hstep : cleanStep true kept part = kept := by
      rw [cleanStep.eq_def, if_pos (by simpa using hblank)]
    exact hkept name (hstep ▸ hname)
  by_cases hdots : part = utf8 ".."
  · have hstep : cleanStep true kept part = kept.tail := by
      cases kept with
      | nil => simp [cleanStep, hdots]
      | cons last kept =>
          have hlast := (hkept last List.mem_cons_self).ne_dots
          rw [cleanStep.eq_def, if_neg (by simpa using hblank)]
          simp [hdots, hlast]
    exact hkept name (List.mem_of_mem_tail (hstep ▸ hname))
  · have hstep : cleanStep true kept part = part :: kept := by
      rw [cleanStep.eq_def, if_neg (by simpa using hblank), if_neg (by simpa using hdots)]
    obtain rfl | hname := List.mem_cons.mp (hstep ▸ hname)
    · exact ⟨fun h => hblank (.inl h), fun h => hblank (.inr h), hdots, hpart⟩
    · exact hkept name hname

theorem isElement_of_mem_foldl_cleanStep {parts kept : List Bytes}
    (hparts : ∀ part ∈ parts, Bytes.slash ∉ part) (hkept : ∀ name ∈ kept, IsElement name) :
    ∀ name ∈ parts.foldl (cleanStep true) kept, IsElement name := by
  induction parts generalizing kept with
  | nil => exact hkept
  | cons part parts ih =>
      apply ih fun p hp => hparts p (List.mem_cons_of_mem _ hp)
      exact isElement_of_mem_cleanStep (hparts part List.mem_cons_self) hkept

theorem isElement_of_mem_cleanElements {p : Bytes} (h : isAbsolute p = true) :
    ∀ name ∈ cleanElements p, IsElement name := by
  intro name hname
  rw [cleanElements, h, List.mem_reverse] at hname
  exact isElement_of_mem_foldl_cleanStep (fun _ => Bytes.notMem_of_mem_splitOn)
    (fun _ h => absurd h List.not_mem_nil) name hname

theorem exists_clean_eq_rooted {p : Bytes} (h : isAbsolute p = true) :
    ∃ names, (∀ name ∈ names, IsElement name) ∧ clean p = rooted names :=
  ⟨cleanElements p, isElement_of_mem_cleanElements h, if_pos h⟩

theorem exists_absolute_eq_rooted {directory : Bytes} (h : isAbsolute directory = true)
    (path : Bytes) :
    ∃ names, (∀ name ∈ names, IsElement name) ∧ absolute directory path = rooted names := by
  by_cases hpath : isAbsolute path = true
  · obtain ⟨names, hnames, heq⟩ := exists_clean_eq_rooted hpath
    exact ⟨names, hnames, by rw [absolute, if_pos hpath, heq]⟩
  · cases directory with
    | nil => simp [isAbsolute] at h
    | cons b directory =>
        have hjoined : isAbsolute ((b :: directory) ++ utf8 "/" ++ path) = true := by
          simpa [isAbsolute] using h
        obtain ⟨names, hnames, heq⟩ := exists_clean_eq_rooted hjoined
        refine ⟨names, hnames, ?_⟩
        rw [absolute, if_neg hpath, join, if_neg (by simp), heq]

/-! ### The way from one path to another -/

theorem dropCommon_append (as bs : List Bytes) :
    ∃ common, as = common ++ (dropCommon as bs).1 ∧ bs = common ++ (dropCommon as bs).2 := by
  fun_induction dropCommon as bs with
  | case1 a as b bs hab ih =>
      obtain ⟨common, has, hbs⟩ := ih
      obtain rfl : a = b := by simpa using hab
      exact ⟨a :: common, by rw [List.cons_append, ← has], by rw [List.cons_append, ← hbs]⟩
  | case2 a as b bs hab => exact ⟨[], rfl, rfl⟩
  | case3 as bs _ => exact ⟨[], rfl, rfl⟩

theorem fst_dropCommon_eq_nil_iff (as bs : List Bytes) : (dropCommon as bs).1 = [] ↔ as <+: bs := by
  fun_induction dropCommon as bs with
  | case1 a as b bs hab ih =>
      obtain rfl : a = b := by simpa using hab
      rw [ih, List.cons_prefix_cons]
      simp
  | case2 a as b bs hab =>
      have hne : a ≠ b := by simpa using hab
      simp [List.cons_prefix_cons, hne]
  | case3 as bs hcons =>
      cases as with
      | nil => simp
      | cons a as =>
          cases bs with
          | nil => simp
          | cons b bs => exact absurd rfl (hcons a as b bs rfl)

/-- A path leads out if its first element is `..`. -/
theorem isOutward_iff (rel : Bytes) :
    isOutward rel = true ↔ (rel.splitOn Bytes.slash).head? = some (utf8 "..") := by
  have hdots : Bytes.slash ∉ utf8 ".." := by decide
  have hstart : utf8 "../" = utf8 ".." ++ [Bytes.slash] := by decide
  rw [isOutward, Bool.or_eq_true, beq_iff_eq, List.isPrefixOf_iff_prefix]
  constructor
  · rintro (rfl | ⟨rest, rfl⟩)
    · rw [List.splitOn_eq_singleton hdots]
      rfl
    · rw [hstart, List.append_assoc, List.singleton_append,
        List.splitOn_append_cons_self_of_not_mem hdots]
      rfl
  · intro h
    obtain ⟨parts, hparts⟩ := List.head?_eq_some_iff.mp h
    have hrel : [Bytes.slash].intercalate (rel.splitOn Bytes.slash) = rel :=
      List.intercalate_splitOn Bytes.slash
    rw [hparts] at hrel
    by_cases hne : parts = []
    · rw [hne, List.intercalate_singleton] at hrel
      exact .inl hrel.symm
    · rw [List.intercalate_cons_of_ne_nil hne, ← hstart] at hrel
      exact .inr ⟨_, hrel⟩

theorem isOutward_join {parts : List Bytes} (h : ∀ part ∈ parts, Bytes.slash ∉ part) :
    isOutward (Bytes.join (utf8 "/") parts) = true ↔ parts.head? = some (utf8 "..") := by
  by_cases hne : parts = []
  · subst hne
    decide
  · rw [isOutward_iff, splitOn_join h hne]

/-- The parts of the way from one place to another: up to where the two part, and down from
there. -/
def across (base target : List Bytes) : List Bytes :=
  (dropCommon base target).1.map (fun _ => utf8 "..") ++ (dropCommon base target).2

theorem across_of_below {base target : List Bytes} (h : base <+: target) :
    across base target = target.drop base.length := by
  obtain ⟨common, hup, hdown⟩ := dropCommon_append base target
  have hnone : (dropCommon base target).1 = [] := (fst_dropCommon_eq_nil_iff base target).mpr h
  have hcommon : common = base := by simpa [hnone] using hup.symm
  rw [across, hnone, List.map_nil, List.nil_append]
  nth_rewrite 2 [hdown]
  rw [hcommon, List.drop_left]

theorem slash_notMem_across {base target : List Bytes} (htarget : ∀ name ∈ target, IsElement name) :
    ∀ part ∈ across base target, Bytes.slash ∉ part := by
  obtain ⟨common, -, hdown⟩ := dropCommon_append base target
  intro part hpart
  rcases List.mem_append.mp hpart with hpart | hpart
  · obtain ⟨_, _, rfl⟩ := List.mem_map.mp hpart
    decide
  · exact (htarget part (by rw [hdown]; exact List.mem_append_right _ hpart)).slash_notMem

/-- The way to a place leads out unless the place lies where it starts or below. -/
theorem isOutward_across {base target : List Bytes} (htarget : ∀ name ∈ target, IsElement name) :
    isOutward (Bytes.join (utf8 "/") (across base target)) = true ↔ ¬ base <+: target := by
  rw [isOutward_join (slash_notMem_across htarget)]
  constructor
  · intro hhead hbelow
    rw [across_of_below hbelow] at hhead
    exact (htarget _ (List.mem_of_mem_drop (List.mem_of_mem_head? hhead))).ne_dots rfl
  · intro hbeside
    rw [← fst_dropCommon_eq_nil_iff] at hbeside
    obtain ⟨b, up, hup⟩ := List.exists_cons_of_ne_nil hbeside
    simp [across, hup]

theorem relative?_rooted {base target : List Bytes} (hbase : ∀ name ∈ base, IsElement name)
    (htarget : ∀ name ∈ target, IsElement name) (hne : base ≠ target) :
    relative? (rooted base) (rooted target) =
      some (Bytes.join (utf8 "/") (across base target)) := by
  have hdiffer : rooted base ≠ rooted target := mt (rooted_inj hbase htarget).mp hne
  have hdot : rooted base ≠ utf8 "." := by
    intro h
    have := isAbsolute_rooted base
    rw [h] at this
    exact absurd this (by decide)
  have hcommon : dropCommon ([] :: base) ([] :: target) = dropCommon base target := by
    rw [dropCommon, if_pos BEq.rfl]
  rw [relative?, clean_rooted hbase, clean_rooted htarget, if_neg (by simpa using hdiffer),
    if_neg (by simp), if_neg (by simpa using hdot), elements_rooted hbase,
    elements_rooted htarget]
  simp only [hcommon, across]
  obtain ⟨common, hup, _⟩ := dropCommon_append base target
  cases hparts : dropCommon base target with
  | mk up down =>
      cases up with
      | nil => simp
      | cons b up =>
          have hb : b ∈ base := by
            rw [hup, hparts]
            simp
          cases down with
          | nil => simp
          | cons d down => simp [(hbase b hb).ne_dots]

end UnusedImports.Path
