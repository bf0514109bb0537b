import UnusedImports.Edit
import UnusedImports.Proofs.Import.Names
import UnusedImports.Proofs.Lexer.Place
import Mathlib.Data.List.Nodup

/-! An edit knows the names to remove by their places alone. Names at different places are different
tokens, so it removes the unused ones and keeps the others. -/

namespace UnusedImports

/-! ### Places of names -/

def Binding.place (b : Binding) : Nat × Nat := (b.nameLine, b.nameColumn)

theorem Binding.NamedBy.place_eq {b : Binding} {t : Token} (h : b.NamedBy t) :
    b.place = (t.line, t.column) := by
  rw [place, h.line, h.column]

/-- No two names of a text are placed alike. -/
theorem places_nodup (dialect : Dialect) (source : Bytes) :
    (((importsOf (tokenize dialect source)).flatMap (·.bindings)).map Binding.place).Nodup := by
  obtain ⟨names, hnames, hsub⟩ := List.sublistForall₂_iff.mp
    (importsOf_namedBy (tokenize dialect source))
  generalize (importsOf (tokenize dialect source)).flatMap (·.bindings) = bs at hnames
  have hplaces : bs.map Binding.place = names.map fun t => (t.line, t.column) := by
    rw [← List.forall₂_eq_eq_eq, List.forall₂_map_left_iff, List.forall₂_map_right_iff]
    exact hnames.imp fun _ _ h => h.place_eq
  have hwords : ∀ t ∈ names, t.kind = .identifier := by
    clear hplaces hsub
    induction hnames with
    | nil => simp
    | cons hname _ ih => simpa using ⟨hname.kind, ih⟩
  rw [hplaces]
  refine List.pairwise_map.mpr (((tokenize_before dialect source).sublist hsub).imp_of_mem ?_)
  intro t u ht _ hbefore
  exact (hbefore (by simp [hwords t ht])).ne

namespace Edit

/-! ### An edit can be made -/

/-- At an index stands the word `from`, with a string behind it. -/
structure ModuleAt (tokens : List Token) (i : Nat) (source : Token) : Prop where
  word : ∃ t, tokens[i]? = some t ∧ t.isWord "from" = true
  next : tokens[i + 1]? = some source
  string : source.kind = .string

section Search

variable {tokens : List Token} {start i : Nat}

theorem sourceOffsetAt?_of_moduleAt {source : Token} (hstart : start ≤ i)
    (h : ModuleAt tokens i source) :
    sourceOffsetAt? tokens start (i + 1) = some (some source.offset) := by
  obtain ⟨⟨t, ht, hword⟩, hsource, hstring⟩ := h
  simp [sourceOffsetAt?, Nat.lt_succ_of_le hstart, ht, hword, hsource, hstring]

theorem sourceOffsetAt?_of_not_moduleAt (hstart : start ≤ i) (hi : i + 1 < tokens.length)
    (h : ∀ source, ¬ ModuleAt tokens i source) :
    sourceOffsetAt? tokens start (i + 1) = sourceOffsetAt? tokens start i := by
  have hnext : tokens[i + 1]? = some tokens[i + 1] := List.getElem?_eq_getElem hi
  have hat : tokens[i]? = some tokens[i] := List.getElem?_eq_getElem (Nat.lt_of_succ_lt hi)
  have hother : tokens[i + 1].kind = .string → tokens[i].isWord "from" = false := by
    intro hstring
    rw [← Bool.not_eq_true]
    exact fun hword => h _ ⟨⟨_, hat, hword⟩, hnext, hstring⟩
  rw [sourceOffsetAt?, if_pos (Nat.lt_succ_of_le hstart), hnext, hat]
  simpa using fun hstring hword => absurd (hother hstring) (by simp [hword])

/-- The search for a module stays in the list, and it finds one if there is one. -/
theorem sourceOffsetAt?_spec (start : Nat) (hi : i < tokens.length) :
    (∃ j source, start ≤ j ∧ j < i ∧ ModuleAt tokens j source ∧
        sourceOffsetAt? tokens start i = some (some source.offset)) ∨
      (sourceOffsetAt? tokens start i = some none ∧
        ∀ j source, start ≤ j → j < i → ¬ ModuleAt tokens j source) := by
  induction i with
  | zero => exact .inr ⟨rfl, fun j source _ hj => absurd hj (Nat.not_lt_zero j)⟩
  | succ i ih =>
      by_cases hstart : start ≤ i
      · by_cases hmodule : ∃ source, ModuleAt tokens i source
        · obtain ⟨source, hmodule⟩ := hmodule
          exact .inl ⟨i, source, hstart, Nat.lt_succ_self i, hmodule,
            sourceOffsetAt?_of_moduleAt hstart hmodule⟩
        · rw [sourceOffsetAt?_of_not_moduleAt hstart hi (not_exists.mp hmodule)]
          rcases ih (Nat.lt_of_succ_lt hi) with ⟨j, source, hle, hj, hfound⟩ | ⟨hread, hnone⟩
          · exact .inl ⟨j, source, hle, Nat.lt_succ_of_lt hj, hfound⟩
          · refine .inr ⟨hread, fun j source hle hj => ?_⟩
            rcases Nat.lt_succ_iff_lt_or_eq.mp hj with hj | rfl
            · exact hnone j source hle hj
            · exact not_exists.mp hmodule source
      · refine .inr ⟨?_, fun j _ hle hj => by omega⟩
        rw [sourceOffsetAt?, if_neg (by omega)]

end Search

variable {content : Bytes} {tokens : List Token} {d : Declaration} {kept : List Binding}
  {r : Replacement}

/-- The stretch from the first token of a declaration to the end of its last one. -/
structure Extent (tokens : List Token) (d : Declaration) (start stop : Nat) : Prop where
  first : ∃ t, (d.own tokens).head? = some t ∧ t.offset = start
  last : ∃ t, (d.own tokens).getLast? = some t ∧ t.offset + t.text.length = stop

theorem exists_extent (hd : d ∈ importsOf tokens) :
    ∃ first last, tokens[d.start]? = some first ∧ tokens[d.stop - 1]? = some last ∧
      Extent tokens d first.offset (last.offset + last.text.length) := by
  have hbounds := bounds_of_mem_importsOf hd
  have hfirst : tokens[d.start]? = some tokens[d.start] := List.getElem?_eq_getElem (by omega)
  have hlast : tokens[d.stop - 1]? = some tokens[d.stop - 1] :=
    List.getElem?_eq_getElem (by omega)
  exact ⟨_, _, hfirst, hlast, ⟨_, (head?_own hd).trans hfirst, rfl⟩,
    _, (getLast?_own hd).trans hlast, rfl⟩

/-- The plan for a declaration that keeps no name takes it out. -/
theorem planAt?_removal (content : Bytes) (hd : d ∈ importsOf tokens) :
    ∃ start stop, Extent tokens d start stop ∧
      planAt? content tokens d [] =
        some (some ⟨(removalSpan content start stop).1, (removalSpan content start stop).2, []⟩) := by
  obtain ⟨first, last, hfirst, hlast, hextent⟩ := exists_extent hd
  exact ⟨_, _, hextent, by simp [planAt?, hfirst, hlast]⟩

/-- The plan for a declaration that keeps names writes over just its tokens, if its module is
found. -/
theorem planAt?_rewrite (content : Bytes) (hd : d ∈ importsOf tokens) (hne : kept ≠ []) :
    ∃ start stop source?, Extent tokens d start stop ∧
      sourceOffsetAt? tokens d.start (d.stop - 1) = some source? ∧
      planAt? content tokens d kept = some (source?.map fun source =>
        ⟨start, stop, utf8 "import " ++ (if d.typeOnly then utf8 "type " else []) ++
          renderClause d.typeOnly kept ++ utf8 " from " ++
            (content.drop source).take (stop - source)⟩) := by
  have hbounds := bounds_of_mem_importsOf hd
  obtain ⟨first, last, hfirst, hlast, hextent⟩ := exists_extent hd
  obtain ⟨source?, hsearch⟩ : ∃ source?,
      sourceOffsetAt? tokens d.start (d.stop - 1) = some source? := by
    have hstop : d.stop - 1 < tokens.length := by omega
    rcases sourceOffsetAt?_spec d.start hstop with ⟨_, _, _, _, _, hsearch⟩ | ⟨hsearch, _⟩
    · exact ⟨_, hsearch⟩
    · exact ⟨_, hsearch⟩
  exact ⟨_, _, source?, hextent, hsearch, by simp [planAt?, hfirst, hlast, hsearch, hne]⟩

theorem exists_planAt (content : Bytes) (kept : List Binding) (hd : d ∈ importsOf tokens) :
    ∃ plan, planAt? content tokens d kept = some plan := by
  by_cases hkept : kept = []
  · obtain ⟨_, _, _, hplan⟩ := planAt?_removal content hd
    exact ⟨_, hkept ▸ hplan⟩
  · obtain ⟨_, _, _, _, _, hplan⟩ := planAt?_rewrite content hd hkept
    exact ⟨_, hplan⟩

theorem plan?_of_planAt? {plan : Option Replacement}
    (h : planAt? content tokens d kept = some plan) : plan? content tokens d kept = plan := by
  rw [plan?, h, Option.join_some]

/-- A replacement that leaves some names writes over just the tokens of the declaration, up to its
end from the module on. -/
theorem plan?_of_kept (hd : d ∈ importsOf tokens) (h : plan? content tokens d kept = some r)
    (hne : kept ≠ []) :
    Extent tokens d r.start r.stop ∧ ∃ i,
      sourceOffsetAt? tokens d.start (d.stop - 1) = some (some i) ∧
      r.text = utf8 "import " ++ (if d.typeOnly then utf8 "type " else []) ++
        renderClause d.typeOnly kept ++ utf8 " from " ++ (content.drop i).take (r.stop - i) := by
  obtain ⟨start, stop, source?, hextent, hsearch, hplan⟩ := planAt?_rewrite content hd hne
  rw [plan?_of_planAt? hplan] at h
  obtain ⟨i, rfl, rfl⟩ := Option.map_eq_some_iff.mp h
  exact ⟨hextent, i, hsearch, rfl⟩

/-- A replacement that leaves no name takes the declaration out. One that leaves some names writes
over just the tokens of the declaration. -/
theorem plan?_eq_some (hd : d ∈ importsOf tokens) (h : plan? content tokens d kept = some r) :
    ∃ start stop, Extent tokens d start stop ∧
      (r = ⟨(removalSpan content start stop).1, (removalSpan content start stop).2, []⟩ ∨
        ∃ text, r = ⟨start, stop, text⟩) := by
  by_cases hkept : kept = []
  · subst hkept
    obtain ⟨start, stop, hextent, hplan⟩ := planAt?_removal content hd
    rw [plan?_of_planAt? hplan] at h
    exact ⟨start, stop, hextent, .inl (Option.some.inj h).symm⟩
  · obtain ⟨hextent, -⟩ := plan?_of_kept hd h hkept
    exact ⟨r.start, r.stop, hextent, .inr ⟨r.text, rfl⟩⟩

/-- A declaration of several names has a module behind its `from`. -/
theorem exists_moduleAt (hd : d ∈ importsOf tokens) (hlength : 1 < d.bindings.length) :
    ∃ i source, d.start ≤ i ∧ i < d.stop - 1 ∧ ModuleAt tokens i source := by
  obtain ⟨front, word, source, left, hown, hword, hstring⟩ :=
    exists_source_of_mem_importsOf hd hlength
  have hstop : d.start + front.length + 1 < d.stop := by
    have hlength := congrArg List.length hown
    simp only [length_own hd, List.length_append, List.length_cons] at hlength
    omega
  have hat : (d.own tokens)[front.length]? = some word := by simp [hown]
  have hnext : (d.own tokens)[front.length + 1]? = some source := by simp [hown]
  rw [getElem?_own (by omega)] at hat hnext
  exact ⟨d.start + front.length, source, Nat.le_add_right _ _, by omega,
    ⟨word, hat, hword⟩, hnext, hstring⟩

theorem exists_plan (content : Bytes) (hd : d ∈ importsOf tokens)
    (hkept : kept.length < d.bindings.length) : ∃ r, plan? content tokens d kept = some r := by
  by_cases hne : kept = []
  · subst hne
    obtain ⟨_, _, _, hplan⟩ := planAt?_removal content hd
    exact ⟨_, plan?_of_planAt? hplan⟩
  · obtain ⟨_, _, source?, _, hsearch, hplan⟩ := planAt?_rewrite content hd hne
    have hpos : 0 < kept.length := List.length_pos_iff.mpr hne
    obtain ⟨i, source, hstart, hstop, hmodule⟩ := exists_moduleAt hd (by omega)
    have hbounds := bounds_of_mem_importsOf hd
    have hlast : d.stop - 1 < tokens.length := by omega
    rcases sourceOffsetAt?_spec d.start hlast with ⟨_, _, _, _, _, hfound⟩ | ⟨_, hnone⟩
    · obtain rfl := Option.some.inj (hsearch.symm.trans hfound)
      exact ⟨_, plan?_of_planAt? hplan⟩
    · exact absurd hmodule (hnone i source hstart hstop)

end Edit

/-! ### One edit for each declaration to mend -/

theorem forall₂_filter_filterMap {α β : Type} {p : α → Bool} {f : α → Option β}
    {R : α → β → Prop} {l : List α} (hkeep : ∀ a ∈ l, p a = true → ∃ b, f a = some b ∧ R a b)
    (hdrop : ∀ a ∈ l, p a = false → f a = none) :
    List.Forall₂ R (l.filter p) (l.filterMap f) := by
  induction l with
  | nil => exact .nil
  | cons a l ih =>
      have htail := ih (fun b hb => hkeep b (List.mem_cons_of_mem a hb))
        (fun b hb => hdrop b (List.mem_cons_of_mem a hb))
      cases hp : p a with
      | true =>
          obtain ⟨b, hb, hab⟩ := hkeep a List.mem_cons_self hp
          rw [List.filter_cons_of_pos hp, List.filterMap_cons_some hb]
          exact htail.cons hab
      | false =>
          rw [List.filter_cons_of_neg (by simp [hp]),
            List.filterMap_cons_none (hdrop a List.mem_cons_self hp)]
          exact htail

namespace Edit

/-- A declaration and the edit that takes the unused ones out of its names. -/
structure Mends (content : Bytes) (a : Analysis) (d : Declaration) (e : Edit) : Prop where
  mem : d ∈ a.declarations
  mendable : d.isSingleLine a.tokens = true ∧ ∃ b ∈ d.bindings, b ∈ a.unused
  line : e.line = d.line
  removed : e.removed = (d.bindings.filter (· ∈ a.unused)).map (·.name)
  plan : plan? content a.tokens d (d.bindings.filter (· ∉ a.unused)) = some e.toReplacement

/-- A declaration on one line that has an unused name. -/
def isMendable (a : Analysis) (d : Declaration) : Bool :=
  d.isSingleLine a.tokens && d.bindings.any (· ∈ a.unused)

/-- A name is unused if an unused one is placed where it is. -/
theorem contains_place {path content : Bytes} {d : Declaration} {b : Binding}
    (hd : d ∈ (analyze path content).declarations) (hb : b ∈ d.bindings) :
    ((analyze path content).unused.map Binding.place).contains b.place =
      decide (b ∈ (analyze path content).unused) := by
  rw [Bool.eq_iff_iff, List.contains_iff_mem, decide_eq_true_iff]
  constructor
  · intro h
    obtain ⟨c, hc, hplace⟩ := List.mem_map.mp h
    have hmem : c ∈ (analyze path content).declarations.flatMap (·.bindings) := by
      obtain ⟨d', hd', hc'⟩ := List.mem_flatMap.mp hc
      exact List.mem_flatMap.mpr ⟨d', hd', (List.mem_filter.mp hc').1⟩
    have hinj := List.inj_on_of_nodup_map (places_nodup (.ofPath path) content)
    rwa [← hinj hmem (List.mem_flatMap.mpr ⟨d, hd, hb⟩) hplace]
  · exact List.mem_map_of_mem

/-- The edit for a declaration, if one is made. -/
theorem ofFile_eq (path content : Bytes) :
    ofFile path content = (analyze path content).declarations.filterMap fun d =>
      if isMendable (analyze path content) d then
        (plan? content (analyze path content).tokens d
          (d.bindings.filter (· ∉ (analyze path content).unused))).map fun r =>
            ⟨r, d.line, (d.bindings.filter (· ∈ (analyze path content).unused)).map (·.name)⟩
      else none := by
  refine List.filterMap_congr fun d hd => ?_
  have hremoved : d.bindings.filter (fun b =>
      ((analyze path content).unused.map Binding.place).contains b.place) =
        d.bindings.filter (· ∈ (analyze path content).unused) :=
    List.filter_congr fun b hb => contains_place hd hb
  have hkept : d.bindings.filter (fun b =>
      !((analyze path content).unused.map Binding.place).contains b.place) =
        d.bindings.filter (· ∉ (analyze path content).unused) :=
    List.filter_congr fun b hb => by rw [contains_place hd hb, decide_not]
  have hany : d.bindings.any (· ∈ (analyze path content).unused) =
      !(d.bindings.filter (· ∈ (analyze path content).unused)).isEmpty := by
    rw [Bool.eq_iff_iff]
    simp
  rw [isMendable, hany, ← hremoved, ← hkept]
  rfl

/-- Each declaration to mend has its edit, and no other declaration has one. -/
theorem ofFile_mends (path content : Bytes) :
    List.Forall₂ (Mends content (analyze path content))
      ((analyze path content).declarations.filter (isMendable (analyze path content)))
      (ofFile path content) := by
  rw [ofFile_eq]
  refine forall₂_filter_filterMap ?_ ?_
  · intro d hd hmend
    have hmendable : d.isSingleLine (analyze path content).tokens = true ∧
        ∃ b ∈ d.bindings, b ∈ (analyze path content).unused := by
      simpa [isMendable] using hmend
    have hkept : (d.bindings.filter (· ∉ (analyze path content).unused)).length <
        d.bindings.length := by
      rw [List.length_filter_lt_length_iff_exists]
      simpa using hmendable.2
    obtain ⟨r, hr⟩ : ∃ r, plan? content (analyze path content).tokens d _ = some r :=
      exists_plan content hd hkept
    exact ⟨_, by rw [if_pos hmend, hr]; rfl, hd, hmendable, rfl, rfl, hr⟩
  · intro d hd hmend
    simp [hmend]

/-- No two names are placed alike, and the edits are one for each declaration on one line that has
an unused name, in order: it drops the unused names of the declaration and keeps the others. -/
theorem ofFile_removes_unused (path content : Bytes) :
    (((analyze path content).declarations.flatMap (·.bindings)).map
        fun b => (b.nameLine, b.nameColumn)).Nodup ∧
      List.Forall₂
        (fun d e => e.line = d.line ∧
          e.removed = (d.bindings.filter (· ∈ (analyze path content).unused)).map (·.name) ∧
          plan? content (analyze path content).tokens d
            (d.bindings.filter (· ∉ (analyze path content).unused)) = some e.toReplacement)
        ((analyze path content).declarations.filter fun d =>
          d.isSingleLine (analyze path content).tokens &&
            d.bindings.any (· ∈ (analyze path content).unused))
        (ofFile path content) :=
  ⟨places_nodup (.ofPath path) content,
    (ofFile_mends path content).imp fun _ _ h => ⟨h.line, h.removed, h.plan⟩⟩

end Edit

end UnusedImports
