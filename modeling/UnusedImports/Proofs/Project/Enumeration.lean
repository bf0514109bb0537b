import UnusedImports.Project.Enumerate
import UnusedImports.Proofs.Report.Order
import UnusedImports.Proofs.Tree.Leaves
import Mathlib

/-! The files that are listed for a root are exactly its sources. A root that is itself a link has
nothing below it. -/

namespace UnusedImports

open UnusedImports.Path

variable {tree : Tree} {o : SourceOptions} {es : List (Bytes × Tree)} {resolved way : List Bytes}

/-! ### Wanted extensions -/

/-- The extension of a path is one of the given ones or, if none are given, of the usual ones. These
are compared without the blanks around them, in lower case and with a dot. -/
def SourceOptions.Accepts (o : SourceOptions) (path : Bytes) : Prop :=
  ∃ ext ∈ if o.extensions = [] then defaultExtensions else o.extensions,
    Bytes.toLower (Bytes.trim ext) ≠ [] ∧
    Bytes.toLower (extension path) =
      if (Bytes.toLower (Bytes.trim ext)).head? = some '.'.toUInt8
      then Bytes.toLower (Bytes.trim ext) else '.'.toUInt8 :: Bytes.toLower (Bytes.trim ext)

theorem normalizeExtension_eq_iff (ext : Bytes) {x : Bytes} (hx : x ≠ []) :
    SourceOptions.normalizeExtension ext = x ↔ Bytes.toLower (Bytes.trim ext) ≠ [] ∧
      x = if (Bytes.toLower (Bytes.trim ext)).head? = some '.'.toUInt8
        then Bytes.toLower (Bytes.trim ext) else '.'.toUInt8 :: Bytes.toLower (Bytes.trim ext) := by
  by_cases hblank : Bytes.toLower (Bytes.trim ext) = []
  · simp [SourceOptions.normalizeExtension, hblank, hx.symm]
  · by_cases hdot : (Bytes.toLower (Bytes.trim ext)).head? = some '.'.toUInt8
    · rw [if_pos hdot, eq_comm]
      simp [SourceOptions.normalizeExtension, hblank, hdot]
    · rw [if_neg hdot, eq_comm]
      simp [SourceOptions.normalizeExtension, hblank, hdot]

theorem wants_iff (path : Bytes) : o.wants path = true ↔ o.Accepts path := by
  rw [SourceOptions.wants, List.contains_iff_mem, SourceOptions.wanted, List.mem_filter,
    List.mem_map]
  simp only [List.isEmpty_iff]
  constructor
  · rintro ⟨⟨ext, hext, hnormal⟩, hne⟩
    have hne : Bytes.toLower (extension path) ≠ [] := by simpa using hne
    exact ⟨ext, hext, (normalizeExtension_eq_iff ext hne).mp hnormal⟩
  · rintro ⟨ext, hext, hblank, hnormal⟩
    have hne : Bytes.toLower (extension path) ≠ [] := by
      rw [hnormal]
      split
      · exact hblank
      · exact List.cons_ne_nil _ _
    exact ⟨⟨ext, hext, (normalizeExtension_eq_iff ext hne).mpr ⟨hblank, hnormal⟩⟩,
      by simpa using hne⟩

/-! ### Directories that are left out -/

theorem ignores_eq (hvendored : o.skipVendored = false) (way : List Bytes) :
    o.ignores way =
      way.getLast?.any fun name => !name.isEmpty && o.ignoredDirectories.contains name := by
  simp [SourceOptions.ignores, hvendored]

/-- No directory on a way is left out exactly if none of the names before the last is. -/
theorem not_ignores_iff (hvendored : o.skipVendored = false) (hway : ∀ name ∈ way, IsElement name) :
    (∀ front, front <+: way → front ≠ way → (!o.ignores front) = true) ↔
      ∀ name ∈ way.dropLast, name ∉ o.ignoredDirectories := by
  simp only [ignores_eq hvendored]
  constructor
  · intro h name hname
    obtain ⟨front, back, hsplit⟩ := List.append_of_mem hname
    have hlength : way.length - 1 = front.length + (back.length + 1) := by
      simpa using congrArg List.length hsplit
    have hfront : front ++ [name] <+: way :=
      List.IsPrefix.trans ⟨back, by simp [hsplit]⟩ (List.dropLast_prefix way)
    have hne : front ++ [name] ≠ way := by
      rintro rfl
      simp at hlength
    have hname : name ≠ [] := (hway name (hfront.subset (by simp))).ne_nil
    simpa [hname] using h _ hfront hne
  · rintro h front ⟨back, rfl⟩ hne
    have hback : back ≠ [] := by
      rintro rfl
      simp at hne
    rw [List.dropLast_append_of_ne_nil hback] at h
    cases hlast : front.getLast? with
    | none => simp
    | some name =>
        have hmem : name ∈ front := List.mem_of_getLast? hlast
        simp [h name (List.mem_append_left _ hmem)]

/-! ### Links that lead inside -/

/-- A place without links lies in a directory exactly if the directory's names come first. -/
theorem liesWithin_iff {root way : List Bytes} (hroot : ∀ name ∈ root, IsElement name)
    (hway : ∀ name ∈ way, IsElement name) : liesWithin root way = true ↔ root <+: way := by
  by_cases heq : root = way
  · have hdot : isOutward (utf8 ".") = false := by decide
    simp [liesWithin, relative?, heq, hdot]
  · rw [liesWithin, relative?_rooted hroot hway heq, Option.any_some, Bool.not_eq_true',
      ← Bool.not_eq_true, isOutward_across hway, not_not]

/-- A path leads to a regular file below a directory, through at most a number of links. -/
def Tree.LeadsToFile (top : Tree) (links : Nat) (directory : List Bytes) (path : Bytes) : Prop :=
  ∃ dest content, Leads top links [] (path.splitOn Bytes.slash) dest ∧ directory <+: dest ∧
    top.get? dest = some (.file content)

theorem leadsInside_iff (htree : tree.WellFormed) (hresolved : ∀ name ∈ resolved, IsElement name)
    (path : Bytes) :
    leadsInside tree resolved path = true ↔
      tree.LeadsToFile Tree.resolveLinks resolved path := by
  constructor
  · intro h
    cases hresolve : tree.resolve path with
    | error e => simp [leadsInside, hresolve] at h
    | ok dest =>
        have hleads := Tree.Leads.of_follow hresolve
        have hdest := hleads.isElement_of_mem htree (by simp)
        simp only [leadsInside, hresolve, Bool.and_eq_true, liesWithin_iff hresolved hdest] at h
        cases hnode : tree.get? dest with
        | none => simp [hnode] at h
        | some node =>
            cases node with
            | file content => exact ⟨dest, content, hleads, h.1, hnode⟩
            | link => simp [hnode] at h
            | directory => simp [hnode] at h
  · rintro ⟨dest, content, hleads, hinside, hfile⟩
    have hdest := hleads.isElement_of_mem htree (by simp)
    have hresolve : tree.resolve path = .ok dest := hleads.follow_eq
    simp [leadsInside, hresolve, hfile, (liesWithin_iff hresolved hdest).mpr hinside]

/-! ### The sources below a directory -/

/-- A place below a root whose entries are given, and which leads to the directory `resolved`, is
one of its sources. A link counts if it leads to a file inside, through at most a number of
links. -/
structure IsSourceAt (tree : Tree) (o : SourceOptions) (es : List (Bytes × Tree)) (root : Bytes)
    (resolved : List Bytes) (links : Nat) (way : List Bytes) (node : Tree) : Prop where
  get?_eq : (Tree.directory es).get? way = some node
  not_ignored : ∀ name ∈ way.dropLast, name ∉ o.ignoredDirectories
  accepts : o.Accepts (Tree.pathBelow root way)
  regular : (∃ content, node = .file content) ∨
    (∃ target, node = .link target) ∧ tree.LeadsToFile links resolved (Tree.pathBelow root way)

/-- The sources that a search below a directory finds, in the order of the search. -/
def sourcesBelow (tree : Tree) (o : SourceOptions) (es : List (Bytes × Tree)) (root : Bytes)
    (resolved : List Bytes) : List (List Bytes × Tree) :=
  ((Tree.directory es).leaves fun way => !o.ignores way).filter fun e =>
    isSource tree o root resolved e.1 e.2

theorem enumerate_directory {names : List Bytes} (hnames : ∀ name ∈ names, IsElement name)
    (h : tree.entryAt (rooted names) = .ok (.directory es)) :
    ∃ resolved, Tree.Leads tree Tree.openLinks [] ((rooted names).splitOn Bytes.slash) resolved ∧
      tree.get? resolved = some (.directory es) ∧
      enumerate tree false (rooted names) o =
        .ok (((sourcesBelow tree o es (rooted names) resolved).map fun e =>
          Tree.pathBelow (rooted names) e.1).mergeSort Bytes.le) := by
  obtain ⟨resolved, hleads, hget⟩ := Tree.exists_leads_of_entryAt hnames h
  refine ⟨resolved, hleads, hget, ?_⟩
  have hlookup := Tree.lookup_eq_ok_iff.mpr ⟨resolved, hleads, hget⟩
  rw [enumerate, hlookup, Tree.resolve_of_leads hleads, h]
  rfl

theorem isSource_iff {root : Bytes} {node : Tree} (htree : tree.WellFormed)
    (hresolved : ∀ name ∈ resolved, IsElement name) (hvendored : o.skipVendored = false) :
    isSource tree o root resolved way node = true ↔
      o.Accepts (Tree.pathBelow root way) ∧ ((∃ content, node = .file content) ∨
        (∃ target, node = .link target) ∧
          tree.LeadsToFile Tree.resolveLinks resolved (Tree.pathBelow root way)) := by
  cases node with
  | file => simp [isSource, hvendored, wants_iff]
  | link => simp [isSource, hvendored, wants_iff, leadsInside_iff htree hresolved]
  | directory => simp [isSource]

theorem mem_sourcesBelow_iff {root : Bytes} {node : Tree} (htree : tree.WellFormed)
    (hes : (Tree.directory es).WellFormed) (hresolved : ∀ name ∈ resolved, IsElement name)
    (hvendored : o.skipVendored = false) :
    (way, node) ∈ sourcesBelow tree o es root resolved ↔
      IsSourceAt tree o es root resolved Tree.resolveLinks way node := by
  have henter : (!o.ignores []) = true := by simp [ignores_eq hvendored]
  rw [sourcesBelow, List.mem_filter, Tree.leaves_eq_leavesAt henter, Tree.mem_leavesAt_iff hes,
    isSource_iff htree hresolved hvendored]
  constructor
  · rintro ⟨⟨_, rfl, hleaf⟩, haccepts, hregular⟩
    have hnames := (hes.get? hleaf.get?_eq).1
    exact ⟨hleaf.get?_eq, (not_ignores_iff hvendored hnames).mp hleaf.enter_of_prefix, haccepts,
      hregular⟩
  · rintro ⟨hget, hignored, haccepts, hregular⟩
    have hnames := (hes.get? hget).1
    have hleaf : ∀ es', node ≠ .directory es' := by
      rintro es' rfl
      simp at hregular
    exact ⟨⟨way, rfl, hget, hleaf, (not_ignores_iff hvendored hnames).mpr hignored⟩, haccepts,
      hregular⟩

theorem IsSourceAt.ne_nil {root : Bytes} {links : Nat} {node : Tree}
    (h : IsSourceAt tree o es root resolved links way node) : way ≠ [] := by
  rintro rfl
  obtain rfl : Tree.directory es = node := by simpa [Tree.get?] using h.get?_eq
  simpa using h.regular

/-! ### The order of the paths -/

theorem Bytes.le_iff (s t : Bytes) : Bytes.le s t = true ↔ s ≤ t := by
  rw [Bytes.le, Ordering.isLE_iff_eq_lt_or_eq_eq, Bytes.compare_eq_lt_iff,
    Std.LawfulEqOrd.compare_eq_iff_eq, List.le_iff_lt_or_eq]

theorem pairwise_lt_mergeSort {paths : List Bytes} (h : paths.Nodup) :
    (paths.mergeSort Bytes.le).Pairwise (· < ·) := by
  have hnodup : (paths.mergeSort Bytes.le).Nodup := (List.mergeSort_perm paths _).nodup_iff.mpr h
  have hsorted : (paths.mergeSort Bytes.le).Pairwise fun s t => Bytes.le s t = true := by
    apply List.pairwise_mergeSort
    · intro s t u hst htu
      exact Std.TransCmp.isLE_trans hst htu
    · intro s t
      by_cases hst : Bytes.le s t = true
      · rw [hst, Bool.true_or]
      · have hts := Std.OrientedCmp.lt_of_not_isLE hst
        rw [Bytes.le, Bytes.le, Ordering.isLE_of_eq_lt hts, Bool.or_true]
  refine hsorted.imp₂ ?_ hnodup
  intro s t hle hne
  exact (List.le_iff_lt_or_eq.mp ((Bytes.le_iff s t).mp hle)).resolve_right hne

theorem nodup_sourcesBelow {names : List Bytes} (hnames : ∀ name ∈ names, IsElement name)
    (htree : tree.WellFormed) (hes : (Tree.directory es).WellFormed)
    (hresolved : ∀ name ∈ resolved, IsElement name) (hvendored : o.skipVendored = false) :
    ((sourcesBelow tree o es (rooted names) resolved).map fun e =>
      Tree.pathBelow (rooted names) e.1).Nodup := by
  have henter : (!o.ignores []) = true := by simp [ignores_eq hvendored]
  have hways : ((sourcesBelow tree o es (rooted names) resolved).map Prod.fst).Nodup := by
    rw [sourcesBelow, Tree.leaves_eq_leavesAt henter]
    exact List.Nodup.sublist (List.filter_sublist.map _) (Tree.nodup_leavesAt hes)
  have hbelow : ∀ e ∈ sourcesBelow tree o es (rooted names) resolved,
      (∀ name ∈ names ++ e.1, IsElement name) ∧
        Tree.pathBelow (rooted names) e.1 = rooted (names ++ e.1) := by
    intro e he
    have hsource := (mem_sourcesBelow_iff htree hes hresolved hvendored).mp he
    have hway := (hes.get? hsource.get?_eq).1
    exact ⟨fun name hname => (List.mem_append.mp hname).elim (hnames name) (hway name),
      Tree.pathBelow_rooted hnames hsource.ne_nil⟩
  refine List.Nodup.map_on ?_ hways.of_map
  intro e he e' he' hsame
  obtain ⟨hnames, heq⟩ := hbelow e he
  obtain ⟨hnames', heq'⟩ := hbelow e' he'
  rw [heq, heq', rooted_inj hnames hnames', List.append_cancel_left_eq] at hsame
  exact List.inj_on_of_nodup_map hways he he' hsame

/-! ### Roots -/

theorem enumerate_rooted {names : List Bytes} (hnames : ∀ name ∈ names, IsElement name)
    (htree : tree.WellFormed) (hvendored : o.skipVendored = false)
    (h : tree.entryAt (rooted names) = .ok (.directory es)) :
    ∃ paths resolved, enumerate tree false (rooted names) o = .ok paths ∧
      Tree.Leads tree Tree.openLinks [] ((rooted names).splitOn Bytes.slash) resolved ∧
      tree.get? resolved = some (.directory es) ∧ paths.Pairwise (· < ·) ∧
      ∀ path, path ∈ paths ↔ ∃ way node, path = Tree.pathBelow (rooted names) way ∧
        IsSourceAt tree o es (rooted names) resolved Tree.resolveLinks way node := by
  obtain ⟨resolved, hleads, hget, hpaths⟩ := enumerate_directory (o := o) hnames h
  obtain ⟨hresolved, hes⟩ := htree.get? hget
  refine ⟨_, resolved, hpaths, hleads, hget,
    pairwise_lt_mergeSort (nodup_sourcesBelow hnames htree hes hresolved hvendored), ?_⟩
  intro path
  rw [(List.mergeSort_perm _ _).mem_iff, List.mem_map]
  constructor
  · rintro ⟨⟨way, node⟩, hfound, rfl⟩
    exact ⟨way, node, rfl, (mem_sourcesBelow_iff htree hes hresolved hvendored).mp hfound⟩
  · rintro ⟨way, node, rfl, hsource⟩
    exact ⟨(way, node), (mem_sourcesBelow_iff htree hes hresolved hvendored).mpr hsource, rfl⟩

theorem IsSourceAt.mono {root : Bytes} {links more : Nat} {node : Tree}
    (h : IsSourceAt tree o es root resolved links way node)
    (hmore : ∀ target dest, node = .link target →
      Tree.Leads tree links [] ((Tree.pathBelow root way).splitOn Bytes.slash) dest →
      Tree.Leads tree more [] ((Tree.pathBelow root way).splitOn Bytes.slash) dest) :
    IsSourceAt tree o es root resolved more way node := by
  refine ⟨h.get?_eq, h.not_ignored, h.accepts, h.regular.imp id ?_⟩
  rintro ⟨⟨target, htarget⟩, dest, content, hleads, hinside, hfile⟩
  exact ⟨⟨target, htarget⟩, dest, content, hmore target dest htarget hleads, hinside, hfile⟩

/-- The paths listed for a root that is a directory are, in strictly increasing order, exactly those
of its sources. If every link below the root that leads anywhere does so through no more links than
are followed, their number does not matter. -/
theorem enumerate_lists_sources {directory root : Bytes} (htree : tree.WellFormed)
    (hdirectory : isAbsolute directory = true) (hvendored : o.skipVendored = false)
    (hroot : tree.entryAt (absolute directory root) = .ok (.directory es)) :
    ∃ paths resolved, enumerate tree false (absolute directory root) o = .ok paths ∧
      Tree.Leads tree Tree.openLinks [] ((absolute directory root).splitOn Bytes.slash) resolved ∧
      paths.Pairwise (· < ·) ∧
      (∀ path, path ∈ paths ↔ ∃ way node, path = Tree.pathBelow (absolute directory root) way ∧
        IsSourceAt tree o es (absolute directory root) resolved Tree.resolveLinks way node) ∧
      ((∀ way target links dest, (Tree.directory es).get? way = some (.link target) →
          Tree.Leads tree links []
            ((Tree.pathBelow (absolute directory root) way).splitOn Bytes.slash) dest →
          Tree.Leads tree Tree.resolveLinks []
            ((Tree.pathBelow (absolute directory root) way).splitOn Bytes.slash) dest) →
        ∀ path, path ∈ paths ↔ ∃ way node links,
          path = Tree.pathBelow (absolute directory root) way ∧
          IsSourceAt tree o es (absolute directory root) resolved links way node) := by
  obtain ⟨names, hnames, hrooted⟩ := exists_absolute_eq_rooted hdirectory root
  rw [hrooted] at hroot ⊢
  obtain ⟨paths, resolved, hpaths, hleads, _, hsorted, hmem⟩ :=
    enumerate_rooted hnames htree hvendored hroot
  refine ⟨paths, resolved, hpaths, hleads, hsorted, hmem, ?_⟩
  intro hlinks path
  rw [hmem]
  constructor
  · rintro ⟨way, node, hpath, hsource⟩
    exact ⟨way, node, _, hpath, hsource⟩
  · rintro ⟨way, node, links, hpath, hsource⟩
    refine ⟨way, node, hpath, hsource.mono ?_⟩
    rintro target dest rfl hdest
    exact hlinks way target links dest hsource.get?_eq hdest

/-- One extension is wanted and one name of directories left out. -/
def sampleOptions : SourceOptions := ⟨[utf8 "ts "], [utf8 "dist"], false⟩

/-- The entries of a project with a link to one of its files, a link to a file outside and a
directory that is left out. -/
def sampleEntries : List (Bytes × Tree) :=
  [(utf8 "B.TS", .file []), (utf8 "in.ts", .link (utf8 "lib/c.ts")),
    (utf8 "out.ts", .link (utf8 "../other.ts")), (utf8 "lib", .directory [(utf8 "c.ts", .file [])]),
    (utf8 "dist", .directory [(utf8 "d.ts", .file [])])]

def samplePaths : List Bytes := [utf8 "/app/B.TS", utf8 "/app/in.ts", utf8 "/app/lib/c.ts"]

/-- The project `app` with a file beside it and a link to it. -/
def sampleTree : Tree :=
  .directory [(utf8 "app", .directory sampleEntries), (utf8 "other.ts", .file []),
    (utf8 "alias", .link (utf8 "app"))]

theorem sampleEntries_wellFormed : (Tree.directory sampleEntries).WellFormed := by
  have hfile : ∀ {name : Bytes}, IsElement name →
      (Tree.directory [(name, .file [])]).WellFormed := by
    intro name hname
    exact .directory _ (by simp) (by simpa using hname) (by simp [Tree.WellFormed.file])
  refine .directory _ (by decide) (by decide) ?_
  simp only [sampleEntries, List.forall_mem_cons, List.not_mem_nil, false_implies, implies_true,
    and_true, Tree.WellFormed.file, Tree.WellFormed.link, true_and]
  exact ⟨hfile (by decide), hfile (by decide)⟩

theorem sampleTree_wellFormed : sampleTree.WellFormed := by
  refine .directory _ (by decide) (by decide) ?_
  simp [sampleEntries_wellFormed, Tree.WellFormed.file, Tree.WellFormed.link]

theorem eq_of_sampleEntries_link {way : List Bytes} {target : Bytes}
    (h : (Tree.directory sampleEntries).get? way = some (.link target)) :
    way = [utf8 "in.ts"] ∨ way = [utf8 "out.ts"] := by
  have hmem : (way, .link target) ∈
      Tree.leavesAt (fun _ => true) [] (.directory sampleEntries) :=
    (Tree.mem_leavesAt_iff sampleEntries_wellFormed).mpr ⟨way, rfl, h, by simp, by simp⟩
  have hleaves : Tree.leavesAt (fun _ => true) [] (.directory sampleEntries) =
      [([utf8 "B.TS"], .file []), ([utf8 "in.ts"], .link (utf8 "lib/c.ts")),
        ([utf8 "out.ts"], .link (utf8 "../other.ts")), ([utf8 "lib", utf8 "c.ts"], .file []),
        ([utf8 "dist", utf8 "d.ts"], .file [])] := by cbv
  rw [hleaves] at hmem
  simp only [List.mem_cons, Prod.mk.injEq, reduceCtorEq, and_false, false_or, List.not_mem_nil,
    or_false] at hmem
  exact hmem.imp And.left And.left

theorem enumerate_app :
    enumerate sampleTree false (absolute (utf8 "/") (utf8 "app")) sampleOptions =
      .ok samplePaths := by cbv

theorem enumerate_lists_sources_sample :
    sampleTree.WellFormed ∧
      sampleTree.entryAt (absolute (utf8 "/") (utf8 "app")) = .ok (.directory sampleEntries) ∧
      ∃ paths resolved,
        enumerate sampleTree false (absolute (utf8 "/") (utf8 "app")) sampleOptions = .ok paths ∧
        paths.Pairwise (· < ·) ∧ paths = samplePaths ∧
        ∀ path, path ∈ paths ↔ ∃ way node links,
          path = Tree.pathBelow (absolute (utf8 "/") (utf8 "app")) way ∧
          IsSourceAt sampleTree sampleOptions sampleEntries (absolute (utf8 "/") (utf8 "app"))
            resolved links way node := by
  have hroot : sampleTree.entryAt (absolute (utf8 "/") (utf8 "app")) =
      .ok (.directory sampleEntries) := by cbv
  obtain ⟨paths, resolved, hpaths, _, hsorted, _, hmem⟩ :=
    enumerate_lists_sources (o := sampleOptions) sampleTree_wellFormed (by decide) rfl hroot
  refine ⟨sampleTree_wellFormed, hroot, paths, resolved, hpaths, hsorted,
    Except.ok.inj (hpaths.symm.trans enumerate_app), hmem ?_⟩
  intro way target links dest hget hleads
  have hfollowed : ∃ dest', Tree.Leads sampleTree Tree.resolveLinks []
      ((Tree.pathBelow (absolute (utf8 "/") (utf8 "app")) way).splitOn Bytes.slash) dest' := by
    obtain rfl | rfl := eq_of_sampleEntries_link hget
    · exact ⟨[utf8 "app", utf8 "lib", utf8 "c.ts"], .of_follow (by cbv)⟩
    · exact ⟨[utf8 "other.ts"], .of_follow (by cbv)⟩
  obtain ⟨dest', hdest'⟩ := hfollowed
  exact hleads.unique hdest' ▸ hdest'

/-! ### Roots that are links -/

theorem pathBelow_nil {names : List Bytes} (hnames : ∀ name ∈ names, IsElement name)
    (hne : names ≠ []) : Tree.pathBelow (rooted names) [] = rooted names := by
  rw [Tree.pathBelow, if_neg (by simpa using rooted_ne_slash hnames hne), Bytes.join,
    List.intercalate_singleton]

theorem ne_nil_of_entryAt_link {names : List Bytes} {target : Bytes} {node : Tree}
    (hnames : ∀ name ∈ names, IsElement name)
    (hlink : tree.entryAt (rooted names) = .ok (.link target))
    (hlookup : tree.lookup (rooted names) = .ok node) : names ≠ [] := by
  rintro rfl
  have hempty : cleanElements (rooted []) = [] := cleanElements_rooted hnames
  obtain rfl : tree = .link target := by simpa [Tree.entryAt, hempty] using hlink
  have hsplit : (rooted []).splitOn Bytes.slash = [[], []] := by decide
  rw [Tree.lookup, hsplit, Tree.follow] at hlookup
  simp [Tree.get?, bind, Except.bind] at hlookup

/-- The search does not go through a root that is a link, and the link itself leads to no file. -/
theorem enumerate_link {names : List Bytes} {target : Bytes}
    (hnames : ∀ name ∈ names, IsElement name)
    (hlink : tree.entryAt (rooted names) = .ok (.link target))
    (hlookup : tree.lookup (rooted names) = .ok (.directory es)) :
    enumerate tree false (rooted names) o = .ok [] := by
  obtain ⟨resolved, hleads, hget⟩ := Tree.lookup_eq_ok_iff.mp hlookup
  have hresolve := Tree.resolve_of_leads hleads
  have hne := ne_nil_of_entryAt_link hnames hlink hlookup
  have hself : leadsInside tree resolved (rooted names) = false := by
    simp [leadsInside, hresolve, hget]
  rw [enumerate, hlookup, hresolve, hlink]
  simp [Tree.leaves, isSource, pathBelow_nil hnames hne, hself]

/-- Nothing is listed for a root that is a link to a directory, whatever the sources of the
directory are; for the directory itself they are listed. -/
theorem enumerate_linked_root {directory root target : Bytes} (htree : tree.WellFormed)
    (hdirectory : isAbsolute directory = true) (hvendored : o.skipVendored = false)
    (hlink : tree.entryAt (absolute directory root) = .ok (.link target))
    (hlookup : tree.lookup (absolute directory root) = .ok (.directory es)) :
    enumerate tree false (absolute directory root) o = .ok [] ∧
      ∃ paths resolved,
        Tree.Leads tree Tree.openLinks [] ((absolute directory root).splitOn Bytes.slash) resolved ∧
        enumerate tree false (rooted resolved) o = .ok paths ∧
        ∀ path, path ∈ paths ↔ ∃ way node, path = Tree.pathBelow (rooted resolved) way ∧
          IsSourceAt tree o es (rooted resolved) resolved Tree.resolveLinks way node := by
  obtain ⟨names, hnames, hrooted⟩ := exists_absolute_eq_rooted hdirectory root
  rw [hrooted] at hlink hlookup ⊢
  obtain ⟨resolved, hleads, hget⟩ := Tree.lookup_eq_ok_iff.mp hlookup
  obtain ⟨hresolved, _⟩ := htree.get? hget
  obtain ⟨paths, resolved', hpaths, hleads', _, _, hmem⟩ :=
    enumerate_rooted hresolved htree hvendored (Tree.entryAt_rooted htree hget)
  obtain rfl : resolved = resolved' := (hleads'.unique (.rooted_self htree hget)).symm
  exact ⟨enumerate_link hnames hlink hlookup, paths, resolved, hleads, hpaths, hmem⟩

theorem enumerate_linked_root_sample :
    sampleTree.entryAt (absolute (utf8 "/") (utf8 "alias")) = .ok (.link (utf8 "app")) ∧
      sampleTree.lookup (absolute (utf8 "/") (utf8 "alias")) = .ok (.directory sampleEntries) ∧
      enumerate sampleTree false (absolute (utf8 "/") (utf8 "alias")) sampleOptions = .ok [] := by
  have hlink : sampleTree.entryAt (absolute (utf8 "/") (utf8 "alias")) =
      .ok (.link (utf8 "app")) := by cbv
  have hlookup : sampleTree.lookup (absolute (utf8 "/") (utf8 "alias")) =
      .ok (.directory sampleEntries) := by cbv
  exact ⟨hlink, hlookup,
    (enumerate_linked_root sampleTree_wellFormed (by decide) rfl hlink hlookup).1⟩

/-- A project has sources under its own name and none under that of a link to it. -/
theorem enumerate_alias_misses_app :
    sampleTree.entryAt (absolute (utf8 "/") (utf8 "alias")) = .ok (.link (utf8 "app")) ∧
      sampleTree.resolve (absolute (utf8 "/") (utf8 "alias")) = .ok [utf8 "app"] ∧
      enumerate sampleTree false (absolute (utf8 "/") (utf8 "alias")) sampleOptions = .ok [] ∧
      enumerate sampleTree false (absolute (utf8 "/") (utf8 "app")) sampleOptions =
        .ok samplePaths := by
  refine ⟨?_, ?_, ?_, enumerate_app⟩ <;> cbv

end UnusedImports
