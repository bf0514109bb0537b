import UnusedImports.Proofs.Path.Elements
import UnusedImports.Tree

/-! Following a path, step by step and without a search: a path that runs in circles leads nowhere.
-/

namespace UnusedImports.Tree

open UnusedImports.Path

/-- A tree as file systems have them: what is in a directory has names, and no two of them equal. -/
inductive WellFormed : Tree → Prop
  | file (content : Bytes) : WellFormed (.file content)
  | link (target : Bytes) : WellFormed (.link target)
  | directory (es : List (Bytes × Tree)) : (es.map Prod.fst).Nodup → (∀ e ∈ es, IsElement e.1) →
      (∀ e ∈ es, WellFormed e.2) → WellFormed (.directory es)

variable {t u : Tree} {es : List (Bytes × Tree)} {name : Bytes} {way : List Bytes}

/-! ### Ways through directories -/

theorem exists_directory_of_child? (h : t.child? name = some u) : ∃ es, t = .directory es := by
  cases t with
  | file => simp [child?, entries] at h
  | link => simp [child?, entries] at h
  | directory es => exact ⟨es, rfl⟩

theorem exists_directory_of_get? (h : t.get? way = some u) (hne : way ≠ []) :
    ∃ es, t = .directory es := by
  cases way with
  | nil => exact absurd rfl hne
  | cons name way =>
      obtain ⟨next, hchild, _⟩ := Option.bind_eq_some_iff.mp h
      exact exists_directory_of_child? hchild

/-- A link has nothing below it. -/
theorem eq_of_link_get? {target : Bytes} (h : (link target).get? way = some u) :
    u = .link target := by
  by_cases hne : way = []
  · subst hne
    simpa [get?] using h.symm
  · obtain ⟨es, hes⟩ := exists_directory_of_get? h hne
    cases hes

theorem get?_append (t : Tree) (way rest : List Bytes) :
    t.get? (way ++ rest) = (t.get? way).bind (·.get? rest) := by
  induction way generalizing t with
  | nil => rfl
  | cons name way ih => simp [get?, ih, Option.bind_assoc]

theorem get?_concat (t : Tree) (way : List Bytes) (name : Bytes) :
    t.get? (way ++ [name]) = (t.get? way).bind (·.child? name) := by
  simp [get?_append, get?]

/-- Only a directory has something below it. -/
theorem get?_concat_eq_some_iff :
    t.get? (way ++ [name]) = some u ↔
      ∃ es, t.get? way = some (.directory es) ∧ es.lookup name = some u := by
  rw [get?_concat, Option.bind_eq_some_iff]
  constructor
  · rintro ⟨node, hnode, hchild⟩
    obtain ⟨es, rfl⟩ := exists_directory_of_child? hchild
    exact ⟨es, hnode, hchild⟩
  · rintro ⟨es, hes, hlookup⟩
    exact ⟨.directory es, hes, hlookup⟩

theorem child?_eq_some_iff (h : (directory es).WellFormed) :
    (directory es).child? name = some u ↔ (name, u) ∈ es := by
  cases h with
  | directory _ hnodup _ _ =>
      rw [child?, entries]
      constructor
      · intro hlookup
        obtain ⟨front, back, rfl, _⟩ := List.lookup_eq_some_iff.mp hlookup
        simp
      · intro hmem
        obtain ⟨front, back, rfl⟩ := List.append_of_mem hmem
        rw [List.lookup_eq_some_iff]
        refine ⟨front, back, rfl, ?_⟩
        intro e he
        rw [List.map_append, List.nodup_append] at hnodup
        have hne := hnodup.2.2 e.1 (List.mem_map_of_mem he) name (by simp)
        simpa using hne.symm

theorem WellFormed.child? (h : t.WellFormed) (hchild : t.child? name = some u) :
    IsElement name ∧ u.WellFormed := by
  obtain ⟨es, rfl⟩ := exists_directory_of_child? hchild
  have hmem := (child?_eq_some_iff h).mp hchild
  cases h with
  | directory _ _ hnames hchildren => exact ⟨hnames _ hmem, hchildren _ hmem⟩

theorem WellFormed.get? (h : t.WellFormed) (hget : t.get? way = some u) :
    (∀ name ∈ way, IsElement name) ∧ u.WellFormed := by
  induction way generalizing t with
  | nil =>
      obtain rfl : t = u := by simpa [Tree.get?] using hget
      exact ⟨by simp, h⟩
  | cons name way ih =>
      obtain ⟨next, hchild, hnext⟩ := Option.bind_eq_some_iff.mp hget
      obtain ⟨hname, hwf⟩ := h.child? hchild
      obtain ⟨hnames, hu⟩ := ih hwf hnext
      exact ⟨List.forall_mem_cons.mpr ⟨hname, hnames⟩, hu⟩

/-! ### Paths through links -/

/-- An element of a path that is not the name of an entry. -/
def IsSpecial (name : Bytes) : Prop := name = [] ∨ name = utf8 "." ∨ name = utf8 ".."

theorem not_isSpecial (h : IsElement name) : ¬ IsSpecial name := by
  simp [IsSpecial, h.ne_nil, h.ne_dot, h.ne_dots]

/-- From a directory a path leads to a destination through at most a number of links. -/
inductive Leads (top : Tree) : Nat → List Bytes → List Bytes → List Bytes → Prop
  | done (links : Nat) (here : List Bytes) : Leads top links here [] here
  | stay {links : Nat} {here path dest : List Bytes} {es : List (Bytes × Tree)} {name : Bytes} :
      top.get? here = some (.directory es) → (name = [] ∨ name = utf8 ".") →
      Leads top links here path dest → Leads top links here (name :: path) dest
  | up {links : Nat} {here path dest : List Bytes} {es : List (Bytes × Tree)} :
      top.get? here = some (.directory es) →
      Leads top links here.dropLast path dest → Leads top links here (utf8 ".." :: path) dest
  | enter {links : Nat} {here path dest : List Bytes} {name : Bytes} {node : Tree} :
      ¬ IsSpecial name → top.get? (here ++ [name]) = some node → (∀ target, node ≠ .link target) →
      Leads top links (here ++ [name]) path dest → Leads top links here (name :: path) dest
  | pass {links : Nat} {here path dest : List Bytes} {name target : Bytes} :
      ¬ IsSpecial name → top.get? (here ++ [name]) = some (.link target) →
      Leads top links (if isAbsolute target then [] else here)
        (target.splitOn Bytes.slash ++ path) dest →
      Leads top (links + 1) here (name :: path) dest

variable {top : Tree} {links : Nat} {here path dest : List Bytes}

theorem Leads.of_follow (h : follow top links here path = .ok dest) :
    Leads top links here path dest := by
  fun_induction follow top links here path with
  | case1 links here =>
      obtain rfl : here = dest := by simpa using h
      exact .done _ _
  | case2 => cases h
  | case3 => cases h
  | case4 => cases h
  | case5 links here name path es hhere hblank ih =>
      exact .stay hhere (by simpa using hblank) (ih h)
  | case6 links here name path es hhere hblank hdots ih =>
      obtain rfl : name = utf8 ".." := by simpa using hdots
      exact .up hhere (ih h)
  | case7 => cases h
  | case8 => cases h
  | case9 here name path es hhere hblank hdots target hlookup links ih =>
      refine .pass ?_ (get?_concat_eq_some_iff.mpr ⟨es, hhere, hlookup⟩) (ih h)
      simp_all [IsSpecial]
  | case10 links here name path es hhere hblank hdots node hnode hlookup ih =>
      refine .enter ?_ (get?_concat_eq_some_iff.mpr ⟨es, hhere, hlookup⟩) hnode (ih h)
      simp_all [IsSpecial]

theorem Leads.follow_eq (h : Leads top links here path dest) :
    follow top links here path = .ok dest := by
  induction h with
  | done => rw [follow]
  | stay hhere hblank _ ih =>
      rw [follow]
      simp [hhere, hblank, ih]
  | up hhere _ ih =>
      have hblank : (utf8 "..").isEmpty = false ∧ (utf8 ".." == utf8 ".") = false := by decide
      rw [follow]
      simp [hhere, hblank, ih]
  | enter hname hnode hlink _ ih =>
      obtain ⟨es, hes, hlookup⟩ := get?_concat_eq_some_iff.mp hnode
      simp only [IsSpecial, not_or] at hname
      rw [follow]
      simp [hes, hname, hlookup, ih]
  | pass hname hnode _ ih =>
      obtain ⟨es, hes, hlookup⟩ := get?_concat_eq_some_iff.mp hnode
      simp only [IsSpecial, not_or] at hname
      rw [follow]
      simp [hes, hname, hlookup, ih]

theorem follow_eq_ok_iff : follow top links here path = .ok dest ↔ Leads top links here path dest :=
  ⟨Leads.of_follow, Leads.follow_eq⟩

namespace Leads

theorem mono {more : Nat} (h : Leads top links here path dest) (hle : links ≤ more) :
    Leads top more here path dest := by
  induction h generalizing more with
  | done => exact .done _ _
  | stay hhere hblank _ ih => exact .stay hhere hblank (ih hle)
  | up hhere _ ih => exact .up hhere (ih hle)
  | enter hname hnode hlink _ ih => exact .enter hname hnode hlink (ih hle)
  | pass hname hnode _ ih =>
      obtain ⟨more, rfl⟩ := Nat.exists_eq_add_of_lt hle
      exact .pass hname hnode (ih (Nat.le_add_right _ _))

/-- A path that goes on without links. -/
theorem append {mid rest : List Bytes} (h : Leads top links here path mid)
    (hrest : Leads top 0 mid rest dest) : Leads top links here (path ++ rest) dest := by
  induction h with
  | done => exact hrest.mono (Nat.zero_le _)
  | stay hhere hblank _ ih => exact .stay hhere hblank (ih hrest)
  | up hhere _ ih => exact .up hhere (ih hrest)
  | enter hname hnode hlink _ ih => exact .enter hname hnode hlink (ih hrest)
  | pass hname hnode _ ih =>
      have hpassed := ih hrest
      rw [List.append_assoc] at hpassed
      exact .pass hname hnode hpassed

theorem isElement_of_mem (htop : top.WellFormed) (h : Leads top links here path dest)
    (hhere : ∀ name ∈ here, IsElement name) : ∀ name ∈ dest, IsElement name := by
  induction h with
  | done => exact hhere
  | stay _ _ _ ih => exact ih hhere
  | up _ _ ih => exact ih fun name hname => hhere name ((List.dropLast_sublist _).subset hname)
  | enter _ hnode _ _ ih => exact ih (htop.get? hnode).1
  | @pass _ _ _ _ _ target _ _ _ ih =>
      apply ih
      by_cases htarget : isAbsolute target = true
      · simp [htarget]
      · simpa [htarget] using hhere

/-- A way through directories leads where it leads, without any link. -/
theorem of_get? {way : List Bytes} {node : Tree} (htop : top.WellFormed)
    (hget : top.get? (here ++ way) = some node) (hnode : ∀ target, node ≠ .link target) :
    Leads top 0 here way (here ++ way) := by
  induction way generalizing here with
  | nil =>
      rw [List.append_nil]
      exact .done _ _
  | cons name way ih =>
      rw [List.append_cons] at hget ⊢
      rw [get?_append, Option.bind_eq_some_iff] at hget
      obtain ⟨mid, hmid, hrest⟩ := hget
      have hname : IsElement name := (htop.get? hmid).1 name (by simp)
      refine .enter (not_isSpecial hname) hmid ?_ (ih ?_)
      · rintro target rfl
        exact hnode target (eq_of_link_get? hrest)
      · rw [get?_append, hmid, Option.bind_some, hrest]

/-- A clean absolute path leads where its names lead. -/
theorem rooted {names : List Bytes} (hnames : ∀ name ∈ names, IsElement name)
    (h : Leads (.directory es) links [] names dest) :
    Leads (.directory es) links [] ((Path.rooted names).splitOn Bytes.slash) dest := by
  by_cases hne : names = []
  · subst hne
    exact .stay rfl (.inl rfl) (.stay rfl (.inl rfl) h)
  · rw [splitOn_rooted hnames hne]
    exact .stay rfl (.inl rfl) h

/-- The path of a directory leads to it, if no link stands on the way. -/
theorem rooted_self {way : List Bytes} (htop : top.WellFormed)
    (h : top.get? way = some (.directory es)) :
    Leads top 0 [] ((Path.rooted way).splitOn Bytes.slash) way := by
  have hway : Leads top 0 [] way way := @of_get? top [] way _ htop h (by simp)
  obtain ⟨es', rfl⟩ : ∃ es', top = .directory es' := by
    by_cases hne : way = []
    · subst hne
      exact ⟨es, by simpa [get?] using h⟩
    · exact exists_directory_of_get? h hne
  exact hway.rooted (htop.get? h).1

/-- However many links are followed, a path leads to one place only. -/
theorem unique {links' : Nat} {dest' : List Bytes} (h : Leads top links here path dest)
    (h' : Leads top links' here path dest') : dest = dest' := by
  have heq := (h.mono (Nat.le_max_left links links')).follow_eq
  have heq' := (h'.mono (Nat.le_max_right links links')).follow_eq
  exact Except.ok.inj (heq.symm.trans heq')

end Leads

/-! ### What stands at a path -/

theorem lookup_eq_ok_iff {path : Bytes} {node : Tree} :
    top.lookup path = .ok node ↔
      ∃ way, Leads top openLinks [] (path.splitOn Bytes.slash) way ∧ top.get? way = some node := by
  rw [lookup]
  simp only [← follow_eq_ok_iff]
  cases hfollow : follow top openLinks [] (path.splitOn Bytes.slash) with
  | error e => simp [bind, Except.bind]
  | ok way =>
      simp only [bind, Except.bind, Except.ok.injEq, exists_eq_left']
      cases top.get? way with
      | none => simp
      | some node => simp

/-- What can be opened can be resolved. -/
theorem resolve_of_leads {path : Bytes}
    (h : Leads top openLinks [] (path.splitOn Bytes.slash) way) : top.resolve path = .ok way :=
  (h.mono (by decide)).follow_eq

theorem pathBelow_rooted {names : List Bytes} (hnames : ∀ name ∈ names, IsElement name)
    (hway : way ≠ []) : pathBelow (Path.rooted names) way = Path.rooted (names ++ way) := by
  by_cases hne : names = []
  · subst hne
    rw [pathBelow, rooted_nil, if_pos BEq.rfl, join_cons _ hway, List.nil_append, List.nil_append]
  · rw [pathBelow, if_neg (by simpa using rooted_ne_slash hnames hne), join_cons _ hway,
      rooted_append hne hway]

theorem entryAt_concat_eq_ok_iff {parents : List Bytes} {name : Bytes} {node : Tree}
    (hnames : ∀ n ∈ parents ++ [name], IsElement n) :
    top.entryAt (Path.rooted (parents ++ [name])) = .ok node ↔
      ∃ way, Leads top openLinks [] parents way ∧ top.get? (way ++ [name]) = some node := by
  have hreverse : (parents ++ [name]).reverse = name :: parents.reverse := by simp
  rw [entryAt, cleanElements_rooted hnames, hreverse]
  simp only [List.reverse_reverse, ← follow_eq_ok_iff]
  cases hfollow : follow top openLinks [] parents with
  | error e => simp [bind, Except.bind]
  | ok way =>
      simp only [bind, Except.bind, Except.ok.injEq, exists_eq_left', get?_concat]
      cases (top.get? way).bind (·.child? name) with
      | none => simp
      | some node => simp

/-- If a directory and no link stands at a path, the path leads to that directory. -/
theorem exists_leads_of_entryAt {names : List Bytes} (hnames : ∀ name ∈ names, IsElement name)
    (h : top.entryAt (Path.rooted names) = .ok (.directory es)) :
    ∃ resolved, Leads top openLinks [] ((Path.rooted names).splitOn Bytes.slash) resolved ∧
      top.get? resolved = some (.directory es) := by
  rcases List.eq_nil_or_concat names with rfl | ⟨parents, name, rfl⟩
  · have hempty : cleanElements (Path.rooted []) = [] := cleanElements_rooted hnames
    obtain rfl : top = .directory es := by simpa [entryAt, hempty] using h
    exact ⟨[], Leads.rooted hnames (.done _ _), rfl⟩
  · rw [List.concat_eq_append] at hnames h ⊢
    obtain ⟨way, hway, hget⟩ := (entryAt_concat_eq_ok_iff hnames).mp h
    have hname : IsElement name := hnames name (by simp)
    have hlast : Leads top 0 way [name] (way ++ [name]) :=
      .enter (not_isSpecial hname) hget (by simp) (.done _ _)
    obtain ⟨es', rfl⟩ : ∃ es', top = .directory es' := exists_directory_of_get? hget (by simp)
    exact ⟨way ++ [name], (hway.append hlast).rooted hnames, hget⟩

/-- What stands at the end of a way through directories stands at the path with these names. -/
theorem entryAt_rooted {node : Tree} (htop : top.WellFormed) (h : top.get? way = some node) :
    top.entryAt (Path.rooted way) = .ok node := by
  have hnames := (htop.get? h).1
  rcases List.eq_nil_or_concat way with rfl | ⟨parents, name, rfl⟩
  · have hempty : cleanElements (Path.rooted []) = [] := cleanElements_rooted hnames
    obtain rfl : top = node := by simpa [get?] using h
    simp [entryAt, hempty]
  · rw [List.concat_eq_append] at hnames h ⊢
    obtain ⟨es, hes, _⟩ := get?_concat_eq_some_iff.mp h
    have hparents : Leads top 0 [] parents parents :=
      @Leads.of_get? top [] parents _ htop hes (by simp)
    exact (entryAt_concat_eq_ok_iff hnames).mpr ⟨parents, hparents.mono (Nat.zero_le _), h⟩

end UnusedImports.Tree
