import UnusedImports.Proofs.Tree.Resolution
import Mathlib.Data.List.Nodup

namespace UnusedImports.Tree

open UnusedImports.Path

variable {enter : List Bytes → Bool} {t u : Tree} {es : List (Bytes × Tree)}
  {way found : List Bytes}

def leavesAt (enter : List Bytes → Bool) (way : List Bytes) : Tree → List (List Bytes × Tree)
  | .directory es => if enter way then leavesOf enter way es else []
  | t => [(way, t)]

theorem leavesOf_eq_flatMap (enter : List Bytes → Bool) (way : List Bytes)
    (es : List (Bytes × Tree)) :
    leavesOf enter way es = es.flatMap fun e => leavesAt enter (way ++ [e.1]) e.2 := by
  induction es with
  | nil => simp [leavesOf]
  | cons e es ih =>
      obtain ⟨name, node⟩ := e
      cases node <;> simp [leavesOf, leavesAt, ih]

/-- A place below a tree that is not a directory and to which only accepted directories lead. -/
structure IsLeaf (enter : List Bytes → Bool) (way : List Bytes) (t : Tree) (rest : List Bytes)
    (u : Tree) : Prop where
  get?_eq : t.get? rest = some u
  not_directory : ∀ es, u ≠ .directory es
  enter_of_prefix : ∀ front, front <+: rest → front ≠ rest → enter (way ++ front) = true

theorem isLeaf_self (h : ∀ es, t ≠ .directory es) {rest : List Bytes} :
    IsLeaf enter way t rest u ↔ rest = [] ∧ u = t := by
  constructor
  · rintro ⟨hget, _, _⟩
    cases rest with
    | nil => exact ⟨rfl, by simpa [get?] using hget.symm⟩
    | cons name rest =>
        obtain ⟨es, rfl⟩ := exists_directory_of_get? hget (List.cons_ne_nil _ _)
        exact absurd rfl (h es)
  · rintro ⟨rfl, rfl⟩
    exact ⟨rfl, h, fun front hfront hne => absurd (List.prefix_nil.mp hfront) hne⟩

theorem isLeaf_directory (h : (directory es).WellFormed) {rest : List Bytes} :
    IsLeaf enter way (.directory es) rest u ↔
      enter way = true ∧ ∃ e ∈ es, ∃ more, rest = e.1 :: more ∧
        IsLeaf enter (way ++ [e.1]) e.2 more u := by
  constructor
  · rintro ⟨hget, hleaf, henter⟩
    cases rest with
    | nil => exact absurd (by simpa [get?] using hget.symm) (hleaf es)
    | cons name rest =>
        obtain ⟨next, hchild, hnext⟩ := Option.bind_eq_some_iff.mp hget
        refine ⟨by simpa using henter [] List.nil_prefix (by simp), (name, next),
          (child?_eq_some_iff h).mp hchild, rest, rfl, hnext, hleaf, ?_⟩
        intro front hfront hne
        have hprefix : name :: front <+: name :: rest := List.cons_prefix_cons.mpr ⟨rfl, hfront⟩
        rw [← List.append_cons]
        exact henter (name :: front) hprefix (by simpa using hne)
  · rintro ⟨hway, ⟨name, next⟩, hmem, more, rfl, hget, hleaf, henter⟩
    refine ⟨?_, hleaf, ?_⟩
    · rw [get?, (child?_eq_some_iff h).mpr hmem]
      exact hget
    · intro front hfront hne
      cases front with
      | nil => simpa using hway
      | cons first front =>
          obtain ⟨rfl, hmore⟩ := List.cons_prefix_cons.mp hfront
          rw [List.append_cons]
          exact henter front hmore (by simpa using hne)

theorem mem_leavesAt_iff (h : t.WellFormed) :
    (found, u) ∈ leavesAt enter way t ↔
      ∃ rest, found = way ++ rest ∧ IsLeaf enter way t rest u := by
  induction h generalizing way with
  | file content => simp [leavesAt, isLeaf_self]
  | link target => simp [leavesAt, isLeaf_self]
  | directory es hnodup hnames hchildren ih =>
      simp only [isLeaf_directory (.directory es hnodup hnames hchildren)]
      by_cases hway : enter way = true
      · rw [leavesAt, if_pos hway, leavesOf_eq_flatMap, List.mem_flatMap]
        constructor
        · rintro ⟨e, he, hfound⟩
          obtain ⟨rest, rfl, hleaf⟩ := (ih e he).mp hfound
          exact ⟨e.1 :: rest, by simp, hway, e, he, rest, rfl, hleaf⟩
        · rintro ⟨_, rfl, _, e, he, rest, rfl, hleaf⟩
          exact ⟨e, he, (ih e he).mpr ⟨rest, by simp, hleaf⟩⟩
      · simp [leavesAt, hway]

theorem nodup_leavesAt (h : t.WellFormed) : ((leavesAt enter way t).map Prod.fst).Nodup := by
  induction h generalizing way with
  | file content => simp [leavesAt]
  | link target => simp [leavesAt]
  | directory es hnodup hnames hchildren ih =>
      by_cases hway : enter way = true
      · rw [leavesAt, if_pos hway, leavesOf_eq_flatMap, List.map_flatMap, List.nodup_flatMap]
        refine ⟨fun e he => ih e he, ?_⟩
        rw [List.Nodup, List.pairwise_map] at hnodup
        refine hnodup.imp_of_mem ?_
        intro e e' he he' hne found hfound hfound'
        obtain ⟨⟨_, u⟩, hu, rfl⟩ := List.mem_map.mp hfound
        obtain ⟨⟨_, u'⟩, hu', hsame⟩ := List.mem_map.mp hfound'
        obtain ⟨rest, hrest, _⟩ := (mem_leavesAt_iff (hchildren e he)).mp hu
        obtain ⟨rest', hrest', _⟩ := (mem_leavesAt_iff (hchildren e' he')).mp hu'
        simp only at hsame
        simp_all
      · simp [leavesAt, hway]

theorem leaves_eq_leavesAt (h : enter [] = true) (t : Tree) :
    leaves enter t = leavesAt enter [] t := by
  cases t with
  | directory es => rw [leaves, leavesAt, if_pos h]
  | file => rfl
  | link => rfl

end UnusedImports.Tree
