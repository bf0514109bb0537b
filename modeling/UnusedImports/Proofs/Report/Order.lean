import UnusedImports.Report.Basic
import Mathlib.Data.List.Nodup

/-! Strategies go by rank, and where no two have the same rank their order is known from the
strategies alone. -/

namespace UnusedImports

theorem Bytes.compare_eq_lt_iff (s t : Bytes) : compare s t = .lt ↔ s < t := by
  induction s generalizing t with
  | nil =>
      cases t with
      | nil => simp
      | cons b t => simp
  | cons a s ih =>
      cases t with
      | nil => simp
      | cons b t =>
          rw [List.compare_cons_cons, Ordering.then_eq_lt, Std.compare_eq_lt, ih,
            Std.LawfulEqOrd.compare_eq_iff_eq, List.cons_lt_cons_iff]

namespace Finding

/-- The order by file, line, column and identifier, texts being compared byte by byte. -/
def Le (f g : Finding) : Prop :=
  f.file < g.file ∨ f.file = g.file ∧ (f.line < g.line ∨ f.line = g.line ∧
    (f.column < g.column ∨ f.column = g.column ∧ f.identifier ≤ g.identifier))

theorem isLE_order_iff (f g : Finding) : (order f g).isLE = true ↔ f.Le g := by
  have hidentifier : (compare f.identifier g.identifier).isLE = true ↔
      f.identifier ≤ g.identifier := by
    rw [Ordering.isLE_iff_eq_lt_or_eq_eq, Bytes.compare_eq_lt_iff,
      Std.LawfulEqOrd.compare_eq_iff_eq, List.le_iff_lt_or_eq]
  rw [order, Ordering.isLE_then_iff_or, Ordering.isLE_then_iff_or, Ordering.isLE_then_iff_or,
    hidentifier, Bytes.compare_eq_lt_iff, Std.compare_eq_lt, Std.compare_eq_lt]
  simp only [Std.LawfulEqOrd.compare_eq_iff_eq]
  rfl

theorem sort_perm (fs : List Finding) : (sort fs).Perm fs := List.mergeSort_perm fs _

instance : Std.TransCmp order :=
  inferInstanceAs (Std.TransCmp (compareLex (compareOn file) (compareLex (compareOn line)
    (compareLex (compareOn column) (compareOn identifier)))))

theorem sort_pairwise (fs : List Finding) : (sort fs).Pairwise Le := by
  refine (List.pairwise_mergeSort ?_ ?_ fs).imp ?_
  · intro f g h hfg hgh
    exact Std.TransCmp.isLE_trans hfg hgh
  · intro f g
    by_cases hfg : (order f g).isLE = true
    · rw [hfg, Bool.true_or]
    · have hgf := Std.OrientedCmp.lt_of_not_isLE hfg
      rw [Ordering.isLE_of_eq_lt hgf, Bool.or_true]
  · intro f g hfg
    exact (isLE_order_iff f g).mp hfg

theorem sort_of_pairwise {fs : List Finding} (h : fs.Pairwise Le) : sort fs = fs :=
  List.mergeSort_of_pairwise (h.imp fun {f g} hfg => (isLE_order_iff f g).mpr hfg)

end Finding

namespace Report.Builder

variable {α : Type} {tag : α → Tag} {xs ys : List α}

theorem byRank_perm (tag : α → Tag) (xs : List α) : (byRank tag xs).Perm xs :=
  List.mergeSort_perm xs _

theorem byRank_pairwise (tag : α → Tag) (xs : List α) :
    (byRank tag xs).Pairwise fun x y => (tag x).priority ≤ (tag y).priority := by
  refine (List.pairwise_mergeSort ?_ ?_ xs).imp ?_
  · intro x y z hxy hyz
    simp only [decide_eq_true_eq] at hxy hyz ⊢
    omega
  · intro x y
    simp only [Bool.or_eq_true, decide_eq_true_eq]
    omega
  · intro x y hxy
    simpa using hxy

/-- Where all ranks are different, the order by rank does not depend on the order before. -/
theorem byRank_eq_of_perm (h : xs.Perm ys) (hranks : (xs.map fun x => (tag x).priority).Nodup) :
    byRank tag xs = byRank tag ys := by
  refine List.Perm.eq_of_pairwise ?_ (byRank_pairwise tag xs) (byRank_pairwise tag ys)
    ((byRank_perm tag xs).trans (h.trans (byRank_perm tag ys).symm))
  intro x y hx hy hxy hyx
  exact List.inj_on_of_nodup_map hranks ((byRank_perm tag xs).mem_iff.mp hx)
    (h.mem_iff.mpr ((byRank_perm tag ys).mem_iff.mp hy)) (Nat.le_antisymm hxy hyx)

/-- Tags of different ranks are in order as soon as they are known. -/
theorem map_byRank_eq {tags : List Tag} (h : (xs.map tag).Perm tags)
    (htags : tags.Pairwise fun s t => s.priority < t.priority) :
    (byRank tag xs).map tag = tags := by
  have hperm := ((byRank_perm tag xs).map tag).trans h
  have hsorted : ((byRank tag xs).map tag).Pairwise fun s t => s.priority ≤ t.priority :=
    List.pairwise_map.mpr (byRank_pairwise tag xs)
  have hnodup : (tags.map Tag.priority).Nodup := List.pairwise_map.mpr (htags.imp Nat.ne_of_lt)
  refine List.Perm.eq_of_pairwise ?_ hsorted (htags.imp Nat.le_of_lt) hperm
  intro s t hs ht hst hts
  exact List.inj_on_of_nodup_map hnodup (hperm.mem_iff.mp hs) ht (Nat.le_antisymm hst hts)

end Report.Builder

end UnusedImports
