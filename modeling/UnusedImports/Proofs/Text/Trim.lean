import UnusedImports.Proofs.Text.Search
import UnusedImports.Proofs.Text.WellFormed
import Mathlib.Data.List.DropRight

/-! A part that neither begins nor ends with white space stays whole wherever it stands in the text.
-/

namespace UnusedImports

namespace Utf8

variable {b : UInt8} {s : Bytes}

/-- The code points of a text can be told apart before an ASCII byte. -/
theorem units_append_ascii (hb : b < 0x80) (a x : Bytes) :
    units (a ++ b :: x) = units a ++ units (b :: x) := by
  induction a using unit_induction with
  | nil => simp [units_nil]
  | cons p a ih =>
      have hdecode := decode_append_ascii (List.cons_ne_nil p a) hb x
      have hsize := decode_size_le (p :: a)
      rw [List.cons_append] at hdecode
      rw [List.cons_append, units_cons, hdecode, ← List.cons_append,
        List.take_append_of_le_length hsize, List.drop_append_of_le_length hsize, ih, units_cons p a,
        List.cons_append]

theorem units_ascii (hb : b < 0x80) (x : Bytes) : units (b :: x) = (b.toNat, [b]) :: units x := by
  rw [units_cons, decode_ascii hb]
  rfl

theorem units_append_of_ascii (hs : ∀ b ∈ s, b < 0x80) (x : Bytes) :
    units (s ++ x) = s.map (fun b => (b.toNat, [b])) ++ units x := by
  induction s with
  | nil => rfl
  | cons b s ih =>
      rw [List.cons_append, units_ascii (hs b List.mem_cons_self),
        ih fun c hc => hs c (List.mem_cons_of_mem b hc)]
      rfl

theorem units_of_ascii (hs : ∀ b ∈ s, b < 0x80) : units s = s.map fun b => (b.toNat, [b]) := by
  simpa [units_nil] using units_append_of_ascii hs []

theorem codePoints_of_ascii (hs : ∀ b ∈ s, b < 0x80) : codePoints s = s.map UInt8.toNat := by
  rw [codePoints, units_of_ascii hs, List.map_map]
  rfl

@[simp] theorem units_eq_nil : units s = [] ↔ s = [] := by
  cases s with
  | nil => simp [units_nil]
  | cons b s => simp [units_cons]

theorem ne_nil_of_mem_units {u : Nat × Bytes} (hu : u ∈ units s) : u.2 ≠ [] := by
  induction s using unit_induction with
  | nil => simp [units_nil] at hu
  | cons b s ih =>
      rw [units_cons, List.mem_cons] at hu
      rcases hu with rfl | hu
      · have hpos := decode_size_pos b s
        simp
        omega
      · exact ih hu

/-- An ASCII byte of a text is a code point of it. -/
theorem toNat_mem_codePoints (hmem : b ∈ s) (hb : b < 0x80) : b.toNat ∈ codePoints s := by
  obtain ⟨a, x, rfl⟩ := List.append_of_mem hmem
  simp [codePoints, units_append_ascii hb, units_ascii hb]

end Utf8

namespace Bytes

open Utf8

def isBlankUnit (u : Nat × Bytes) : Bool := CodePoint.isBlank u.1

/-- A text that neither begins nor ends with white space. -/
structure Solid (s : Bytes) : Prop where
  ne_nil : s ≠ []
  first : ∀ u ∈ (units s).head?, isBlankUnit u = false
  last : ∀ u ∈ (units s).getLast?, isBlankUnit u = false

variable {s part : Bytes}

theorem trim_eq (s : Bytes) :
    trim s = (((units s).dropWhile isBlankUnit).rdropWhile isBlankUnit).flatMap (·.2) := rfl

@[simp] theorem trim_nil : trim [] = [] := by
  rw [trim_eq, units_nil]
  rfl

section Ends

variable {α : Type} {p : α → Bool} {m : List α}

theorem dropWhile_append_solid (hm : m ≠ []) (hfirst : ∀ x ∈ m.head?, p x = false) (a c : List α) :
    (a ++ (m ++ c)).dropWhile p = a.dropWhile p ++ (m ++ c) := by
  induction a with
  | nil =>
      obtain ⟨x, m, rfl⟩ := List.exists_cons_of_ne_nil hm
      simp [hfirst x rfl]
  | cons x a ih =>
      cases hx : p x with
      | true => simpa [hx] using ih
      | false => simp [hx]

theorem rdropWhile_append_solid (hm : m ≠ []) (hlast : ∀ x ∈ m.getLast?, p x = false)
    (a c : List α) : (a ++ m ++ c).rdropWhile p = a ++ m ++ c.rdropWhile p := by
  induction c using List.reverseRecOn with
  | nil =>
      obtain ⟨m, x, rfl⟩ := List.eq_nil_or_concat' m |>.resolve_left hm
      have hx : ¬ p x = true := by simp [hlast x (by simp)]
      rw [List.append_nil, ← List.append_assoc, List.rdropWhile_concat_neg _ _ _ hx]
      simp
  | append_singleton c x ih =>
      rw [← List.append_assoc, List.rdropWhile_concat, List.rdropWhile_concat]
      split
      · exact ih
      · rw [List.append_assoc]

end Ends

theorem trim_append_solid (hpart : Solid part) {a c : List (Nat × Bytes)}
    (hunits : units s = a ++ (units part ++ c)) :
    trim s = (a.dropWhile isBlankUnit).flatMap (·.2) ++
      (part ++ (c.rdropWhile isBlankUnit).flatMap (·.2)) := by
  have hne : units part ≠ [] := by simpa using hpart.ne_nil
  rw [trim_eq, hunits, dropWhile_append_solid hne hpart.first, ← List.append_assoc,
    rdropWhile_append_solid hne hpart.last, List.flatMap_append, List.flatMap_append,
    flatMap_units, List.append_assoc]

/-- White space is dropped behind a part that is at the front of the text. -/
theorem trim_append (hpart : Solid part) {more : Bytes} (hmore : ∀ b ∈ more.head?, b < 0x80) :
    ∃ kept, trim (part ++ more) = part ++ kept ∧ kept <+: more := by
  have hunits : units (part ++ more) = [] ++ (units part ++ units more) := by
    cases more with
    | nil => simp [units_nil]
    | cons b more => exact units_append_ascii (hmore b rfl) part more
  refine ⟨_, trim_append_solid hpart hunits, ?_⟩
  have hprefix := List.rdropWhile_prefix isBlankUnit (l := units more)
  obtain ⟨dropped, happend⟩ := hprefix
  refine ⟨dropped.flatMap (·.2), ?_⟩
  rw [← List.flatMap_append, happend, flatMap_units]

/-- White space at the end of a text does not count. -/
theorem trim_append_blank {b : UInt8} (hb : b < 0x80) (hblank : CodePoint.isBlank b.toNat = true)
    (s : Bytes) : trim (s ++ [b]) = trim s := by
  have hunit : isBlankUnit (b.toNat, [b]) = true := hblank
  rw [trim_eq, trim_eq, units_append_ascii hb, units_ascii hb, units_nil, List.dropWhile_append]
  split
  · next h =>
      rw [List.isEmpty_iff.mp h]
      simp [hunit]
  · rw [List.rdropWhile_concat_pos _ _ _ hunit]

theorem trim_eq_nil_iff (s : Bytes) : trim s = [] ↔ isBlank s = true := by
  constructor
  · intro h
    by_contra hsolid
    simp only [isBlank, codePoints, List.all_map, List.all_eq_true, not_forall] at hsolid
    obtain ⟨u, hu, hblank⟩ := hsolid
    have hblank : isBlankUnit u = false := by simpa [isBlankUnit] using hblank
    obtain ⟨a, c, hunits⟩ := List.append_of_mem hu
    have hne : [u] ≠ [] := List.cons_ne_nil u []
    rw [trim_eq, hunits, ← List.singleton_append, dropWhile_append_solid hne (by simpa using hblank),
      ← List.append_assoc, rdropWhile_append_solid hne (by simpa using hblank)] at h
    simp [ne_nil_of_mem_units hu] at h
  · intro h
    have hall : ∀ u ∈ units s, isBlankUnit u = true := by
      simpa [isBlank, codePoints, isBlankUnit] using h
    rw [trim_eq, List.dropWhile_eq_nil_iff.mpr hall]
    rfl

theorem isInfix_trim (s : Bytes) : trim s <:+: s := by
  obtain ⟨a, hfront⟩ := List.dropWhile_suffix isBlankUnit (l := units s)
  obtain ⟨c, hback⟩ := List.rdropWhile_prefix isBlankUnit (l := (units s).dropWhile isBlankUnit)
  refine ⟨a.flatMap (·.2), c.flatMap (·.2), ?_⟩
  rw [trim_eq, List.append_assoc, ← List.flatMap_append, hback, ← List.flatMap_append, hfront,
    flatMap_units]

/-- An ASCII text that neither begins nor ends with white space is found beside white space if it
is found with it. -/
theorem contains_trim (hpart : Solid part) (hascii : ∀ b ∈ part, b < 0x80) (s : Bytes) :
    contains part (trim s) = contains part s := by
  rw [Bool.eq_iff_iff, contains_iff, contains_iff]
  constructor
  · intro h
    exact h.trans (isInfix_trim s)
  · rintro ⟨a, c, rfl⟩
    obtain ⟨b, rest, hb⟩ := List.exists_cons_of_ne_nil hpart.ne_nil
    have hunits : units (a ++ part ++ c) = units a ++ (units part ++ units c) := by
      have hfront : b < 0x80 := hascii b (by simp [hb])
      rw [units_of_ascii hascii, ← units_append_of_ascii hascii, List.append_assoc, hb, List.cons_append,
        units_append_ascii hfront]
    rw [trim_append_solid hpart hunits]
    exact ⟨_, _, List.append_assoc _ _ _⟩

end Bytes

end UnusedImports
