import UnusedImports.Editor.Position
import UnusedImports.Proofs.Text.WellFormed
import Mathlib.Algebra.GroupWithZero.Nat
import Mathlib.Data.List.Induction

/-! Every offset between two code points has a place, which denotes no other offset. The position
told for it denotes it exactly if 32 bits hold its numbers, as they do in every text of less than 4
GiB. -/

namespace UnusedImports.Editor

namespace Place

/-- The place at an offset between code points. -/
def Denotes (text : Bytes) (p : Place) (i : Nat) : Prop :=
  ∃ front back, (∀ c ∈ front ++ back, Utf8.IsScalar c) ∧ text = Utf8.ofCodePoints (front ++ back) ∧
    i = (Utf8.ofCodePoints front).length ∧ p.line = front.count 0x0a ∧
    p.character = ((front.reverse.takeWhile (· != 0x0a)).map units16).sum

/-- The place behind code points. -/
theorem foldl_advance (front : List Nat) :
    front.foldl advance zero = ⟨front.count 0x0a,
      ((front.reverse.takeWhile (· != 0x0a)).map units16).sum⟩ := by
  induction front using List.reverseRecOn with
  | nil => rfl
  | append_singleton front c ih =>
      rw [List.foldl_append, ih]
      by_cases hc : c = 0x0a
      · simp [hc, advance]
      · simp [hc, advance]
        omega

theorem walk_zero (p : Place) (us : List (Nat × Bytes)) : p.walk us 0 = p := by
  cases us <;> simp [walk]

/-- A walk over some code points goes on behind them. -/
theorem walk_units (p : Place) (front : List Nat) (us : List (Nat × Bytes)) (n : Nat) :
    p.walk (front.map (fun c => (c, Utf8.encode c)) ++ us) ((Utf8.ofCodePoints front).length + n) =
      (front.foldl advance p).walk us n := by
  induction front generalizing p with
  | nil => simp
  | cons c front ih =>
      have hpos := List.length_pos_iff.mpr (Utf8.encode_ne_nil c)
      have hsize : (Utf8.ofCodePoints (c :: front)).length + n =
          (Utf8.encode c).length + ((Utf8.ofCodePoints front).length + n) := by
        simp [Nat.add_assoc]
      rw [List.map_cons, List.cons_append, walk, hsize, if_neg (by omega), Nat.add_sub_cancel_left]
      exact ih (p.advance c)

/-- A walk that starts some lines further on ends as many lines further on. -/
theorem walk_lines (p : Place) (lines : Nat) (us : List (Nat × Bytes)) (n : Nat) :
    (⟨p.line + lines, p.character⟩ : Place).walk us n =
      ⟨(p.walk us n).line + lines, (p.walk us n).character⟩ := by
  induction us generalizing p n with
  | nil => rfl
  | cons u us ih =>
      have hstep : (⟨p.line + lines, p.character⟩ : Place).advance u.1 =
          ⟨(p.advance u.1).line + lines, (p.advance u.1).character⟩ := by
        unfold advance
        split
        · simp [Nat.add_right_comm]
        · rfl
      rw [walk, walk, hstep, ih]
      split
      · rfl
      · rfl

end Place

/-- Offsets between code points have places. -/
theorem placeAt_denotes {text : Bytes} {i : Nat} (h : Utf8.Boundary text i)
    (hi : i ≤ text.length) : (placeAt text i).Denotes text i := by
  obtain ⟨⟨front, hfront, htake⟩, back, hback, hdrop⟩ := h
  have hscalar : ∀ c ∈ front ++ back, Utf8.IsScalar c := by
    intro c hc
    rcases List.mem_append.mp hc with hc | hc
    · exact hfront c hc
    · exact hback c hc
  have htext : text = Utf8.ofCodePoints (front ++ back) := by
    rw [Utf8.ofCodePoints_append, ← htake, ← hdrop, List.take_append_drop]
  have hlength : i = (Utf8.ofCodePoints front).length := by
    rw [← htake, List.length_take]
    omega
  have hplace : placeAt text i = front.foldl Place.advance .zero := by
    have hwalk := Place.zero.walk_units front (Utf8.units (Utf8.ofCodePoints back)) 0
    rw [← Utf8.units_ofCodePoints_append hfront, ← Utf8.ofCodePoints_append, ← htext,
      ← hlength, Place.walk_zero] at hwalk
    exact hwalk
  rw [Place.foldl_advance] at hplace
  exact ⟨front, back, hscalar, htext, hlength, by rw [hplace], by rw [hplace]⟩

namespace Place

/-! ### A place denotes one offset -/

def Before (p q : Place) : Prop := p.line < q.line ∨ (p.line = q.line ∧ p.character < q.character)

theorem before_advance (p : Place) (c : Nat) : p.Before (p.advance c) := by
  have hunits : 0 < units16 c := by
    unfold units16
    split
    · decide
    · decide
  unfold advance
  split
  · exact .inl (Nat.lt_succ_self _)
  · exact .inr ⟨rfl, Nat.lt_add_of_pos_right hunits⟩

theorem Before.trans {p q r : Place} (h : p.Before q) (h' : q.Before r) : p.Before r := by
  unfold Before at *
  omega

theorem not_before_self (p : Place) : ¬ p.Before p := by simp [Before]

theorem before_foldl (p : Place) {cs : List Nat} (hcs : cs ≠ []) :
    p.Before (cs.foldl advance p) := by
  induction cs generalizing p with
  | nil => exact absurd rfl hcs
  | cons c cs ih =>
      cases cs with
      | nil => exact p.before_advance c
      | cons d cs => exact (p.before_advance c).trans (ih _ (List.cons_ne_nil d cs))

/-- Where one front is a part of another, both have the same place only if they are the same. -/
theorem eq_of_foldl_eq {front more : List Nat}
    (h : front.foldl advance zero = (front ++ more).foldl advance zero) : more = [] := by
  by_contra hmore
  have hbefore := before_foldl (front.foldl advance zero) hmore
  rw [← List.foldl_append, ← h] at hbefore
  exact not_before_self _ hbefore

variable {text : Bytes} {p q : Place} {i j : Nat}

theorem Denotes.unique (h : p.Denotes text i) (h' : p.Denotes text j) : i = j := by
  obtain ⟨front, back, hscalar, htext, rfl, hline, hcharacter⟩ := h
  obtain ⟨front', back', hscalar', htext', rfl, hline', hcharacter'⟩ := h'
  have hsame : front ++ back = front' ++ back' := by
    rw [← Utf8.codePoints_ofCodePoints hscalar, ← Utf8.codePoints_ofCodePoints hscalar', ← htext,
      ← htext']
  have hfold : front.foldl advance zero = front'.foldl advance zero := by
    rw [foldl_advance, foldl_advance, ← hline, ← hcharacter, ← hline', ← hcharacter']
  rcases List.append_eq_append_iff.mp hsame with ⟨more, rfl, _⟩ | ⟨more, rfl, _⟩
  · rw [eq_of_foldl_eq hfold, List.append_nil]
  · rw [eq_of_foldl_eq hfold.symm, List.append_nil]

/-- An offset is denoted by one place. -/
theorem Denotes.place_eq (h : p.Denotes text i) (h' : q.Denotes text i) : p = q := by
  obtain ⟨front, back, hscalar, htext, rfl, hline, hcharacter⟩ := h
  obtain ⟨front', back', hscalar', htext', hlength, hline', hcharacter'⟩ := h'
  rw [Utf8.ofCodePoints_append] at htext htext'
  have hbytes : Utf8.ofCodePoints front = Utf8.ofCodePoints front' :=
    (List.append_inj (htext.symm.trans htext') hlength).1
  have hfront : front = front' := by
    rw [← Utf8.codePoints_ofCodePoints fun c hc => hscalar c (List.mem_append_left _ hc), hbytes,
      Utf8.codePoints_ofCodePoints fun c hc => hscalar' c (List.mem_append_left _ hc)]
  cases p
  cases q
  simp_all

/-! ### What 32 bits hold -/

/-- 32 bits hold the numbers of a place. -/
def Fits (p : Place) : Prop := p.line < UInt32.size ∧ p.character < UInt32.size

theorem units16_le_length_encode (c : Nat) : units16 c ≤ (Utf8.encode c).length := by
  have hpos := List.length_pos_iff.mpr (Utf8.encode_ne_nil c)
  unfold units16
  split
  · exact hpos
  · simp only [Utf8.encode]
    rw [if_neg (by omega), if_neg (by omega)]
    split
    · decide
    · simp

theorem sum_units16_le (cs : List Nat) :
    (cs.map units16).sum ≤ (Utf8.ofCodePoints cs).length := by
  induction cs with
  | nil => exact Nat.le_refl _
  | cons c cs ih =>
      have hc := units16_le_length_encode c
      simp only [List.map_cons, List.sum_cons, Utf8.ofCodePoints_cons, List.length_append]
      omega

theorem length_le_ofCodePoints (cs : List Nat) : cs.length ≤ (Utf8.ofCodePoints cs).length := by
  induction cs with
  | nil => exact Nat.le_refl _
  | cons c cs ih =>
      have hpos := List.length_pos_iff.mpr (Utf8.encode_ne_nil c)
      simp only [List.length_cons, Utf8.ofCodePoints_cons, List.length_append]
      omega

/-- The numbers of a place are no greater than the offset. -/
theorem Denotes.le (h : p.Denotes text i) : p.line ≤ i ∧ p.character ≤ i := by
  obtain ⟨front, back, -, -, rfl, hline, hcharacter⟩ := h
  have hcount := List.count_le_length (a := 0x0a) (l := front)
  have hlength := length_le_ofCodePoints front
  have hsum := sum_units16_le front
  have hsplit : (front.map units16).sum =
      ((front.reverse.takeWhile (· != 0x0a)).map units16).sum +
        ((front.reverse.dropWhile (· != 0x0a)).map units16).sum := by
    rw [← List.sum_append, ← List.map_append, List.takeWhile_append_dropWhile, List.map_reverse,
      List.sum_reverse]
  omega

theorem Denotes.le_length (h : p.Denotes text i) : i ≤ text.length := by
  obtain ⟨front, back, -, rfl, rfl, -⟩ := h
  rw [Utf8.ofCodePoints_append, List.length_append]
  exact Nat.le_add_right _ _

theorem Denotes.fits (h : p.Denotes text i) (hlength : text.length < UInt32.size) : p.Fits := by
  have hle := h.le_length
  obtain ⟨hline, hcharacter⟩ := h.le
  exact ⟨by omega, by omega⟩

end Place

/-! ### Positions -/

namespace Position

def place (p : Position) : Place := ⟨p.line, p.character⟩

/-- A position denotes the offsets that its place does. -/
def Denotes (text : Bytes) (p : Position) (i : Nat) : Prop := p.place.Denotes text i

theorem fits_place (p : Position) : p.place.Fits := ⟨p.line.toNat_lt, p.character.toNat_lt⟩

theorem Denotes.unique {text : Bytes} {p : Position} {i j : Nat} (h : p.Denotes text i)
    (h' : p.Denotes text j) : i = j := Place.Denotes.unique h h'

end Position

variable {text : Bytes} {p : Place} {i : Nat}

theorem Place.place_told (h : p.Fits) : p.told.place = p := by
  have hline := UInt32.toNat_ofNat_of_lt' h.1
  have hcharacter := UInt32.toNat_ofNat_of_lt' h.2
  rw [told, Position.place, hline, hcharacter]

/-- What is told of a place denotes its offset if 32 bits hold its numbers, and only then. -/
theorem Place.Denotes.told_iff (h : p.Denotes text i) : p.told.Denotes text i ↔ p.Fits := by
  constructor
  · intro htold
    rw [h.place_eq htold]
    exact p.told.fits_place
  · intro hfits
    rwa [Position.Denotes, place_told hfits]

theorem placeAt_append_newlines (lines : Nat) (text : Bytes) (i : Nat) :
    placeAt (List.replicate lines Bytes.newline ++ text) (lines + i : Nat) =
      ⟨(placeAt text i).line + lines, (placeAt text i).character⟩ := by
  have hfront : List.replicate lines Bytes.newline =
      Utf8.ofCodePoints (List.replicate lines 0x0a) := by
    induction lines with
    | zero => rfl
    | succ lines ih =>
        rw [List.replicate_succ, List.replicate_succ, Utf8.ofCodePoints_cons, ← ih]
        rfl
  have hscalar : ∀ c ∈ List.replicate lines 0x0a, Utf8.IsScalar c := by
    intro c hc
    rw [List.eq_of_mem_replicate hc]
    exact .inl (by decide)
  have hfold : (List.replicate lines 0x0a).foldl Place.advance .zero = ⟨0 + lines, 0⟩ := by
    rw [Place.foldl_advance, List.reverse_replicate, List.count_replicate_self, Nat.zero_add]
    cases lines <;> rfl
  have hwalk := Place.zero.walk_units (List.replicate lines 0x0a) (Utf8.units text) i
  rw [← Utf8.units_ofCodePoints_append hscalar, ← hfront, List.length_replicate, hfold] at hwalk
  exact hwalk.trans (Place.zero.walk_lines lines (Utf8.units text) i)

/-- Behind as many line feeds as 32 bits can count, positions are told as if there were none. -/
theorem positionAt_append_newlines (text : Bytes) (i : Nat) :
    positionAt (List.replicate UInt32.size Bytes.newline ++ text) (UInt32.size + i : Nat) =
      positionAt text i := by
  have hline : ∀ n, UInt32.ofNat (n + UInt32.size) = UInt32.ofNat n := by
    intro n
    rw [← UInt32.toNat_inj, UInt32.toNat_ofNat', UInt32.toNat_ofNat']
    exact Nat.add_mod_right n _
  rw [positionAt, placeAt_append_newlines, Place.told, hline]
  rfl

/-! ### Parts of a document -/

/-- 32 bits hold the numbers of both ends of a stretch. -/
def Fits (text : Bytes) (i j : Nat) : Prop := (placeAt text i).Fits ∧ (placeAt text j).Fits

namespace Range

/-- The stretch of a text from one end of a part to the other. -/
def Denotes (text : Bytes) (r : Range) (i j : Nat) : Prop :=
  r.start.Denotes text i ∧ r.stop.Denotes text j

/-- A part that is told for a stretch of a text. It denotes the stretch and no other where 32 bits
hold the numbers of both ends, and it does not denote the stretch where they do not. -/
structure Covers (text : Bytes) (r : Range) (i j : Nat) : Prop where
  denotes_iff : Fits text i j → ∀ k l, r.Denotes text k l ↔ k = i ∧ l = j
  fits : r.Denotes text i j → Fits text i j
  fits_of_length_lt : text.length < UInt32.size → Fits text i j

theorem Denotes.unique {r : Range} {i j k l : Nat} (h : r.Denotes text i j)
    (h' : r.Denotes text k l) : k = i ∧ l = j :=
  ⟨h'.1.unique h.1, h'.2.unique h.2⟩

theorem covers_of_boundary {j : Nat} (hi : Utf8.Boundary text i) (hle : i ≤ text.length)
    (hj : Utf8.Boundary text j) (hle' : j ≤ text.length) :
    Covers text ⟨positionAt text i, positionAt text j⟩ i j := by
  have hstart := placeAt_denotes hi hle
  have hstop := placeAt_denotes hj hle'
  refine ⟨fun hfits k l => ⟨fun h => ?_, ?_⟩, fun h => ?_, fun hlength => ?_⟩
  · exact Denotes.unique ⟨hstart.told_iff.mpr hfits.1, hstop.told_iff.mpr hfits.2⟩ h
  · rintro ⟨rfl, rfl⟩
    exact ⟨hstart.told_iff.mpr hfits.1, hstop.told_iff.mpr hfits.2⟩
  · exact ⟨hstart.told_iff.mp h.1, hstop.told_iff.mp h.2⟩
  · exact ⟨hstart.fits hlength, hstop.fits hlength⟩

end Range

end UnusedImports.Editor
