import UnusedImports.Edit
import Mathlib.Data.List.Basic
import Mathlib.Data.List.Flatten

/-! What replacements do to a text can be told offset by offset, without an order among them. -/

namespace UnusedImports.Replacement

/-- A replacement takes the bytes from its start on and before its stop. -/
def Takes (r : Replacement) (i : Nat) : Prop := r.start ≤ i ∧ i < r.stop

instance (r : Replacement) (i : Nat) : Decidable (r.Takes i) :=
  inferInstanceAs (Decidable (r.start ≤ i ∧ i < r.stop))

/-- The text that replacements put at an offset. -/
def inserted (rs : List Replacement) (i : Nat) : Bytes :=
  (rs.filter (·.start = i)).flatMap (·.text)

/-- What becomes of the byte at an offset. -/
def piece (rs : List Replacement) (p : UInt8 × Nat) : Bytes :=
  inserted rs p.2 ++ if ∃ r ∈ rs, r.Takes p.2 then [] else [p.1]

/-- A text that starts at an offset, with replacements made at once. -/
def substituteFrom (rs : List Replacement) (i : Nat) (s : Bytes) : Bytes :=
  (s.zipIdx i).flatMap (piece rs) ++ inserted rs (i + s.length)

def substitute (content : Bytes) (rs : List Replacement) : Bytes := substituteFrom rs 0 content

variable {rs : List Replacement} {r : Replacement}

theorem inserted_cons (r : Replacement) (rs : List Replacement) (i : Nat) :
    inserted (r :: rs) i = (if r.start = i then r.text else []) ++ inserted rs i := by
  unfold inserted
  by_cases h : r.start = i
  · simp [h]
  · simp [h]

theorem inserted_eq_nil {i : Nat} (h : ∀ r ∈ rs, r.start ≠ i) : inserted rs i = [] := by
  have hnone : rs.filter (·.start = i) = [] := by simpa using h
  rw [inserted, hnone]
  rfl

theorem substituteFrom_append (rs : List Replacement) (i : Nat) (s t : Bytes) :
    substituteFrom rs i (s ++ t) =
      (s.zipIdx i).flatMap (piece rs) ++ substituteFrom rs (i + s.length) t := by
  simp only [substituteFrom, List.zipIdx_append, List.flatMap_append, List.length_append,
    List.append_assoc, Nat.add_assoc]

theorem substituteFrom_cons (rs : List Replacement) (i : Nat) (b : UInt8) (s : Bytes) :
    substituteFrom rs i (b :: s) = piece rs (b, i) ++ substituteFrom rs (i + 1) s := by
  simpa using substituteFrom_append rs i [b] s

/-- Bytes that no replacement starts at or takes stay as they are. -/
theorem flatMap_piece_of_untouched {i : Nat} {s : Bytes}
    (h : ∀ r ∈ rs, i + s.length ≤ r.start ∨ r.stop ≤ i ∧ r.start < i) :
    (s.zipIdx i).flatMap (piece rs) = s := by
  have hpiece : ∀ p ∈ s.zipIdx i, piece rs p = [p.1] := by
    intro p hp
    have hle := List.le_snd_of_mem_zipIdx hp
    have hlt := List.snd_lt_of_mem_zipIdx hp
    have hnot : ¬ ∃ r ∈ rs, r.Takes p.2 := by
      rintro ⟨r, hr, hstart, hstop⟩
      have := h r hr
      omega
    rw [piece, if_neg hnot, inserted_eq_nil]
    · rfl
    · intro r hr
      have := h r hr
      omega
  rw [List.flatMap_congr hpiece, ← List.map_eq_flatMap, List.zipIdx_map_fst]

/-- Bytes that a replacement takes go, if none starts there. -/
theorem flatMap_piece_of_taken {i : Nat} {s : Bytes} (hr : r ∈ rs)
    (htake : r.start ≤ i ∧ i + s.length ≤ r.stop)
    (h : ∀ q ∈ rs, q.start < i ∨ i + s.length ≤ q.start) :
    (s.zipIdx i).flatMap (piece rs) = [] := by
  apply List.flatMap_eq_nil_iff.mpr
  intro p hp
  have hle := List.le_snd_of_mem_zipIdx hp
  have hlt := List.snd_lt_of_mem_zipIdx hp
  rw [piece, if_pos ⟨r, hr, by unfold Takes; omega⟩, inserted_eq_nil]
  · rfl
  · intro q hq
    have := h q hq
    omega

/-- Behind the end of a replacement nothing is left of it. -/
theorem substituteFrom_cons_of_stop_le {i : Nat} (hstop : r.stop ≤ i) (hstart : r.start < i)
    (rs : List Replacement) (s : Bytes) :
    substituteFrom (r :: rs) i s = substituteFrom rs i s := by
  have hinserted : ∀ j, i ≤ j → inserted (r :: rs) j = inserted rs j := by
    intro j hj
    rw [inserted_cons, if_neg (by omega), List.nil_append]
  have hpiece : ∀ p ∈ s.zipIdx i, piece (r :: rs) p = piece rs p := by
    intro p hp
    have hle := List.le_snd_of_mem_zipIdx hp
    have hnot : ¬ r.Takes p.2 := by
      unfold Takes
      omega
    simp [piece, hinserted p.2 hle, hnot]
  rw [substituteFrom, List.flatMap_congr hpiece, hinserted _ (by omega)]
  rfl

/-- Where a replacement starts, its text comes, and what it takes goes. -/
theorem substituteFrom_start {taken : Bytes} (hstop : r.stop = r.start + taken.length)
    (h : ∀ q ∈ rs, r.stop ≤ q.start) (t : Bytes) :
    substituteFrom (r :: rs) r.start (taken ++ t) = r.text ++ substituteFrom rs r.stop t := by
  have hinserted : inserted (r :: rs) r.start = r.text ++ inserted rs r.start := by
    rw [inserted_cons, if_pos rfl]
  cases taken with
  | nil =>
      rw [List.length_nil, Nat.add_zero] at hstop
      rw [List.nil_append, hstop]
      cases t with
      | nil => simpa [substituteFrom] using hinserted
      | cons b t =>
          have hnot : ¬ r.Takes r.start := by
            unfold Takes
            omega
          have hpiece : piece (r :: rs) (b, r.start) = r.text ++ piece rs (b, r.start) := by
            simp [piece, hinserted, hnot]
          rw [substituteFrom_cons, hpiece, substituteFrom_cons_of_stop_le (by omega) (by omega),
            substituteFrom_cons, List.append_assoc]
  | cons b taken =>
      rw [List.length_cons] at hstop
      have hpiece : piece (r :: rs) (b, r.start) = r.text := by
        have htaken : ∃ q ∈ r :: rs, q.Takes r.start :=
          ⟨r, List.mem_cons_self, by unfold Takes; omega⟩
        rw [piece, if_pos htaken, hinserted, inserted_eq_nil]
        · simp
        · intro q hq
          have := h q hq
          omega
      have hgone : (taken.zipIdx (r.start + 1)).flatMap (piece (r :: rs)) = [] := by
        refine flatMap_piece_of_taken List.mem_cons_self (by omega) ?_
        intro q hq
        rcases List.mem_cons.mp hq with rfl | hq
        · omega
        · have := h q hq
          omega
      rw [List.cons_append, substituteFrom_cons, hpiece, substituteFrom_append, hgone,
        List.nil_append, Nat.add_assoc, Nat.add_comm 1, ← hstop,
        substituteFrom_cons_of_stop_le (by omega) (by omega)]

/-- Bytes that no replacement takes stay, in order. -/
theorem untaken_sublist (content : Bytes) {p : UInt8 × Nat → Bool}
    (h : ∀ x, p x = true → ∀ r ∈ rs, ¬ r.Takes x.2) :
    ((content.zipIdx.filter p).map (·.1)).Sublist (substitute content rs) := by
  have hflat : (content.zipIdx.filter p).map (·.1) =
      content.zipIdx.flatMap fun x => if p x then [x.1] else [] := by
    induction content.zipIdx with
    | nil => rfl
    | cons x xs ih => by_cases hx : p x <;> simp [hx, ih]
  rw [hflat]
  refine (List.Sublist.flatMap_right _ fun x _ => ?_).trans (List.sublist_append_left _ _)
  split
  · next hx =>
    have hnot : ¬ ∃ r ∈ rs, r.Takes x.2 := by simpa using h x hx
    rw [piece, if_neg hnot]
    exact List.sublist_append_right _ _
  · exact List.nil_sublist _

/-! ### Replacements moved along -/

/-- The replacement in a text that has more bytes in front. -/
def shift (n : Nat) (r : Replacement) : Replacement := ⟨r.start + n, r.stop + n, r.text⟩

theorem inserted_shift (rs : List Replacement) (n i : Nat) :
    inserted (rs.map (shift n)) (i + n) = inserted rs i := by
  simp [inserted, List.filter_map, List.flatMap_map, Function.comp_def, shift]

theorem substituteFrom_shift (rs : List Replacement) (n i : Nat) (s : Bytes) :
    substituteFrom (rs.map (shift n)) (i + n) s = substituteFrom rs i s := by
  induction s generalizing i with
  | nil => simpa [substituteFrom] using inserted_shift rs n i
  | cons b s ih =>
      have htakes : (∃ r ∈ rs.map (shift n), r.Takes (i + n)) ↔ ∃ r ∈ rs, r.Takes i := by
        simp [Takes, shift]
      have hpiece : piece (rs.map (shift n)) (b, i + n) = piece rs (b, i) := by
        simp only [piece, inserted_shift, htakes]
      rw [substituteFrom_cons, substituteFrom_cons, hpiece, ← ih (i + 1), Nat.add_right_comm]

theorem substitute_append (front content : Bytes) (rs : List Replacement) :
    substitute (front ++ content) (rs.map (shift front.length)) =
      front ++ substitute content rs := by
  have huntouched : (front.zipIdx 0).flatMap (piece (rs.map (shift front.length))) = front := by
    refine flatMap_piece_of_untouched fun r hr => .inl ?_
    obtain ⟨q, _, rfl⟩ := List.mem_map.mp hr
    simp [shift]
  rw [substitute, substituteFrom_append, huntouched, substituteFrom_shift, substitute]

/-! ### One after another -/

/-- Replacements inside a text, each of which ends before the next one starts. -/
structure Apart (content : Bytes) (rs : List Replacement) : Prop where
  ordered : ∀ r ∈ rs, r.start ≤ r.stop
  inside : ∀ r ∈ rs, r.stop ≤ content.length
  apart : rs.Pairwise fun r s => r.stop ≤ s.start

theorem Apart.tail {content : Bytes} (h : Apart content (r :: rs)) : Apart content rs :=
  ⟨fun s hs => h.ordered s (List.mem_cons_of_mem r hs),
    fun s hs => h.inside s (List.mem_cons_of_mem r hs), h.apart.of_cons⟩

theorem Apart.sublist {content : Bytes} {qs : List Replacement} (h : Apart content rs)
    (hqs : qs.Sublist rs) : Apart content qs :=
  ⟨fun q hq => h.ordered q (hqs.subset hq), fun q hq => h.inside q (hqs.subset hq),
    h.apart.sublist hqs⟩

theorem drop_eq_take_append_drop (s : Bytes) {i j : Nat} (hij : i ≤ j) :
    s.drop i = (s.drop i).take (j - i) ++ s.drop j := by
  have hdrop : s.drop j = (s.drop i).drop (j - i) := by rw [List.drop_drop, Nat.add_sub_cancel' hij]
  rw [hdrop, List.take_append_drop]

theorem applyFrom_eq {content : Bytes} {offset : Nat} {written : Bytes} (h : Apart content rs)
    (hoffset : ∀ r ∈ rs, offset ≤ r.start) :
    applyFrom content offset rs written =
      written.reverse ++ substituteFrom rs offset (content.drop offset) := by
  induction rs generalizing offset written with
  | nil =>
      rw [applyFrom, substituteFrom, flatMap_piece_of_untouched (by simp)]
      simp [inserted]
  | cons r rs ih =>
      have hle := hoffset r List.mem_cons_self
      have hordered := h.ordered r List.mem_cons_self
      have hinside := h.inside r List.mem_cons_self
      have hnext : ∀ q ∈ rs, r.stop ≤ q.start := fun q hq => List.rel_of_pairwise_cons h.apart hq
      have hlength : ((content.drop offset).take (r.start - offset)).length = r.start - offset := by
        rw [List.length_take, List.length_drop]
        omega
      -- The text splits into what is kept, what the replacement takes, and what comes behind it.
      have hkept : (((content.drop offset).take (r.start - offset)).zipIdx offset).flatMap
          (piece (r :: rs)) = (content.drop offset).take (r.start - offset) := by
        refine flatMap_piece_of_untouched fun q hq => .inl ?_
        rw [hlength]
        rcases List.mem_cons.mp hq with rfl | hq
        · omega
        · have := hnext q hq
          omega
      have htaken : substituteFrom (r :: rs) r.start (content.drop r.start) =
          r.text ++ substituteFrom rs r.stop (content.drop r.stop) := by
        rw [drop_eq_take_append_drop content hordered]
        refine substituteFrom_start ?_ hnext _
        rw [List.length_take, List.length_drop]
        omega
      have hdrop := drop_eq_take_append_drop content hle
      rw [applyFrom, if_neg (by omega), ih h.tail hnext]
      generalize (content.drop offset).take (r.start - offset) = kept at hlength hkept hdrop ⊢
      rw [hdrop, substituteFrom_append, hkept, hlength, Nat.add_sub_cancel' hle, htaken]
      simp

theorem apply_eq_substitute {content : Bytes} (h : Apart content rs) :
    apply content rs = substitute content rs := by
  have hsorted : rs.Pairwise fun r s => decide (r.start ≤ s.start) = true := by
    refine h.apart.imp_of_mem ?_
    intro r s hr _ hapart
    have := h.ordered r hr
    simp only [decide_eq_true_eq]
    omega
  rw [apply, List.mergeSort_of_pairwise hsorted, applyFrom_eq h (by simp), substitute]
  rfl

end UnusedImports.Replacement
