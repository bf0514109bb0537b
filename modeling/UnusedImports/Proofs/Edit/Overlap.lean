import UnusedImports.Proofs.Edit.Substitution

/-! Of replacements that overlap, some take effect and the others are ignored, in whatever order
they are given. -/

namespace UnusedImports.Replacement

variable {content : Bytes} {rs qs sorted : List Replacement} {r s : Replacement} {offset : Nat}

def Inside (content : Bytes) (r : Replacement) : Prop :=
  r.start ≤ r.stop ∧ r.stop ≤ content.length

instance (content : Bytes) (r : Replacement) : Decidable (r.Inside content) :=
  inferInstanceAs (Decidable (r.start ≤ r.stop ∧ r.stop ≤ content.length))

/-- One of two replacements ends before the other one starts, or where it starts. -/
def LiesApart (r s : Replacement) : Prop := r.stop ≤ s.start ∨ s.stop ≤ r.start

instance (r s : Replacement) : Decidable (r.LiesApart s) :=
  inferInstanceAs (Decidable (r.stop ≤ s.start ∨ s.stop ≤ r.start))

/-- A list has the given replacements, ordered by their starts. -/
structure Arranges (rs sorted : List Replacement) : Prop where
  perm : sorted.Perm rs
  ordered : sorted.Pairwise fun r s => r.start ≤ s.start

theorem arranges_mergeSort (rs : List Replacement) :
    Arranges rs (rs.mergeSort fun a b => a.start ≤ b.start) := by
  refine ⟨List.mergeSort_perm _ _, (List.pairwise_mergeSort ?_ ?_ rs).imp ?_⟩
  · intro r s t hrs hst
    simp only [decide_eq_true_eq] at hrs hst ⊢
    omega
  · intro r s
    simp only [Bool.or_eq_true, decide_eq_true_eq]
    omega
  · intro r s hrs
    simpa using hrs

/-! ### Those that take effect -/

/-- The replacements that take effect from an offset on: those that do not start before the end of
the last one that took effect. -/
def effective (offset : Nat) : List Replacement → List Replacement
  | [] => []
  | r :: rs => if r.start < offset then effective offset rs else r :: effective r.stop rs

/-- The replacements that do not take effect from an offset on. -/
def ignored (offset : Nat) : List Replacement → List Replacement
  | [] => []
  | r :: rs => if r.start < offset then r :: ignored offset rs else ignored r.stop rs

theorem applyFrom_effective (content : Bytes) (offset : Nat) (rs : List Replacement)
    (written : Bytes) :
    applyFrom content offset (effective offset rs) written =
      applyFrom content offset rs written := by
  induction rs generalizing offset written with
  | nil => rfl
  | cons r rs ih =>
      by_cases h : r.start < offset
      · rw [effective, if_pos h, applyFrom, if_pos h, ih]
      · rw [effective, if_neg h, applyFrom, applyFrom, if_neg h, if_neg h, ih]

theorem effective_append_ignored_perm (offset : Nat) (rs : List Replacement) :
    (effective offset rs ++ ignored offset rs).Perm rs := by
  induction rs generalizing offset with
  | nil => exact .refl []
  | cons r rs ih =>
      by_cases h : r.start < offset
      · rw [effective, ignored, if_pos h, if_pos h]
        exact List.perm_middle.trans ((ih offset).cons r)
      · rw [effective, ignored, if_neg h, if_neg h]
        exact (ih r.stop).cons r

theorem mem_of_mem_effective (h : r ∈ effective offset rs) : r ∈ rs :=
  (effective_append_ignored_perm offset rs).subset (List.mem_append_left _ h)

theorem le_start_of_mem_effective (hinside : ∀ r ∈ rs, r.start ≤ r.stop)
    (hs : s ∈ effective offset rs) : offset ≤ s.start := by
  induction rs generalizing offset with
  | nil => cases hs
  | cons r rs ih =>
      have hrest := fun q hq => hinside q (List.mem_cons_of_mem r hq)
      rw [effective] at hs
      split at hs
      · exact ih hrest hs
      · next hle =>
        rcases List.mem_cons.mp hs with rfl | hs
        · omega
        · have hstop := ih hrest hs
          have hordered := hinside r List.mem_cons_self
          omega

theorem effective_pairwise (hinside : ∀ r ∈ rs, r.start ≤ r.stop) (offset : Nat) :
    (effective offset rs).Pairwise fun r s => r.stop ≤ s.start := by
  induction rs generalizing offset with
  | nil => exact .nil
  | cons r rs ih =>
      have hrest := fun q hq => hinside q (List.mem_cons_of_mem r hq)
      rw [effective]
      split
      · exact ih hrest offset
      · exact .cons (fun s hs => le_start_of_mem_effective hrest hs) (ih hrest r.stop)

/-- What is ignored starts before the offset or inside a replacement that takes effect. -/
theorem starts_inside_of_mem_ignored (hordered : rs.Pairwise fun r s => r.start ≤ s.start)
    (hs : s ∈ ignored offset rs) :
    s.start < offset ∨ ∃ k ∈ effective offset rs, k.start ≤ s.start ∧ s.start < k.stop := by
  induction rs generalizing offset with
  | nil => cases hs
  | cons r rs ih =>
      rw [effective]
      rw [ignored] at hs
      split at hs
      · next hlt =>
        rw [if_pos hlt]
        rcases List.mem_cons.mp hs with rfl | hs
        · exact .inl hlt
        · exact ih hordered.of_cons hs
      · next hle =>
        rw [if_neg hle]
        have hstart : r.start ≤ s.start := by
          refine List.rel_of_pairwise_cons hordered ?_
          exact (effective_append_ignored_perm r.stop rs).subset (List.mem_append_right _ hs)
        -- behind `r` the bound is the end of `r`, which takes effect
        rcases ih hordered.of_cons hs with hlt | ⟨k, hk, htakes⟩
        · exact .inr ⟨r, List.mem_cons_self, hstart, hlt⟩
        · exact .inr ⟨k, List.mem_cons_of_mem r hk, htakes⟩

theorem apart_effective (hinside : ∀ r ∈ rs, r.Inside content) (offset : Nat) :
    Apart content (effective offset rs) :=
  ⟨fun r hr => (hinside r (mem_of_mem_effective hr)).1,
    fun r hr => (hinside r (mem_of_mem_effective hr)).2,
    effective_pairwise (fun r hr => (hinside r hr).1) offset⟩

theorem applyFrom_eq_substitute (hinside : ∀ r ∈ rs, r.Inside content) :
    applyFrom content 0 rs [] = substitute content (effective 0 rs) := by
  rw [← applyFrom_effective, applyFrom_eq (apart_effective hinside 0) (by simp), substitute]
  rfl

/-! ### Those that lie apart -/

/-- At an offset where at most one replacement starts, the order of the list does not count. -/
theorem inserted_perm (hperm : rs.Perm qs) (hstarts : rs.Pairwise fun r s => r.start ≠ s.start)
    (i : Nat) : inserted rs i = inserted qs i := by
  induction hperm with
  | nil => rfl
  | cons r _ ih => rw [inserted_cons, inserted_cons, ih hstarts.of_cons]
  | swap r s rs =>
      have hne : s.start ≠ r.start := List.rel_of_pairwise_cons hstarts List.mem_cons_self
      simp only [inserted_cons]
      by_cases hr : r.start = i
      · have hs : s.start ≠ i := fun h => hne (h.trans hr.symm)
        simp [hr, hs]
      · simp [hr]
  | trans hfirst _ ih ih' =>
      exact (ih hstarts).trans (ih' ((hfirst.pairwise_iff Ne.symm).mp hstarts))

theorem substitute_perm (hperm : rs.Perm qs) (hstarts : rs.Pairwise fun r s => r.start ≠ s.start)
    (content : Bytes) : substitute content rs = substitute content qs := by
  have hpiece : piece rs = piece qs := by
    funext p
    simp only [piece, inserted_perm hperm hstarts, hperm.mem_iff]
  rw [substitute, substitute, substituteFrom, substituteFrom, hpiece,
    inserted_perm hperm hstarts]

/-- Replacements that lie apart and start at different offsets lie one behind the other if they are
ordered by their starts. -/
theorem Arranges.apart (h : Arranges rs sorted) (hinside : ∀ r ∈ rs, r.Inside content)
    (hstarts : rs.Pairwise fun r s => r.start ≠ s.start) (hapart : rs.Pairwise LiesApart) :
    Apart content sorted := by
  have hmem := fun r (hr : r ∈ sorted) => hinside r (h.perm.subset hr)
  refine ⟨fun r hr => (hmem r hr).1, fun r hr => (hmem r hr).2, ?_⟩
  have hdiffer := (h.perm.pairwise_iff Ne.symm).mpr hstarts
  have hlies := (h.perm.pairwise_iff Or.symm).mpr hapart
  refine ((h.ordered.and hdiffer).and hlies).imp_of_mem ?_
  rintro r s _ hs ⟨⟨hle, hne⟩, hstop | hstop⟩
  · exact hstop
  · have := (hmem s hs).1
    omega

theorem apply_eq_substitute_of_liesApart (hinside : ∀ r ∈ rs, r.Inside content)
    (hstarts : rs.Pairwise fun r s => r.start ≠ s.start) (hapart : rs.Pairwise LiesApart)
    (hperm : qs.Perm rs) : apply content qs = substitute content rs := by
  have harranges : Arranges rs (qs.mergeSort fun a b => a.start ≤ b.start) :=
    ⟨(arranges_mergeSort qs).perm.trans hperm, (arranges_mergeSort qs).ordered⟩
  have hsorted := harranges.apart hinside hstarts hapart
  calc apply content qs
      = substitute content (qs.mergeSort fun a b => a.start ≤ b.start) := by
        rw [apply, applyFrom_eq hsorted (by simp), substitute]
        rfl
    _ = substitute content rs := (substitute_perm harranges.perm.symm hstarts content).symm

/-- Replacements of stretches of a text that lie apart and start at different offsets are made at
once, whatever their order. In general the replacements are carried out in the order of their
starts. In every such order those that take effect are made at once, they lie apart, and each of the
others starts inside one that takes effect. -/
theorem apply_simultaneous (hinside : ∀ r ∈ rs, r.Inside content) :
    (rs.Pairwise (fun r s => r.start ≠ s.start) → rs.Pairwise LiesApart →
      ∀ qs, qs.Perm rs → apply content qs = substitute content rs) ∧
    (∃ sorted, Arranges rs sorted ∧ apply content rs = applyFrom content 0 sorted []) ∧
    ∀ sorted, Arranges rs sorted →
      applyFrom content 0 sorted [] = substitute content (effective 0 sorted) ∧
      (effective 0 sorted ++ ignored 0 sorted).Perm rs ∧
      (effective 0 sorted).Pairwise LiesApart ∧
      ∀ e ∈ ignored 0 sorted, ∃ k ∈ effective 0 sorted, k.start ≤ e.start ∧ e.start < k.stop := by
  refine ⟨fun hstarts hapart qs => apply_eq_substitute_of_liesApart hinside hstarts hapart,
    ⟨_, arranges_mergeSort rs, rfl⟩, ?_⟩
  intro sorted harranges
  have hmem := fun r (hr : r ∈ sorted) => hinside r (harranges.perm.subset hr)
  refine ⟨applyFrom_eq_substitute hmem, ?_, ?_, ?_⟩
  · exact (effective_append_ignored_perm 0 sorted).trans harranges.perm
  · exact (effective_pairwise (fun r hr => (hmem r hr).1) 0).imp .inl
  · intro e he
    exact (starts_inside_of_mem_ignored harranges.ordered he).resolve_left (Nat.not_lt_zero _)

/-- Replacements that touch: the second one, an insertion, at the end of the third. -/
def touching : List Replacement :=
  [⟨4, 6, utf8 "x"⟩, ⟨2, 2, utf8 "y"⟩, ⟨0, 2, utf8 "z"⟩]

/-- Replacements of which the first one covers the second, and the third follows at its end. -/
def nested : List Replacement :=
  [⟨1, 4, utf8 "x"⟩, ⟨2, 3, utf8 "y"⟩, ⟨4, 5, []⟩]

theorem apply_simultaneous_touching_nested :
    (∀ r ∈ touching, r.Inside (utf8 "abcdef")) ∧
      touching.Pairwise (fun r s => r.start ≠ s.start) ∧ touching.Pairwise LiesApart ∧
      apply (utf8 "abcdef") touching.reverse = utf8 "zycdx" ∧
      (∀ r ∈ nested, r.Inside (utf8 "abcdef")) ∧ Arranges nested nested ∧
      applyFrom (utf8 "abcdef") 0 nested [] = utf8 "axf" ∧
      ∃ k ∈ effective 0 nested, k.start ≤ 2 ∧ 2 < k.stop := by
  have hinside : ∀ r ∈ touching, r.Inside (utf8 "abcdef") := by decide +kernel
  have hstarts : touching.Pairwise fun r s => r.start ≠ s.start := by decide
  have hapart : touching.Pairwise LiesApart := by decide
  have hinside' : ∀ r ∈ nested, r.Inside (utf8 "abcdef") := by decide +kernel
  have harranges : Arranges nested nested := ⟨.refl _, by decide⟩
  have hany := (apply_simultaneous hinside).1 hstarts hapart touching.reverse
    (List.reverse_perm touching)
  obtain ⟨heffective, _, _, hignored⟩ := (apply_simultaneous hinside').2.2 nested harranges
  refine ⟨hinside, hstarts, hapart, hany.trans (by decide +kernel), hinside', harranges,
    heffective.trans (by decide +kernel), ?_⟩
  exact hignored ⟨2, 3, utf8 "y"⟩ (by decide +kernel)

end UnusedImports.Replacement
